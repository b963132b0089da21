import ExperimentalKernel.ByteMemory
import Mathlib.Data.BitVec
import Mathlib.Logic.Function.Basic

/-!
# Paging

`paging_management.cpp` and the part of `memory_management.cpp` it calls. Page
entries are keyed by the address of the `Page` object and directories by their
pointer; physical memory is bytes. What the heap answers to a `kmalloc` is an
argument of the functions that call it. A `for(;;)` is `none`.
-/

namespace ExperimentalKernel.Paging
open ByteMemory Function

/-- The bit fields of a `Page`. -/
structure Page where
  present : Bool
  rw : Bool
  user : Bool
  accessed : Bool
  dirty : Bool
  unused : BitVec 7
  frame : BitVec 20
  deriving DecidableEq

/-- A `Page` filled with zero bytes. -/
def Page.zero : Page := ⟨false, false, false, false, false, 0, 0⟩

/-- Also the number of bytes of a `PageTable`: 1024 entries of four bytes. -/
def pageSize : ℕ := 0x1000

structure PageDirectory where
  pageTablesPhysical : ℕ → BitVec 32
  pageTables : ℕ → ℕ
  physicalAddress : ℕ

def PageDirectory.zero : PageDirectory := ⟨fun _ => 0, fun _ => 0, 0⟩

/-- `sizeof(PageDirectory)`. -/
def directorySize : ℕ := 8196

/-- The `PagingManagement` object and what it works on. `paging` is the bit of
`cr0`, `heapEnabled` the flag of the kernel heap. -/
structure State where
  frames : ℕ → BitVec 32
  frameNumber : ℕ
  pageDirectory : ℕ
  currentPageDirectory : ℕ
  directories : ℕ → PageDirectory
  pages : ℕ → Page
  paging : Bool
  heapEnabled : Bool
  memory : Mem

def State.setPage (s : State) (p : ℕ) (e : Page) : State := { s with pages := update s.pages p e }

def State.setDirectory (s : State) (d : ℕ) (e : PageDirectory) : State :=
  { s with directories := update s.directories d e }

@[simp] theorem State.setDirectory_same (s : State) (d : ℕ) (e : PageDirectory) :
    (s.setDirectory d e).directories d = e := by
  simp [State.setDirectory]

theorem State.setDirectory_of_ne (s : State) (e : PageDirectory) {d x : ℕ} (h : x ≠ d) :
    (s.setDirectory d e).directories x = s.directories x := by
  simp [State.setDirectory, update_of_ne h]

/-- `pageTables[i] = table` and `pageTablesPhysical[i] = phys | 0x7`. -/
def State.setTable (s : State) (directory i table phys : ℕ) : State :=
  s.setDirectory directory { s.directories directory with
    pageTables := update (s.directories directory).pageTables i table
    pageTablesPhysical := update (s.directories directory).pageTablesPhysical i
      (BitVec.ofNat 32 phys ||| 7#32) }

@[simp] theorem State.setTable_current (s : State) (directory i table phys : ℕ) :
    (s.setTable directory i table phys).currentPageDirectory = s.currentPageDirectory := by
  rw [State.setTable, State.setDirectory]

/-- `memset(table, 0, sizeof(PageTable))`. -/
def State.clearTable (s : State) (table : ℕ) : State :=
  { s with pages := fun p => if table ≤ p ∧ p < table + pageSize then Page.zero else s.pages p }

/-- `Bitset::set`. -/
def bitsetSet (w : BitVec 32) (offset : ℕ) : BitVec 32 := w ||| (1#32 <<< offset)

/-- The inner loop of `getFreeFrame`: the first clear one of the `k` bits from `j` on. -/
def firstClear (w : BitVec 32) (j : ℕ) : ℕ → Option ℕ
  | 0 => none
  | k + 1 => if w &&& (1#32 <<< j) = 0 then some j else firstClear w (j + 1) k

def freeFrameFrom (frames : ℕ → BitVec 32) (i : ℕ) : ℕ → Option ℕ
  | 0 => none
  | k + 1 =>
    if frames i ≠ 0xFFFFFFFF then
      match firstClear (frames i) 0 32 with
      | some j => some (i * 32 + j)
      | none => freeFrameFrom frames (i + 1) k
    else freeFrameFrom frames (i + 1) k

/-- The outer loop runs over `frameNumber_` words; `none` is the return value -1. -/
def getFreeFrame (s : State) : Option ℕ := freeFrameFrom s.frames 0 s.frameNumber

def allocFrame (s : State) (page : ℕ) (isKernel isWriteable : Bool) : Bool × State :=
  let e := s.pages page
  if e.frame = 0 then
    match getFreeFrame s with
    | none => (false, s)
    | some index =>
      let i := index / 32
      let s₁ := { s with frames := update s.frames i (bitsetSet (s.frames i) (index % 32)) }
      (true, s₁.setPage page { e with
        present := true, rw := isWriteable, user := !isKernel, frame := BitVec.ofNat 20 index })
  else (true, s)

def freeFrame (s : State) (page : ℕ) : State :=
  let e := s.pages page
  if e.frame ≠ 0 then s.setPage page { e with frame := 0 } else s

/-- The copying loop of `copy_page_physical`, `k` words from the two addresses on. -/
def copyWords (m : Mem) (src dest : ℕ) : ℕ → Mem
  | 0 => m
  | k + 1 => copyWords (write32 m dest (read32 m src)) (src + 4) (dest + 4) k

def copyPagePhysical (m : Mem) (src dest : ℕ) : Mem := copyWords m src dest 1024

/-- One turn of the loop of `clonePageTable`; `alloc` is its call of `allocFrame`. -/
def cloneEntryWith (alloc : State → ℕ → State) (s : State) (src pTbl i : ℕ) : State :=
  if (s.pages (src + 4 * i)).frame = 0 then s
  else
    let s₁ := alloc s (pTbl + 4 * i)
    let e := s₁.pages (src + 4 * i)
    let f := (s₁.pages (pTbl + 4 * i)).frame
    { s₁.setPage (pTbl + 4 * i) { e with frame := f } with
      memory := copyPagePhysical s₁.memory (e.frame.toNat * pageSize) (f.toNat * pageSize) }

/-- `k` turns from entry `i` on. -/
def cloneEntriesWith (alloc : State → ℕ → State) (s : State) (src pTbl i : ℕ) : ℕ → State
  | 0 => s
  | k + 1 => cloneEntriesWith alloc (cloneEntryWith alloc s src pTbl i) src pTbl (i + 1) k

/-- `clonePageTable` after its `kmalloc`, which returned `pTbl`. -/
def clonePageTableWith (alloc : State → ℕ → State) (s : State) (src pTbl : ℕ) : State :=
  cloneEntriesWith alloc (s.clearTable pTbl) src pTbl 0 1024

/-- The call of `allocFrame` in `clonePageTable`. -/
def allocUser (s : State) (page : ℕ) : State := (allocFrame s page false true).2

def cloneEntry (s : State) (src pTbl i : ℕ) : State := cloneEntryWith allocUser s src pTbl i

def cloneEntries (s : State) (src pTbl i k : ℕ) : State := cloneEntriesWith allocUser s src pTbl i k

def clonePageTable (s : State) (src pTbl : ℕ) : State := clonePageTableWith allocUser s src pTbl

/-- Both functions that take a directory use the current one for null. -/
def orCurrent (s : State) (directory : ℕ) : ℕ :=
  if directory = 0 then s.currentPageDirectory else directory

def PageDirectory.orPresent (d : PageDirectory) (i : ℕ) : PageDirectory :=
  { d with pageTablesPhysical := update d.pageTablesPhysical i (d.pageTablesPhysical i ||| 7#32) }

/-- `getPage(physAddress, false, directory)`: the address of the `Page` object. -/
def findPage (s : State) (physAddress directory : ℕ) : Option (ℕ × State) :=
  let directory := orCurrent s directory
  let d := s.directories directory
  let n := physAddress / 0x1000
  if d.pageTables (n / 1024) ≠ 0 then
    some (d.pageTables (n / 1024) + 4 * (n % 1024),
      s.setDirectory directory (d.orPresent (n / 1024)))
  else none

/-- The physical address that `kmalloc` stores for the region `ptr` it returns. -/
def kmalloc (s : State) (ptr : ℕ) : Option (ℕ × State) :=
  if s.heapEnabled then
    (findPage s ptr 0).map fun (page, s₁) =>
      ((s₁.pages page).frame.toNat * pageSize + ptr % 0x1000, s₁)
  else some (ptr, s)

/-- `getPage`; `ptr` is what `kmalloc` returns if a table has to be made. -/
def getPage (s : State) (physAddress : ℕ) (makePageTable : Bool) (directory ptr : ℕ) :
    Option (ℕ × State) :=
  match findPage s physAddress directory with
  | some r => some r
  | none =>
    if makePageTable then
      let directory := orCurrent s directory
      let n := physAddress / 0x1000
      (kmalloc s ptr).map fun (tmp, s₁) =>
        (ptr + 4 * (n % 1024), (s₁.setTable directory (n / 1024) ptr tmp).clearTable ptr)
    else none

/-- One turn of the loop of `clonePageDirectory`; `ptrs` is what the next calls of
`kmalloc` return. -/
def cloneSlotWith (alloc : State → ℕ → State) (s : State) (src pDir i : ℕ) (ptrs : List ℕ) :
    Option (State × List ℕ) :=
  let table := (s.directories src).pageTables i
  if table = 0 then some (s, ptrs)
  else if table = (s.directories s.pageDirectory).pageTables i then
    let d := s.directories pDir
    some (s.setDirectory pDir { d with
      pageTables := update d.pageTables i table
      pageTablesPhysical := update d.pageTablesPhysical i
        ((s.directories src).pageTablesPhysical i) }, ptrs)
  else
    match ptrs with
    | [] => none
    | ptr :: ptrs =>
      let s₁ := s.setDirectory src ((s.directories src).orPresent i)
      (kmalloc s₁ ptr).map fun (phys, s₂) =>
        ((clonePageTableWith alloc s₂ table ptr).setTable pDir i ptr phys, ptrs)

def cloneSlotsWith (alloc : State → ℕ → State) (s : State) (src pDir i : ℕ) (ptrs : List ℕ) :
    ℕ → Option (State × List ℕ)
  | 0 => some (s, ptrs)
  | k + 1 => (cloneSlotWith alloc s src pDir i ptrs).bind fun (s₁, ptrs₁) =>
    cloneSlotsWith alloc s₁ src pDir (i + 1) ptrs₁ k

/-- The state after `clonePageDirectory`, which returns the first of `ptrs`. -/
def clonePageDirectoryWith (alloc : State → ℕ → State) (s : State) (src : ℕ) (ptrs : List ℕ) :
    Option State :=
  match ptrs with
  | [] => none
  | pDir :: ptrs =>
    let src := orCurrent s src
    (kmalloc s pDir).bind fun (phys, s₁) =>
      let s₂ := s₁.setDirectory pDir { PageDirectory.zero with physicalAddress := phys }
      (cloneSlotsWith alloc s₂ src pDir 0 ptrs 1024).map Prod.fst

def cloneSlot (s : State) (src pDir i : ℕ) (ptrs : List ℕ) : Option (State × List ℕ) :=
  cloneSlotWith allocUser s src pDir i ptrs

def cloneSlots (s : State) (src pDir i : ℕ) (ptrs : List ℕ) (k : ℕ) : Option (State × List ℕ) :=
  cloneSlotsWith allocUser s src pDir i ptrs k

def clonePageDirectory (s : State) (src : ℕ) (ptrs : List ℕ) : Option State :=
  clonePageDirectoryWith allocUser s src ptrs

section Cloning

variable (s : State) (src pTbl pDir i k : ℕ) (ptrs : List ℕ)

theorem cloneEntries_succ : cloneEntries s src pTbl i (k + 1) =
    cloneEntries (cloneEntry s src pTbl i) src pTbl (i + 1) k := rfl

theorem clonePageTable_eq :
    clonePageTable s src pTbl = cloneEntries (s.clearTable pTbl) src pTbl 0 1024 := rfl

theorem cloneSlots_succ : cloneSlots s src pDir i ptrs (k + 1) =
    (cloneSlot s src pDir i ptrs).bind fun r => cloneSlots r.1 src pDir (i + 1) r.2 k := rfl

theorem clonePageDirectory_eq {s : State} {phys pDir : ℕ} {s₁ : State}
    (h : kmalloc s pDir = some (phys, s₁)) (src : ℕ) (ptrs : List ℕ) :
    clonePageDirectory s src (pDir :: ptrs) =
      (cloneSlots (s₁.setDirectory pDir { PageDirectory.zero with physicalAddress := phys })
        (orCurrent s src) pDir 0 ptrs 1024).map Prod.fst := by
  rw [clonePageDirectory, clonePageDirectoryWith, h]
  rfl

end Cloning

/-- `switchPaging` loads `cr3` and sets the paging bit. -/
def switchPaging (s : State) (directory : ℕ) : State :=
  { s with currentPageDirectory := directory, paging := true }

end ExperimentalKernel.Paging
