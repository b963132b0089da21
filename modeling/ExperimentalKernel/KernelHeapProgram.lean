import ExperimentalKernel.PointerArray

/-!
# The kernel heap

`kernel_heap.cpp` over byte-addressed memory. A `Header` is 12 bytes (magic at 0,
the flag byte at 4, the size at 8), a `Footer` 8 bytes (magic at 0, the address
of the header at 4). A loop that never ends (`for(;;)`) is `none`.
-/

namespace ExperimentalKernel.Heap
open ByteMemory PointerArray

def start : ℕ := 0xC0000000

def initialSize : ℕ := 0x02000000

def indexSize : ℕ := 0x20000

def heapMagic : ℕ := 0x123890AB

def pageSize : ℕ := 0x1000

def headerMagic (m : Mem) (a : ℕ) : ℕ := read32 m a

def headerIsHole (m : Mem) (a : ℕ) : Bool := m (a + 4) != 0

def headerSize (m : Mem) (a : ℕ) : ℕ := read32 m (a + 8)

def footerMagic (m : Mem) (a : ℕ) : ℕ := read32 m a

def footerHeader (m : Mem) (a : ℕ) : ℕ := read32 m (a + 4)

def writeHeader (m : Mem) (a : ℕ) (isHole : Bool) (size : ℕ) : Mem :=
  write32 (write8 (write32 m a heapMagic) (a + 4) (if isHole then 1 else 0)) (a + 8) size

def writeFooter (m : Mem) (a header : ℕ) : Mem := write32 (write32 m a heapMagic) (a + 4) header

/-- The fields of the `KernelHeap` object. -/
structure KernelHeap where
  index : PtrArray
  startAddress : ℕ
  endAddress : ℕ
  maxAddress : ℕ
  supervisor : Bool
  readOnly : Bool
  enabled : Bool
  deriving DecidableEq

structure State where
  heap : KernelHeap
  mem : Mem

/-- The condition `startAddress_ & 0xFFFFF000 != 0` of the source parses as
`startAddress_ & (0xFFFFF000 != 0)`, so only the lowest bit is tested. -/
def roundStart (a : ℕ) : ℕ :=
  if a &&& 1 ≠ 0 then add32 (a &&& 0xFFFFF000) 0x1000 else a

def init (m : Mem) (startAddress endAddress maxAddress : ℕ) (supervisor readOnly : Bool) :
    Option State :=
  let (index, m₁) := construct m startAddress indexSize
  if startAddress % pageSize ≠ 0 ∨ endAddress % pageSize ≠ 0 then none
  else
    let hole := roundStart (add32 startAddress (4 * indexSize))
    let m₂ := write32 m₁ (hole + 8) (sub32 endAddress hole)
    let m₃ := write8 (write32 m₂ hole heapMagic) (hole + 4) 1
    let (index', m₄) := orderedAdd index m₃ hole
    some ⟨⟨index', hole, endAddress, maxAddress, supervisor, readOnly, true⟩, m₄⟩

/-- The test `findSmallestHole` makes at one entry. With alignment the difference
is stored in an `int` but compared with an `unsigned int`. -/
def holeFits (m : Mem) (size : ℕ) (pageAlign : Bool) (header : ℕ) : Bool :=
  headerIsHole m header &&
    if pageAlign then
      let location := add32 header 12
      let offset := if location % pageSize ≠ 0 then pageSize - location % pageSize else 0
      !decide (sub32 (headerSize m header) offset < size)
    else decide (size ≤ headerSize m header)

def findFrom (index : PtrArray) (m : Mem) (size : ℕ) (pageAlign : Bool) (i : ℕ) : ℕ → Option ℕ
  | 0 => none
  | k + 1 =>
    if holeFits m size pageAlign (subscript index m i) then some i
    else findFrom index m size pageAlign (i + 1) k

/-- `none` is the return value -1. -/
def findSmallestHole (s : State) (size : ℕ) (pageAlign : Bool) : Option ℕ :=
  findFrom s.heap.index s.mem size pageAlign 0 s.heap.index.size

/-- A remainder too small for a header and a footer is added to the request:
the pair is `(size, sizeToAlloc)`. -/
def absorb (size sizeToAlloc holeSize : ℕ) : ℕ × ℕ :=
  if sub32 holeSize sizeToAlloc < 20 then (add32 size (sub32 holeSize sizeToAlloc), holeSize)
  else (size, sizeToAlloc)

/-- The hole in front of a page-aligned block: new memory, new `holeAddr` and new
`holeSize`. The size of the front hole is read back after its footer is written. -/
def splitFront (m : Mem) (holeAddr holeSize : ℕ) : Mem × ℕ × ℕ :=
  let newLocation := sub32 (sub32 (add32 holeAddr pageSize) (holeAddr % pageSize)) 12
  let m₁ := write32 m (holeAddr + 8) (sub32 (pageSize - holeAddr % pageSize) 12)
  let m₂ := write8 (write32 m₁ holeAddr heapMagic) (holeAddr + 4) 1
  let m₃ := writeFooter m₂ (sub32 newLocation 8) holeAddr
  (m₃, newLocation, sub32 holeSize (headerSize m₃ holeAddr))

/-- The block at `holeAddr` and, if anything is left of the hole, a new hole after it. -/
def placeBlock (h : KernelHeap) (m : Mem) (holeAddr holeSize size sizeToAlloc : ℕ) : State :=
  let m₁ := writeHeader m holeAddr false sizeToAlloc
  let m₂ := writeFooter m₁ (add32 (add32 holeAddr 12) size) holeAddr
  if 0 < sub32 holeSize sizeToAlloc then
    let hole := add32 (add32 (add32 holeAddr 12) size) 8
    let m₃ := writeHeader m₂ hole true (sub32 holeSize sizeToAlloc)
    let footer := sub32 (add32 hole (headerSize m₃ hole)) 8
    let m₄ := if footer < h.endAddress then writeFooter m₃ footer hole else m₃
    let (index, m₅) := orderedAdd h.index m₄ hole
    ⟨{ h with index := index }, m₅⟩
  else ⟨h, m₂⟩

def allocate (s : State) (size : ℕ) (pageAlign : Bool) : ℕ × State :=
  let sizeToAlloc := add32 size 20
  match findSmallestHole s sizeToAlloc pageAlign with
  | none => (0, s)
  | some i =>
    let holeAddr := subscript s.heap.index s.mem i
    let holeSize := headerSize s.mem holeAddr
    let (size, sizeToAlloc) := absorb size sizeToAlloc holeSize
    if pageAlign ∧ add32 holeAddr 12 % pageSize ≠ 0 then
      let (m, holeAddr, holeSize) := splitFront s.mem holeAddr holeSize
      (add32 holeAddr 12, placeBlock s.heap m holeAddr holeSize size sizeToAlloc)
    else
      let (index, m) := erase s.heap.index s.mem i
      (add32 holeAddr 12,
        placeBlock { s.heap with index := index } m holeAddr holeSize size sizeToAlloc)

/-- The linear search `while (i < index_.size_ && index_[i] != item) i++`. -/
def searchFrom (index : PtrArray) (m : Mem) (item i : ℕ) : ℕ → ℕ
  | 0 => i
  | k + 1 => if subscript index m i ≠ item then searchFrom index m item (i + 1) k else i

def search (index : PtrArray) (m : Mem) (item : ℕ) : ℕ := searchFrom index m item 0 index.size

/-- The merge with the left neighbour: the header from now on, whether the hole
still has to be added to the index, and the memory. -/
def mergeLeft (m : Mem) (header footer : ℕ) : ℕ × Bool × Mem :=
  let testFooter := sub32 header 8
  if footerMagic m testFooter = heapMagic ∧ headerIsHole m (footerHeader m testFooter) = true then
    let cacheSize := headerSize m header
    let header' := footerHeader m testFooter
    let m₁ := write32 m (footer + 4) header'
    (header', false, write32 m₁ (header' + 8) (add32 (headerSize m₁ header') cacheSize))
  else (header, true, m)

/-- The merge with the right neighbour. The footer of the merged hole, which
still names `testHeader`, is not written. -/
def mergeRight (h : KernelHeap) (m : Mem) (header testHeader : ℕ) : Option State :=
  if headerMagic m testHeader = heapMagic ∧ headerIsHole m testHeader = true then
    let m₁ := write32 m (header + 8) (add32 (headerSize m header) (headerSize m testHeader))
    let i := search h.index m₁ testHeader
    if h.index.size ≤ i then none
    else
      let (index, m₂) := erase h.index m₁ i
      some ⟨{ h with index := index }, m₂⟩
  else some ⟨h, m⟩

/-- The second removal of `testHeader` from the index, made whether or not the
right neighbour was merged. -/
def dropEntry (s : State) (testHeader : ℕ) : State :=
  let i := search s.heap.index s.mem testHeader
  if i < s.heap.index.size then
    let (index, m) := erase s.heap.index s.mem i
    ⟨{ s.heap with index := index }, m⟩
  else s

def addEntry (s : State) (header : ℕ) : State :=
  let (index, m) := orderedAdd s.heap.index s.mem header
  ⟨{ s.heap with index := index }, m⟩

def free (s : State) (ptr : ℕ) : Option State :=
  if ptr = 0 then some s
  else
    let header := sub32 ptr 12
    let footer := sub32 (add32 header (headerSize s.mem header)) 8
    if headerMagic s.mem header ≠ heapMagic then none
    else if footerMagic s.mem footer ≠ heapMagic then none
    else
      let m₁ := write8 s.mem (header + 4) 1
      let (header', addHole, m₂) := mergeLeft m₁ header footer
      let testHeader := add32 footer 8
      (mergeRight s.heap m₂ header' testHeader).map fun s₁ =>
        let s₂ := dropEntry s₁ testHeader
        if addHole then addEntry s₂ header' else s₂

end ExperimentalKernel.Heap
