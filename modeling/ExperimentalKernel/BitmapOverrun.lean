import ExperimentalKernel.DirectoryCloning

/-!
# Behind the bitmap

The search of `getFreeFrame` goes through `frameNumber_` words, and `frames_` has one for
every 32 frames. The others are words of what lies behind: of directories, of pages, or of
the gap in front of an aligned object. Their clear bits are found and set like those of the
bitmap. As long as the bitmap has a clear bit of its own nothing behind it matters.
-/

namespace ExperimentalKernel.Paging
open ByteMemory Function

/-- The four bytes of a `Page`; the first bit field is the lowest. -/
def Page.word (e : Page) : BitVec 32 :=
  e.frame ++ e.unused ++ BitVec.ofBool e.dirty ++ BitVec.ofBool e.accessed ++ BitVec.ofBool e.user ++
    BitVec.ofBool e.rw ++ BitVec.ofBool e.present

def Page.ofWord (w : BitVec 32) : Page where
  present := w.getLsbD 0
  rw := w.getLsbD 1
  user := w.getLsbD 2
  accessed := w.getLsbD 3
  dirty := w.getLsbD 4
  unused := w.extractLsb' 5 7
  frame := w.extractLsb' 12 20

/-- The words of a directory: `pageTablesPhysical`, `pageTables`, `physicalAddress`. -/
def PageDirectory.word (d : PageDirectory) (j : ℕ) : BitVec 32 :=
  if j < 1024 then d.pageTablesPhysical j
  else if j < 2048 then BitVec.ofNat 32 (d.pageTables (j - 1024))
  else BitVec.ofNat 32 d.physicalAddress

def PageDirectory.setWord (d : PageDirectory) (j : ℕ) (w : BitVec 32) : PageDirectory :=
  if j < 1024 then { d with pageTablesPhysical := update d.pageTablesPhysical j w }
  else if j < 2048 then { d with pageTables := update d.pageTables (j - 1024) w.toNat }
  else { d with physicalAddress := w.toNat }

/-- `frames_`, and the directories that may lie behind what was allocated for it. -/
structure Bitmap where
  address : ℕ
  directories : List ℕ

namespace Bitmap

/-- The directory that has the byte at `x`. -/
def owner (b : Bitmap) (x : ℕ) : Option ℕ := b.directories.find? fun d => d ≤ x ∧ x < d + directorySize

/-- The word at `x`; one that is in no directory is kept as a page is. -/
def objectWord (b : Bitmap) (s : State) (x : ℕ) : BitVec 32 :=
  match b.owner x with
  | some d => (s.directories d).word ((x - d) / 4)
  | none => (s.pages x).word

def setObjectWord (b : Bitmap) (s : State) (x : ℕ) (w : BitVec 32) : State :=
  match b.owner x with
  | some d => s.setDirectory d ((s.directories d).setWord ((x - d) / 4) w)
  | none => s.setPage x (Page.ofWord w)

/-- `frames_[i].getBitset()`. Behind the bitmap these are bytes of two words, unless
`frames_` is aligned. -/
def word (b : Bitmap) (s : State) (i : ℕ) : BitVec 32 :=
  if i < s.frameNumber / 32 then s.frames i
  else
    let x := b.address + 4 * i
    (b.objectWord s (x / 4 * 4) >>> (8 * (x % 4))) |||
      (b.objectWord s (x / 4 * 4 + 4) <<< (32 - 8 * (x % 4)))

/-- `frames_[index / 32].set(index % 32)`. Of the four bytes one changes, the one with the bit. -/
def set (b : Bitmap) (s : State) (index : ℕ) : State :=
  if index / 32 < s.frameNumber / 32 then
    { s with frames := update s.frames (index / 32) (bitsetSet (s.frames (index / 32)) (index % 32)) }
  else
    let x := b.address + index / 8
    b.setObjectWord s (x / 4 * 4) (bitsetSet (b.objectWord s (x / 4 * 4)) (8 * (x % 4) + index % 8))

def getFreeFrame (b : Bitmap) (s : State) : Option ℕ := freeFrameFrom (b.word s) 0 s.frameNumber

def allocFrame (b : Bitmap) (s : State) (page : ℕ) (isKernel isWriteable : Bool) : Bool × State :=
  if (s.pages page).frame = 0 then
    match b.getFreeFrame s with
    | none => (false, s)
    | some index =>
      let s₁ := b.set s index
      (true, s₁.setPage page { s₁.pages page with
        present := true, rw := isWriteable, user := !isKernel, frame := BitVec.ofNat 20 index })
  else (true, s)

def allocUser (b : Bitmap) (s : State) (page : ℕ) : State := (b.allocFrame s page false true).2

def clonePageTable (b : Bitmap) (s : State) (src pTbl : ℕ) : State :=
  clonePageTableWith b.allocUser s src pTbl

def clonePageDirectory (b : Bitmap) (s : State) (src : ℕ) (ptrs : List ℕ) : Option State :=
  clonePageDirectoryWith b.allocUser s src ptrs

end Bitmap

section Searches

variable {s s' : State} {b : Bitmap} {src pDir pTbl i k : ℕ} {ptrs : List ℕ}

/-- The search finds the least clear bit. -/
theorem freeFrameFrom_eq_some {frames : ℕ → BitVec 32} {num n : ℕ} (hn : n < num * 32)
    (hfree : busy frames n = false) (hbusy : ∀ b < n, busy frames b = true) :
    freeFrameFrom frames 0 num = some n := by
  cases hfind : freeFrameFrom frames 0 num with
  | none =>
    have hset := freeFrameFrom_none hfind n (Nat.zero_le _) (by omega)
    rw [hfree] at hset
    cases hset
  | some m =>
    obtain ⟨-, hm, hbelow⟩ := freeFrameFrom_some hfind
    rcases Nat.lt_trichotomy m n with hlt | rfl | hgt
    · rw [hbusy m hlt] at hm
      cases hm
    · rfl
    · rw [hbelow n (by omega) hgt] at hfree
      cases hfree

theorem Bitmap.busy_word {n : ℕ} (hn : n / 32 < s.frameNumber / 32) :
    busy (b.word s) n = busy s.frames n := by
  rw [busy, busy, Bitmap.word, if_pos hn]

/-- The bitmap ends with a whole word. -/
def WholeWords (s : State) : Prop := s.frameNumber % 32 = 0

theorem Bitmap.getFreeFrame_eq (h32 : WholeWords s) (hf : HasFreeFrame s) :
    b.getFreeFrame s = Paging.getFreeFrame s := by
  obtain ⟨n, hn, hfind, hfree⟩ := getFreeFrame_of_hasFreeFrame hf
  have hbelow := (getFreeFrame_some hfind).2
  unfold WholeWords at h32
  have hwithin : ∀ m ≤ n, busy (b.word s) m = busy s.frames m :=
    fun m hm => Bitmap.busy_word (by omega)
  rw [hfind]
  refine freeFrameFrom_eq_some (by omega) ((hwithin n le_rfl).trans hfree) fun m hm => ?_
  rw [hwithin m hm.le]
  exact hbelow m hm

/-- A clear bit of the bitmap is taken as if nothing lay behind it. -/
theorem Bitmap.allocFrame_eq (h32 : WholeWords s) {page : ℕ}
    (hf : (s.pages page).frame = 0 → HasFreeFrame s) (isKernel isWriteable : Bool) :
    b.allocFrame s page isKernel isWriteable = Paging.allocFrame s page isKernel isWriteable := by
  by_cases h0 : (s.pages page).frame = 0
  · obtain ⟨n, hn, hfind, -⟩ := getFreeFrame_of_hasFreeFrame (hf h0)
    unfold WholeWords at h32
    have hset : b.set s n =
        { s with frames := update s.frames (n / 32) (bitsetSet (s.frames (n / 32)) (n % 32)) } :=
      if_pos (by omega)
    simp only [Bitmap.allocFrame, Paging.allocFrame, h0, ↓reduceIte, Bitmap.getFreeFrame_eq h32 (hf h0),
      hfind, hset]
  · simp only [Bitmap.allocFrame, Paging.allocFrame, h0, ↓reduceIte]

end Searches

section Tables

variable {s s' : State} {b : Bitmap} {src pTbl i k : ℕ}

/-- What the loop of `clonePageTable` has in front of the `k` turns from entry `i` on. -/
structure TurnsLeft (s : State) (src pTbl i k : ℕ) : Prop where
  bound : i + k ≤ 1024
  number : s.frameNumber ≤ 2 ^ 20
  apart : Apart pTbl src
  empty : ∀ j, i ≤ j → j < i + k → s.pages (pTbl + 4 * j) = Page.zero

/-- One turn that has a frame, or needs none. -/
structure TurnTaken (s s' : State) (src pTbl i k : ℕ) : Prop where
  left : TurnsLeft s' src pTbl (i + 1) k
  frameNumber : s'.frameNumber = s.frameNumber
  frames : freeFrames s' + (if (s.pages (src + 4 * i)).frame = 0 then 0 else 1) = freeFrames s
  needed : tableFrames s' src (i + 1) k = tableFrames s src (i + 1) k

theorem TurnsLeft.taken (h : TurnsLeft s src pTbl i (k + 1))
    (hfree : (s.pages (src + 4 * i)).frame ≠ 0 → 0 < freeFrames s) :
    TurnTaken s (cloneEntry s src pTbl i) src pTbl i k := by
  have hbound := h.bound
  have hapart := h.apart
  unfold Apart pageSize at hapart
  have hturn := cloneEntry_spec h.number (h.empty i le_rfl (by omega)) (by omega) hfree
  have hothers := (cloneEntry_entriesOnly s src pTbl i).others
  have hnumber := hturn.grown.frameNumber
  refine ⟨⟨by omega, hnumber ▸ h.number, h.apart, fun j h₁ h₂ => ?_⟩, hnumber, hturn.used,
    tableFrames_congr fun j h₁ h₂ => hothers _ (by omega)⟩
  rw [hothers _ (by omega)]
  exact h.empty j (by omega) (by omega)

/-- The table that `kmalloc` has returned is cleared first. -/
theorem TurnsLeft.cleared (hnum : s.frameNumber ≤ 2 ^ 20) (ha : Apart pTbl src) :
    TurnsLeft (s.clearTable pTbl) src pTbl 0 1024 :=
  ⟨le_rfl, hnum, ha, fun j _ h₂ => clearTable_inside s pTbl (by omega)⟩

theorem tableFrames_clearTable (s : State) (ha : Apart pTbl src) :
    tableFrames (s.clearTable pTbl) src 0 1024 = tableFrames s src 0 1024 :=
  tableFrames_congr fun j _ h₂ => clearTable_apart s ha (by omega)

theorem Bitmap.cloneEntry_eq (h32 : WholeWords s)
    (hfree : (s.pages (src + 4 * i)).frame ≠ 0 → 0 < freeFrames s) :
    cloneEntryWith b.allocUser s src pTbl i = cloneEntry s src pTbl i := by
  by_cases h0 : (s.pages (src + 4 * i)).frame = 0
  · rw [cloneEntry, cloneEntryWith, cloneEntryWith, if_pos h0, if_pos h0]
  · have halloc : b.allocUser s (pTbl + 4 * i) = Paging.allocUser s (pTbl + 4 * i) := by
      rw [Bitmap.allocUser, Bitmap.allocFrame_eq h32 fun _ => hasFreeFrame_of_pos (hfree h0),
        Paging.allocUser]
    rw [cloneEntry, cloneEntryWith, cloneEntryWith, halloc]

/-- With frames for all copies the clone of a table is the one of the bitmap alone. -/
theorem Bitmap.cloneEntries_eq (k : ℕ) (h32 : WholeWords s) (h : TurnsLeft s src pTbl i k)
    (hfree : tableFrames s src i k ≤ freeFrames s) :
    cloneEntriesWith b.allocUser s src pTbl i k = cloneEntries s src pTbl i k := by
  induction k generalizing s i with
  | zero => rfl
  | succ k ih =>
    rw [tableFrames_succ] at hfree
    have hfirst : (s.pages (src + 4 * i)).frame ≠ 0 → 0 < freeFrames s := by
      intro h0
      rw [if_neg h0] at hfree
      omega
    have hturn := h.taken hfirst
    have hframes := hturn.frames
    have hneeded := hturn.needed
    have hwhole : WholeWords (cloneEntry s src pTbl i) := by
      rw [WholeWords, hturn.frameNumber]
      exact h32
    rw [cloneEntriesWith, Bitmap.cloneEntry_eq h32 hfirst, cloneEntries_succ]
    exact ih hwhole hturn.left (by omega)

theorem Bitmap.clonePageTable_eq (h32 : WholeWords s) (hnum : s.frameNumber ≤ 2 ^ 20)
    (ha : Apart pTbl src) (hfree : tableFrames s src 0 1024 ≤ freeFrames s) :
    b.clonePageTable s src pTbl = Paging.clonePageTable s src pTbl := by
  have hneeded := tableFrames_clearTable s ha
  rw [Bitmap.clonePageTable, clonePageTableWith, Paging.clonePageTable_eq]
  exact Bitmap.cloneEntries_eq 1024 h32 (TurnsLeft.cleared hnum ha) (by rw [hneeded]; exact hfree)

end Tables

section Slots

variable {s s' : State} {b : Bitmap} {src pDir i k ptr : ℕ} {ptrs rest : List ℕ}

/-- A slot without a table of its own asks for no frame. -/
theorem Bitmap.cloneSlot_eq (hp : ¬ Private s src i) (ptrs : List ℕ) :
    cloneSlotWith b.allocUser s src pDir i ptrs = Paging.cloneSlot s src pDir i ptrs := by
  by_cases h0 : (s.directories src).pageTables i = 0
  · rw [cloneSlot_null h0]
    exact if_pos h0
  · have hs : Shared s src i := ⟨h0, by by_contra hne; exact hp ⟨h0, hne⟩⟩
    rw [cloneSlot_shared hs]
    exact (if_neg hs.1).trans (if_pos hs.2)

theorem Bitmap.cloneSlot_private (hp : Private s src i) (ptr : ℕ) (rest : List ℕ) :
    cloneSlotWith b.allocUser s src pDir i (ptr :: rest) =
      (kmalloc (s.setDirectory src ((s.directories src).orPresent i)) ptr).map fun r =>
        ((b.clonePageTable r.2 ((s.directories src).pageTables i) ptr).setTable pDir i ptr r.1, rest) :=
  (if_neg hp.1).trans (if_neg hp.2)

/-- What a slot whose table is cloned asks of the state. -/
structure SlotReady (s : State) (src pDir i ptr : ℕ) : Prop where
  number : s.frameNumber ≤ 2 ^ 20
  source : src ≠ pDir
  current : s.currentPageDirectory ≠ pDir
  mapped : Mapped s ptr
  apart : Apart ptr ((s.directories src).pageTables i)

/-- With frames for its pages it is cloned as if nothing lay behind the bitmap. -/
theorem SlotReady.cloned (h : SlotReady s src pDir i ptr) (h32 : WholeWords s) (hp : Private s src i)
    (hfree : framesNeeded s src i 1 ≤ freeFrames s) (rest : List ℕ) :
    ∃ s', cloneSlot s src pDir i (ptr :: rest) = some (s', rest) ∧
      cloneSlotWith b.allocUser s src pDir i (ptr :: rest) = some (s', rest) ∧
      Undisturbed s s' pDir [ptr] ∧ freeFrames s' + framesNeeded s src i 1 = freeFrames s := by
  have hneed : framesNeeded s src i 1 =
      tableFrames s ((s.directories src).pageTables i) 0 1024 := by rw [framesNeeded_one, if_pos hp]
  obtain ⟨phys, s₂, hkmalloc, hu₂, hframes₂, hpages, -, hslot⟩ :=
    cloneSlot_allocated rest h.source h.current h.mapped hp
  have hnumber := hu₂.grown.frameNumber
  have hfree₂ : freeFrames s₂ = freeFrames s := freeFrames_congr hnumber hframes₂
  have hcount : tableFrames s₂ ((s.directories src).pageTables i) 0 1024 =
      tableFrames s ((s.directories src).pageTables i) 0 1024 := tableFrames_congr fun j _ _ => hpages _
  have henough : tableFrames s₂ ((s.directories src).pageTables i) 0 1024 ≤ freeFrames s₂ := by
    rw [hcount, hfree₂, ← hneed]
    exact hfree
  have hwhole : WholeWords s₂ := by
    rw [WholeWords, hnumber]
    exact h32
  have htable := Bitmap.clonePageTable_eq (b := b) hwhole (hnumber ▸ h.number) h.apart henough
  have hdone := clonePageTable_spec (hnumber ▸ h.number) h.apart henough
  have honly := clonePageTable_entriesOnly s₂ ((s.directories src).pageTables i) ptr
  have hused := hdone.used
  have hrun : cloneSlotWith b.allocUser s src pDir i (ptr :: rest) =
      some ((Paging.clonePageTable s₂ ((s.directories src).pageTables i) ptr).setTable pDir i ptr phys,
        rest) := by
    simp only [Bitmap.cloneSlot_private hp, hkmalloc, Option.map_some, htable]
  rw [hcount, hfree₂, ← hneed] at hused
  obtain ⟨s₃, hs₃⟩ : ∃ s₃, Paging.clonePageTable s₂ ((s.directories src).pageTables i) ptr = s₃ := ⟨_, rfl⟩
  rw [hs₃] at hslot hrun hdone honly hused
  have hset : freeFrames (s₃.setTable pDir i ptr phys) = freeFrames s₃ := freeFrames_congr rfl rfl
  refine ⟨_, hslot, hrun, (hu₂.trans (honly.undisturbed hdone.grown)).trans (undisturbed_setDirectory _), ?_⟩
  rw [hset]
  exact hused

end Slots

end ExperimentalKernel.Paging
