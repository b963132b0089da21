import ExperimentalKernel.HeapCoalesce
import ExperimentalKernel.HeapFootprint

/-!
# The capacity of the index

`OrderedArray::add` does not look at `maxSize_`: on a full array it stores one word behind
the storage. For the index of the heap that is the header of the first block. `free`
comes to this when the index is full and the freed block has no hole beside it.
-/

namespace ExperimentalKernel.Heap
open ByteMemory PointerArray TracedMemory LabelledRuns

/-- The storage of an array. -/
def Storage (a : PtrArray) (y : ℕ) : Prop := a.array ≤ y ∧ y < a.array + 4 * a.maxSize

/-- `add` keeps to the storage and to the capacity, and does with a full array what `Array::add` does. -/
structure RespectsCapacity (a : PtrArray) (m : Mem) (item : ℕ) : Prop where
  inside : Within (Storage a) (orderedAddT a m item)
  size : (orderedAdd a m item).1.size ≤ a.maxSize
  full : a.size = a.maxSize → orderedAdd a m item = arrayAdd a m item

/-- The state and the address with which `free` comes to `index_.add`. -/
def indexAdd (s : State) (ptr : ℕ) : Option (State × ℕ) :=
  if ptr = 0 then none
  else
    let header := sub32 ptr 12
    let footer := sub32 (add32 header (headerSize s.mem header)) 8
    if headerMagic s.mem header ≠ heapMagic then none
    else if footerMagic s.mem footer ≠ heapMagic then none
    else
      let m₁ := write8 s.mem (header + 4) 1
      let (header', addHole, m₂) := mergeLeft m₁ header footer
      let testHeader := add32 footer 8
      if addHole then
        (mergeRight s.heap m₂ header' testHeader).map fun s₁ => (dropEntry s₁ testHeader, header')
      else none

/-- What `free` adds to the index, it adds within the capacity. -/
def AddsInside (s : State) (ptr : ℕ) : Prop :=
  ∀ s₂ header, indexAdd s ptr = some (s₂, header) → RespectsCapacity s₂.heap.index s₂.mem header

/-- The footer of the block, by the size in its header. -/
def footerOf (s : State) (ptr : ℕ) : ℕ :=
  sub32 (add32 (sub32 ptr 12) (headerSize s.mem (sub32 ptr 12))) 8

/-- Memory once the block is marked as a hole. -/
def marked (s : State) (ptr : ℕ) : Mem := write8 s.mem (sub32 ptr 12 + 4) 1

/-- A hole in front of the header, by the footer there. -/
def HoleBefore (m : Mem) (header : ℕ) : Prop :=
  footerMagic m (sub32 header 8) = heapMagic ∧
    headerIsHole m (footerHeader m (sub32 header 8)) = true

def HoleAt (m : Mem) (header : ℕ) : Prop :=
  headerMagic m header = heapMagic ∧ headerIsHole m header = true

/-- The index is full, the block passes the checks and has neither a hole on its left nor
one on its right, nor is the address behind it in the index. -/
structure Overfills (s : State) (ptr : ℕ) : Prop where
  nonzero : ptr ≠ 0
  header : headerMagic s.mem (sub32 ptr 12) = heapMagic
  footer : footerMagic s.mem (footerOf s ptr) = heapMagic
  full : s.heap.index.size = s.heap.index.maxSize
  left : ¬ HoleBefore (marked s ptr) (sub32 ptr 12)
  right : ¬ HoleAt (marked s ptr) (add32 (footerOf s ptr) 8)
  unlisted : add32 (footerOf s ptr) 8 ∉ s.heap.index.elems (marked s ptr)

/-- The index fits its capacity, and the address space. -/
structure IndexFits (s : State) : Prop where
  size : s.heap.index.size ≤ s.heap.index.maxSize
  small : 4 * s.heap.index.maxSize ≤ wordSize

def Freed (s : State) (ptr : ℕ) (s' : State) : Prop := free s ptr = some s'

theorem respectsCapacity_iff {a : PtrArray} (m : Mem) (item : ℕ) (hs : a.size ≤ a.maxSize)
    (hw : 4 * a.maxSize ≤ wordSize) : RespectsCapacity a m item ↔ a.size < a.maxSize := by
  have hsize : (orderedAdd a m item).1.size = a.size + 1 :=
    orderedAdd_size m item (by unfold wordSize at *; omega)
  constructor
  · intro h
    have hle := h.size
    omega
  · intro hlt
    refine ⟨within_orderedAddT (fun y hy hy' => ⟨hy, by omega⟩) item, by omega, fun he => ?_⟩
    exact absurd he (Nat.ne_of_lt hlt)

section Free

variable {s s' s₂ : State} {ptr header : ℕ}

/-- `free` comes to the addition with a checked block that has no hole on its left, when the
right half is done. -/
structure ComesToAdd (s : State) (ptr : ℕ) (s₂ : State) (header : ℕ) : Prop where
  nonzero : ptr ≠ 0
  checked : headerMagic s.mem (sub32 ptr 12) = heapMagic
  footer : footerMagic s.mem (footerOf s ptr) = heapMagic
  left : ¬ HoleBefore (marked s ptr) (sub32 ptr 12)
  header : header = sub32 ptr 12
  right : ∃ s₁, mergeRight s.heap (marked s ptr) (sub32 ptr 12) (add32 (footerOf s ptr) 8) = some s₁ ∧
    s₂ = dropEntry s₁ (add32 (footerOf s ptr) 8)

/-- A block that is to be added has no hole on its left. -/
theorem mergeLeft_adds {m : Mem} {footer : ℕ} (h : (mergeLeft m header footer).2.1 = true) :
    ¬ HoleBefore m header ∧ mergeLeft m header footer = (header, true, m) := by
  simp only [mergeLeft] at h ⊢
  split
  · next hhole =>
    rw [if_pos hhole] at h
    cases h
  · next hhole => exact ⟨hhole, rfl⟩

theorem indexAdd_comes (h : indexAdd s ptr = some (s₂, header)) : ComesToAdd s ptr s₂ header := by
  simp only [indexAdd] at h
  split at h
  · cases h
  · next h₀ =>
    split at h
    · cases h
    · next h₁ =>
      split at h
      · cases h
      · next h₂ =>
        split at h
        · next hadd =>
          obtain ⟨hleft, hm⟩ := mergeLeft_adds hadd
          rw [hm] at h
          obtain ⟨s₁, hs₁, he⟩ := Option.map_eq_some_iff.mp h
          rw [Prod.mk.injEq] at he
          exact ⟨h₀, not_not.mp h₁, not_not.mp h₂, hleft, he.2.symm, s₁, hs₁, he.1.symm⟩
        · cases h

theorem free_of_indexAdd (h : indexAdd s ptr = some (s₂, header)) :
    free s ptr = some (addEntry s₂ header) := by
  obtain ⟨h₀, h₁, h₂, hleft, rfl, s₁, hs₁, rfl⟩ := indexAdd_comes h
  have hmerge : mergeLeft (marked s ptr) (sub32 ptr 12) (footerOf s ptr) =
      (sub32 ptr 12, true, marked s ptr) := if_neg hleft
  rw [footerOf] at h₂ hmerge hs₁
  rw [marked] at hmerge hs₁
  simp only [free, h₀, h₁, h₂, hmerge, hs₁, ne_eq, not_true_eq_false, ↓reduceIte, Option.map_some,
    footerOf]

/-- Without an addition the index does not grow. -/
theorem free_kept (hno : indexAdd s ptr = none) (h : free s ptr = some s') : IndexKept s s' := by
  simp only [indexAdd] at hno
  simp only [free] at h
  split at h
  · cases h
    exact .refl s
  · next h₀ =>
    rw [if_neg h₀] at hno
    split at h
    · cases h
    · next h₁ =>
      rw [if_neg h₁] at hno
      split at h
      · cases h
      · next h₂ =>
        rw [if_neg h₂] at hno
        obtain ⟨s₁, hs₁, rfl⟩ := Option.map_eq_some_iff.mp h
        rw [hs₁] at hno
        split at hno
        · cases hno
        · next hadd =>
          rw [if_neg hadd]
          exact (mergeRight_kept hs₁).trans (dropEntry_kept s₁ _)

theorem mergeRight_same {m : Mem} {testHeader : ℕ}
    (h : mergeRight s.heap m header testHeader = some s') (hsize : s.heap.index.size ≤ s'.heap.index.size) :
    ¬ HoleAt m testHeader ∧ s' = ⟨s.heap, m⟩ := by
  simp only [mergeRight] at h
  split at h
  · split at h
    · cases h
    · next hlt =>
      cases h
      have herase := erase_size (a := s.heap.index)
        (write32 m (header + 8) (add32 (headerSize m header) (headerSize m testHeader))) (not_le.mp hlt)
      simp only at hsize
      omega
  · next hhole =>
    cases h
    exact ⟨hhole, rfl⟩

theorem dropEntry_same {item : ℕ} (hsize : s.heap.index.size ≤ (dropEntry s item).heap.index.size) :
    item ∉ s.heap.index.elems s.mem ∧ dropEntry s item = s := by
  have hnot : item ∉ s.heap.index.elems s.mem := by
    intro hmem
    have hlt : search s.heap.index s.mem item < s.heap.index.size := by
      rw [search_eq, ← PtrArray.elems_length s.heap.index s.mem]
      exact List.idxOf_lt_length_iff.mpr hmem
    have herase := erase_size s.mem hlt
    simp only [dropEntry, if_pos hlt] at hsize
    omega
  exact ⟨hnot, dropEntry_of_notMem hnot⟩

theorem indexAdd_of_overfills (h : Overfills s ptr) :
    indexAdd s ptr = some (⟨s.heap, marked s ptr⟩, sub32 ptr 12) := by
  have hleft : mergeLeft (marked s ptr) (sub32 ptr 12) (footerOf s ptr) =
      (sub32 ptr 12, true, marked s ptr) := if_neg h.left
  have hright : mergeRight s.heap (marked s ptr) (sub32 ptr 12) (add32 (footerOf s ptr) 8) =
      some ⟨s.heap, marked s ptr⟩ := if_neg h.right
  have hdrop : dropEntry ⟨s.heap, marked s ptr⟩ (add32 (footerOf s ptr) 8) =
      ⟨s.heap, marked s ptr⟩ := dropEntry_of_notMem h.unlisted
  have hfooter := h.footer
  rw [footerOf] at hleft hright hdrop hfooter
  rw [marked] at hleft hright hdrop
  simp only [indexAdd, h.nonzero, h.header, hfooter, hleft, hright, hdrop, ne_eq, not_true_eq_false,
    ↓reduceIte, Option.map_some, marked]

theorem indexAdd_kept (h : indexAdd s ptr = some (s₂, header)) : IndexKept s s₂ := by
  obtain ⟨s₁, hs₁, rfl⟩ := (indexAdd_comes h).right
  exact (mergeRight_kept hs₁).trans (dropEntry_kept s₁ _)

/-- When nothing was removed from a full index, the free block was alone. -/
theorem overfills_of_full (h : indexAdd s ptr = some (s₂, header)) (hfit : IndexFits s)
    (hfull : s.heap.index.maxSize ≤ s₂.heap.index.size) : Overfills s ptr := by
  have hcomes := indexAdd_comes h
  obtain ⟨s₁, hs₁, rfl⟩ := hcomes.right
  have hkept := mergeRight_kept hs₁
  have hdrop := dropEntry_kept s₁ (add32 (footerOf s ptr) 8)
  have hsize : s.heap.index.maxSize ≤ s₁.heap.index.size := hfull.trans hdrop.size
  obtain ⟨hright, rfl⟩ := mergeRight_same hs₁ (hfit.size.trans hsize)
  obtain ⟨hunlisted, -⟩ := dropEntry_same (hkept.size.trans (hfit.size.trans hfull))
  exact ⟨hcomes.nonzero, hcomes.checked, hcomes.footer, le_antisymm hfit.size hsize, hcomes.left,
    hright, hunlisted⟩

theorem IndexFits.kept (hfit : IndexFits s) (h : IndexKept s s') : IndexFits s' := by
  have hmax := h.bounds.maxSize
  exact ⟨(h.size.trans hfit.size).trans hmax.ge, hmax ▸ hfit.small⟩

/-- One call of `free`. -/
theorem addsInside_iff (hfit : IndexFits s) (ptr : ℕ) : AddsInside s ptr ↔ ¬ Overfills s ptr := by
  constructor
  · intro h hover
    have hrespects := h _ _ (indexAdd_of_overfills hover)
    have hlt := (respectsCapacity_iff _ _ hfit.size hfit.small).mp hrespects
    exact Nat.ne_of_lt hlt hover.full
  · intro h s₂ header hadd
    have hkept := indexAdd_kept hadd
    have hfit₂ := hfit.kept hkept
    rw [respectsCapacity_iff _ _ hfit₂.size hfit₂.small]
    by_contra hge
    exact h (overfills_of_full hadd hfit (hkept.bounds.maxSize.ge.trans (not_lt.mp hge)))

theorem IndexFits.freed (hfit : IndexFits s) (hin : AddsInside s ptr) (h : Freed s ptr s') :
    IndexFits s' := by
  cases hadd : indexAdd s ptr with
  | none => exact hfit.kept (free_kept hadd h)
  | some r =>
    obtain ⟨s₂, header⟩ := r
    have hs' : addEntry s₂ header = s' := Option.some.inj ((free_of_indexAdd hadd).symm.trans h)
    have hfit₂ := hfit.kept (indexAdd_kept hadd)
    have hbounds := addEntry_bounds s₂ header
    rw [hs'] at hbounds
    refine ⟨?_, hbounds.maxSize ▸ hfit₂.small⟩
    rw [hbounds.maxSize, ← hs']
    exact (hin s₂ header hadd).size

end Free

section Spread

variable {s : State} {pre post : List Segment} {t r : Segment} {ptr : ℕ}

/-- Behind the storage of a full array `add` leaves the item or the last element. -/
theorem word_behind_full {a : PtrArray} (m : Mem) {item : ℕ} (hi : item < wordSize) :
    read32 (orderedAdd a m item).2 (a.array + 4 * a.size) ∈ item :: a.elems m := by
  have hle : findSlot m a.array item 0 a.size ≤ a.size := by
    rw [findSlot_eq, Nat.zero_add]
    exact (List.takeWhile_sublist _).length_le.trans (words_length _ _ _).le
  rw [read32_orderedAdd a m hi]
  by_cases hslot : a.size = findSlot m a.array item 0 a.size
  · rw [if_pos hslot]
    exact List.mem_cons_self
  · rw [if_neg hslot, if_pos ⟨lt_of_le_of_ne hle (Ne.symm hslot), le_rfl⟩]
    refine List.mem_cons_of_mem _ (List.mem_map.mpr ⟨a.size - 1, List.mem_range.mpr ?_, rfl⟩)
    omega

/-- Such a call of `free` returns, and the word behind the index is then the address of a hole. -/
theorem free_of_overfills (h : Overfills s ptr) (hptr : ptr < wordSize) :
    ∃ s', Freed s ptr s' ∧
      read32 s'.mem (s.heap.index.array + 4 * s.heap.index.maxSize) ∈
        sub32 ptr 12 :: s.heap.index.elems (marked s ptr) := by
  have hadd := indexAdd_of_overfills h
  refine ⟨_, free_of_indexAdd hadd, ?_⟩
  rw [← h.full]
  refine word_behind_full (marked s ptr) ?_
  unfold sub32
  split <;> omega

/-- A full index and a block between blocks. -/
theorem overfills_of_layout (hb : BootLayout s (pre ++ t :: r :: post)) (ht : t.isHole = false)
    (hpre : ∀ l ∈ pre.getLast?, l.isHole = false) (hr : r.isHole = false)
    (hfull : (holes bootStart (pre ++ t :: r :: post)).length = indexSize) :
    Overfills s (bootStart + span pre + 12) := by
  have hrep := hb.represents
  have hstart := hb.startAddress
  have hseg := (segmentsAt_append.mp hb.segments).2.1
  have hge := hseg.size_ge
  obtain ⟨hext, -⟩ := hseg.block ht
  have htiles := hb.tiles
  have htop : start + initialSize < wordSize := by decide
  simp only [span_append, span_cons] at htiles
  have hx : sub32 (bootStart + span pre + 12) 12 = bootStart + span pre := sub32_eq (by omega)
  have hfooter : footerOf s (bootStart + span pre + 12) = bootStart + span pre + t.size - 8 := by
    rw [footerOf, hx, hseg.header.sized, add32_eq (by omega), sub32_eq (by omega)]
  have hnext : add32 (bootStart + span pre + t.size - 8) 8 = bootStart + span pre + t.extent := by
    rw [add32_eq (by omega)]
    omega
  have hmark : marked s (bootStart + span pre + 12) = write8 s.mem (bootStart + span pre + 4) 1 := by
    rw [marked, hx]
  have hside : ∀ q ∈ (r :: post).head?, q.isHole = false := by simpa using hr
  have hpending := pending_mark hrep ht
  have halone := mergeRight_alone hpending hside (fun he => nomatch he) 0
  have hunlisted := hpending.not_listed hside
  have hleft := mergeLeft_alone hb.clean.guarded hrep hpre 0
  rw [hstart] at halone hunlisted hleft
  refine ⟨by omega, ?_, ?_, ?_, ?_, ?_, ?_⟩
  · rw [hx]
    exact hseg.header.magic
  · rw [hfooter, ← hext]
    exact (hseg.footer (.inl ht)).magic
  · rw [hrep.index_size, hstart, hfull, hb.maxSize]
  · rw [hmark, hx]
    exact (mergeLeft_adds (by rw [hleft])).1
  · rw [hmark, hfooter, hnext]
    exact (mergeRight_same (s := s) halone le_rfl).1
  · rw [hmark, hfooter, hnext]
    exact hunlisted

/-- Requests are served by calls. -/
theorem calls_allocateAll (ns : List ℕ) (s : State) (hn : ∀ n ∈ ns, n < wordSize) :
    Run CallStep s (ns.map .allocate) (allocateAll s ns).2 := by
  induction ns generalizing s with
  | nil => exact .nil s
  | cons n ns ih =>
    rw [List.forall_mem_cons] at hn
    exact .cons (.allocate hn.1) (ih _ hn.2)

/-- Of `2 n` blocks every second one of the first `2 k` is free: the index lists these and the
rest of the heap. -/
theorem exists_spread {n : ℕ} (hn : n ≤ indexSize) (k : ℕ) (hk : k < n) :
    ∃ s pre last, Called s ∧ last.isHole = true ∧ (∀ l ∈ pre.getLast?, l.isHole = false) ∧
      (holes bootStart pre).length = k ∧
      BootLayout s (pre ++ blocksFrom (span pre) (List.replicate (2 * (n - k)) 12) ++ [last]) := by
  induction k with
  | zero =>
    obtain ⟨s₀, hinit, h₀⟩ := exists_init
    have hns : ∀ m ∈ List.replicate (2 * n) 12, m < wordSize := fun m hm => by
      rw [List.eq_of_mem_replicate hm]
      decide
    have hsum : ((List.replicate (2 * n) 12).map (· + 20)).sum = 2 * n * 32 := by simp
    have hsize : bootSize = 33030144 := by decide
    have hindex : indexSize = 131072 := by decide
    obtain ⟨hl, -⟩ := served_wellFormed (List.replicate (2 * n) 12) h₀ (by omega)
    exact ⟨_, [], _, ⟨_, _, _, _, s₀, _, hinit, calls_allocateAll _ s₀ hns⟩, rfl, by simp, rfl, hl⟩
  | succ k ih =>
    obtain ⟨s, pre, last, hc, hlast, hpre, hholes, hl⟩ := ih (Nat.lt_of_succ_lt hk)
    have hcount : 2 * (n - k) = 2 * (n - (k + 1)) + 1 + 1 := by omega
    rw [hcount, List.replicate_succ, List.replicate_succ, blocksFrom, blocksFrom, List.append_assoc,
      List.cons_append, List.cons_append] at hl
    generalize hmore : blocksFrom (span pre + (12 + 20) + (12 + 20)) _ = more at hl
    have hblocks : ∀ u ∈ more, u.isHole = false := hmore ▸ blocksFrom_isHole
    have hcap : (holes bootStart (pre ++ ⟨false, 12 + 20, 12 + 20, bootStart + span pre⟩ ::
        ⟨false, 12 + 20, 12 + 20, bootStart + (span pre + (12 + 20))⟩ :: (more ++ [last]))).length <
          indexSize := by
      rw [holes_append, List.length_append, hholes]
      simp only [holes, Bool.false_eq_true, ↓reduceIte, holes_append, holes_blocks hblocks, hlast,
        List.nil_append, List.length_singleton]
      omega
    obtain ⟨s', hfree, hl'⟩ := hl.free pre _ _ rfl (.alone _ _ hpre) (.alone _ _ (by simp)) (by simp)
      (.inr (.inr hcap))
    obtain ⟨m, maxAddress, supervisor, readOnly, s₀, calls, hinit, hrun⟩ := hc
    have hspan : span (pre ++ [⟨true, 12 + 20, 12 + 20, bootStart + span pre⟩,
        ⟨false, 12 + 20, 12 + 20, bootStart + (span pre + (12 + 20))⟩]) =
          span pre + (12 + 20) + (12 + 20) := by
      simp [Nat.add_assoc]
    refine ⟨s', pre ++ [⟨true, 12 + 20, 12 + 20, bootStart + span pre⟩,
      ⟨false, 12 + 20, 12 + 20, bootStart + (span pre + (12 + 20))⟩], last,
      ⟨m, maxAddress, supervisor, readOnly, s₀, _, hinit, hrun.snoc (.free hfree)⟩, hlast, ?_, ?_, ?_⟩
    · simp
    · simp [holes_append, hholes, holes]
    · rw [hspan, hmore]
      simpa using hl'

/-- Calls on the boot heap can fill the index and leave a block between blocks. -/
theorem exists_overfilled :
    ∃ s ptr, Called s ∧ ptr < wordSize ∧ Overfills s ptr ∧
      ∀ x ∈ sub32 ptr 12 :: s.heap.index.elems (marked s ptr), bootStart ≤ x := by
  have hpos : 0 < indexSize := by decide
  obtain ⟨s, pre, last, hc, hlast, hpre, hholes, hl⟩ :=
    exists_spread le_rfl (indexSize - 1) (Nat.sub_lt hpos Nat.one_pos)
  have hcount : 2 * (indexSize - (indexSize - 1)) = 2 := by decide
  rw [hcount, List.replicate_succ, List.replicate_one, blocksFrom, blocksFrom, blocksFrom,
    List.append_assoc, List.cons_append, List.cons_append, List.nil_append] at hl
  have hfull : (holes bootStart (pre ++ ⟨false, 12 + 20, 12 + 20, bootStart + span pre⟩ ::
      ⟨false, 12 + 20, 12 + 20, bootStart + (span pre + (12 + 20))⟩ :: [last])).length = indexSize := by
    rw [holes_append, List.length_append, hholes]
    simp only [holes, Bool.false_eq_true, ↓reduceIte, hlast, List.length_singleton]
    omega
  have htiles := hl.tiles
  have htop : start + initialSize < wordSize := by decide
  simp only [span_append, span_cons] at htiles
  have hx : sub32 (bootStart + span pre + 12) 12 = bootStart + span pre := sub32_eq (by omega)
  refine ⟨s, _, hc, by omega, overfills_of_layout hl rfl hpre rfl hfull, fun x hmem => ?_⟩
  rcases List.mem_cons.mp hmem with rfl | hmem
  · omega
  · have hbelow := hl.represents.below
    have hroom := hl.represents.room
    rw [hl.startAddress] at hbelow
    have hkeep : AgreeOn s.mem (marked s (bootStart + span pre + 12)) s.heap.index.array
        (s.heap.index.array + 4 * s.heap.index.size) := by
      rw [marked, hx]
      exact agreeOn_write8 _ _ (by omega)
    rw [PtrArray.elems_congr _ hkeep, hl.represents.index, hl.startAddress] at hmem
    exact (mem_holes_bounds hl.segments hmem).1

end Spread

/-- `add` respects the capacity of just the arrays that are not full, and a run of `free`
adds within the capacity just when no call finds the index full and the block alone. -/
theorem index_capacity_iff {a : PtrArray} {s : State} (ha : a.size ≤ a.maxSize)
    (hw : 4 * a.maxSize ≤ wordSize) (hs : IndexFits s) (m : Mem) (item : ℕ) (ptrs : List ℕ) :
    (RespectsCapacity a m item ↔ a.size < a.maxSize) ∧
      (Along Freed AddsInside s ptrs ↔ Along Freed (fun s ptr => ¬ Overfills s ptr) s ptrs) := by
  refine ⟨respectsCapacity_iff m item ha hw, ?_⟩
  exact along_iff (I := IndexFits) (fun _ ptr hs => addsInside_iff hs ptr)
    (fun _ _ _ hs hin h => hs.freed hin h) ptrs hs

theorem not_overfills_of_size {s : State} {ptr : ℕ} (h : s.heap.index.size < s.heap.index.maxSize) :
    ¬ Overfills s ptr :=
  fun hover => Nat.ne_of_lt h hover.full

/-- Two blocks are allocated on the boot heap and freed. -/
theorem index_capacity_iff_blocks :
    RespectsCapacity ⟨0x1000, 0, 1⟩ (fun _ => 0) 5 ∧
    ∃ s s', Called s ∧ Freed s (bootStart + 12) s' ∧
      s'.heap.index.size = s.heap.index.size + 1 ∧
      Along Freed AddsInside s [bootStart + 12, bootStart + 32 + 12] := by
  obtain ⟨s₀, hinit, h₀⟩ := exists_init
  obtain ⟨hl, -⟩ := served_wellFormed [12, 12] h₀ (by decide)
  have hrun := calls_allocateAll [12, 12] s₀ (by decide)
  generalize (allocateAll s₀ [12, 12]).2 = s at hl hrun
  have hsize := hl.represents.index_size
  obtain ⟨s', hfree, hl'⟩ := hl.free [] ⟨false, 32, 32, bootStart⟩ _ rfl
    (.alone _ _ (by simp)) (.alone _ _ (by simp [blocksFrom])) (by simp)
    (.inr (.inr (by simp [holes, blocksFrom]; decide)))
  have hsize' := hl'.represents.index_size
  rw [hl.startAddress] at hsize
  rw [hl'.startAddress] at hsize'
  have hone : s.heap.index.size = 1 := by simpa [holes, blocksFrom] using hsize
  have htwo : s'.heap.index.size = 2 := by simpa [holes, blocksFrom] using hsize'
  have hindex : indexSize = 131072 := by decide
  have hmax := hl.maxSize
  have hmax' := hl'.maxSize
  have hfit : IndexFits s := ⟨by omega, by rw [hmax]; decide⟩
  obtain ⟨hadd, hfrees⟩ := @index_capacity_iff ⟨0x1000, 0, 1⟩ s (by decide) (by decide) hfit
    (fun _ => 0) 5 [bootStart + 12, bootStart + 32 + 12]
  refine ⟨hadd.mpr (by decide), s, s', ⟨_, _, _, _, s₀, _, hinit, hrun⟩, hfree, by omega,
    hfrees.mpr ⟨not_overfills_of_size (by omega), fun s₁ hs₁ => ⟨?_, fun _ _ => trivial⟩⟩⟩
  obtain rfl : s₁ = s' := Option.some.inj (hs₁.symm.trans hfree)
  exact not_overfills_of_size (by omega)

/-- A second item goes behind an array for one; and after calls on the boot heap a `free`
writes the address of a hole over the magic number of the first block. -/
theorem index_overfilled :
    ((orderedAdd ⟨0x1000, 1, 1⟩ (fun _ => 0) 5).1.size = 2 ∧
      ¬ RespectsCapacity ⟨0x1000, 1, 1⟩ (fun _ => 0) 5) ∧
    ∃ s ptr s', Called s ∧ IndexFits s ∧ ¬ AddsInside s ptr ∧ Freed s ptr s' ∧
      headerMagic s'.mem s.heap.startAddress ≠ heapMagic := by
  refine ⟨⟨by decide, fun h => absurd h.size (by decide)⟩, ?_⟩
  obtain ⟨s, ptr, hc, hptr, hover, hholes⟩ := exists_overfilled
  obtain ⟨hp, -⟩ := hc.bounds
  have hfit : IndexFits s := ⟨hover.full.le, by rw [hp.maxSize]; decide⟩
  obtain ⟨s', hfree, hword⟩ := free_of_overfills hover hptr
  refine ⟨s, ptr, s', hc, hfit, fun h => (addsInside_iff hfit ptr).mp h hover, hfree, fun hm => ?_⟩
  have hadj : s.heap.index.array + 4 * s.heap.index.maxSize = s.heap.startAddress := by
    rw [hp.array, hp.maxSize, hp.startAddress, bootStart]
  rw [hadj] at hword
  have hge := hholes _ hword
  rw [headerMagic] at hm
  rw [hm] at hge
  exact absurd hge (by decide)

end ExperimentalKernel.Heap
