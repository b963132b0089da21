import ExperimentalKernel.KernelHeapProgram

/-!
# Heap layouts

A layout is the list of segments that tile the heap. A segment remembers what its
header says (`size`), how far the next header is (`extent`) and which header its
footer names (`tag`). A block has `extent = size` and its own tag. A hole whose
tag names an absorbed header is stale, and a hole with `size < extent` is
followed by memory that no hole of the index covers any more.
-/

namespace ExperimentalKernel.Heap
open ByteMemory PointerArray

structure HeaderAt (m : Mem) (a : ℕ) (isHole : Bool) (size : ℕ) : Prop where
  magic : headerMagic m a = heapMagic
  flag : headerIsHole m a = isHole
  sized : headerSize m a = size

structure FooterAt (m : Mem) (a header : ℕ) : Prop where
  magic : footerMagic m a = heapMagic
  names : footerHeader m a = header

theorem heapMagic_lt : heapMagic < wordSize := by decide

theorem headerIsHole_congr {m m' : Mem} {a : ℕ} (h : AgreeOn m m' (a + 4) (a + 5)) :
    headerIsHole m' a = headerIsHole m a := by
  unfold headerIsHole
  rw [h (a + 4) (by omega) (by omega)]

theorem HeaderAt.frame {m m' : Mem} {a size : ℕ} {isHole : Bool} (h : HeaderAt m a isHole size)
    (hag : AgreeOn m m' a (a + 12)) : HeaderAt m' a isHole size where
  magic := (read32_congr (hag.mono (by omega) (by omega))).trans h.magic
  flag := (headerIsHole_congr (hag.mono (by omega) (by omega))).trans h.flag
  sized := (read32_congr (hag.mono (by omega) (by omega))).trans h.sized

theorem FooterAt.frame {m m' : Mem} {a header : ℕ} (h : FooterAt m a header)
    (hag : AgreeOn m m' a (a + 8)) : FooterAt m' a header where
  magic := (read32_congr (hag.mono (by omega) (by omega))).trans h.magic
  names := (read32_congr (hag.mono (by omega) (by omega))).trans h.names

theorem headerAt_writeHeader (m : Mem) (a : ℕ) (isHole : Bool) {size : ℕ} (hs : size < wordSize) :
    HeaderAt (writeHeader m a isHole size) a isHole size where
  magic := by
    unfold headerMagic writeHeader
    rw [read32_write32_of_disjoint _ _ (by omega), read32_write8_of_disjoint _ _ (by omega),
      read32_write32 _ _ heapMagic_lt]
  flag := by
    unfold headerIsHole writeHeader
    rw [write32_of_disjoint _ _ (by omega), write8_same]
    cases isHole <;> rfl
  sized := read32_write32 _ _ hs

theorem footerAt_writeFooter (m : Mem) (a : ℕ) {header : ℕ} (hh : header < wordSize) :
    FooterAt (writeFooter m a header) a header where
  magic := by
    unfold footerMagic writeFooter
    rw [read32_write32_of_disjoint _ _ (by omega), read32_write32 _ _ heapMagic_lt]
  names := read32_write32 _ _ hh

theorem writeHeader_agreeOff (m : Mem) (isHole : Bool) (size : ℕ) {a lo hi : ℕ} (hl : lo ≤ a)
    (hh : a + 12 ≤ hi) : AgreeOff m (writeHeader m a isHole size) lo hi := by
  refine ((agreeOff_write32 m _ ?_ ?_).trans (agreeOff_write8 _ _ ?_ ?_)).trans
    (agreeOff_write32 _ _ ?_ ?_)
  all_goals omega

theorem writeFooter_agreeOff (m : Mem) (header : ℕ) {a lo hi : ℕ} (hl : lo ≤ a)
    (hh : a + 8 ≤ hi) : AgreeOff m (writeFooter m a header) lo hi := by
  refine (agreeOff_write32 m _ ?_ ?_).trans (agreeOff_write32 _ _ ?_ ?_)
  all_goals omega

/-- Adding to the size field leaves the rest of the header alone. -/
theorem HeaderAt.resize {m : Mem} {a size : ℕ} {isHole : Bool} (h : HeaderAt m a isHole size)
    {size' : ℕ} (hs : size' < wordSize) : HeaderAt (write32 m (a + 8) size') a isHole size' where
  magic := (read32_write32_of_disjoint m _ (by omega)).trans h.magic
  flag := (headerIsHole_congr (agreeOn_write32 m _ (by omega))).trans h.flag
  sized := read32_write32 m _ hs

structure Segment where
  isHole : Bool
  size : ℕ
  extent : ℕ
  tag : ℕ
  deriving DecidableEq, Repr

/-- The header named by the footer lies inside the hole but is not its header. -/
structure Stale (m : Mem) (a : ℕ) (s : Segment) : Prop where
  above : a + 20 ≤ s.tag
  below : s.tag + 20 ≤ a + s.extent
  flag : headerIsHole m s.tag = true

/-- The segment `s` starts at `a` in a heap that ends at `e`. Only a hole that
ends with the heap may lack a footer. -/
structure SegmentAt (m : Mem) (e a : ℕ) (s : Segment) : Prop where
  header : HeaderAt m a s.isHole s.size
  size_ge : 20 ≤ s.size
  size_le : s.size ≤ s.extent
  block : s.isHole = false → s.extent = s.size ∧ s.tag = a
  footer : s.isHole = false ∨ a + s.extent < e → FooterAt m (a + s.extent - 8) s.tag
  hole : s.isHole = true → a + s.extent < e → (s.tag = a ∧ s.extent = s.size) ∨ Stale m a s

theorem SegmentAt.frame {m m' : Mem} {e a : ℕ} {s : Segment} (h : SegmentAt m e a s)
    (hag : AgreeOn m m' a (a + s.extent)) : SegmentAt m' e a s := by
  have hge := h.size_ge
  have hle := h.size_le
  refine ⟨h.header.frame (hag.mono (by omega) (by omega)), hge, hle, h.block, ?_, ?_⟩
  · intro hf
    exact (h.footer hf).frame (hag.mono (by omega) (by omega))
  · intro hh he
    rcases h.hole hh he with ht | ht
    · exact Or.inl ht
    · have hab := ht.above
      have hbe := ht.below
      exact Or.inr ⟨hab, hbe,
        (headerIsHole_congr (hag.mono (by omega) (by omega))).trans ht.flag⟩

def span (segs : List Segment) : ℕ := (segs.map Segment.extent).sum

@[simp] theorem span_nil : span [] = 0 := rfl

@[simp] theorem span_cons (s : Segment) (segs : List Segment) :
    span (s :: segs) = s.extent + span segs := rfl

@[simp] theorem span_append (xs ys : List Segment) : span (xs ++ ys) = span xs + span ys := by
  simp [span]

/-- The segments stand one after another from `a` on. -/
def SegmentsAt (m : Mem) (e : ℕ) : ℕ → List Segment → Prop
  | _, [] => True
  | a, s :: segs => SegmentAt m e a s ∧ SegmentsAt m e (a + s.extent) segs

@[simp] theorem segmentsAt_nil (m : Mem) (e a : ℕ) : SegmentsAt m e a [] := trivial

theorem segmentsAt_cons {m : Mem} {e a : ℕ} {s : Segment} {segs : List Segment} :
    SegmentsAt m e a (s :: segs) ↔ SegmentAt m e a s ∧ SegmentsAt m e (a + s.extent) segs :=
  Iff.rfl

theorem segmentsAt_append {m : Mem} {e a : ℕ} {xs ys : List Segment} :
    SegmentsAt m e a (xs ++ ys) ↔ SegmentsAt m e a xs ∧ SegmentsAt m e (a + span xs) ys := by
  induction xs generalizing a with
  | nil => simp
  | cons s xs ih =>
    rw [List.cons_append, segmentsAt_cons, segmentsAt_cons, ih, span_cons, and_assoc,
      Nat.add_assoc]

theorem SegmentsAt.frame {m m' : Mem} {e a : ℕ} {segs : List Segment} (h : SegmentsAt m e a segs)
    (hag : AgreeOn m m' a (a + span segs)) : SegmentsAt m' e a segs := by
  induction segs generalizing a with
  | nil => trivial
  | cons s segs ih =>
    rw [span_cons] at hag
    exact ⟨h.1.frame (hag.mono (by omega) (by omega)),
      ih h.2 (hag.mono (by omega) (by omega))⟩

/-- The segments with their addresses. -/
def placed : ℕ → List Segment → List (ℕ × Segment)
  | _, [] => []
  | a, s :: segs => (a, s) :: placed (a + s.extent) segs

@[simp] theorem placed_nil (a : ℕ) : placed a [] = [] := rfl

@[simp] theorem placed_cons (a : ℕ) (s : Segment) (segs : List Segment) :
    placed a (s :: segs) = (a, s) :: placed (a + s.extent) segs := rfl

@[simp] theorem placed_append (a : ℕ) (xs ys : List Segment) :
    placed a (xs ++ ys) = placed a xs ++ placed (a + span xs) ys := by
  induction xs generalizing a with
  | nil => simp
  | cons s xs ih => simp [ih, Nat.add_assoc]

theorem mem_placed (a : ℕ) (pre : List Segment) (t : Segment) (post : List Segment) :
    (a + span pre, t) ∈ placed a (pre ++ t :: post) := by
  simp

theorem mem_placed_bounds {a : ℕ} {segs : List Segment} {p : ℕ × Segment}
    (h : p ∈ placed a segs) : a ≤ p.1 ∧ p.1 + p.2.extent ≤ a + span segs := by
  induction segs generalizing a with
  | nil => simp at h
  | cons s segs ih =>
    rw [placed_cons, List.mem_cons] at h
    rw [span_cons]
    rcases h with rfl | h
    · exact ⟨Nat.le_refl _, by simp only; omega⟩
    · have := ih h
      omega

theorem placed_pairwise (a : ℕ) (segs : List Segment) :
    (placed a segs).Pairwise (fun p q => p.1 + p.2.extent ≤ q.1) := by
  induction segs generalizing a with
  | nil => simp
  | cons s segs ih =>
    rw [placed_cons, List.pairwise_cons]
    exact ⟨fun q hq => (mem_placed_bounds hq).1, ih _⟩

/-- Two segments at different addresses do not overlap. -/
theorem placed_disjoint {a : ℕ} {segs : List Segment} {p q : ℕ × Segment}
    (hp : p ∈ placed a segs) (hq : q ∈ placed a segs) (hne : p ≠ q) :
    p.1 + p.2.extent ≤ q.1 ∨ q.1 + q.2.extent ≤ p.1 := by
  have hsymm : Std.Symm fun p q : ℕ × Segment =>
      p.1 + p.2.extent ≤ q.1 ∨ q.1 + q.2.extent ≤ p.1 := ⟨fun _ _ => Or.symm⟩
  have hpw : (placed a segs).Pairwise fun p q =>
      p.1 + p.2.extent ≤ q.1 ∨ q.1 + q.2.extent ≤ p.1 := (placed_pairwise a segs).imp Or.inl
  exact hpw.forall hp hq hne

theorem placed_split {a : ℕ} {segs : List Segment} {p : ℕ × Segment} (h : p ∈ placed a segs) :
    ∃ pre post, segs = pre ++ p.2 :: post ∧ p.1 = a + span pre := by
  induction segs generalizing a with
  | nil => simp at h
  | cons s segs ih =>
    rw [placed_cons, List.mem_cons] at h
    rcases h with rfl | h
    · exact ⟨[], segs, rfl, rfl⟩
    · obtain ⟨pre, post, he, hx⟩ := ih h
      exact ⟨s :: pre, post, by rw [he, List.cons_append], by rw [hx, span_cons, Nat.add_assoc]⟩

theorem SegmentsAt.at_placed {m : Mem} {e a : ℕ} {segs : List Segment} (h : SegmentsAt m e a segs)
    {p : ℕ × Segment} (hp : p ∈ placed a segs) : SegmentAt m e p.1 p.2 := by
  obtain ⟨pre, post, rfl, hx⟩ := placed_split hp
  rw [hx]
  exact (segmentsAt_append.mp h).2.1

/-- The addresses of the holes, in ascending order. -/
def holes : ℕ → List Segment → List ℕ
  | _, [] => []
  | a, s :: segs => if s.isHole then a :: holes (a + s.extent) segs else holes (a + s.extent) segs

@[simp] theorem holes_nil (a : ℕ) : holes a [] = [] := rfl

theorem holes_append (a : ℕ) (xs ys : List Segment) :
    holes a (xs ++ ys) = holes a xs ++ holes (a + span xs) ys := by
  induction xs generalizing a with
  | nil => simp
  | cons s xs ih =>
    cases hs : s.isHole <;> simp [holes, hs, ih, Nat.add_assoc]

theorem mem_holes_bounds {m : Mem} {e a x : ℕ} {segs : List Segment} (h : SegmentsAt m e a segs)
    (hx : x ∈ holes a segs) : a ≤ x ∧ x + 20 ≤ a + span segs := by
  induction segs generalizing a with
  | nil => simp at hx
  | cons s segs ih =>
    have hge := h.1.size_ge
    have hle := h.1.size_le
    have htail : x ∈ holes (a + s.extent) segs → a ≤ x ∧ x + 20 ≤ a + span (s :: segs) := by
      intro hx
      have := ih h.2 hx
      rw [span_cons]
      omega
    cases hs : s.isHole with
    | false => exact htail (by simpa [holes, hs] using hx)
    | true =>
      simp only [holes, hs, ↓reduceIte, List.mem_cons] at hx
      rcases hx with rfl | hx
      · rw [span_cons]
        omega
      · exact htail hx

/-- What a pointer of the index leads to. -/
theorem mem_holes_iff {a x : ℕ} {segs : List Segment} :
    x ∈ holes a segs ↔
      ∃ pre s post, segs = pre ++ s :: post ∧ s.isHole = true ∧ x = a + span pre := by
  induction segs generalizing a with
  | nil => simp
  | cons s segs ih =>
    have hcons : (∃ pre t post, s :: segs = pre ++ t :: post ∧ t.isHole = true ∧ x = a + span pre) ↔
        (s.isHole = true ∧ x = a) ∨ x ∈ holes (a + s.extent) segs := by
      rw [ih]
      constructor
      · rintro ⟨pre, t, post, he, ht, hx⟩
        cases pre with
        | nil =>
          simp only [List.nil_append, List.cons.injEq] at he
          exact Or.inl ⟨he.1 ▸ ht, by simpa using hx⟩
        | cons p pre =>
          simp only [List.cons_append, List.cons.injEq] at he
          refine Or.inr ⟨pre, t, post, he.2, ht, ?_⟩
          rw [hx, span_cons, he.1, Nat.add_assoc]
      · rintro (⟨hs, hx⟩ | ⟨pre, t, post, he, ht, hx⟩)
        · exact ⟨[], s, segs, rfl, hs, by simpa using hx⟩
        · exact ⟨s :: pre, t, post, by rw [he, List.cons_append], ht,
            by rw [hx, span_cons, Nat.add_assoc]⟩
    rw [hcons]
    cases hs : s.isHole <;> simp [holes, hs]

theorem holes_pairwise {m : Mem} {e a : ℕ} {segs : List Segment} (h : SegmentsAt m e a segs) :
    (holes a segs).Pairwise (· < ·) := by
  induction segs generalizing a with
  | nil => simp
  | cons s segs ih =>
    have hge := h.1.size_ge
    have hle := h.1.size_le
    cases hs : s.isHole with
    | false => simpa [holes, hs] using ih h.2
    | true =>
      simp only [holes, hs, ↓reduceIte, List.pairwise_cons]
      refine ⟨fun x hx => ?_, ih h.2⟩
      have := mem_holes_bounds h.2 hx
      omega

/-- The heap state holds exactly this layout: the segments tile the heap, the
index lists the holes in ascending order and lies below the heap. -/
structure Represents (s : State) (segs : List Segment) : Prop where
  segments : SegmentsAt s.mem s.heap.endAddress s.heap.startAddress segs
  tiles : s.heap.startAddress + span segs = s.heap.endAddress
  index : s.heap.index.elems s.mem = holes s.heap.startAddress segs
  room : s.heap.index.size ≤ s.heap.index.maxSize
  below : s.heap.index.array + 4 * s.heap.index.maxSize ≤ s.heap.startAddress
  top : s.heap.endAddress < wordSize

theorem Represents.index_size {s : State} {segs : List Segment} (h : Represents s segs) :
    s.heap.index.size = (holes s.heap.startAddress segs).length := by
  rw [← h.index, PtrArray.elems_length]

/-- The parts of the heap object that no operation changes; a word of the index
area is an old one or an address in the heap. -/
structure SameArena (s s' : State) : Prop where
  startAddress : s'.heap.startAddress = s.heap.startAddress
  endAddress : s'.heap.endAddress = s.heap.endAddress
  array : s'.heap.index.array = s.heap.index.array
  maxSize : s'.heap.index.maxSize = s.heap.index.maxSize
  words : WordsFrom s.heap.index.array s.heap.index.maxSize s.heap.startAddress s.mem s'.mem

/-- Outside the addresses from `lo` to `hi` only the index area may differ. -/
def ChangesOnly (s s' : State) (lo hi : ℕ) : Prop :=
  ∀ y, (y < lo ∨ hi ≤ y) →
    (y < s.heap.index.array ∨ s.heap.index.array + 4 * s.heap.index.maxSize ≤ y) →
    s'.mem y = s.mem y

theorem ChangesOnly.agreeOn {s s' : State} {lo hi lo' hi' : ℕ} (h : ChangesOnly s s' lo hi)
    (hd : hi ≤ lo' ∨ hi' ≤ lo) (hi : s.heap.index.array + 4 * s.heap.index.maxSize ≤ lo') :
    AgreeOn s.mem s'.mem lo' hi' :=
  fun y h₁ h₂ => h y (by omega) (by omega)

/-- Replacing some consecutive segments by others of the same total length. -/
theorem Represents.replace {s s' : State} {pre post mid' : List Segment} (mid : List Segment)
    (hr : Represents s (pre ++ (mid ++ post))) (hspan : span mid' = span mid)
    (hmid : SegmentsAt s'.mem s.heap.endAddress (s.heap.startAddress + span pre) mid')
    (ha : SameArena s s')
    (hch : ChangesOnly s s' (s.heap.startAddress + span pre)
      (s.heap.startAddress + span pre + span mid))
    (hidx : s'.heap.index.elems s'.mem =
      holes s.heap.startAddress (pre ++ (mid' ++ post)))
    (hroom : s'.heap.index.size ≤ s.heap.index.maxSize) :
    Represents s' (pre ++ (mid' ++ post)) := by
  have hbelow := hr.below
  obtain ⟨hpre, hrest⟩ := segmentsAt_append.mp hr.segments
  have hpost := (segmentsAt_append.mp hrest).2
  refine ⟨?_, ?_, ?_, ?_, ?_, ?_⟩
  · rw [ha.startAddress, ha.endAddress]
    refine segmentsAt_append.mpr ⟨?_, segmentsAt_append.mpr ⟨hmid, ?_⟩⟩
    · exact hpre.frame (hch.agreeOn (by omega) (by omega))
    · rw [hspan]
      exact hpost.frame (hch.agreeOn (by omega) (by omega))
  · have := hr.tiles
    rw [ha.startAddress, ha.endAddress, ← this]
    simp only [span_append, hspan]
  · rw [hidx, ha.startAddress]
  · rw [ha.maxSize]
    exact hroom
  · rw [ha.array, ha.maxSize, ha.startAddress]
    exact hbelow
  · rw [ha.endAddress]
    exact hr.top

theorem subscript_eq_getElem (a : PtrArray) (m : Mem) (i : ℕ) (h : i < (a.elems m).length) :
    subscript a m i = (a.elems m)[i] := by
  have hi : i < a.size := by simpa using h
  simp [subscript, hi, PtrArray.elems]

/-- An entry is read and erased at its place. -/
theorem erase_entry {a : PtrArray} {m : Mem} {xs ys : List ℕ} {y : ℕ} (h : a.elems m = xs ++ y :: ys) :
    xs.length < a.size ∧ subscript a m xs.length = y ∧
      (erase a m xs.length).1.elems (erase a m xs.length).2 = xs ++ ys := by
  have hi : xs.length < (a.elems m).length := by simp [h]
  have hlt : xs.length < a.size := by simpa using hi
  refine ⟨hlt, ?_, ?_⟩
  · rw [subscript_eq_getElem _ _ _ hi]
    simp [h]
  · rw [erase_elems _ hlt, h]
    simp [List.eraseIdx_append_of_length_le]

theorem searchFrom_eq (a : PtrArray) (m : Mem) (item i k : ℕ) (hk : i + k = a.size) :
    searchFrom a m item i k = i + ((a.elems m).drop i).idxOf item := by
  induction k generalizing i with
  | zero =>
    rw [List.drop_eq_nil_of_le (by rw [PtrArray.elems_length]; omega)]
    rfl
  | succ k ih =>
    have hi : i < (a.elems m).length := by rw [PtrArray.elems_length]; omega
    rw [searchFrom, List.drop_eq_getElem_cons hi, ← subscript_eq_getElem a m i hi, ih (i + 1) (by omega),
      List.idxOf_cons]
    by_cases hg : subscript a m i = item
    · simp [hg]
    · have hb : (subscript a m i == item) = false := by simpa using hg
      simp only [ne_eq, hg, not_false_eq_true, ↓reduceIte, hb, cond_false]
      omega

/-- The linear search returns the position of the entry, or the size. -/
theorem search_eq (a : PtrArray) (m : Mem) (item : ℕ) :
    search a m item = (a.elems m).idxOf item := by
  have h := searchFrom_eq a m item 0 a.size (by omega)
  simpa [search] using h

end ExperimentalKernel.Heap
