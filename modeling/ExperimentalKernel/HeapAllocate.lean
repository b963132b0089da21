import ExperimentalKernel.HeapLayout

/-!
# Allocation on a layout

Without page alignment `allocate` takes the first hole of the index that is large
enough, turns its front into a block and re-inserts the remainder.
-/

namespace ExperimentalKernel.Heap
open ByteMemory PointerArray

theorem findFrom_eq (a : PtrArray) (m : Mem) (size : ℕ) (pageAlign : Bool) (i k : ℕ)
    (hk : i + k = a.size) :
    findFrom a m size pageAlign i k =
      (((a.elems m).drop i).findIdx? (holeFits m size pageAlign)).map (i + ·) := by
  induction k generalizing i with
  | zero =>
    rw [List.drop_eq_nil_of_le (by rw [PtrArray.elems_length]; omega)]
    rfl
  | succ k ih =>
    have hi : i < (a.elems m).length := by rw [PtrArray.elems_length]; omega
    rw [findFrom, List.drop_eq_getElem_cons hi, ← subscript_eq_getElem a m i hi,
      ih (i + 1) (by omega), List.findIdx?_cons]
    cases holeFits m size pageAlign (subscript a m i) with
    | true => simp
    | false =>
      simp only [Bool.false_eq_true, ↓reduceIte, Option.map_map]
      congr 1
      funext j
      simp only [Function.comp_apply]
      omega

/-- `findSmallestHole` returns the first entry of the index that passes the test. -/
theorem findSmallestHole_eq (s : State) (size : ℕ) (pageAlign : Bool) :
    findSmallestHole s size pageAlign =
      (s.heap.index.elems s.mem).findIdx? (holeFits s.mem size pageAlign) := by
  rw [findSmallestHole, findFrom_eq _ _ _ _ _ _ (Nat.zero_add _)]
  simp

theorem holes_getElem {a i x : ℕ} {segs : List Segment} (h : (holes a segs)[i]? = some x) :
    ∃ pre s post, segs = pre ++ s :: post ∧ s.isHole = true ∧ x = a + span pre ∧
      i = (holes a pre).length := by
  induction segs generalizing a i with
  | nil => simp at h
  | cons s segs ih =>
    cases hs : s.isHole with
    | false =>
      simp only [holes, hs, Bool.false_eq_true, ↓reduceIte] at h
      obtain ⟨pre, t, post, he, ht, hx, hi⟩ := ih h
      refine ⟨s :: pre, t, post, by rw [he, List.cons_append], ht, ?_, ?_⟩
      · rw [hx, span_cons, Nat.add_assoc]
      · simp [holes, hs, hi]
    | true =>
      simp only [holes, hs, ↓reduceIte] at h
      cases i with
      | zero =>
        simp only [List.getElem?_cons_zero, Option.some.injEq] at h
        exact ⟨[], s, segs, rfl, hs, by simpa using h.symm, rfl⟩
      | succ i =>
        simp only [List.getElem?_cons_succ] at h
        obtain ⟨pre, t, post, he, ht, hx, hi⟩ := ih h
        refine ⟨s :: pre, t, post, by rw [he, List.cons_append], ht, ?_, ?_⟩
        · rw [hx, span_cons, Nat.add_assoc]
        · simp [holes, hs, hi]

theorem holeFits_hole {m : Mem} {e a need : ℕ} {s : Segment} (h : SegmentAt m e a s)
    (hs : s.isHole = true) : holeFits m need false a = decide (need ≤ s.size) := by
  have hf := h.header.flag
  rw [hs] at hf
  simp [holeFits, hf, h.header.sized]

/-- A request that fits no hole finds none. -/
theorem findSmallestHole_none {s : State} {segs : List Segment} {need : ℕ}
    (hr : Represents s segs) (hn : findSmallestHole s need false = none) :
    ∀ t ∈ segs, t.isHole = true → t.size < need := by
  intro t ht hhole
  rw [findSmallestHole_eq, List.findIdx?_eq_none_iff, hr.index] at hn
  obtain ⟨pre, post, he⟩ := List.append_of_mem ht
  subst he
  have hmem := hn (s.heap.startAddress + span pre)
    (mem_holes_iff.mpr ⟨pre, t, post, rfl, hhole, rfl⟩)
  have hseg := (segmentsAt_append.mp hr.segments).2.1
  rw [holeFits_hole hseg hhole] at hmem
  simpa using hmem

/-- A request that is granted takes the first hole that is large enough. -/
theorem findSmallestHole_some {s : State} {segs : List Segment} {need i : ℕ}
    (hr : Represents s segs) (hn : findSmallestHole s need false = some i) :
    ∃ pre t post, segs = pre ++ t :: post ∧ t.isHole = true ∧ need ≤ t.size ∧
      (∀ u ∈ pre, u.isHole = true → u.size < need) ∧
      i = (holes s.heap.startAddress pre).length := by
  rw [findSmallestHole_eq, List.findIdx?_eq_some_iff_getElem, hr.index] at hn
  obtain ⟨hi, hfit, hfirst⟩ := hn
  obtain ⟨pre, t, post, he, ht, hx, hlen⟩ := holes_getElem (List.getElem?_eq_getElem hi)
  subst he
  have hsegs := segmentsAt_append.mp hr.segments
  refine ⟨pre, t, post, rfl, ht, ?_, ?_, hlen⟩
  · rw [hx, holeFits_hole hsegs.2.1 ht] at hfit
    simpa using hfit
  · intro u hu hhole
    obtain ⟨p, q, hpq⟩ := List.append_of_mem hu
    subst hpq
    have hat := (segmentsAt_append.mp hsegs.1).2.1
    have hj : (holes s.heap.startAddress p).length < i := by
      rw [hlen, holes_append]
      simp [holes, hhole]
    have hne := hfirst _ hj
    have hlt := hj.trans hi
    have hget : (holes s.heap.startAddress ((p ++ u :: q) ++ t :: post))[
        (holes s.heap.startAddress p).length] = s.heap.startAddress + span p := by
      simp [List.append_assoc, holes_append, holes, hhole]
    rw [hget, holeFits_hole hat hhole] at hne
    simpa using hne

/-- Writing a header and the matching footer makes a segment. -/
theorem segmentAt_written (m : Mem) (isHole : Bool) {e a n : ℕ} (hn : 20 ≤ n)
    (ha : a + n < wordSize) :
    SegmentAt (writeFooter (writeHeader m a isHole n) (a + n - 8) a) e a ⟨isHole, n, n, a⟩ where
  header := (headerAt_writeHeader m a isHole (by omega : n < wordSize)).frame
    ((writeFooter_agreeOff _ a (Nat.le_refl _) (Nat.le_refl _)).agreeOn (by omega))
  size_ge := hn
  size_le := Nat.le_refl _
  block _ := ⟨rfl, rfl⟩
  footer _ := footerAt_writeFooter _ _ (by omega)
  hole _ _ := Or.inl ⟨rfl, rfl⟩

theorem written_agreeOff (m : Mem) (isHole : Bool) {a n : ℕ} (hn : 20 ≤ n) :
    AgreeOff m (writeFooter (writeHeader m a isHole n) (a + n - 8) a) a (a + n) :=
  (writeHeader_agreeOff m isHole n (Nat.le_refl _) (by omega)).trans
    (writeFooter_agreeOff _ a (by omega) (by omega))

/-- The hole is used up: its whole length becomes the block. -/
theorem placeBlock_exact (h : KernelHeap) (m : Mem) {a n size : ℕ} (hn : size + 20 = n)
    (ha : a + n < wordSize) :
    placeBlock h m a n size n = ⟨h, writeFooter (writeHeader m a false n) (a + n - 8) a⟩ := by
  have hz : ¬ 0 < sub32 n n := by rw [sub32_eq (Nat.le_refl n)]; omega
  have hfoot : add32 (add32 a 12) size = a + n - 8 := by
    rw [add32_eq (by omega : a + 12 < wordSize), add32_eq (by omega)]
    omega
  simp only [placeBlock, hz, ↓reduceIte, hfoot]

/-- The hole is split: block, remainder with header and footer, index entry. -/
theorem placeBlock_split (h : KernelHeap) (m : Mem) {a n size holeSize : ℕ} (hn : size + 20 = n)
    (hrem : n + 20 ≤ holeSize) (ha : a + holeSize ≤ h.endAddress) (he : h.endAddress < wordSize) :
    placeBlock h m a holeSize size n =
      let m₂ := writeFooter (writeHeader m a false n) (a + n - 8) a
      let m₄ := writeFooter (writeHeader m₂ (a + n) true (holeSize - n)) (a + holeSize - 8) (a + n)
      ⟨{ h with index := (orderedAdd h.index m₄ (a + n)).1 }, (orderedAdd h.index m₄ (a + n)).2⟩ := by
  have hsub : sub32 holeSize n = holeSize - n := sub32_eq (by omega)
  have hfoot : add32 (add32 a 12) size = a + n - 8 := by
    rw [add32_eq (by omega : a + 12 < wordSize), add32_eq (by omega)]
    omega
  have hhole : add32 (a + n - 8) 8 = a + n := by
    rw [add32_eq (by omega)]
    omega
  have hsize : ∀ m' : Mem, headerSize (writeHeader m' (a + n) true (holeSize - n)) (a + n) =
      holeSize - n := fun m' => (headerAt_writeHeader m' (a + n) true (by omega)).sized
  have hend : sub32 (add32 (a + n) (holeSize - n)) 8 = a + holeSize - 8 := by
    rw [add32_eq (by omega), sub32_eq (by omega)]
    omega
  simp only [placeBlock, hsub, hfoot, hhole, hsize, hend, if_pos (by omega : 0 < holeSize - n),
    if_pos (by omega : a + holeSize - 8 < h.endAddress)]

/-- What the front of a hole at `a` becomes when `need` bytes are taken from it. -/
def cut (a need : ℕ) (t : Segment) : List Segment :=
  if t.size - need < 20 then [⟨false, t.size, t.size, a⟩]
  else [⟨false, need, need, a⟩, ⟨true, t.size - need, t.size - need, a + need⟩]

theorem span_cut {a need : ℕ} {t : Segment} (hn : need ≤ t.size) : span (cut a need t) = t.size := by
  unfold cut
  split
  · simp
  · simp
    omega

theorem orderedInsert_between {xs ys : List ℕ} {v : ℕ} (hx : ∀ x ∈ xs, x < v) (hy : ∀ y ∈ ys, v ≤ y) :
    (xs ++ ys).orderedInsert (· ≤ ·) v = xs ++ v :: ys := by
  induction xs with
  | nil =>
    cases ys with
    | nil => rfl
    | cons y ys => exact List.orderedInsert_cons_of_le _ ys (hy y List.mem_cons_self)
  | cons x xs ih =>
    have hlt := hx x List.mem_cons_self
    rw [List.cons_append, List.orderedInsert_of_not_le _ _ (by omega),
      ih (fun z hz => hx z (List.mem_cons_of_mem _ hz)), List.cons_append]

/-- Inserting a hole between the holes of a prefix and those of a suffix. -/
theorem holes_insert {m m' : Mem} {e a b c : ℕ} {pre post : List Segment}
    (hpre : SegmentsAt m e a pre) (hpost : SegmentsAt m' e c post) (hb : a + span pre ≤ b)
    (hc : b < c) :
    (holes a pre ++ holes c post).orderedInsert (· ≤ ·) b = holes a pre ++ b :: holes c post := by
  refine orderedInsert_between (fun x hx => ?_) (fun y hy => ?_)
  · have := mem_holes_bounds hpre hx
    omega
  · have := mem_holes_bounds hpost hy
    omega

/-- An index object and a memory in which the entry of the segment `t` is gone
and nothing outside the index area has changed. -/
structure Unlisted (s : State) (pre : List Segment) (t : Segment) (post : List Segment)
    (index : PtrArray) (m : Mem) : Prop where
  array : index.array = s.heap.index.array
  maxSize : index.maxSize = s.heap.index.maxSize
  words : WordsFrom s.heap.index.array s.heap.index.maxSize s.heap.startAddress s.mem m
  room : index.size < s.heap.index.maxSize
  agree : AgreeOff s.mem m s.heap.index.array
    (s.heap.index.array + 4 * s.heap.index.maxSize)
  elems : index.elems m = holes s.heap.startAddress pre ++
    holes (s.heap.startAddress + span pre + t.extent) post

/-- Erasing the entry of the chosen hole, which is the one `subscript` finds. -/
theorem unlisted_erase {s : State} {pre post : List Segment} {t : Segment}
    (hr : Represents s (pre ++ t :: post)) (ht : t.isHole = true) :
    let i := (holes s.heap.startAddress pre).length
    subscript s.heap.index s.mem i = s.heap.startAddress + span pre ∧
      Unlisted s pre t post (erase s.heap.index s.mem i).1 (erase s.heap.index s.mem i).2 := by
  intro i
  have hroom := hr.room
  have hidx : s.heap.index.elems s.mem = holes s.heap.startAddress pre ++
      (s.heap.startAddress + span pre) :: holes (s.heap.startAddress + span pre + t.extent) post := by
    rw [hr.index, holes_append]
    simp [holes, ht]
  obtain ⟨hlt, hread, herased⟩ := erase_entry hidx
  have hsize : (erase s.heap.index s.mem i).1.size = _ := erase_size s.mem hlt
  refine ⟨hread, rfl, rfl, erase_wordsFrom s.mem hlt hroom, by omega,
    (erase_agreeOff s.mem hlt).mono (by omega) (by omega), herased⟩

theorem segmentsAt_cut_exact {m : Mem} {e a need : ℕ} {t : Segment} (hc : t.size - need < 20)
    (h : SegmentAt m e a ⟨false, t.size, t.size, a⟩) : SegmentsAt m e a (cut a need t) := by
  rw [cut, if_pos hc]
  exact ⟨h, trivial⟩

theorem segmentsAt_cut_split {m : Mem} {e a need : ℕ} {t : Segment} (hc : ¬ t.size - need < 20)
    (h : SegmentAt m e a ⟨false, need, need, a⟩)
    (h' : SegmentAt m e (a + need) ⟨true, t.size - need, t.size - need, a + need⟩) :
    SegmentsAt m e a (cut a need t) := by
  rw [cut, if_neg hc]
  exact ⟨h, h', trivial⟩

section Place
variable {s : State} {pre post : List Segment} {t : Segment} {index : PtrArray} {m : Mem}

/-- The whole hole becomes the block. -/
theorem represents_exact (hr : Represents s (pre ++ t :: post)) (hleak : t.extent = t.size)
    (hu : Unlisted s pre t post index m) {need : ℕ} (hneed : need ≤ t.size)
    (hc : t.size - need < 20) :
    let x := s.heap.startAddress + span pre
    let s' : State := ⟨{ s.heap with index := index },
      writeFooter (writeHeader m x false t.size) (x + t.size - 8) x⟩
    Represents s' (pre ++ (cut x need t ++ post)) ∧ SameArena s s' ∧
      ChangesOnly s s' x (x + t.size) := by
  intro x s'
  have htop := hr.top
  have hbelow := hr.below
  have hge := (segmentsAt_append.mp hr.segments).2.1.size_ge
  have hroom := hu.room
  have harray := hu.array
  have hsum := hr.tiles
  rw [span_append, span_cons, hleak] at hsum
  have hw := written_agreeOff m false (a := x) hge
  have hch : ChangesOnly s s' x (x + t.size) :=
    fun y hy hy' => (hw y hy).trans (hu.agree y hy')
  have ha : SameArena s s' := ⟨rfl, rfl, hu.array, hu.maxSize,
    hu.words.trans (wordsFrom_of_agreeOn (hw.agreeOn (by omega)))⟩
  have hspan : span [t] = t.size := by simpa using hleak
  refine ⟨?_, ha, hch⟩
  refine hr.replace [t] ((span_cut hneed).trans hspan.symm) ?_ ha ?_ ?_ hroom.le
  · exact segmentsAt_cut_exact hc (segmentAt_written _ false hge (by omega))
  · rw [hspan]
    exact hch
  · have hcut : holes x (cut x need t) = [] := by simp [cut, hc, holes]
    rw [holes_append, holes_append, span_cut hneed, hcut, List.nil_append, ← hleak]
    exact (index.elems_congr (hw.agreeOn (by omega))).trans hu.elems

/-- The front of the hole becomes the block, the rest a new entry of the index. -/
theorem represents_split (hr : Represents s (pre ++ t :: post)) (hleak : t.extent = t.size)
    (hu : Unlisted s pre t post index m) {need : ℕ} (hneed : 20 ≤ need)
    (hc : need + 20 ≤ t.size) :
    let x := s.heap.startAddress + span pre
    let m₂ := writeFooter (writeHeader m x false need) (x + need - 8) x
    let m₄ := writeFooter (writeHeader m₂ (x + need) true (t.size - need)) (x + t.size - 8) (x + need)
    let s' : State := ⟨{ s.heap with index := (orderedAdd index m₄ (x + need)).1 },
      (orderedAdd index m₄ (x + need)).2⟩
    Represents s' (pre ++ (cut x need t ++ post)) ∧ SameArena s s' ∧
      ChangesOnly s s' x (x + t.size) := by
  intro x m₂ m₄ s'
  have htop := hr.top
  have hbelow := hr.below
  have hroom := hu.room
  have harray := hu.array
  have hsum := hr.tiles
  rw [span_append, span_cons, hleak] at hsum
  have hsplit : x + t.size - 8 = x + need + (t.size - need) - 8 := by omega
  have hw₂ : AgreeOff m m₂ x (x + need) := written_agreeOff m false hneed
  have hw₄ : AgreeOff m₂ m₄ (x + need) (x + t.size) := by
    have := written_agreeOff m₂ true (a := x + need) (n := t.size - need) (by omega)
    rw [← hsplit] at this
    exact this.mono (by omega) (by omega)
  have hadd := orderedAdd_agreeOff index m₄ (x + need)
  have hch : ChangesOnly s s' x (x + t.size) :=
    fun y hy hy' => (hadd y (by omega)).trans ((hw₄ y (by omega)).trans
      ((hw₂ y (by omega)).trans (hu.agree y hy')))
  have hwords : WordsFrom s.heap.index.array s.heap.index.maxSize s.heap.startAddress m₄
      (orderedAdd index m₄ (x + need)).2 := by
    rw [← harray]
    exact orderedAdd_wordsFrom index m₄ (by omega) (by omega)
  have ha : SameArena s s' :=
    ⟨rfl, rfl, (orderedAdd_array _ _ _).trans hu.array, (orderedAdd_maxSize _ _ _).trans hu.maxSize,
      (hu.words.trans (wordsFrom_of_agreeOn ((hw₂.agreeOn (by omega)).trans
        (hw₄.agreeOn (by omega))))).trans hwords⟩
  have hspan : span [t] = t.size := by simpa using hleak
  obtain ⟨hpre, -, hpost⟩ := segmentsAt_append.mp hr.segments
  refine ⟨?_, ha, hch⟩
  refine hr.replace [t] ((span_cut (by omega)).trans hspan.symm) ?_ ha ?_ ?_ ?_
  · refine segmentsAt_cut_split (by omega) ?_ ?_
    · have hb : SegmentAt m₂ s.heap.endAddress x ⟨false, need, need, x⟩ :=
        segmentAt_written m false hneed (by omega)
      exact hb.frame ((hw₄.agreeOn (by simp)).trans (hadd.agreeOn (by omega)))
    · have hh : SegmentAt m₄ s.heap.endAddress (x + need)
          ⟨true, t.size - need, t.size - need, x + need⟩ := by
        have := segmentAt_written m₂ true (e := s.heap.endAddress) (a := x + need)
          (n := t.size - need) (by omega) (by omega)
        rwa [← hsplit] at this
      exact hh.frame (hadd.agreeOn (by omega))
  · rw [hspan]
    exact hch
  · have hcut : holes x (cut x need t) = [x + need] := by
      rw [cut, if_neg (by omega)]
      simp [holes]
    have hel : index.elems m₄ = index.elems m :=
      index.elems_congr ((hw₂.agreeOn (by omega)).trans (hw₄.agreeOn (by omega)))
    change (orderedAdd index m₄ (x + need)).1.elems (orderedAdd index m₄ (x + need)).2 = _
    rw [orderedAdd_elems m₄ (by omega) (by omega), hel, hu.elems,
      holes_insert hpre hpost (by omega) (by omega), holes_append, holes_append,
      span_cut (by omega), hcut, hleak]
    rfl
  · exact (orderedAdd_size m₄ _ (by omega)).le.trans hroom

end Place

theorem allocate_found {s : State} {size i x n : ℕ} (hadd : size + 20 < wordSize)
    (hfind : findSmallestHole s (size + 20) false = some i)
    (hsub : subscript s.heap.index s.mem i = x) (hsized : headerSize s.mem x = n)
    (hx : x + 12 < wordSize) :
    allocate s size false = (x + 12,
      placeBlock { s.heap with index := (erase s.heap.index s.mem i).1 }
        (erase s.heap.index s.mem i).2 x n (absorb size (size + 20) n).1
        (absorb size (size + 20) n).2) := by
  have h₁ : add32 size 20 = size + 20 := add32_eq hadd
  have h₂ : add32 x 12 = x + 12 := add32_eq hx
  simp only [allocate, h₁, hfind, hsub, hsized, h₂, Bool.false_eq_true, false_and, ↓reduceIte]

/-- A granted request replaces the chosen hole by a block and what is left of the
hole; only that hole and the index change. -/
theorem allocate_represents {s : State} {pre post : List Segment} {t : Segment} {size : ℕ}
    (hr : Represents s (pre ++ t :: post)) (ht : t.isHole = true) (hleak : t.extent = t.size)
    (hneed : size + 20 ≤ t.size)
    (hfind : findSmallestHole s (size + 20) false =
      some (holes s.heap.startAddress pre).length) :
    let x := s.heap.startAddress + span pre
    ∃ s', allocate s size false = (x + 12, s') ∧
      Represents s' (pre ++ (cut x (size + 20) t ++ post)) ∧ SameArena s s' ∧
      ChangesOnly s s' x (x + t.size) := by
  intro x
  have htop := hr.top
  have hsum := hr.tiles
  rw [span_append, span_cons, hleak] at hsum
  have hseg := (segmentsAt_append.mp hr.segments).2.1
  obtain ⟨hsub, hu⟩ := unlisted_erase hr ht
  have hfound := allocate_found (by omega) hfind hsub hseg.header.sized (by omega)
  by_cases hc : t.size - (size + 20) < 20
  · have habs : absorb size (size + 20) t.size = (t.size - 20, t.size) := by
      rw [absorb, sub32_eq hneed, if_pos hc, add32_eq (by omega)]
      congr 1
      omega
    rw [habs, placeBlock_exact _ _ (by omega) (by omega)] at hfound
    exact ⟨_, hfound, represents_exact hr hleak hu hneed hc⟩
  · have habs : absorb size (size + 20) t.size = (size, size + 20) := by
      rw [absorb, sub32_eq hneed, if_neg hc]
    rw [habs, placeBlock_split _ _ rfl (by omega)] at hfound
    · exact ⟨_, hfound, represents_split hr hleak hu (by omega) (by omega)⟩
    · simp only
      omega
    · exact htop

end ExperimentalKernel.Heap
