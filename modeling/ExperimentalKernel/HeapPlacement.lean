import ExperimentalKernel.HeapWellFormed

/-!
# Placing a block in a well-formed heap

After a hole was chosen `allocate` stages the rest: its entry leaves the index, or a
smaller hole in front keeps it. Then a block is placed, and what is left after it
becomes a new entry.
-/

namespace ExperimentalKernel.Heap
open ByteMemory PointerArray

variable {s : State} {pre post segs front : List Segment} {t : Segment} {index : PtrArray} {m : Mem}
  {need n b : ℕ}

theorem IntactAt.holeFits {e a : ℕ} (h : IntactAt m e a t) (ht : t.isHole = true) :
    holeFits m need false a = decide (need ≤ t.size) := by
  have hf := h.header.flag
  rw [ht] at hf
  simp [Heap.holeFits, hf, h.header.sized]

/-- The entry found is that of a hole, and no entry before it fits. -/
theorem WellFormed.found (hw : WellFormed s segs) {pageAlign : Bool} {i : ℕ}
    (hfind : findSmallestHole s need pageAlign = some i) :
    ∃ pre t post, segs = pre ++ t :: post ∧ t.isHole = true ∧
      i = (holes s.heap.startAddress pre).length ∧
      holeFits s.mem need pageAlign (s.heap.startAddress + span pre) = true ∧
      ∀ x ∈ holes s.heap.startAddress pre, holeFits s.mem need pageAlign x = false := by
  rw [findSmallestHole_eq, List.findIdx?_eq_some_iff_getElem, hw.index] at hfind
  obtain ⟨hi, hfit, hfirst⟩ := hfind
  obtain ⟨pre, t, post, rfl, ht, hx, hlen⟩ := holes_getElem (List.getElem?_eq_getElem hi)
  refine ⟨pre, t, post, rfl, ht, hlen, hx ▸ hfit, fun x hmem => ?_⟩
  obtain ⟨j, hj, rfl⟩ := List.getElem_of_mem hmem
  have := hfirst j (hlen ▸ hj)
  simp only [holes_append, List.getElem_append_left hj] at this
  simpa using this

theorem WellFormed.not_found (hw : WellFormed s segs) {pageAlign : Bool}
    (hfind : findSmallestHole s need pageAlign = none) :
    ∀ x ∈ holes s.heap.startAddress segs, holeFits s.mem need pageAlign x = false := by
  rw [findSmallestHole_eq, List.findIdx?_eq_none_iff, hw.index] at hfind
  exact hfind

/-- Without alignment the lowest hole that is large enough is found. -/
theorem WellFormed.lowest (hw : WellFormed s segs)
    (hex : ∃ t ∈ segs, t.isHole = true ∧ need ≤ t.size) :
    ∃ pre t post, segs = pre ++ t :: post ∧ t.isHole = true ∧ need ≤ t.size ∧
      (∀ u ∈ pre, u.isHole = true → u.size < need) ∧
      findSmallestHole s need false = some (holes s.heap.startAddress pre).length := by
  cases hfind : findSmallestHole s need false with
  | none =>
    obtain ⟨t, hmem, ht, hle⟩ := hex
    obtain ⟨pre, post, rfl⟩ := List.append_of_mem hmem
    have hno := hw.not_found hfind _ (mem_holes_iff.mpr ⟨pre, t, post, rfl, ht, rfl⟩)
    rw [hw.intact.holeFits ht, decide_eq_false_iff_not] at hno
    exact absurd hle hno
  | some i =>
    obtain ⟨pre, t, post, rfl, ht, rfl, hfit, hfirst⟩ := hw.found hfind
    rw [hw.intact.holeFits ht, decide_eq_true_eq] at hfit
    refine ⟨pre, t, post, rfl, ht, hfit, fun u hmem hu => ?_, rfl⟩
    obtain ⟨p, q, rfl⟩ := List.append_of_mem hmem
    have hno := hfirst _ (mem_holes_iff.mpr ⟨p, u, q, rfl, hu, rfl⟩)
    rw [List.append_assoc, List.cons_append] at hw
    rw [hw.intact.holeFits hu, decide_eq_false_iff_not] at hno
    exact not_le.mp hno

/-- The memory and the index before the block is placed in the hole `t` behind the
segments `front`. -/
structure Staged (s : State) (pre : List Segment) (t : Segment) (post front : List Segment)
    (index : PtrArray) (m : Mem) : Prop where
  array : index.array = s.heap.index.array
  maxSize : index.maxSize = s.heap.index.maxSize
  room : index.size ≤ s.heap.index.maxSize
  fronts : IntactsAt m s.heap.endAddress (s.heap.startAddress + span pre) front
  change : ∀ y, (y < s.heap.startAddress + span pre ∨
      s.heap.startAddress + span pre + span front ≤ y) →
    (y < s.heap.index.array ∨ s.heap.index.array + 4 * s.heap.index.maxSize ≤ y) → m y = s.mem y
  elems : index.elems m = holes s.heap.startAddress pre ++
    (holes (s.heap.startAddress + span pre) front ++
      holes (s.heap.startAddress + span pre + t.size) post)

/-- The entry of the chosen hole is erased. -/
theorem WellFormed.staged_erase (hw : WellFormed s (pre ++ t :: post)) (ht : t.isHole = true) :
    let i := (holes s.heap.startAddress pre).length
    subscript s.heap.index s.mem i = s.heap.startAddress + span pre ∧
      Staged s pre t post [] (erase s.heap.index s.mem i).1 (erase s.heap.index s.mem i).2 ∧
      (erase s.heap.index s.mem i).1.size < s.heap.index.maxSize := by
  intro i
  have hroom := hw.room
  have hidx : s.heap.index.elems s.mem = holes s.heap.startAddress pre ++
      (s.heap.startAddress + span pre) :: holes (s.heap.startAddress + span pre + t.size) post := by
    rw [hw.index, holes_append]
    simp [holes, ht, hw.intact.extent]
  obtain ⟨hlt, hread, herased⟩ := erase_entry hidx
  have hsize : (erase s.heap.index s.mem i).1.size = _ := erase_size s.mem hlt
  refine ⟨hread, ⟨rfl, rfl, by omega, trivial, fun y _ hy => ?_, ?_⟩, by omega⟩
  · exact erase_agreeOff s.mem hlt y (by omega)
  · simpa using herased

/-- A written segment is intact. -/
theorem intactAt_written (m : Mem) (isHole : Bool) {e a n : ℕ} (hn : 20 ≤ n)
    (ha : a + n < wordSize) :
    IntactAt (writeFooter (writeHeader m a isHole n) (a + n - 8) a) e a ⟨isHole, n, n, a⟩ :=
  have h := segmentAt_written (e := a + n + 1) m isHole hn ha
  ⟨h.header, hn, rfl, rfl, fun _ => h.footer (Or.inr (Nat.lt_succ_self _))⟩

/-- Nothing is left after the block. -/
theorem Staged.exact (hw : WellFormed s (pre ++ t :: post))
    (hs : Staged s pre t post front index m) (hb : b = s.heap.startAddress + span pre + span front)
    (hn : 20 ≤ n) (hend : span front + n = t.size) :
    let s' : State := ⟨{ s.heap with index := index }, writeFooter (writeHeader m b false n) (b + n - 8) b⟩
    WellFormed s' (pre ++ (front ++ [⟨false, n, n, b⟩] ++ post)) ∧ SameBounds s s' ∧
      ChangesOnly s s' (s.heap.startAddress + span pre) (s.heap.startAddress + span pre + t.size) := by
  intro s'
  have htop := hw.top
  have hbelow := hw.below
  have hbounds := hw.bounds
  have hroom := hs.room
  have harray := hs.array
  have hwrite := written_agreeOff m false (a := b) hn
  have hch : ChangesOnly s s' (s.heap.startAddress + span pre)
      (s.heap.startAddress + span pre + t.size) :=
    fun y hy hy' => (hwrite y (by omega)).trans (hs.change y (by omega) hy')
  have hbnd : SameBounds s s' := ⟨rfl, rfl, hs.array, hs.maxSize⟩
  refine ⟨hw.replace ?_ ?_ hbnd hch ?_ hs.room, hbnd, hch⟩
  · rw [span_append, span_cons, span_nil]
    exact hend
  · refine intactsAt_append.mpr ⟨?_, ?_, trivial⟩
    · exact hs.fronts.frame (hwrite.agreeOn (by omega))
    · rw [← hb]
      exact intactAt_written m false hn (by omega)
  · have hel : index.elems s'.mem = index.elems m := index.elems_congr (hwrite.agreeOn (by omega))
    have hblock : holes (s.heap.startAddress + span pre + span front) [⟨false, n, n, b⟩] = [] := rfl
    change index.elems s'.mem = _
    rw [hel, hs.elems, holes_append, holes_append, holes_append, hblock, List.append_nil, span_append,
      span_cons, span_nil, Nat.add_zero, hend]

/-- A hole is left after the block. -/
theorem Staged.split (hw : WellFormed s (pre ++ t :: post))
    (hs : Staged s pre t post front index m) (hb : b = s.heap.startAddress + span pre + span front)
    (hn : 20 ≤ n) {r : ℕ} (hr : 20 ≤ r) (hend : span front + n + r = t.size)
    (hroom : index.size < s.heap.index.maxSize) :
    let m₂ := writeFooter (writeHeader m b false n) (b + n - 8) b
    let m₄ := writeFooter (writeHeader m₂ (b + n) true r) (b + n + r - 8) (b + n)
    let s' : State := ⟨{ s.heap with index := (orderedAdd index m₄ (b + n)).1 },
      (orderedAdd index m₄ (b + n)).2⟩
    WellFormed s' (pre ++ (front ++ [⟨false, n, n, b⟩, ⟨true, r, r, b + n⟩] ++ post)) ∧
      SameBounds s s' ∧
      ChangesOnly s s' (s.heap.startAddress + span pre) (s.heap.startAddress + span pre + t.size) := by
  intro m₂ m₄ s'
  have htop := hw.top
  have hbelow := hw.below
  have hbounds := hw.bounds
  have harray := hs.array
  have hw₂ : AgreeOff m m₂ b (b + n) := written_agreeOff m false hn
  have hw₄ : AgreeOff m₂ m₄ (b + n) (b + n + r) := written_agreeOff m₂ true hr
  have hadd := orderedAdd_agreeOff index m₄ (b + n)
  have hch : ChangesOnly s s' (s.heap.startAddress + span pre)
      (s.heap.startAddress + span pre + t.size) :=
    fun y hy hy' => (hadd y (by omega)).trans ((hw₄ y (by omega)).trans
      ((hw₂ y (by omega)).trans (hs.change y (by omega) hy')))
  have hsize : (orderedAdd index m₄ (b + n)).1.size = index.size + 1 :=
    orderedAdd_size m₄ _ (by omega)
  have hspan : span (front ++ [⟨false, n, n, b⟩, ⟨true, r, r, b + n⟩]) = t.size := by
    rw [span_append, span_cons, span_cons, span_nil, Nat.add_zero, ← Nat.add_assoc]
    exact hend
  have hbnd : SameBounds s s' :=
    ⟨rfl, rfl, (orderedAdd_array _ _ _).trans hs.array, (orderedAdd_maxSize _ _ _).trans hs.maxSize⟩
  refine ⟨hw.replace hspan ?_ hbnd hch ?_ (hsize.le.trans hroom), hbnd, hch⟩
  · refine intactsAt_append.mpr ⟨?_, ?_, ?_, trivial⟩
    · exact hs.fronts.frame ((hw₂.agreeOn (by omega)).trans ((hw₄.agreeOn (by omega)).trans
        (hadd.agreeOn (by omega))))
    · rw [← hb]
      have hblock : IntactAt m₂ s.heap.endAddress b ⟨false, n, n, b⟩ :=
        intactAt_written m false hn (by omega)
      exact hblock.frame ((hw₄.agreeOn (by simp)).trans (hadd.agreeOn (by omega)))
    · rw [← hb]
      have hhole : IntactAt m₄ s.heap.endAddress (b + n) ⟨true, r, r, b + n⟩ :=
        intactAt_written m₂ true hr (by omega)
      exact hhole.frame (hadd.agreeOn (by omega))
  · have hel : index.elems m₄ = index.elems m :=
      index.elems_congr ((hw₂.agreeOn (by omega)).trans (hw₄.agreeOn (by omega)))
    have htail : holes (s.heap.startAddress + span pre + span front)
        [⟨false, n, n, b⟩, ⟨true, r, r, b + n⟩] = [b + n] := by
      simp [holes, hb]
    obtain ⟨hpre, -, hpost⟩ := intactsAt_append.mp hw.segments
    rw [hw.intact.extent] at hpost
    change (orderedAdd index m₄ (b + n)).1.elems (orderedAdd index m₄ (b + n)).2 = _
    rw [orderedAdd_elems m₄ (by omega) (by omega), hel, hs.elems, ← List.append_assoc,
      orderedInsert_between, holes_append, holes_append, hspan, holes_append, htail]
    · simp
    · intro x hx
      rcases List.mem_append.mp hx with hx | hx
      · have := hpre.hole_bounds hx
        omega
      · have := hs.fronts.hole_bounds hx
        omega
    · intro y hy
      have := hpost.hole_bounds hy
      omega

/-- What is left of a hole: nothing, or a smaller hole. -/
def leftOver (a r : ℕ) : List Segment := if r = 0 then [] else [⟨true, r, r, a⟩]

@[simp] theorem leftOver_zero (a : ℕ) : leftOver a 0 = [] := rfl

theorem leftOver_pos (a : ℕ) {r : ℕ} (hr : r ≠ 0) : leftOver a r = [⟨true, r, r, a⟩] := if_neg hr

@[simp] theorem span_leftOver (a r : ℕ) : span (leftOver a r) = r := by
  by_cases hr : r = 0
  · rw [hr]
    rfl
  · rw [leftOver_pos a hr]
    rfl

/-- Placing a block of `n` bytes so that `r` are left. -/
theorem Staged.placeBlock (hw : WellFormed s (pre ++ t :: post))
    (hs : Staged s pre t post front index m) (hb : b = s.heap.startAddress + span pre + span front)
    {size r : ℕ} (hn : size + 20 = n) (hend : span front + n + r = t.size)
    (hr : r = 0 ∨ 20 ≤ r ∧ index.size < s.heap.index.maxSize) :
    let s' := Heap.placeBlock { s.heap with index := index } m b (n + r) size n
    WellFormed s' (pre ++ (front ++ ⟨false, n, n, b⟩ :: leftOver (b + n) r ++ post)) ∧
      SameBounds s s' ∧
      ChangesOnly s s' (s.heap.startAddress + span pre) (s.heap.startAddress + span pre + t.size) := by
  intro s'
  have htop := hw.top
  have hbounds := hw.bounds
  rcases hr with rfl | ⟨hr, hroom⟩
  · have heq : s' = _ := placeBlock_exact { s.heap with index := index } m hn (by omega)
    rw [heq]
    exact hs.exact hw hb (by omega) (by omega)
  · have hfit : b + (n + r) ≤ s.heap.endAddress := by omega
    have heq : s' = _ := placeBlock_split { s.heap with index := index } m hn
      (by omega : n + 20 ≤ n + r) hfit htop
    rw [Nat.add_sub_cancel_left, ← Nat.add_assoc] at heq
    rw [heq, leftOver_pos _ (by omega)]
    exact hs.split hw hb (by omega) hr hend hroom

/-- A remainder too small for its tags becomes part of the block. -/
theorem absorb_cases {size holeSize : ℕ} (hsize : size + 20 ≤ holeSize) (htop : holeSize < wordSize) :
    ∃ n r, absorb size (size + 20) holeSize = (n - 20, n) ∧ size + 20 ≤ n ∧ n + r = holeSize ∧
      (r = 0 ∨ 20 ≤ r) := by
  by_cases hc : holeSize - (size + 20) < 20
  · refine ⟨holeSize, 0, ?_, hsize, rfl, .inl rfl⟩
    rw [absorb, sub32_eq hsize, if_pos hc, add32_eq (by omega)]
    congr 1
    omega
  · refine ⟨size + 20, holeSize - (size + 20), ?_, le_rfl, by omega, .inr (by omega)⟩
    rw [absorb, sub32_eq hsize, if_neg hc, Nat.add_sub_cancel]

/-- A block that is placed where the hole began is cut from its front. -/
theorem WellFormed.front_of_found (hw : WellFormed s (pre ++ t :: post)) (ht : t.isHole = true)
    {size : ℕ} {pageAlign : Bool} (hsize : size + 20 ≤ t.size)
    (hfound : let i := (holes s.heap.startAddress pre).length
      let x := s.heap.startAddress + span pre
      allocate s size pageAlign = (x + 12,
        Heap.placeBlock { s.heap with index := (erase s.heap.index s.mem i).1 }
          (erase s.heap.index s.mem i).2 x t.size (absorb size (size + 20) t.size).1
          (absorb size (size + 20) t.size).2)) :
    let x := s.heap.startAddress + span pre
    ∃ n r s', allocate s size pageAlign = (x + 12, s') ∧ size + 20 ≤ n ∧ n + r = t.size ∧
      (r = 0 ∨ 20 ≤ r) ∧
      WellFormed s' (pre ++ (⟨false, n, n, x⟩ :: leftOver (x + n) r ++ post)) ∧ SameBounds s s' ∧
      ChangesOnly s s' x (x + t.size) := by
  intro x
  have htop := hw.top
  have hbounds := hw.bounds
  obtain ⟨-, hstaged, hroom⟩ := hw.staged_erase ht
  obtain ⟨n, r, habs, hle, hsum, hr⟩ := absorb_cases hsize (by omega)
  simp only at hfound
  rw [habs, ← hsum] at hfound
  have hn : n - 20 + 20 = n := by omega
  have hend : span [] + n + r = t.size := by rw [span_nil, Nat.zero_add, hsum]
  obtain ⟨hw', hbnd, hch⟩ := hstaged.placeBlock hw rfl hn hend (hr.imp_right fun h => ⟨h, hroom⟩)
  exact ⟨n, r, _, hfound, hle, hsum, hr, hw', hbnd, hch⟩

/-- The block is cut from the front of the hole that was found. -/
theorem WellFormed.allocate_front (hw : WellFormed s (pre ++ t :: post)) (ht : t.isHole = true)
    {size : ℕ} (hsize : size + 20 ≤ t.size)
    (hfind : findSmallestHole s (size + 20) false = some (holes s.heap.startAddress pre).length) :
    let x := s.heap.startAddress + span pre
    ∃ n r s', allocate s size false = (x + 12, s') ∧ size + 20 ≤ n ∧ n + r = t.size ∧
      (r = 0 ∨ 20 ≤ r) ∧
      WellFormed s' (pre ++ (⟨false, n, n, x⟩ :: leftOver (x + n) r ++ post)) ∧ SameBounds s s' ∧
      ChangesOnly s s' x (x + t.size) := by
  intro x
  have htop := hw.top
  have hbounds := hw.bounds
  obtain ⟨hsub, -, -⟩ := hw.staged_erase ht
  exact hw.front_of_found ht hsize
    (allocate_found (by omega) hfind hsub hw.intact.header.sized (by omega))

theorem WellFormed.allocate_none (hw : WellFormed s segs) {size : ℕ} (hsize : size + 20 < wordSize)
    (hno : ∀ t ∈ segs, t.isHole = true → t.size < size + 20) : allocate s size false = (0, s) := by
  have hadd : add32 size 20 = size + 20 := add32_eq hsize
  cases hfind : findSmallestHole s (size + 20) false with
  | none => simp only [allocate, hadd, hfind]
  | some i =>
    obtain ⟨pre, t, post, rfl, ht, -, hfit, -⟩ := hw.found hfind
    rw [hw.intact.holeFits ht, decide_eq_true_eq] at hfit
    exact absurd (hno t (by simp) ht) (not_lt.mpr hfit)

/-- Without alignment `allocate` refuses, or cuts a block from the front of the lowest
hole that is large enough and keeps the heap well formed. -/
theorem allocate_lowest_hole (hw : WellFormed s segs) {size : ℕ} (hsize : size + 20 < wordSize) :
    ((∀ t ∈ segs, t.isHole = true → t.size < size + 20) → allocate s size false = (0, s)) ∧
    ((∃ t ∈ segs, t.isHole = true ∧ size + 20 ≤ t.size) →
      ∃ pre t post n r s', segs = pre ++ t :: post ∧ t.isHole = true ∧ size + 20 ≤ t.size ∧
        (∀ u ∈ pre, u.isHole = true → u.size < size + 20) ∧
        allocate s size false = (s.heap.startAddress + span pre + 12, s') ∧
        size + 20 ≤ n ∧ n + r = t.size ∧ (r = 0 ∨ 20 ≤ r) ∧
        WellFormed s' (pre ++ (⟨false, n, n, s.heap.startAddress + span pre⟩ ::
          leftOver (s.heap.startAddress + span pre + n) r ++ post)) ∧
        SameBounds s s' ∧ ChangesOnly s s' (s.heap.startAddress + span pre)
          (s.heap.startAddress + span pre + t.size)) := by
  refine ⟨hw.allocate_none hsize, fun hex => ?_⟩
  obtain ⟨pre, t, post, rfl, ht, hle, hfirst, hfind⟩ := hw.lowest hex
  obtain ⟨n, r, s', halloc, hn, hsum, hr, hw', hbnd, hch⟩ := hw.allocate_front ht hle hfind
  exact ⟨pre, t, post, n, r, s', rfl, ht, hle, hfirst, halloc, hn, hsum, hr, hw', hbnd, hch⟩

/-- The heap that `init` leaves is well formed. -/
theorem BootLayout.wellFormed_hole {s : State} {n : ℕ} (h : BootLayout s [⟨true, n, n, bootStart⟩]) :
    WellFormed s [⟨true, n, n, bootStart⟩] := by
  refine h.represents.wellFormed fun p hp => ?_
  rw [placed_cons, placed_nil, List.mem_singleton] at hp
  rw [hp]
  exact ⟨rfl, h.startAddress.symm⟩

/-- Both halves on the heap that `init` leaves: too large a request and a small one. -/
theorem allocate_lowest_hole_boot :
    ∃ s, init (fun _ => 0) start (start + initialSize) 0xCFFFF000 false false = some s ∧
      allocate s 0x80000000 false = (0, s) ∧
      ∃ s' segs, allocate s 12 false = (bootStart + 12, s') ∧ WellFormed s' segs := by
  obtain ⟨s, hinit, hl⟩ := exists_init
  have hw := hl.wellFormed_hole
  refine ⟨s, hinit, ?_, ?_⟩
  · refine (allocate_lowest_hole hw (by decide)).1 fun t ht _ => ?_
    rw [List.mem_singleton.mp ht]
    decide
  · obtain ⟨pre, t, post, n, r, s', he, -, -, -, halloc, -, -, -, hw', -⟩ :=
      (allocate_lowest_hole hw (by decide : 12 + 20 < wordSize)).2 ⟨_, List.mem_singleton.mpr rfl, rfl, by decide⟩
    have hpre : pre = [] := by
      cases pre with
      | nil => rfl
      | cons u pre => simp at he
    rw [hpre, hl.startAddress] at halloc
    exact ⟨s', _, halloc, hw'⟩

end ExperimentalKernel.Heap
