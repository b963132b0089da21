import ExperimentalKernel.HeapSearch

/-!
# Page-aligned blocks

The gap in front of a page-aligned block becomes a hole, and what is left after the
block another. Neither of them is checked to have room for its tags, and a payload
that would begin less than twelve bytes before a boundary is put before the hole.
-/

namespace ExperimentalKernel.Heap
open ByteMemory PointerArray

variable {s : State} {pre post : List Segment} {t : Segment} {m : Mem} {size x n i : ℕ}

theorem gap_le_iff (x : ℕ) : gap x ≤ 4084 ↔ x % pageSize ≤ 4084 := by
  simp only [gap, pageSize]
  omega

theorem gap_of_le (h : gap x ≤ 4084) : x + gap x = x + pageSize - x % pageSize - 12 := by
  simp only [gap, pageSize] at h ⊢
  omega

/-- A hole with room behind its gap does not reach into the last page. -/
theorem add_pageSize_lt (hx : x + gap x + 20 < wordSize) : x + pageSize < wordSize := by
  simp only [gap, pageSize, wordSize] at hx ⊢
  omega

theorem newLocation_eq (hx : x + pageSize < wordSize) :
    sub32 (sub32 (add32 x pageSize) (x % pageSize)) 12 = x + pageSize - x % pageSize - 12 := by
  have hmod : x % pageSize < pageSize := Nat.mod_lt _ (by decide)
  have hpage : 4096 ≤ pageSize := Nat.le_refl _
  have hle : x % pageSize ≤ x := Nat.mod_le _ _
  rw [add32_eq hx, sub32_eq (by omega : x % pageSize ≤ x + pageSize), sub32_eq (by omega)]

theorem allocate_behind_gap {need : ℕ} (hadd : size + 20 = need) (hneed : need < wordSize)
    (hfind : findSmallestHole s need true = some i) (hsub : subscript s.heap.index s.mem i = x)
    (hsized : headerSize s.mem x = n) (hgap : gap x ≠ 0) :
    let f := splitFront s.mem x n
    allocate s size true = (add32 f.2.1 12,
      Heap.placeBlock s.heap f.1 f.2.1 f.2.2 (absorb size need n).1 (absorb size need n).2) := by
  intro f
  have h₁ : add32 size 20 = need := hadd ▸ add32_eq (by omega)
  have h₂ : add32 x 12 % pageSize ≠ 0 := by
    rw [add32_mod_pageSize]
    intro h
    simp [gap, h] at hgap
  simp only [allocate, h₁, hfind, hsub, hsized, h₂, ne_eq, not_false_eq_true, and_self, ↓reduceIte]
  rfl

theorem allocate_at_boundary {need : ℕ} (hadd : size + 20 = need) (hneed : need < wordSize)
    (hfind : findSmallestHole s need true = some i) (hsub : subscript s.heap.index s.mem i = x)
    (hsized : headerSize s.mem x = n) (hx : x + 12 < wordSize) (hgap : gap x = 0) :
    allocate s size true = (x + 12,
      Heap.placeBlock { s.heap with index := (erase s.heap.index s.mem i).1 }
        (erase s.heap.index s.mem i).2 x n (absorb size need n).1 (absorb size need n).2) := by
  have h₁ : add32 size 20 = need := hadd ▸ add32_eq (by omega)
  have h₂ : add32 x 12 % pageSize = 0 := by
    rw [add32_mod_pageSize]
    simp only [gap, pageSize] at hgap ⊢
    omega
  have h₃ : add32 x 12 = x + 12 := add32_eq hx
  rw [h₃] at h₂
  simp only [allocate, h₁, hfind, hsub, hsized, h₃, h₂, ne_eq, not_true_eq_false, and_false, ↓reduceIte]

/-- The memory once the gap in front of the block has become a hole. -/
def frontMem (m : Mem) (x : ℕ) : Mem :=
  writeFooter (write8 (write32 (write32 m (x + 8) (gap x)) x heapMagic) (x + 4) 1) (x + gap x - 8) x

theorem frontMem_agreeOff (m : Mem) (hg : 20 ≤ gap x) : AgreeOff m (frontMem m x) x (x + gap x) :=
  ((headerAt_init_agreeOff m x (gap x)).mono (Nat.le_refl _) (by omega)).trans
    (writeFooter_agreeOff _ _ (by omega) (by omega))

theorem frontMem_intact (m : Mem) (e : ℕ) (hg : 20 ≤ gap x) (hx : x < wordSize) :
    IntactAt (frontMem m x) e x ⟨true, gap x, gap x, x⟩ := by
  have hgap := gap_lt x
  have hpage : pageSize < wordSize := by decide
  refine ⟨?_, hg, rfl, rfl, fun _ => footerAt_writeFooter _ _ hx⟩
  exact (headerAt_init m x (hgap.trans hpage)).frame
    ((writeFooter_agreeOff _ x (Nat.le_refl _) (Nat.le_refl _)).agreeOn (by omega))

theorem splitFront_eq (m : Mem) (n : ℕ) (hg : 20 ≤ gap x) (hle : gap x ≤ 4084) (hn : gap x ≤ n)
    (hx : x + pageSize < wordSize) : splitFront m x n = (frontMem m x, x + gap x, n - gap x) := by
  have hloc := newLocation_eq hx
  have hmod := (gap_le_iff x).mp hle
  have hsize : sub32 (pageSize - x % pageSize) 12 = gap x := by
    have hlt : x % pageSize < pageSize := Nat.mod_lt _ (by decide)
    have hpage : pageSize = 4096 := rfl
    have hof := gap_of_le hle
    have hmle : x % pageSize ≤ x := Nat.mod_le _ _
    rw [sub32_eq (by omega)]
    omega
  rw [← gap_of_le hle] at hloc
  have hback : headerSize (frontMem m x) x = gap x := (frontMem_intact m 0 hg (by omega)).header.sized
  have hfoot : sub32 (x + gap x) 8 = x + gap x - 8 := sub32_eq (by omega)
  simp only [splitFront, hloc, hsize, hfoot]
  rw [← frontMem, hback, sub32_eq hn]

/-- The request for a page that takes the hole `t`: the block of `n` bytes lies in the
hole, and the `f` bytes before and the `r` bytes after it are holes of the index. -/
def AlignedPlacement (s : State) (pre : List Segment) (t : Segment) (post : List Segment)
    (size : ℕ) : Prop :=
  let x := s.heap.startAddress + span pre
  ∃ f n r s', allocate s size true = (x + f + 12, s') ∧ (x + f + 12) % pageSize = 0 ∧
    size + 20 ≤ n ∧ f + n + r = t.size ∧ (f = 0 ∨ 20 ≤ f) ∧ (r = 0 ∨ 20 ≤ r) ∧
    WellFormed s' (pre ++ (leftOver x f ++ ⟨false, n, n, x + f⟩ :: leftOver (x + f + n) r ++ post)) ∧
    SameBounds s s' ∧ ChangesOnly s s' x (x + t.size)

/-- The hole that `findSmallestHole` chose for a page. -/
structure Chosen (s : State) (pre : List Segment) (t : Segment) (post : List Segment)
    (size : ℕ) : Prop where
  wellFormed : WellFormed s (pre ++ t :: post)
  hole : t.isHole = true
  found : findSmallestHole s (size + 20) true = some (holes s.heap.startAddress pre).length
  room : gap (s.heap.startAddress + span pre) + (size + 20) ≤ t.size

theorem Chosen.subscript_eq (h : Chosen s pre t post size) :
    subscript s.heap.index s.mem (holes s.heap.startAddress pre).length =
      s.heap.startAddress + span pre :=
  (h.wellFormed.staged_erase h.hole).1

/-- Without a gap the block is cut from the front as usual. -/
theorem Chosen.at_boundary (h : Chosen s pre t post size)
    (hgap : gap (s.heap.startAddress + span pre) = 0) : AlignedPlacement s pre t post size := by
  have hw := h.wellFormed
  have htop := hw.top
  have hbounds := hw.bounds
  have hroom := h.room
  rw [hgap, Nat.zero_add] at hroom
  have hfound := allocate_at_boundary rfl (by omega) h.found h.subscript_eq hw.intact.header.sized
    (by omega) hgap
  obtain ⟨n, r, s', halloc, hn, hsum, hr, hw', hbnd, hch⟩ := hw.front_of_found h.hole hroom hfound
  have haligned := gap_aligned (s.heap.startAddress + span pre)
  rw [hgap] at haligned
  exact ⟨0, n, r, s', halloc, haligned, hn, by omega, .inl rfl, hr, by simpa using hw', hbnd, hch⟩

/-- The gap is a hole that keeps the entry of the old one. -/
theorem Chosen.staged_front (h : Chosen s pre t post size)
    (hg : 20 ≤ gap (s.heap.startAddress + span pre)) :
    let x := s.heap.startAddress + span pre
    Staged s pre t post [⟨true, gap x, gap x, x⟩] s.heap.index (frontMem s.mem x) := by
  intro x
  have hw := h.wellFormed
  have hbelow := hw.below
  have hroom := hw.room
  have htop := hw.top
  have hbounds := hw.bounds
  have hag := frontMem_agreeOff s.mem hg
  refine ⟨rfl, rfl, hroom, ⟨frontMem_intact _ _ hg (by omega), trivial⟩, fun y hy _ => hag y ?_, ?_⟩
  · simpa using hy
  · rw [s.heap.index.elems_congr (hag.agreeOn (by omega)), hw.index, holes_append]
    simp [holes, h.hole, hw.intact.extent]

/-- The request is not enlarged when there is a gap with room for tags. -/
theorem absorb_gap {g need : ℕ} (hg : 20 ≤ g) (hroom : g + need ≤ n) :
    absorb size need n = (size, need) := by
  rw [absorb, sub32_eq (by omega), if_neg (by omega)]

/-- The gap and the rest have room for tags: everything is as it should be. -/
theorem Chosen.behind_gap (h : Chosen s pre t post size)
    (hg : 20 ≤ gap (s.heap.startAddress + span pre))
    (hle : gap (s.heap.startAddress + span pre) ≤ 4084) {r : ℕ}
    (hrest : gap (s.heap.startAddress + span pre) + (size + 20) + r = t.size)
    (hr : r = 0 ∨ 20 ≤ r ∧ s.heap.index.size < s.heap.index.maxSize) :
    AlignedPlacement s pre t post size := by
  have hw := h.wellFormed
  have htop := hw.top
  have hbounds := hw.bounds
  have hstaged := h.staged_front hg
  have haligned := gap_aligned (s.heap.startAddress + span pre)
  have hfound := allocate_behind_gap rfl (by omega) h.found h.subscript_eq hw.intact.header.sized
    (by omega)
  rw [splitFront_eq _ _ hg hle (by omega) (add_pageSize_lt (by omega)), absorb_gap hg h.room] at hfound
  generalize hx : s.heap.startAddress + span pre = x at *
  simp only at hfound
  rw [add32_eq (by omega)] at hfound
  have hsize : t.size - gap x = size + 20 + r := by omega
  rw [hsize] at hfound
  obtain ⟨hw', hbnd, hch⟩ := hstaged.placeBlock hw (b := x + gap x) (by rw [hx]; simp) rfl
    (by simpa using hrest) hr
  rw [hx] at hch
  refine ⟨gap x, size + 20, r, _, ?_, ?_, le_rfl, hrest, .inr hg, hr.imp_right And.left, ?_, hbnd, ?_⟩
  · rw [hx]
    exact hfound
  · rw [hx]
    exact haligned
  · rw [hx, leftOver_pos _ (by omega)]
    exact hw'
  · rw [hx]
    exact hch

/-- A rest of any length gets a header and an entry; the header of the block stays. -/
theorem placeBlock_rest (h : KernelHeap) (m : Mem) {b r : ℕ} (hn : size + 20 = n) (hr : 0 < r)
    (hb : b + n + r < wordSize) :
    ∃ m', Heap.placeBlock h m b (n + r) size n =
        ⟨{ h with index := (orderedAdd h.index m' (b + n)).1 }, (orderedAdd h.index m' (b + n)).2⟩ ∧
      headerSize m' b = n := by
  have hsub : sub32 (n + r) n = r := by rw [sub32_eq (by omega), Nat.add_sub_cancel_left]
  have hfoot : add32 (add32 b 12) size = b + n - 8 := by
    rw [add32_eq (by omega : b + 12 < wordSize), add32_eq (by omega)]
    omega
  have hhole : add32 (b + n - 8) 8 = b + n := by
    rw [add32_eq (by omega)]
    omega
  have hsize : ∀ m₂ : Mem, headerSize (writeHeader m₂ (b + n) true r) (b + n) = r :=
    fun m₂ => (headerAt_writeHeader m₂ (b + n) true (by omega)).sized
  have hend : sub32 (add32 (b + n) r) 8 = b + n + r - 8 := by
    rw [add32_eq hb, sub32_eq (by omega)]
  have hblock : headerSize (writeHeader m b false n) b = n :=
    (headerAt_writeHeader m b false (by omega)).sized
  simp only [Heap.placeBlock, hsub, hfoot, hhole, hsize, hend, if_pos hr]
  refine ⟨_, rfl, ?_⟩
  have h₂ : AgreeOn _ (writeFooter (writeHeader m b false n) (b + n - 8) b) (b + 8) (b + 8 + 4) :=
    (writeFooter_agreeOff _ _ (Nat.le_refl _) (Nat.le_refl _)).agreeOn (by omega)
  have h₃ : AgreeOn _ (writeHeader (writeFooter (writeHeader m b false n) (b + n - 8) b) (b + n) true r)
      (b + 8) (b + 8 + 4) :=
    (writeHeader_agreeOff _ _ _ (Nat.le_refl _) (Nat.le_refl _)).agreeOn (by omega)
  refine (read32_congr ((h₂.trans h₃).trans ?_)).trans hblock
  split
  · exact (writeFooter_agreeOff _ _ (Nat.le_refl _) (Nat.le_refl _)).agreeOn (by omega)
  · exact AgreeOn.refl _ _ _

/-- Where there is a gap, a correct placement begins right behind it. -/
theorem Chosen.gap_bounds (h : Chosen s pre t post size) (ha : AlignedPlacement s pre t post size)
    (hgap : gap (s.heap.startAddress + span pre) ≠ 0) :
    20 ≤ gap (s.heap.startAddress + span pre) ∧ gap (s.heap.startAddress + span pre) ≤ 4084 := by
  have hw := h.wellFormed
  have htop := hw.top
  have hbounds := hw.bounds
  have hroom := h.room
  obtain ⟨f, n, r, s', halloc, -, -, -, hf, -⟩ := ha
  have hfound := allocate_behind_gap rfl (by omega) h.found h.subscript_eq hw.intact.header.sized hgap
  rw [halloc, Prod.mk.injEq] at hfound
  have hloc := hfound.1
  have hpage := add_pageSize_lt (x := s.heap.startAddress + span pre) (by omega)
  generalize s.heap.startAddress + span pre = x at *
  have hsplit : (splitFront s.mem x t.size).2.1 = x + pageSize - x % pageSize - 12 := newLocation_eq hpage
  have hmod : x % pageSize < pageSize := Nat.mod_lt _ (by decide)
  have hmodle : x % pageSize ≤ x := Nat.mod_le _ _
  have hsize : pageSize = 4096 := rfl
  rw [hsplit, add32_eq (by omega)] at hloc
  have hle : gap x ≤ 4084 := (gap_le_iff x).mpr (by omega)
  have hof := gap_of_le hle
  omega

/-- A correct placement leaves nothing after the block, or a hole with its own entry. -/
theorem Chosen.rest_bounds (h : Chosen s pre t post size) (ha : AlignedPlacement s pre t post size)
    (hgap : gap (s.heap.startAddress + span pre) ≠ 0) {r : ℕ}
    (hrest : gap (s.heap.startAddress + span pre) + (size + 20) + r = t.size) (hr : r ≠ 0) :
    20 ≤ r ∧ s.heap.index.size < s.heap.index.maxSize := by
  obtain ⟨hg, hle⟩ := h.gap_bounds ha hgap
  have hw := h.wellFormed
  have htop := hw.top
  have hbounds := hw.bounds
  have hbelow := hw.below
  have hroom := hw.room
  obtain ⟨f, n, r', s', halloc, -, -, hsum, -, hr', hw', hbnd, -⟩ := ha
  have hfound := allocate_behind_gap rfl (by omega) h.found h.subscript_eq hw.intact.header.sized hgap
  rw [splitFront_eq _ _ hg hle (by omega) (add_pageSize_lt (by omega)), absorb_gap hg h.room, halloc,
    Prod.mk.injEq] at hfound
  obtain ⟨hloc, hstate⟩ := hfound
  have hsize : t.size - gap (s.heap.startAddress + span pre) = size + 20 + r := by omega
  obtain ⟨m', hplace, hhead⟩ := placeBlock_rest s.heap (frontMem s.mem (s.heap.startAddress + span pre))
    (rfl : size + 20 = size + 20) (Nat.pos_of_ne_zero hr)
    (by omega : s.heap.startAddress + span pre + gap (s.heap.startAddress + span pre) + _ + r < _)
  simp only at hloc hstate
  rw [hsize, hplace] at hstate
  rw [add32_eq (by omega)] at hloc
  have hf : f = gap (s.heap.startAddress + span pre) := by omega
  -- the header of the block says how long the code made it
  have hblock : headerSize s'.mem (s.heap.startAddress + span pre + f) = n := by
    rw [List.append_assoc (leftOver _ _), List.cons_append, ← List.append_assoc pre] at hw'
    have hint := hw'.intact.header.sized
    rwa [hbnd.startAddress, span_append, span_leftOver, ← Nat.add_assoc] at hint
  have hkept : headerSize s'.mem (s.heap.startAddress + span pre + f) = size + 20 := by
    rw [hstate, hf]
    exact (read32_congr ((orderedAdd_agreeOff _ _ _).agreeOn (by omega))).trans hhead
  have hentries : s'.heap.index.size = s.heap.index.size + 1 := by
    rw [hstate]
    exact orderedAdd_size _ _ (by omega)
  have hroom' := hw'.room
  rw [hbnd.maxSize, hentries] at hroom'
  omega

/-- A page is placed correctly if and only if there is no gap, or the gap has room for
tags, begins in the last page before the payload, and what is left after the block has
room for tags and an entry of the index, unless nothing is left. -/
theorem alignedPlacement_iff (h : Chosen s pre t post size) :
    let g := gap (s.heap.startAddress + span pre)
    let r := t.size - (g + (size + 20))
    AlignedPlacement s pre t post size ↔
      g = 0 ∨ 20 ≤ g ∧ g ≤ 4084 ∧ (r = 0 ∨ 20 ≤ r ∧ s.heap.index.size < s.heap.index.maxSize) := by
  intro g r
  have hrest : g + (size + 20) + r = t.size := Nat.add_sub_cancel' h.room
  constructor
  · intro ha
    by_cases hgap : g = 0
    · exact .inl hgap
    · obtain ⟨hg, hle⟩ := h.gap_bounds ha hgap
      refine .inr ⟨hg, hle, ?_⟩
      by_cases hr : r = 0
      · exact .inl hr
      · exact .inr (h.rest_bounds ha hgap hrest hr)
  · rintro (hgap | ⟨hg, hle, hr⟩)
    · exact h.at_boundary hgap
    · exact h.behind_gap hg hle hrest hr

/-- The only hole is chosen if it has room. -/
theorem chosen_last {bs : List Segment} (hw : WellFormed s (bs ++ [t])) (hbs : ∀ u ∈ bs, u.isHole = false)
    (ht : t.isHole = true) (hroom : gap (s.heap.startAddress + span bs) + (size + 20) ≤ t.size) :
    Chosen s bs t [] size := by
  have hhead := hw.intact.header
  rw [ht] at hhead
  have hfits : holeFits s.mem (size + 20) true (s.heap.startAddress + span bs) = true :=
    (holeFits_iff hhead.flag).mpr (.inl (hroom.trans hhead.sized.ge))
  refine ⟨hw, ht, ?_, hroom⟩
  have hindex := hw.index
  simp only [holes_append, holes_blocks hbs, holes, ht, List.nil_append, ↓reduceIte] at hindex
  rw [findSmallestHole_eq, hindex, List.findIdx?_cons, hfits, holes_blocks hbs]
  rfl

/-- The first page of the boot heap. -/
theorem alignedPlacement_boot :
    ∃ s, AlignedPlacement s [] ⟨true, bootSize, bootSize, bootStart⟩ [] 12 := by
  obtain ⟨s, -, h⟩ := exists_init
  have hsize := h.represents.index_size
  have hgap : gap (s.heap.startAddress + span []) = 4084 := by
    rw [h.startAddress]
    decide
  have hchosen : Chosen s [] ⟨true, bootSize, bootSize, bootStart⟩ [] 12 :=
    chosen_last h.wellFormed_hole (by simp) rfl (by rw [hgap]; decide)
  refine ⟨s, (alignedPlacement_iff hchosen).mpr (.inr ?_)⟩
  rw [hgap, hsize, h.maxSize, h.startAddress]
  decide

/-- A hole whose payload begins twelve bytes before a page: the gap cannot hold tags. -/
theorem not_alignedPlacement :
    ¬ ∀ s pre t post size, Chosen s pre t post size → AlignedPlacement s pre t post size := by
  intro hall
  obtain ⟨s₀, -, h₀⟩ := exists_init
  obtain ⟨hl, hw⟩ := served_wellFormed [4052] h₀ (by decide)
  generalize (allocateAll s₀ [4052]).2 = s at hl hw
  have hgap : gap (s.heap.startAddress + span (blocksFrom 0 [4052])) = 12 := by
    rw [hl.startAddress]
    decide
  have hchosen : Chosen s (blocksFrom 0 [4052]) _ [] 12 :=
    chosen_last hw blocksFrom_isHole rfl (by rw [hgap]; decide)
  have hbounds := hchosen.gap_bounds (hall _ _ _ _ _ hchosen) (by rw [hgap]; decide)
  rw [hgap] at hbounds
  exact absurd hbounds.1 (by decide)

end ExperimentalKernel.Heap
