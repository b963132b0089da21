import ExperimentalKernel.HeapPlacement

/-!
# Requests of every size

The tags are added to the size in 32 bits, so a request close to `2 ^ 32` is searched
for as one of less than 20 bytes, which every hole has room for.
-/

namespace ExperimentalKernel.Heap
open ByteMemory PointerArray

variable {s s' : State} {pre post segs : List Segment} {t : Segment} {size p i : ℕ}

/-- The range of `size` bytes from `p` on was inside one hole. -/
def InOneHole (s : State) (segs : List Segment) (p size : ℕ) : Prop :=
  ∃ h ∈ placed s.heap.startAddress segs, h.2.isHole = true ∧ h.1 ≤ p ∧ p + size ≤ h.1 + h.2.size

/-- The request is refused and nothing changes, or it gets a range of the heap that was
inside one hole. -/
def WellAnswered (s : State) (segs : List Segment) (size : ℕ) : Prop :=
  allocate s size false = (0, s) ∨
    ∃ p s', allocate s size false = (p, s') ∧ s.heap.startAddress ≤ p ∧
      p + size ≤ s.heap.endAddress ∧ InOneHole s segs p size

theorem WellFormed.inOneHole (hw : WellFormed s (pre ++ t :: post)) (ht : t.isHole = true)
    (hlo : s.heap.startAddress + span pre ≤ p)
    (hhi : p + size ≤ s.heap.startAddress + span pre + t.size) :
    s.heap.startAddress ≤ p ∧ p + size ≤ s.heap.endAddress ∧ InOneHole s (pre ++ t :: post) p size := by
  have hbounds := hw.bounds
  exact ⟨by omega, by omega, _, mem_placed _ pre t post, ht, hlo, hhi⟩

/-- Requests whose sum with the tags fits into 32 bits. -/
theorem WellFormed.answered (hw : WellFormed s segs) (hsize : size + 20 < wordSize) :
    WellAnswered s segs size := by
  by_cases hex : ∃ t ∈ segs, t.isHole = true ∧ size + 20 ≤ t.size
  · obtain ⟨pre, t, post, rfl, ht, hle, -, hfind⟩ := hw.lowest hex
    obtain ⟨n, r, s', halloc, hn, hsum, -⟩ := hw.allocate_front ht hle hfind
    exact .inr ⟨_, s', halloc, hw.inOneHole ht (by omega) (by omega)⟩
  · refine .inl (hw.allocate_none hsize fun t ht hole => ?_)
    exact not_le.mp fun hle => hex ⟨t, ht, hole, hle⟩

theorem add32_wraps (hsize : size < wordSize) (hwrap : wordSize ≤ size + 20) : add32 size 20 < 20 := by
  simp only [add32, wordSize] at *
  omega

theorem allocate_fst (hfind : findSmallestHole s (add32 size 20) false = some i) :
    (allocate s size false).1 = add32 (subscript s.heap.index s.mem i) 12 := by
  simp [allocate, hfind]

/-- A request below the size of the smallest segment takes the lowest hole. -/
theorem WellFormed.find_small (hw : WellFormed s segs) {need : ℕ} (hneed : need ≤ 20)
    (hex : ∃ t ∈ segs, t.isHole = true) :
    ∃ pre t post, segs = pre ++ t :: post ∧ t.isHole = true ∧
      findSmallestHole s need false = some 0 ∧
      s.heap.index.elems s.mem = (s.heap.startAddress + span pre) ::
        holes (s.heap.startAddress + span pre + t.size) post := by
  obtain ⟨u, hu, hole⟩ := hex
  obtain ⟨p, q, rfl⟩ := List.append_of_mem hu
  have hge := hw.intact.size_ge
  have hfits : ∃ t ∈ p ++ u :: q, t.isHole = true ∧ need ≤ t.size := ⟨u, hu, hole, by omega⟩
  obtain ⟨pre, t, post, he, ht, -, hfirst, hfind⟩ := hw.lowest hfits
  rw [he] at hw
  have hblocks : ∀ v ∈ pre, v.isHole = false := by
    intro v hv
    cases hvh : v.isHole with
    | false => rfl
    | true =>
      obtain ⟨p', q', rfl⟩ := List.append_of_mem hv
      have hlt := hfirst v hv hvh
      rw [List.append_assoc, List.cons_append] at hw
      have hvge := hw.intact.size_ge
      omega
  refine ⟨pre, t, post, he, ht, by simpa [holes_blocks hblocks] using hfind, ?_⟩
  rw [hw.index, holes_append, holes_blocks hblocks]
  simp [holes, ht, hw.intact.extent]

/-- The hole in which a byte of the hole `t` lies is `t`. -/
theorem WellFormed.inOneHole_same (hw : WellFormed s (pre ++ t :: post)) (hp : p < t.size)
    (h : InOneHole s (pre ++ t :: post) (s.heap.startAddress + span pre + p) size) :
    p + size ≤ t.size := by
  obtain ⟨⟨y, u⟩, hu, -, hlo, hhi⟩ := h
  simp only at hlo hhi
  have hself := mem_placed s.heap.startAddress pre t post
  have hext := hw.intact.extent
  have hextu : u.extent = u.size := by
    obtain ⟨xs, ys, he, -⟩ := placed_split hu
    rw [he] at hw
    exact hw.intact.extent
  by_cases heq : (y, u) = (s.heap.startAddress + span pre, t)
  · rw [Prod.mk.injEq] at heq
    rw [heq.1, heq.2] at hhi
    omega
  · have hdis := placed_disjoint hu hself heq
    simp only at hdis
    omega

/-- A request that wraps around is well answered only by the lowest hole as a whole. -/
theorem WellFormed.answered_wrapped (hw : WellFormed s segs) (hsize : size < wordSize)
    (hwrap : wordSize ≤ size + 20) :
    WellAnswered s segs size ↔
      ∀ x ∈ (s.heap.index.elems s.mem).head?, size + 12 ≤ headerSize s.mem x := by
  have hneed := add32_wraps hsize hwrap
  have htop := hw.top
  by_cases hex : ∃ t ∈ segs, t.isHole = true
  · obtain ⟨pre, t, post, rfl, ht, hfind, hindex⟩ := hw.find_small hneed.le hex
    have hbounds := hw.bounds
    have hge := hw.intact.size_ge
    have hsub : subscript s.heap.index s.mem 0 = s.heap.startAddress + span pre := by
      rw [subscript_eq_getElem _ _ _ (by simp [hindex])]
      simp [hindex]
    have hfst := allocate_fst hfind
    rw [hsub, add32_eq (by omega)] at hfst
    rw [hindex]
    simp only [List.head?_cons, Option.mem_some_iff, forall_eq', hw.intact.header.sized]
    constructor
    · rintro (hnull | ⟨p, s', halloc, -, -, hin⟩)
      · rw [hnull] at hfst
        simp at hfst
      · rw [halloc] at hfst
        simp only at hfst
        rw [hfst] at hin
        have hsame := hw.inOneHole_same (by omega) hin
        omega
    · intro hle
      exact .inr ⟨_, _, rfl, hfst ▸ hw.inOneHole ht (by omega) (by omega)⟩
  · have hnone : s.heap.index.elems s.mem = [] := by
      rw [hw.index, holes_blocks fun t ht => ?_]
      cases hole : t.isHole with
      | false => rfl
      | true => exact absurd ⟨t, ht, hole⟩ hex
    have hrefused : allocate s size false = (0, s) := by
      simp only [allocate, findSmallestHole_eq, hnone, List.findIdx?_nil]
    rw [hnone]
    exact ⟨fun _ x hx => by simp at hx, fun _ => .inl hrefused⟩

/-- A request is well answered if and only if it fits into 32 bits together with the
tags, or no hole is left, or the lowest hole has room for it all the same. -/
theorem wellAnswered_iff (hw : WellFormed s segs) (hsize : size < wordSize) :
    WellAnswered s segs size ↔ size + 20 < wordSize ∨
      ∀ x ∈ (s.heap.index.elems s.mem).head?, size + 12 ≤ headerSize s.mem x := by
  by_cases hwrap : size + 20 < wordSize
  · exact iff_of_true (hw.answered hwrap) (.inl hwrap)
  · rw [hw.answered_wrapped hsize (not_lt.mp hwrap), or_iff_right hwrap]

theorem wellAnswered_boot : ∃ s segs, WellFormed s segs ∧ WellAnswered s segs 12 := by
  obtain ⟨s, -, h⟩ := exists_init
  exact ⟨s, _, h.wellFormed_hole, (wellAnswered_iff h.wellFormed_hole (by decide)).mpr (.inl (by decide))⟩

/-- The largest request on the boot heap gets the first 19 bytes. -/
theorem not_wellAnswered :
    ¬ ∀ s segs size, WellFormed s segs → size < wordSize → WellAnswered s segs size := by
  intro hall
  obtain ⟨s, -, h⟩ := exists_init
  have hw := h.wellFormed_hole
  have hanswer := (hw.answered_wrapped (by decide) (by decide)).mp (hall s _ 0xFFFFFFFF hw (by decide))
  have hindex := hw.index
  have hhead := hw.segments.1.header.sized
  rw [h.startAddress] at hhead
  have hholes : holes s.heap.startAddress [⟨true, bootSize, bootSize, bootStart⟩] = [bootStart] := by
    rw [h.startAddress]
    rfl
  rw [hindex, hholes] at hanswer
  have hle := hanswer bootStart rfl
  rw [hhead] at hle
  exact absurd hle (by decide)

end ExperimentalKernel.Heap
