import ExperimentalKernel.HeapPlacement
import ExperimentalKernel.HeapReclamation
import Mathlib.Data.List.DropRight

/-!
# One `free` on a well-formed heap

The freed block and the holes beside it become one hole. A last block without a
footer keeps the heap from being a layout of `Represents`, but `free` does not look
at the end of the heap, so the heap is taken to end before that block.
-/

namespace ExperimentalKernel.Heap
open ByteMemory PointerArray

/-- The heap with another end. -/
def State.endsAt (s : State) (e : ℕ) : State := ⟨{ s.heap with endAddress := e }, s.mem⟩

section EndsAt
variable (s : State) (e : ℕ)

theorem mergeRight_endsAt (h : KernelHeap) (m : Mem) (header testHeader : ℕ) :
    mergeRight { h with endAddress := e } m header testHeader =
      (mergeRight h m header testHeader).map (State.endsAt · e) := by
  simp only [mergeRight]
  split
  · split <;> rfl
  · rfl

theorem dropEntry_endsAt (item : ℕ) : dropEntry (s.endsAt e) item = (dropEntry s item).endsAt e := by
  by_cases hi : search s.heap.index s.mem item < s.heap.index.size
  · simp only [dropEntry, State.endsAt, hi, ↓reduceIte]
  · simp only [dropEntry, State.endsAt, hi, ↓reduceIte]

/-- `free` does not look at the end of the heap. -/
theorem free_endsAt (ptr : ℕ) : free (s.endsAt e) ptr = (free s ptr).map (State.endsAt · e) := by
  by_cases hp : ptr = 0
  · simp [free, hp]
  by_cases hm : headerMagic s.mem (sub32 ptr 12) = heapMagic
  · by_cases hf : footerMagic s.mem
        (sub32 (add32 (sub32 ptr 12) (headerSize s.mem (sub32 ptr 12))) 8) = heapMagic
    · simp only [free, State.endsAt, hp, hm, hf, ne_eq, not_true_eq_false, ↓reduceIte]
      rw [mergeRight_endsAt, Option.map_map, Option.map_map]
      refine Option.map_congr fun s₁ _ => ?_
      simp only [Function.comp_apply, dropEntry_endsAt]
      split <;> rfl
    · simp [free, State.endsAt, hp, hm, hf]
  · simp [free, State.endsAt, hp, hm]

end EndsAt

/-- The heap was placed by `init` at `START`. -/
structure PlacedAtStart (s : State) : Prop where
  array : s.heap.index.array = start
  maxSize : s.heap.index.maxSize = indexSize
  startAddress : s.heap.startAddress = bootStart

/-- The total of the size fields. -/
def sizes (segs : List Segment) : ℕ := (segs.map Segment.size).sum

@[simp] theorem sizes_nil : sizes [] = 0 := rfl

@[simp] theorem sizes_cons (t : Segment) (segs : List Segment) : sizes (t :: segs) = t.size + sizes segs :=
  rfl

@[simp] theorem sizes_append (xs ys : List Segment) : sizes (xs ++ ys) = sizes xs + sizes ys := by
  simp [sizes]

/-- The segments after the block `t` was freed: `u` stands for the block and the
holes that end or begin there. -/
def fused (pre post : List Segment) (u : Segment) : List Segment :=
  pre.rdropWhile Segment.isHole ++ u :: post.dropWhile Segment.isHole

/-- The state `s'` after the block `t` of `s` was freed. -/
structure Coalesced (s s' : State) (pre : List Segment) (t : Segment) (post : List Segment)
    (u : Segment) : Prop where
  hole : u.isHole = true
  size : u.size = sizes (pre.rtakeWhile Segment.isHole ++ t :: post.takeWhile Segment.isHole)
  headers : ∀ p ∈ placed s.heap.startAddress (fused pre post u),
    HeaderAt s'.mem p.1 p.2.isHole p.2.size ∧ p.2.extent = p.2.size
  tiles : s.heap.startAddress + span (fused pre post u) = s.heap.endAddress
  separated : Separated (fused pre post u)
  index : s'.heap.index.elems s'.mem = holes s.heap.startAddress (fused pre post u)
  ascending : (s'.heap.index.elems s'.mem).Pairwise (· < ·)
  room : s'.heap.index.size ≤ s.heap.index.maxSize
  bounds : SameBounds s s'
  kept : ∀ p ∈ placed s.heap.startAddress (pre ++ t :: post), p.2.isHole = false →
    p.1 ≠ s.heap.startAddress + span pre → AgreeOn s.mem s'.mem p.1 (p.1 + p.2.extent)

section Sides
variable {m : Mem} {e a x n : ℕ} {pre pre' q q' tail : List Segment} {t t₀ t' : Segment} {listed : Bool}

theorem rdropWhile_of_last (h : ∀ l ∈ pre.getLast?, l.isHole = false) :
    pre.rdropWhile Segment.isHole = pre ∧ pre.rtakeWhile Segment.isHole = [] := by
  have hlast : ∀ hl : pre ≠ [], ¬ (pre.getLast hl).isHole = true := fun hl => by
    simp [h _ (List.getLast_mem_getLast? hl)]
  exact ⟨List.rdropWhile_eq_self_iff.mpr hlast, List.rtakeWhile_eq_nil_iff.mpr hlast⟩

theorem dropWhile_of_head (h : ∀ r ∈ q.head?, r.isHole = false) :
    q.dropWhile Segment.isHole = q ∧ q.takeWhile Segment.isHole = [] := by
  cases q with
  | nil => exact ⟨rfl, rfl⟩
  | cons r q =>
    have hr := h r rfl
    exact ⟨List.dropWhile_cons_of_neg (by simp [hr]), List.takeWhile_cons_of_neg (by simp [hr])⟩

/-- The block and the holes that end at it. -/
theorem LeftJoin.fused (hl : LeftJoin a pre t pre' t₀ listed) (hpre : IntactsAt m e a pre)
    (hsep : Separated pre) (ht : t.extent = t.size) :
    pre' = pre.rdropWhile Segment.isHole ∧
      t₀ = ⟨true, sizes (pre.rtakeWhile Segment.isHole) + t.size,
        sizes (pre.rtakeWhile Segment.isHole) + t.size, a + span pre'⟩ := by
  cases hl with
  | alone _ _ h =>
    obtain ⟨hd, hk⟩ := rdropWhile_of_last h
    rw [hd, hk, ht, sizes_nil, Nat.zero_add]
    exact ⟨rfl, rfl⟩
  | fresh _ l _ h htag =>
    have hin := (intactsAt_append.mp hpre).2.1
    have hlast : ∀ k ∈ pre'.getLast?, k.isHole = false := by
      intro k hk
      have hkl := (List.isChain_append.mp hsep).2.2 k hk l rfl
      cases hh : k.isHole with
      | false => rfl
      | true => simp [hkl hh] at h
    obtain ⟨hd, hk⟩ := rdropWhile_of_last hlast
    rw [List.rdropWhile_concat_pos _ _ _ h, List.rtakeWhile_concat_pos _ _ _ h, hd, hk, htag, ht,
      hin.extent]
    exact ⟨rfl, by simp⟩
  | stale _ l _ h htag => exact absurd (intactsAt_append.mp hpre).2.1.tag htag

/-- The holes that begin after the block. -/
theorem RightJoin.fused (hj : RightJoin x t₀ q t' q') (h₀ : t₀ = ⟨true, n, n, x⟩)
    (hq : ∀ r ∈ q, r.extent = r.size) (hsep : Separated (q ++ tail))
    (htail : ∀ u ∈ tail, u.isHole = false) :
    (q ++ tail).dropWhile Segment.isHole = q' ++ tail ∧ t'.isHole = true ∧
      t'.size = n + sizes ((q ++ tail).takeWhile Segment.isHole) ∧ t'.extent = t'.size := by
  have hhead : ∀ ys : List Segment, (∀ r ∈ ys.head?, r.isHole = false) →
      ∀ r ∈ (ys ++ tail).head?, r.isHole = false := by
    intro ys hys r hr
    cases ys with
    | nil => exact htail r (List.mem_of_mem_head? hr)
    | cons y ys => exact hys r hr
  cases hj with
  | alone _ h =>
    obtain ⟨hd, hk⟩ := dropWhile_of_head (hhead q h)
    rw [hd, hk, h₀]
    exact ⟨rfl, rfl, rfl, rfl⟩
  | joined r _ h =>
    have hnext : ∀ y ∈ q'.head?, y.isHole = false := by
      intro y hy
      cases q' with
      | nil => simp at hy
      | cons z q' =>
        rw [List.cons_append, List.cons_append, Separated, List.isChain_cons_cons] at hsep
        simp only [List.head?_cons, Option.mem_some_iff] at hy
        exact hy ▸ hsep.1 h
    obtain ⟨hd, hk⟩ := dropWhile_of_head (hhead q' hnext)
    have hr := hq r List.mem_cons_self
    rw [List.cons_append, List.dropWhile_cons_of_pos h, List.takeWhile_cons_of_pos h, hd, hk, h₀]
    exact ⟨rfl, rfl, by simp, by simp [hr]⟩

end Sides

section Trim
variable {s : State} {pre post xs : List Segment} {t u : Segment}

theorem WellFormed.extent_eq (hw : WellFormed s xs) (ht : t ∈ xs) : t.extent = t.size := by
  obtain ⟨pre, post, rfl⟩ := List.append_of_mem ht
  exact hw.intact.extent

/-- If the last segment is a hole, it needs no footer. -/
theorem WellFormed.represents (hw : WellFormed s (xs ++ [u])) (hu : u.isHole = true) :
    Represents s (xs ++ [u]) := by
  have hint := hw.intact
  have hge := hint.size_ge
  have hbounds := hw.bounds
  refine ⟨?_, hw.tiles, hw.index, hw.room, hw.below, hw.top⟩
  refine segmentsAt_append.mpr ⟨?_, hint.segmentAt (.inl hu), trivial⟩
  exact (intactsAt_append.mp hw.segments).1.segmentsAt (by omega) _

/-- If the last segment is a block, the heap below it is a layout. -/
theorem WellFormed.represents_below (hw : WellFormed s (xs ++ [u])) (hu : u.isHole = false) :
    Represents (s.endsAt (s.heap.startAddress + span xs)) xs := by
  have hge := hw.intact.size_ge
  have hbounds := hw.bounds
  have htop := hw.top
  refine ⟨?_, rfl, ?_, hw.room, hw.below, ?_⟩
  · exact (intactsAt_append.mp hw.segments).1.segmentsAt (by omega) _
  · have hlast : holes (s.heap.startAddress + span xs) [u] = [] := by simp [holes, hu]
    have hindex := hw.index
    rwa [holes_append, hlast, List.append_nil] at hindex
  · change s.heap.startAddress + span xs < wordSize
    omega

/-- Up to a last block the heap is a layout. -/
theorem WellFormed.trim (hw : WellFormed s (pre ++ t :: post)) (hpost : post ≠ []) :
    ∃ q tail, post = q ++ tail ∧ (∀ u ∈ tail, u.isHole = false) ∧ (q = [] → tail ≠ []) ∧
      Represents (s.endsAt (s.heap.startAddress + span (pre ++ t :: q))) (pre ++ t :: q) := by
  obtain ⟨q, u, rfl⟩ := (List.eq_nil_or_concat post).resolve_left hpost
  rw [List.concat_eq_append] at hw ⊢
  have hsplit : pre ++ t :: (q ++ [u]) = (pre ++ t :: q) ++ [u] := by simp
  rw [hsplit] at hw
  cases hu : u.isHole with
  | true =>
    refine ⟨q ++ [u], [], by simp, by simp, by simp, ?_⟩
    rw [hsplit, hw.tiles]
    exact hw.represents hu
  | false => exact ⟨q, [u], rfl, by simpa using hu, by simp, hw.represents_below hu⟩

end Trim

section Free
variable {s s' : State} {pre post : List Segment} {t u : Segment} {e : ℕ}

/-- No two holes are adjacent once the holes beside the block are part of it. -/
theorem separated_fused (hsep : Separated (pre ++ t :: post)) : Separated (fused pre post u) := by
  have hpre := (List.isChain_append.mp hsep).1
  have hpost := (List.isChain_append.mp hsep).2.1.tail
  have hhead := List.head?_dropWhile_not Segment.isHole post
  have hkept := List.IsChain.prefix hpre (List.rdropWhile_prefix Segment.isHole pre)
  refine List.isChain_append.mpr ⟨hkept, ?_, fun l hl y _ => ?_⟩
  · refine List.isChain_cons.mpr ⟨fun y hy _ => ?_, hpost.suffix (List.dropWhile_suffix _)⟩
    rw [Option.mem_def.mp hy] at hhead
    exact hhead
  · obtain ⟨hne, rfl⟩ := List.mem_getLast?_eq_getLast hl
    exact fun h => absurd h (List.rdropWhile_last_not _ _ hne)

/-- A run on the heap with another end is a run on the heap. -/
theorem free_of_endsAt {ptr : ℕ} (h : free (s.endsAt e) ptr = some s') :
    ∃ s₁, free s ptr = some s₁ ∧ s₁.heap.endAddress = s.heap.endAddress ∧ s' = s₁.endsAt e := by
  rw [free_endsAt, Option.map_eq_some_iff] at h
  obtain ⟨s₁, h₁, rfl⟩ := h
  have hself : free s ptr = (free s ptr).map (State.endsAt · s.heap.endAddress) :=
    free_endsAt s s.heap.endAddress ptr
  rw [h₁, Option.map_some, Option.some.injEq] at hself
  refine ⟨s₁, h₁, ?_, rfl⟩
  rw [hself]
  rfl

theorem placed_mem {a : ℕ} {segs : List Segment} {p : ℕ × Segment} (hp : p ∈ placed a segs) :
    p.2 ∈ segs := by
  obtain ⟨xs, ys, rfl, -⟩ := placed_split hp
  simp

theorem span_eq_sizes {segs : List Segment} (h : ∀ t ∈ segs, t.extent = t.size) :
    span segs = sizes segs := by
  rw [span, sizes, List.map_congr_left h]

/-- A heap is the holes and the block that are fused, and what is before and after. -/
theorem fused_parts (pre : List Segment) (t : Segment) (post : List Segment) :
    pre ++ t :: post = pre.rdropWhile Segment.isHole ++
      ((pre.rtakeWhile Segment.isHole ++ t :: post.takeWhile Segment.isHole) ++
        post.dropWhile Segment.isHole) := by
  simp only [List.append_assoc, List.cons_append, List.takeWhile_append_dropWhile]
  rw [← List.append_assoc, List.rdropWhile_append_rtakeWhile]

/-- A block other than the freed one lies before or after what is fused. -/
theorem placed_outside {a : ℕ} {p : ℕ × Segment} (hp : p ∈ placed a (pre ++ t :: post))
    (hblock : p.2.isHole = false) (hne : p.1 ≠ a + span pre) :
    p.1 + p.2.extent ≤ a + span (pre.rdropWhile Segment.isHole) ∨
      a + span (pre.rdropWhile Segment.isHole) +
        span (pre.rtakeWhile Segment.isHole ++ t :: post.takeWhile Segment.isHole) ≤ p.1 := by
  have hnot : ∀ {b : ℕ} {segs : List Segment}, p ∈ placed b segs →
      ¬ ∀ u ∈ segs, u.isHole = true := by
    intro b segs hmem hall
    obtain ⟨xs, ys, rfl, -⟩ := placed_split hmem
    simp [hall p.2 (by simp)] at hblock
  have hspan : span pre = span (pre.rdropWhile Segment.isHole) + span (pre.rtakeWhile Segment.isHole) := by
    rw [← span_append, List.rdropWhile_append_rtakeWhile]
  rw [fused_parts, placed_append, placed_append, placed_append, placed_cons] at hp
  simp only [List.mem_append, List.mem_cons] at hp
  rcases hp with hp | (hp | rfl | hp) | hp
  · exact .inl (mem_placed_bounds hp).2
  · exact absurd (fun u hu => List.mem_rtakeWhile_imp hu) (hnot hp)
  · simp only at hne
    omega
  · exact absurd (fun u hu => List.mem_takeWhile_imp hu) (hnot hp)
  · exact .inr (mem_placed_bounds hp).1

/-- Headers of segments that lie after what changed. -/
theorem WellFormed.header_frame {xs tail : List Segment} (hw : WellFormed s (xs ++ tail)) {lo hi : ℕ}
    (hch : ChangesOnly s s' lo hi) (hhi : hi ≤ s.heap.startAddress + span xs) {p : ℕ × Segment}
    (hp : p ∈ placed (s.heap.startAddress + span xs) tail) :
    HeaderAt s'.mem p.1 p.2.isHole p.2.size ∧ p.2.extent = p.2.size := by
  have hbelow := hw.below
  obtain ⟨ys, zs, rfl, hx⟩ := placed_split hp
  rw [← List.append_assoc] at hw
  have hint := hw.intact
  rw [span_append, ← Nat.add_assoc, ← hx] at hint
  exact ⟨hint.header.frame (hch.agreeOn (by omega) (by omega)), hint.extent⟩

/-- The fused hole and the segments that are left are what their headers say. -/
theorem WellFormed.extent_fused (hw : WellFormed s (pre ++ t :: post)) (hu : u.extent = u.size)
    {v : Segment} (hv : v ∈ fused pre post u) : v.extent = v.size := by
  rcases List.mem_append.mp hv with hv | hv
  · exact hw.extent_eq (List.mem_append_left _ ((List.rdropWhile_prefix _ _).subset hv))
  · rcases List.mem_cons.mp hv with rfl | hv
    · exact hu
    · exact hw.extent_eq (by simp [(List.dropWhile_suffix _).subset hv])

theorem WellFormed.span_parts (hw : WellFormed s (pre ++ t :: post)) :
    span (pre.rtakeWhile Segment.isHole ++ t :: post.takeWhile Segment.isHole) =
      sizes (pre.rtakeWhile Segment.isHole ++ t :: post.takeWhile Segment.isHole) := by
  refine span_eq_sizes fun v hv => hw.extent_eq ?_
  rw [fused_parts]
  exact List.mem_append_right _ (List.mem_append_left _ hv)

/-- The header after the block is not a hole's if the part that is a layout ends there. -/
theorem WellFormed.next_header {tail : List Segment} (hw : WellFormed s ((pre ++ [t]) ++ tail))
    (htail : ∀ u ∈ tail, u.isHole = false) (hne : tail ≠ []) :
    headerIsHole s.mem (s.heap.startAddress + span (pre ++ [t])) = false := by
  obtain ⟨v, tail, rfl⟩ := List.exists_cons_of_ne_nil hne
  exact hw.intact.header.flag.trans (htail v List.mem_cons_self)

/-- `free` fuses the block with the holes beside it. -/
theorem WellFormed.free_coalesced (hw : WellFormed s (pre ++ t :: post))
    (hsep : Separated (pre ++ t :: post)) (ht : t.isHole = false) (hpost : post ≠ [])
    (hg : Guarded s) (hroom : s.heap.index.size < s.heap.index.maxSize) :
    ∃ s' u, free s (s.heap.startAddress + span pre + 12) = some s' ∧ Coalesced s s' pre t post u := by
  obtain ⟨q, tail, rfl, htail, hnext, hr⟩ := hw.trim hpost
  obtain ⟨pre', t₀, listed, hl⟩ := exists_left s.heap.startAddress pre t
  obtain ⟨u, q', hj⟩ := exists_rightJoin (s.heap.startAddress + span pre') t₀ q
  have hseps := List.isChain_append.mp hsep
  obtain ⟨hpre', ht₀⟩ := hl.fused (intactsAt_append.mp hw.segments).1 hseps.1 hw.intact.extent
  obtain ⟨hq', hole, hsize, hext⟩ := hj.fused ht₀
    (fun r hr => hw.extent_eq (by simp [hr])) hseps.2.1.tail htail
  have hall : WellFormed s ((pre ++ t :: q) ++ tail) := by simpa using hw
  have hend : q = [] → ¬ (headerMagic s.mem (s.heap.startAddress + span (pre ++ t :: q)) = heapMagic ∧
      headerIsHole s.mem (s.heap.startAddress + span (pre ++ t :: q)) = true) := by
    rintro rfl ⟨-, hflag⟩
    rw [hall.next_header htail (hnext rfl)] at hflag
    simp at hflag
  obtain ⟨s'', hfree, hr', ha, hch⟩ := free_represents
    (s := s.endsAt (s.heap.startAddress + span (pre ++ t :: q))) hg hr ht hl hj (.inr (.inr hroom)) hend
  obtain ⟨s', hfree', hsame, rfl⟩ := free_of_endsAt hfree
  have hstart : s'.heap.startAddress = s.heap.startAddress := ha.startAddress
  have hbound : s'.heap.startAddress + span (pre' ++ u :: q') =
      s.heap.startAddress + span (pre ++ t :: q) := hr'.tiles
  rw [hstart] at hbound
  have hf : fused pre (q ++ tail) u = (pre' ++ u :: q') ++ tail := by
    rw [fused, hq', ← hpre', List.append_assoc, List.cons_append]
  have hsizes : u.size = sizes (pre.rtakeWhile Segment.isHole ++ t ::
      (q ++ tail).takeWhile Segment.isHole) := by
    rw [hsize, sizes_append, sizes_cons, Nat.add_assoc]
  have hch' : ChangesOnly s s' (s.heap.startAddress + span pre')
      (s.heap.startAddress + span pre' + u.extent) := hch
  have hindex : s'.heap.index.elems s'.mem = holes s'.heap.startAddress (pre' ++ u :: q') := hr'.index
  refine ⟨s', u, hfree', hole, hsizes, fun p hp => ?_, ?_, separated_fused hsep, ?_, ?_, ?_,
    ⟨hstart, hsame, ha.array, ha.maxSize⟩, fun p hp hb hne => ?_⟩
  · have hp' := hp
    rw [hf, placed_append, hbound, List.mem_append] at hp
    rcases hp with hp | hp
    · refine ⟨?_, hw.extent_fused hext (placed_mem hp')⟩
      rw [← hstart] at hp
      exact (hr'.segments.at_placed hp).header
    · refine hall.header_frame hch' ?_ hp
      rw [← hbound, span_append, span_cons]
      omega
  · rw [hf, span_append, ← Nat.add_assoc, hbound, Nat.add_assoc, ← span_append]
    exact hall.tiles
  · rw [hindex, hstart, hf, holes_append _ _ tail, holes_blocks htail, List.append_nil]
  · rw [hindex]
    exact holes_pairwise hr'.segments
  · exact hr'.room.trans ha.maxSize.le
  · have hout := placed_outside hp hb hne
    have hbelow := hw.below
    rw [hw.span_parts, ← hsizes, ← hext, ← hpre'] at hout
    exact hch'.agreeOn (by omega) (by have := (mem_placed_bounds hp).1; omega)

end Free

section Served

theorem placed_blocksFrom {o : ℕ} {ns : List ℕ} {p : ℕ × Segment}
    (hp : p ∈ placed (bootStart + o) (blocksFrom o ns)) : p.2.extent = p.2.size ∧ p.2.tag = p.1 := by
  induction ns generalizing o with
  | nil => simp [blocksFrom] at hp
  | cons n ns ih =>
    rw [blocksFrom, placed_cons, List.mem_cons, Nat.add_assoc] at hp
    rcases hp with rfl | hp
    · exact ⟨rfl, rfl⟩
    · exact ih hp

/-- Requests that fit are served from the boot heap in order. -/
theorem served_wellFormed {s : State} (ns : List ℕ)
    (h : BootLayout s [⟨true, bootSize, bootSize, bootStart⟩])
    (hk : (ns.map (· + 20)).sum + 20 ≤ bootSize) :
    let bs := blocksFrom 0 ns
    let rest := bootSize - (ns.map (· + 20)).sum
    let segs := bs ++ [⟨true, rest, rest, bootStart + span bs⟩]
    BootLayout (allocateAll s ns).2 segs ∧ WellFormed (allocateAll s ns).2 segs := by
  intro bs rest segs
  have hlay : BootLayout (allocateAll s ns).2 segs := BootLayout.allocateAll
    (by simpa using h : BootLayout s ([] ++ [⟨true, bootSize, bootSize, bootStart + span []⟩]))
    (by simp) hk
  refine ⟨hlay, hlay.represents.wellFormed fun p hp => ?_⟩
  rw [hlay.startAddress, placed_append, List.mem_append] at hp
  rcases hp with hp | hp
  · exact placed_blocksFrom (o := 0) hp
  · rw [placed_cons, placed_nil, List.mem_singleton] at hp
    rw [hp]
    exact ⟨rfl, rfl⟩

end Served

/-- On a heap at `START` whose second last word below the first segment is not the
magic number, `free` fuses a block that does not end the heap with the holes beside
it and keeps the index exact. -/
theorem free_coalesces {s : State} {pre post : List Segment} {t : Segment} (hp : PlacedAtStart s)
    (hw : WellFormed s (pre ++ t :: post)) (hroom : s.heap.index.size < s.heap.index.maxSize)
    (hsep : Separated (pre ++ t :: post)) (ht : t.isHole = false)
    (hend : bootStart + span pre + t.size ≠ s.heap.endAddress)
    (hclean : read32 s.mem (bootStart - 8) ≠ heapMagic) :
    ∃ s' u, free s (bootStart + span pre + 12) = some s' ∧ Coalesced s s' pre t post u := by
  have hstart := hp.startAddress
  have hpost : post ≠ [] := by
    rintro rfl
    have hbounds := hw.bounds
    rw [span_nil, Nat.add_zero, hstart] at hbounds
    exact hend hbounds
  rw [← hstart] at hclean ⊢
  refine hw.free_coalesced hsep ht hpost ⟨?_, hclean⟩ hroom
  rw [hstart]
  decide

theorem BootLayout.placedAtStart {s : State} {segs : List Segment} (h : BootLayout s segs) :
    PlacedAtStart s := by
  have hadj := h.clean.adjacent
  rw [h.startAddress, h.maxSize, bootStart] at hadj
  exact ⟨(Nat.add_right_cancel hadj).symm, h.maxSize, h.startAddress⟩

/-- The second of two blocks, which the last hole follows. -/
theorem free_coalesces_last :
    ∃ s s' u, free s (bootStart + 32 + 12) = some s' ∧
      Coalesced s s' [⟨false, 32, 32, bootStart⟩] ⟨false, 60, 60, bootStart + 32⟩
        [⟨true, bootSize - 92, bootSize - 92, bootStart + 92⟩] u := by
  obtain ⟨s₀, -, h₀⟩ := exists_init
  obtain ⟨hl, hw⟩ := served_wellFormed [12, 40] h₀ (by decide)
  have hroom := hl.represents.index_size
  refine ⟨_, @free_coalesces _ [⟨false, 32, 32, bootStart⟩] _ _ hl.placedAtStart hw ?_ ?_ rfl ?_ ?_⟩
  · rw [hroom, hl.maxSize]
    simp [blocksFrom, holes, indexSize]
  · simp [Separated]
  · rw [hl.endAddress]
    decide
  · have hguard := hl.clean.guarded.2
    rwa [hl.startAddress] at hguard

/-- The words of the index area that are not in use do not matter for the layout. -/
theorem WellFormed.write_unused {s : State} {segs : List Segment} (hw : WellFormed s segs) {m : Mem}
    {lo hi : ℕ} (hm : AgreeOff s.mem m lo hi)
    (hlo : s.heap.index.array + 4 * s.heap.index.size ≤ lo) (hhi : hi ≤ s.heap.startAddress) :
    WellFormed ⟨s.heap, m⟩ segs := by
  refine ⟨hw.segments.frame (hm.agreeOn (.inl hhi)), hw.tiles, ?_, hw.room, hw.below, hw.top⟩
  change s.heap.index.elems m = _
  rw [s.heap.index.elems_congr (hm.agreeOn (.inr hlo)), hw.index]

/-- If the bytes below the first block look like the footer of a later hole and a
block follows, `free` leaves the index as it is. -/
theorem free_misled {s : State} {b c h : Segment} (hw : WellFormed s [b, c, h]) (hb : b.isHole = false)
    (hc : c.isHole = false) (hh : h.isHole = true) (hlow : 8 ≤ s.heap.startAddress)
    (hfoot : FooterAt s.mem (s.heap.startAddress - 8) (s.heap.startAddress + b.size + c.size)) :
    ∃ m, free s (s.heap.startAddress + 12) = some ⟨s.heap, m⟩ := by
  obtain ⟨hbi, hci, hhi, -⟩ := hw.segments
  have htiles := hw.tiles
  have htop := hw.top
  have hbelow := hw.below
  have hroom := hw.room
  have hindex := hw.index
  have hbge := hbi.size_ge
  have hcge := hci.size_ge
  have hhge := hhi.size_ge
  simp only [span_cons, span_nil, Nat.add_zero, hbi.extent, hci.extent, hhi.extent] at htiles hci hhi
  simp only [holes, hb, hc, hh, hbi.extent, hci.extent, Bool.false_eq_true, ↓reduceIte] at hindex
  have hmark : AgreeOff s.mem (write8 s.mem (s.heap.startAddress + 4) 1) (s.heap.startAddress + 4)
      (s.heap.startAddress + 5) := agreeOff_write8 _ _ (Nat.le_refl _) (by omega)
  have hl := mergeLeft_joined (s.heap.startAddress + b.size - 8) hlow
    (hfoot.frame (hmark.agreeOn (by omega)))
    ((headerIsHole_congr (hmark.agreeOn (by omega))).trans (hhi.header.flag.trans hh))
    ((read32_congr (hmark.agreeOn (by omega))).trans hbi.header.sized)
  generalize add32 _ b.size = v at hl
  have hag : ∀ {lo hi : ℕ}, (hi ≤ s.heap.startAddress ∨ s.heap.startAddress + b.size ≤ lo ∧
      hi ≤ s.heap.startAddress + b.size + c.size) → AgreeOn s.mem
        (write32 (write32 (write8 s.mem (s.heap.startAddress + 4) 1)
          (s.heap.startAddress + b.size - 8 + 4) (s.heap.startAddress + b.size + c.size))
          (s.heap.startAddress + b.size + c.size + 8) v) lo hi := fun h =>
    ((agreeOn_write8 _ _ (by omega)).trans (agreeOn_write32 _ _ (by omega))).trans
      (agreeOn_write32 _ _ (by omega))
  have hfree := free_eq (by omega) hbge hbi.header.sized hbi.header.magic
    (hbi.footer (by omega)).magic hl
  generalize write32 (write32 (write8 s.mem _ 1) _ _) _ v = m at hag hfree
  have hno : ¬ (headerMagic m (s.heap.startAddress + b.size) = heapMagic ∧
      headerIsHole m (s.heap.startAddress + b.size) = true) := by
    rintro ⟨-, hflag⟩
    rw [headerIsHole_congr (hag (by omega)), hci.header.flag, hc] at hflag
    simp at hflag
  have hdrop : dropEntry ⟨s.heap, m⟩ (s.heap.startAddress + b.size) = ⟨s.heap, m⟩ := by
    refine dropEntry_of_notMem ?_
    change _ ∉ s.heap.index.elems m
    rw [s.heap.index.elems_congr (hag (by omega)), hindex]
    simp
    omega
  simp only [mergeRight, if_neg hno, Option.map_some, hdrop, Bool.false_eq_true, ↓reduceIte] at hfree
  exact ⟨m, hfree⟩

/-- Bytes at the end of the index area that look like the footer of the last hole: the
first block is credited to that hole and not added to the index. -/
theorem not_free_coalesces :
    ¬ ∀ (s : State) (pre post : List Segment) (t : Segment), PlacedAtStart s →
      WellFormed s (pre ++ t :: post) → s.heap.index.size < s.heap.index.maxSize →
      Separated (pre ++ t :: post) → t.isHole = false →
      bootStart + span pre + t.size ≠ s.heap.endAddress →
      ∃ s' u, free s (bootStart + span pre + 12) = some s' ∧ Coalesced s s' pre t post u := by
  intro hall
  obtain ⟨s₀, -, h₀⟩ := exists_init
  obtain ⟨hl, hw⟩ := served_wellFormed [12, 12] h₀ (by decide)
  generalize (allocateAll s₀ [12, 12]).2 = s at hl hw
  have hsize : s.heap.index.size = 1 := by
    rw [hl.represents.index_size]
    simp [blocksFrom, holes]
  have harray := hl.placedAtStart.array
  have hstart := hl.startAddress
  have hboot : bootStart = start + 524288 := rfl
  have hm : AgreeOff s.mem (writeFooter s.mem (bootStart - 8) (bootStart + 32 + 32)) (bootStart - 8)
      bootStart := writeFooter_agreeOff _ _ (Nat.le_refl _) (by omega)
  have hw' := hw.write_unused hm (by omega) hstart.ge
  have hfoot : FooterAt (writeFooter s.mem (bootStart - 8) (bootStart + 32 + 32)) (bootStart - 8)
      (bootStart + 32 + 32) := footerAt_writeFooter _ _ (by decide)
  generalize writeFooter s.mem _ _ = m at hw' hfoot
  obtain ⟨m', hfree⟩ := free_misled hw' rfl rfl rfl (by change 8 ≤ s.heap.startAddress; omega)
    (by change FooterAt m (s.heap.startAddress - 8) (s.heap.startAddress + 32 + 32); rwa [hstart])
  obtain ⟨s', u, hs', hco⟩ := hall ⟨s.heap, m⟩ [] _ _ ⟨harray, hl.maxSize, hstart⟩ hw'
    (by change s.heap.index.size < _; rw [hsize, hl.maxSize]; decide) (by simp [Separated, blocksFrom]) rfl
    (by change _ ≠ s.heap.endAddress; rw [hl.endAddress]; decide)
  have hsame : s' = ⟨s.heap, m'⟩ := by
    rw [span_nil, Nat.add_zero, ← hstart] at hs'
    exact Option.some.inj (hs'.symm.trans hfree)
  have hlen := congrArg List.length hco.index
  rw [PtrArray.elems_length, hsame, hsize] at hlen
  simp [fused, holes, hco.hole, blocksFrom] at hlen

end ExperimentalKernel.Heap
