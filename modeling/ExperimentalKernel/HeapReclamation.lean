import ExperimentalKernel.HeapGroups
import Mathlib.Algebra.Order.BigOperators.Group.List

/-!
# Reclaiming all memory

Blocks are allocated on the fresh heap and then all freed, in any order. The heap
ends as it began exactly if no block is joined to a hole on its right that does not
reach the end of the heap: such a join leaves a stale footer behind, and the block
after that footer is lost when it is freed.
-/

namespace ExperimentalKernel.Heap
open ByteMemory PointerArray

/-- Every hole accounts for all its bytes, and its footer names its own header
unless it is the last segment. -/
def Settled (a e : ℕ) (segs : List Segment) : Prop :=
  ∀ p ∈ placed a segs, p.2.isHole = true →
    p.2.extent = p.2.size ∧ (p.2.tag = p.1 ∨ p.1 + p.2.extent = e)

/-- Some hole has lost bytes or will lose those of the block after it. -/
def Leaky (a e : ℕ) (segs : List Segment) : Prop :=
  ∃ p ∈ placed a segs, p.2.isHole = true ∧
    (p.2.size < p.2.extent ∨ p.2.tag ≠ p.1 ∧ p.1 + p.2.extent < e)

section Join
variable {m : Mem} {a e : ℕ} {pre post pre' post' : List Segment} {t t₀ t' : Segment} {listed : Bool}

theorem LeftJoin.settled (hs : SegmentsAt m e a (pre ++ t :: post)) (ht : t.isHole = false)
    (hle : a + span (pre ++ t :: post) ≤ e) (hl : LeftJoin a pre t pre' t₀ listed)
    (hset : Settled a e pre) :
    t₀.extent = t₀.size ∧ t₀.tag = a + span pre' ∧ Settled a e pre' := by
  have hseg := (segmentsAt_append.mp hs).2.1
  have hblock := (hseg.block ht).1
  have hge := hseg.size_ge
  simp only [span_append, span_cons] at hle
  have hlast : ∀ l : Segment, l.isHole = true → pre = pre' ++ [l] → l.extent = l.size ∧
      (l.tag = a + span pre' ∨ a + span pre' + l.extent = e) ∧ Settled a e pre' := by
    rintro l h rfl
    obtain ⟨h₁, h₂⟩ := hset (a + span pre', l) (by simp) h
    exact ⟨h₁, h₂, fun p hp => hset p (by simp [hp])⟩
  cases hl with
  | alone _ _ h => exact ⟨hblock, rfl, hset⟩
  | fresh _ l _ h htag =>
    obtain ⟨h₁, -, h₂⟩ := hlast l h rfl
    exact ⟨by simp only; omega, htag, h₂⟩
  | stale _ l _ h htag =>
    obtain ⟨-, h₁, -⟩ := hlast l h rfl
    rcases h₁ with h₁ | h₁
    · exact absurd h₁ htag
    · simp only [span_append, span_cons, span_nil] at hle
      omega

/-- Joining to the right keeps the layout settled if the join reaches the end. -/
theorem settled_join (hs : SegmentsAt m e a (pre ++ t :: post)) (ht : t.isHole = false)
    (he : a + span (pre ++ t :: post) = e) (hl : LeftJoin a pre t pre' t₀ listed)
    (hj : RightJoin (a + span pre') t₀ post t' post') (hend : post' = post ∨ post' = [])
    (hset : Settled a e (pre ++ t :: post)) : Settled a e (pre' ++ t' :: post') := by
  obtain ⟨h₁, h₂, h₃⟩ := hl.settled hs ht he.le fun p hp => hset p (by simp [hp])
  have hlen := hl.length_eq
  simp only [span_append, span_cons] at he
  have hnew : t'.extent = t'.size ∧
      (t'.tag = a + span pre' ∨ a + span pre' + t'.extent = e) := by
    cases hj with
    | alone _ h => exact ⟨h₁, Or.inl h₂⟩
    | joined r _ h =>
      have hr := (hset (a + span pre + t.extent, r) (by simp) h).1
      simp only at hr
      have hpost : post' = [] := by
        rcases hend with hend | hend
        · have := congrArg List.length hend
          simp at this
        · exact hend
      subst hpost
      simp only [h₂, ↓reduceIte, span_cons, span_nil] at he ⊢
      exact ⟨by omega, Or.inr (by omega)⟩
  intro p hp hole
  simp only [placed_append, placed_cons, List.mem_append, List.mem_cons] at hp
  rcases hp with hp | rfl | hp
  · exact h₃ p hp hole
  · exact hnew
  · refine hset p ?_ hole
    simp only [placed_append, placed_cons, List.mem_append, List.mem_cons]
    refine Or.inr (Or.inr ?_)
    cases hj with
    | alone _ h => rwa [hlen] at hp
    | joined r _ h =>
      rw [← Nat.add_assoc, hlen] at hp
      exact List.mem_cons_of_mem _ hp

theorem LeftJoin.size_le (hs : SegmentsAt m e a (pre ++ t :: post))
    (hl : LeftJoin a pre t pre' t₀ listed) : t₀.size ≤ t₀.extent := by
  have hle := (segmentsAt_append.mp hs).2.1.size_le
  cases hl with
  | alone _ _ h => exact hle
  | fresh _ l _ h htag =>
    have := (hs.at_placed (p := (a + span pre', l)) (by simp)).size_le
    simp only at this ⊢
    omega
  | stale _ l _ h htag =>
    have := (hs.at_placed (p := (a + span pre', l)) (by simp)).size_le
    simp only at this ⊢
    omega

/-- The footer of a hole names no header before it. -/
theorem SegmentAt.le_tag {x : ℕ} {r : Segment} (h : SegmentAt m e x r) (hr : r.isHole = true)
    (he : x + r.extent < e) : x ≤ r.tag := by
  rcases h.hole hr he with h | h
  · omega
  · have := h.above
    omega

/-- A join to the right away from the end leaves a stale footer. -/
theorem leaky_joined (hs : SegmentsAt m e a (pre ++ t :: post))
    (he : a + span (pre ++ t :: post) = e) (hl : LeftJoin a pre t pre' t₀ listed)
    (hj : RightJoin (a + span pre') t₀ post t' post') (hne : post' ≠ post) (hpost : post' ≠ []) :
    Leaky a e (pre' ++ t' :: post') := by
  have hlen := hl.length_eq
  obtain ⟨-, hseg, hrest⟩ := segmentsAt_append.mp hs
  have hge := hseg.size_ge
  have hle := hseg.size_le
  simp only [span_append, span_cons] at he
  cases hj with
  | alone _ h => exact absurd rfl hne
  | joined r _ h =>
    obtain ⟨q, post', rfl⟩ := List.exists_cons_of_ne_nil hpost
    have hge' := hrest.2.1.size_ge
    have hle' := hrest.2.1.size_le
    simp only [span_cons] at he
    have htag := hrest.1.le_tag h (by omega)
    have hstart : a + span pre' ≤ a + span pre := by
      cases hl <;> simp
    exact ⟨_, mem_placed _ _ _ _, rfl, Or.inr ⟨by simp only; omega, by simp only; omega⟩⟩

/-- What is lost stays lost. -/
theorem leaky_join (hs : SegmentsAt m e a (pre ++ t :: post)) (ht : t.isHole = false)
    (he : a + span (pre ++ t :: post) = e) (hl : LeftJoin a pre t pre' t₀ listed)
    (hj : RightJoin (a + span pre') t₀ post t' post') (hleak : Leaky a e (pre ++ t :: post)) :
    Leaky a e (pre' ++ t' :: post') := by
  have hlen := hl.length_eq
  have hle₀ := hl.size_le hs
  obtain ⟨-, hseg, hrest⟩ := segmentsAt_append.mp hs
  have hge := hseg.size_ge
  have hle := hseg.size_le
  have hright : t₀.isHole = true → t₀.size < t₀.extent → Leaky a e (pre' ++ t' :: post') := by
    intro hole hlt
    refine ⟨_, mem_placed _ _ _ _, hj.isHole hole, Or.inl ?_⟩
    cases hj with
    | alone _ h => exact hlt
    | joined r _ h =>
      have := hrest.1.size_le
      simp only
      split <;> omega
  have hkept : ∀ p, p ∈ placed a pre' → p.2.isHole = true →
      (p.2.size < p.2.extent ∨ p.2.tag ≠ p.1 ∧ p.1 + p.2.extent < e) →
      Leaky a e (pre' ++ t' :: post') := fun p hp h₁ h₂ => ⟨p, by simp [hp], h₁, h₂⟩
  obtain ⟨p, hp, hole, hbad⟩ := hleak
  simp only [placed_append, placed_cons, List.mem_append, List.mem_cons] at hp
  rcases hp with hp | rfl | hp
  · cases hl with
    | alone _ _ h => exact hkept p hp hole hbad
    | fresh _ l _ h htag =>
      simp only [placed_append, placed_cons, placed_nil, List.mem_append, List.mem_singleton] at hp
      rcases hp with hp | rfl
      · exact hkept p hp hole hbad
      · rcases hbad with hbad | hbad
        · exact hright rfl (by simp only at hbad ⊢; omega)
        · exact absurd htag hbad.1
    | stale _ l _ h htag =>
      have := (hs.at_placed (p := (a + span pre', l)) (by simp)).size_le
      exact hright rfl (by simp only at this ⊢; omega)
  · simp [ht] at hole
  · cases hj with
    | alone _ h =>
      rw [← hlen] at hp
      exact ⟨p, by simp [hp], hole, hbad⟩
    | joined r _ h =>
      rw [placed_cons, List.mem_cons] at hp
      rcases hp with rfl | hp
      · have := hrest.1.size_le
        refine ⟨_, mem_placed _ _ _ _, rfl, ?_⟩
        simp only at hbad ⊢
        rcases hbad with hbad | hbad
        · left
          split <;> omega
        · have htag := hrest.1.le_tag h hbad.2
          have hstart : a + span pre' ≤ a + span pre := by
            cases hl <;> simp
          exact Or.inr ⟨by omega, by omega⟩
      · rw [← hlen, Nat.add_assoc] at hp
        exact ⟨p, by simp [hp], hole, hbad⟩

end Join

/-- A sequence of requests without page alignment: the pointers and the state. -/
def allocateAll : State → List ℕ → List ℕ × State
  | s, [] => ([], s)
  | s, n :: ns =>
    let (ptr, s₁) := allocate s n false
    let (ptrs, s₂) := allocateAll s₁ ns
    (ptr :: ptrs, s₂)

def freeAll : State → List ℕ → Option State
  | s, [] => some s
  | s, ptr :: ptrs => (free s ptr).bind fun s₁ => freeAll s₁ ptrs

/-- The index lists `startAddress_` only, and that is a hole of the whole length. -/
structure AsItBegan (s : State) : Prop where
  index : s.heap.index.elems s.mem = [s.heap.startAddress]
  isHole : headerIsHole s.mem s.heap.startAddress = true
  size : headerSize s.mem s.heap.startAddress = s.heap.endAddress - s.heap.startAddress

/-- The blocks of these requests from the offset `o` of the heap on. -/
def blocksFrom (o : ℕ) : List ℕ → List Segment
  | [] => []
  | n :: ns => ⟨false, n + 20, n + 20, bootStart + o⟩ :: blocksFrom (o + (n + 20)) ns

def pointersFrom (o : ℕ) : List ℕ → List ℕ
  | [] => []
  | n :: ns => (bootStart + o + 12) :: pointersFrom (o + (n + 20)) ns

theorem blocksFrom_isHole {o : ℕ} {ns : List ℕ} : ∀ u ∈ blocksFrom o ns, u.isHole = false := by
  induction ns generalizing o with
  | nil => simp [blocksFrom]
  | cons n ns ih =>
    rw [blocksFrom, List.forall_mem_cons]
    exact ⟨rfl, ih⟩

theorem allocate_empty {s : State} (h : s.heap.index.size = 0) {n : ℕ} (hn : n + 20 < wordSize) :
    allocate s n false = (0, s) := by
  refine allocate_refused hn ?_
  rw [findSmallestHole, h]
  rfl

/-- On a heap without holes every request fails. -/
theorem allocateAll_empty {s : State} (h : s.heap.index.size = 0) {ns : List ℕ}
    (hn : ∀ n ∈ ns, n + 20 < wordSize) : (allocateAll s ns).2 = s := by
  induction ns with
  | nil => rfl
  | cons n ns ih =>
    rw [List.forall_mem_cons] at hn
    simp only [allocateAll, allocate_empty h hn.1]
    exact ih hn.2

/-- Requests that succeed and leave a hole are cut from the last hole in order. -/
theorem allocateAll_layout {ns : List ℕ} {s : State} {bs : List Segment} {k : ℕ}
    (h : BootLayout s (bs ++ [⟨true, k, k, bootStart + span bs⟩]))
    (hbs : ∀ u ∈ bs, u.isHole = false) (hn : ∀ n ∈ ns, n + 20 < wordSize)
    (hptr : ∀ p ∈ (allocateAll s ns).1, p ≠ 0)
    (hleft : (allocateAll s ns).2.heap.index.size ≠ 0) :
    (allocateAll s ns).1 = pointersFrom (span bs) ns ∧
      ∃ k' tag, BootLayout (allocateAll s ns).2
        (bs ++ blocksFrom (span bs) ns ++ [⟨true, k', k', tag⟩]) := by
  induction ns generalizing s bs k with
  | nil => exact ⟨rfl, k, _, by simpa [blocksFrom, allocateAll] using h⟩
  | cons n ns ih =>
    rw [List.forall_mem_cons] at hn
    by_cases hroom : n + 40 ≤ k
    · obtain ⟨s', hs', h', hcs, hspan⟩ := h.allocate_last n hbs hroom
      simp only [allocateAll, hs', List.forall_mem_cons] at hptr hleft ⊢
      obtain ⟨h₁, k', tag, h₂⟩ := ih h' hcs hn.2 hptr.2 hleft
      rw [hspan] at h₁ h₂
      exact ⟨by rw [h₁]; rfl, k', tag, by simpa [blocksFrom] using h₂⟩
    · exfalso
      have hr := h.represents
      by_cases hfit : n + 20 ≤ k
      · have hfind : findSmallestHole s (n + 20) false = _ :=
          findSmallestHole_first hr rfl hfit fun u hu hole => by simp [hbs u hu] at hole
        obtain ⟨s', hs', hr', -, -⟩ := allocate_represents hr rfl rfl hfit hfind
        have hempty : s'.heap.index.size = 0 := by
          rw [hr'.index_size, holes_blocks]
          · rfl
          · intro u hu
            rw [cut, if_pos (by simp only; omega)] at hu
            rcases List.mem_append.mp hu with hu | hu
            · exact hbs u hu
            · simp at hu
              rw [hu]
        simp only [allocateAll, hs', allocateAll_empty hempty hn.2] at hleft
        exact hleft hempty
      · have hfind : findSmallestHole s (n + 20) false = none := by
          cases hf : findSmallestHole s (n + 20) false with
          | none => rfl
          | some i =>
            obtain ⟨pre, t, post, he, ht, hneed, -, -⟩ := findSmallestHole_some hr hf
            have hmem : t ∈ bs ++ [⟨true, k, k, bootStart + span bs⟩] := by rw [he]; simp
            rcases List.mem_append.mp hmem with hmem | hmem
            · simp [hbs t hmem] at ht
            · simp at hmem
              rw [hmem] at hneed
              exact absurd hneed hfit
        simp [allocateAll, allocate_refused hn.1 hfind] at hptr

/-- Requests that fit into the last hole together are cut from it in order. -/
theorem BootLayout.allocateAll {ns : List ℕ} {s : State} {bs : List Segment} {k : ℕ}
    (h : BootLayout s (bs ++ [⟨true, k, k, bootStart + span bs⟩]))
    (hbs : ∀ u ∈ bs, u.isHole = false) (hk : (ns.map (· + 20)).sum + 20 ≤ k) :
    let cs := bs ++ blocksFrom (span bs) ns
    let rest := k - (ns.map (· + 20)).sum
    BootLayout (Heap.allocateAll s ns).2 (cs ++ [⟨true, rest, rest, bootStart + span cs⟩]) := by
  induction ns generalizing s bs k with
  | nil => simpa [blocksFrom, Heap.allocateAll] using h
  | cons n ns ih =>
    rw [List.map_cons, List.sum_cons] at hk
    obtain ⟨s', hs', h', hcs, hspan⟩ := h.allocate_last n hbs (by omega)
    have hrest := ih h' hcs (by omega)
    rw [hspan] at hrest
    simpa [Heap.allocateAll, hs', blocksFrom, Nat.sub_sub] using hrest

/-- The cells of the requests, those at the positions `freed` free, and the rest of
the heap. -/
def cells (ns : List ℕ) (rest : ℕ) (freed : List ℕ) : List Cell :=
  ns.mapIdx (fun i n => (n + 20, decide (i ∈ freed))) ++ [(rest, true)]

/-- Which of `k` blocks and the rest of the heap are free. -/
def flags (k : ℕ) (freed : List ℕ) : List Bool :=
  (List.range k).map (fun i => decide (i ∈ freed)) ++ [true]

/-- The number of holes stays within the index while the blocks `todo` are freed. -/
def FitsIndex (k : ℕ) : List ℕ → List ℕ → Prop
  | _, [] => True
  | freed, i :: todo => freeRuns (flags k (i :: freed)) ≤ indexSize ∧ FitsIndex k (i :: freed) todo

/-- A block is freed while the block after it is free only when all blocks further on
are free as well. -/
def RightJoinsAtEnd : List ℕ → List ℕ → Prop
  | _, [] => True
  | freed, i :: todo => (i + 1 ∈ freed → ∀ j ∈ todo, j < i) ∧ RightJoinsAtEnd (i :: freed) todo

instance decidableFitsIndex (k : ℕ) : (freed todo : List ℕ) → Decidable (FitsIndex k freed todo)
  | _, [] => .isTrue trivial
  | freed, i :: todo =>
    have := decidableFitsIndex k (i :: freed) todo
    inferInstanceAs (Decidable (freeRuns (flags k (i :: freed)) ≤ indexSize ∧
      FitsIndex k (i :: freed) todo))

instance decidableRightJoinsAtEnd : (freed todo : List ℕ) → Decidable (RightJoinsAtEnd freed todo)
  | _, [] => .isTrue trivial
  | freed, i :: todo =>
    have := decidableRightJoinsAtEnd (i :: freed) todo
    inferInstanceAs (Decidable ((i + 1 ∈ freed → ∀ j ∈ todo, j < i) ∧
      RightJoinsAtEnd (i :: freed) todo))

theorem cells_flags (ns : List ℕ) (rest : ℕ) (freed : List ℕ) :
    (cells ns rest freed).map Prod.snd = flags ns.length freed := by
  unfold cells flags
  rw [List.map_append]
  congr 1
  apply List.ext_getElem <;> simp

@[simp] theorem cells_length (ns : List ℕ) (rest : ℕ) (freed : List ℕ) :
    (cells ns rest freed).length = ns.length + 1 := by
  simp [cells]

theorem cells_getElem {ns : List ℕ} {rest : ℕ} {freed : List ℕ} {i : ℕ} (hi : i < ns.length)
    {h : i < (cells ns rest freed).length} :
    (cells ns rest freed)[i] = (ns[i] + 20, decide (i ∈ freed)) := by
  simp [cells, List.getElem_append_left, hi]

theorem cells_getElem_last {ns : List ℕ} {rest : ℕ} {freed : List ℕ} {j : ℕ} (hj : ns.length ≤ j)
    {h : j < (cells ns rest freed).length} : (cells ns rest freed)[j] = (rest, true) := by
  simp [cells, List.getElem_append_right, hj]

/-- Freeing changes the flag of one cell. -/
theorem cells_split {ns : List ℕ} (rest : ℕ) {freed : List ℕ} {i : ℕ} (hi : i < ns.length)
    (hnew : i ∉ freed) :
    cells ns rest freed = (cells ns rest freed).take i ++
        (ns[i] + 20, false) :: (cells ns rest freed).drop (i + 1) ∧
      cells ns rest (i :: freed) = (cells ns rest freed).take i ++
        (ns[i] + 20, true) :: (cells ns rest freed).drop (i + 1) := by
  have hlen : i < (cells ns rest freed).length := by simp; omega
  constructor
  · have hget : (cells ns rest freed)[i] = (ns[i] + 20, false) := by
      rw [cells_getElem hi]
      simp [hnew]
    rw [← hget, List.getElem_cons_drop, List.take_append_drop]
  · have hset : cells ns rest (i :: freed) =
        (cells ns rest freed).set i (ns[i] + 20, true) := by
      apply List.ext_getElem
      · simp
      · intro j h₁ h₂
        rw [List.getElem_set]
        by_cases hj : j < ns.length
        · rw [cells_getElem hj]
          by_cases hij : i = j
          · subst hij
            simp
          · rw [if_neg hij, cells_getElem hj]
            simp [Ne.symm hij]
        · rw [if_neg (by omega), cells_getElem_last (by omega), cells_getElem_last (by omega)]
    rw [hset, List.set_eq_take_append_cons_drop, if_pos hlen]

theorem pointersFrom_getD {o : ℕ} {ns : List ℕ} {i : ℕ} (hi : i < ns.length) :
    (pointersFrom o ns).getD i 0 = bootStart + o + ((ns.take i).map (· + 20)).sum + 12 := by
  induction ns generalizing o i with
  | nil => simp at hi
  | cons n ns ih =>
    cases i with
    | zero => simp [pointersFrom]
    | succ i =>
      simp only [List.length_cons, Nat.add_lt_add_iff_right] at hi
      rw [pointersFrom, List.getD_cons_succ, ih hi]
      simp
      omega

theorem cells_take {ns : List ℕ} (rest : ℕ) (freed : List ℕ) {i : ℕ} (hi : i < ns.length) :
    total ((cells ns rest freed).take i) = ((ns.take i).map (· + 20)).sum := by
  have hmap : ((cells ns rest freed).take i).map Prod.fst = (ns.take i).map (· + 20) := by
    apply List.ext_getElem
    · simp
      omega
    · intro j h₁ h₂
      simp only [List.length_map, List.length_take] at h₂
      rw [List.getElem_map, List.getElem_take, cells_getElem (by omega)]
      simp
  rw [total, hmap]

/-- The heap after the blocks at the positions `freed` have been freed. -/
structure Grouped (s : State) (ns : List ℕ) (rest : ℕ) (freed : List ℕ) (segs : List Segment) :
    Prop where
  layout : BootLayout s segs
  groups : Groups (cells ns rest freed) segs
  separated : Separated segs

/-- The positions still to be freed. -/
structure Remaining (k : ℕ) (freed todo : List ℕ) : Prop where
  nodup : todo.Nodup
  lt : ∀ i ∈ todo, i < k
  fresh : ∀ i ∈ todo, i ∉ freed
  covers : ∀ i < k, i ∈ freed ∨ i ∈ todo

theorem Remaining.head {k i : ℕ} {freed todo : List ℕ} (h : Remaining k freed (i :: todo)) :
    i < k ∧ i ∉ freed ∧ i ∉ todo ∧ Remaining k (i :: freed) todo := by
  obtain ⟨hnodup, hlt, hfresh, hcovers⟩ := h
  rw [List.nodup_cons] at hnodup
  refine ⟨hlt i (by simp), hfresh i (by simp), hnodup.1, hnodup.2, fun j hj => hlt j (by simp [hj]),
    fun j hj hmem => ?_, fun j hj => ?_⟩
  · rcases List.mem_cons.mp hmem with rfl | hmem
    · exact hnodup.1 hj
    · exact hfresh j (by simp [hj]) hmem
  · rcases hcovers j hj with h | h
    · simp [h]
    · rcases List.mem_cons.mp h with rfl | h
      · simp
      · simp [h]

/-- One `free`: the joins that were made, and the grouping afterwards. -/
theorem grouped_free {s : State} {ns : List ℕ} {rest i : ℕ} {freed : List ℕ} {segs : List Segment}
    (hg : Grouped s ns rest freed segs) (hi : i < ns.length) (hnew : i ∉ freed)
    (hfits : freeRuns (flags ns.length (i :: freed)) ≤ indexSize) :
    ∃ s' pre t post pre' t₀ listed t' post',
      free s ((pointersFrom 0 ns).getD i 0) = some s' ∧ segs = pre ++ t :: post ∧
      t.isHole = false ∧ LeftJoin bootStart pre t pre' t₀ listed ∧
      RightJoin (bootStart + span pre') t₀ post t' post' ∧
      Groups ((cells ns rest freed).drop (i + 1)) post ∧
      Grouped s' ns rest (i :: freed) (pre' ++ t' :: post') := by
  obtain ⟨hsplit, hsplit'⟩ := cells_split rest hi hnew
  have hgroups := hg.groups
  rw [hsplit] at hgroups
  obtain ⟨pre, tag, post, rfl, hpre, hpost⟩ := hgroups.split_block
  obtain ⟨hspre, hsrest, -⟩ := List.isChain_append.mp hg.separated
  obtain ⟨pre', t₀, listed, hl⟩ := exists_left bootStart pre ⟨false, ns[i] + 20, ns[i] + 20, tag⟩
  obtain ⟨t', post', hj⟩ := exists_rightJoin (bootStart + span pre') t₀ post
  obtain ⟨hgroups', hsep'⟩ := groups_free hpre hpost hspre hsrest.tail hl hj
  rw [← hsplit'] at hgroups'
  have hne : post ≠ [] := by
    rintro rfl
    have hnil := hpost.eq_nil
    simp [List.drop_eq_nil_iff] at hnil
    omega
  have hcap : listed = true ∨ post' ≠ post ∨
      (holes bootStart (pre ++ ⟨false, ns[i] + 20, ns[i] + 20, tag⟩ :: post)).length < indexSize := by
    have hcount := hgroups'.countP_eq hsep'
    rw [cells_flags] at hcount
    cases hl with
    | fresh => exact Or.inl rfl
    | stale => exact Or.inl rfl
    | alone _ _ h =>
      cases hj with
      | joined r _ h' => exact Or.inr (Or.inl (by simp))
      | alone _ h' =>
        refine Or.inr (Or.inr ?_)
        rw [holes_length]
        simp only [List.countP_append, List.countP_cons] at hcount ⊢
        simp at hcount ⊢
        omega
  obtain ⟨s', hs', hlayout⟩ := hg.layout.free pre _ post rfl hl hj hne hcap
  refine ⟨s', pre, _, post, pre', t₀, listed, t', post', ?_, rfl, rfl, hl, hj, hpost, hlayout,
    hgroups', hsep'⟩
  rw [pointersFrom_getD hi, Nat.add_zero, ← cells_take rest freed hi,
    ← hpre.span_eq]
  exact hs'

/-- The cells after position `i`. -/
theorem mem_drop_cells {ns : List ℕ} {rest : ℕ} {freed : List ℕ} {i : ℕ} {c : Cell}
    (h : c ∈ (cells ns rest freed).drop (i + 1)) :
    c = (rest, true) ∨ ∃ j, ∃ hj : j < ns.length, i < j ∧ c = (ns[j] + 20, decide (j ∈ freed)) := by
  obtain ⟨k, hk, rfl⟩ := List.getElem_of_mem h
  rw [List.getElem_drop]
  simp only [List.length_drop, cells_length] at hk
  by_cases hj : i + 1 + k < ns.length
  · exact Or.inr ⟨i + 1 + k, hj, by omega, cells_getElem hj⟩
  · exact Or.inl (cells_getElem_last (by omega))

theorem cell_mem_drop {ns : List ℕ} {rest : ℕ} {freed : List ℕ} {i j : ℕ} (hj : j < ns.length)
    (hij : i < j) : (ns[j] + 20, decide (j ∈ freed)) ∈ (cells ns rest freed).drop (i + 1) := by
  refine List.mem_iff_getElem.mpr ⟨j - (i + 1), by simp; omega, ?_⟩
  have hsum : i + 1 + (j - (i + 1)) = j := by omega
  simp only [List.getElem_drop, hsum]
  exact cells_getElem hj

theorem head_drop_cells {ns : List ℕ} (rest : ℕ) (freed : List ℕ) {i : ℕ}
    (hi : i + 1 < ns.length) : ((cells ns rest freed).drop (i + 1)).head? =
      some (ns[i + 1] + 20, decide (i + 1 ∈ freed)) := by
  rw [List.head?_drop, List.getElem?_eq_getElem (by simp; omega), cells_getElem hi]

/-- All cells after the freed one are free if the next one is and the join reaches
the end. -/
theorem drop_cells_free {ns : List ℕ} {rest : ℕ} {freed todo : List ℕ} {i : ℕ}
    (hrem : Remaining ns.length freed (i :: todo)) (hnext : i + 1 < ns.length → i + 1 ∈ freed)
    (hend : i + 1 ∈ freed → ∀ j ∈ todo, j < i) :
    ∀ c ∈ (cells ns rest freed).drop (i + 1), c.2 = true := by
  intro c hc
  rcases mem_drop_cells hc with rfl | ⟨j, hj, hij, rfl⟩
  · rfl
  · have hlast := hend (hnext (by omega))
    rcases hrem.covers j hj with h | h
    · simpa using h
    · rcases List.mem_cons.mp h with rfl | h
      · omega
      · have := hlast j h
        omega

section Runs
variable {s : State} {ns : List ℕ} {rest : ℕ}

/-- When every block is free the layout is one hole. -/
theorem Grouped.final {freed : List ℕ} {segs : List Segment} (hg : Grouped s ns rest freed segs)
    (hall : ∀ i < ns.length, i ∈ freed) : ∃ t, segs = [t] ∧ t.isHole = true := by
  refine hg.groups.eq_single hg.separated (fun c hc => ?_) ?_
  · obtain ⟨j, hj, rfl⟩ := List.getElem_of_mem hc
    by_cases hlt : j < ns.length
    · rw [cells_getElem hlt]
      simpa using hall j hlt
    · rw [cells_getElem_last (by omega)]
  · intro h
    have := congrArg List.length h
    simp at this

/-- On one hole the heap is as it began if nothing was lost. -/
theorem asItBegan_iff {t : Segment} (h : BootLayout s [t]) (ht : t.isHole = true) :
    AsItBegan s ↔ t.extent = t.size := by
  have hr := h.represents
  have hseg := hr.segments.1
  have hsum := hr.tiles
  simp only [span_cons, span_nil, Nat.add_zero] at hsum
  have hsize : headerSize s.mem s.heap.startAddress = t.size := hseg.header.sized
  constructor
  · intro hb
    have := hb.size
    omega
  · intro hext
    refine ⟨?_, hseg.header.flag.trans ht, by omega⟩
    rw [hr.index]
    simp [holes, ht]

theorem freeAll_settled {todo freed : List ℕ} {segs : List Segment}
    (hg : Grouped s ns rest freed segs) (hset : Settled bootStart (start + initialSize) segs)
    (hrem : Remaining ns.length freed todo) (hfits : FitsIndex ns.length freed todo)
    (hend : RightJoinsAtEnd freed todo) :
    ∃ s', freeAll s (todo.map fun i => (pointersFrom 0 ns).getD i 0) = some s' ∧ AsItBegan s' := by
  induction todo generalizing s freed segs with
  | nil =>
    obtain ⟨t, rfl, ht⟩ := hg.final fun i hi => by simpa using hrem.covers i hi
    exact ⟨s, rfl, (asItBegan_iff hg.layout ht).mpr (hset (bootStart, t) (by simp) ht).1⟩
  | cons i todo ih =>
    obtain ⟨hi, hnew, hmem, hrem'⟩ := hrem.head
    obtain ⟨s', pre, t, post, pre', t₀, listed, t', post', hs', rfl, ht, hl, hj, hpost, hg'⟩ :=
      grouped_free hg hi hnew hfits.1
    have hsegs := hg.layout.segments
    have htiles := hg.layout.tiles
    have hjoin : post' = post ∨ post' = [] := by
      cases hj with
      | alone _ h => exact Or.inl rfl
      | joined r _ h =>
        have hsep := (List.isChain_append.mp hg.separated).2.1.tail
        have hnext : i + 1 < ns.length → i + 1 ∈ freed := by
          intro hlt
          simpa using hpost.head_free h _ (head_drop_cells rest freed hlt)
        obtain ⟨q, hq, -⟩ := hpost.eq_single hsep (drop_cells_free hrem hnext hend.1) (by simp; omega)
        rw [List.cons.injEq] at hq
        exact Or.inr hq.2
    obtain ⟨s'', hs'', hb⟩ := ih hg' (settled_join hsegs ht htiles hl hj hjoin hset) hrem' hfits.2
      hend.2
    exact ⟨s'', by rw [List.map_cons, freeAll, hs', Option.bind_some, hs''], hb⟩

/-- A block joined to the hole of the next one, while a later block is still to be freed: the
join ends before the hole at the end. -/
theorem leaky_before_later {i j : ℕ} {todo freed : List ℕ} {pre post pre' post' : List Segment}
    {t t₀ t' : Segment} {listed : Bool} (hg : Grouped s ns rest freed (pre ++ t :: post))
    (hrem : Remaining ns.length freed (i :: todo)) (hl : LeftJoin bootStart pre t pre' t₀ listed)
    (hj : RightJoin (bootStart + span pre') t₀ post t' post')
    (hpost : Groups ((cells ns rest freed).drop (i + 1)) post) (hnext : i + 1 ∈ freed)
    (hlater : j ∈ todo) (hij : i ≤ j) :
    Leaky bootStart (start + initialSize) (pre' ++ t' :: post') := by
  obtain ⟨-, -, hmem, -⟩ := hrem.head
  have hfresh := hrem.fresh j (List.mem_cons_of_mem _ hlater)
  have hne : j ≠ i := fun h => hmem (h ▸ hlater)
  have hne' : j ≠ i + 1 := fun h => hfresh (h ▸ hnext)
  have hlt := hrem.lt j (List.mem_cons_of_mem _ hlater)
  have hhead := head_drop_cells rest freed (by omega : i + 1 < ns.length)
  have hused : (ns[j] + 20, decide (j ∈ freed)) ∈ (cells ns rest freed).drop (i + 1) :=
    cell_mem_drop hlt (by omega)
  refine leaky_joined hg.layout.segments hg.layout.tiles hl hj ?_ ?_
  · cases hj with
    | joined r _ h => simp
    | alone _ h =>
      cases post with
      | nil =>
        rw [hpost.eq_nil] at hhead
        simp at hhead
      | cons r post =>
        have := hpost.head_used (h r (by simp)) _ hhead
        simp [hnext] at this
  · rintro rfl
    cases hj with
    | alone _ h =>
      rw [hpost.eq_nil] at hhead
      simp at hhead
    | joined r _ h =>
      have := hpost.covers.free_of_isHole h _ hused
      simp [hfresh] at this

theorem freeAll_leaky {todo freed : List ℕ} {segs : List Segment}
    (hg : Grouped s ns rest freed segs)
    (hbad : Leaky bootStart (start + initialSize) segs ∨ ¬ RightJoinsAtEnd freed todo)
    (hrem : Remaining ns.length freed todo) (hfits : FitsIndex ns.length freed todo) :
    ¬ ∃ s', freeAll s (todo.map fun i => (pointersFrom 0 ns).getD i 0) = some s' ∧ AsItBegan s' := by
  induction todo generalizing s freed segs with
  | nil =>
    obtain ⟨t, rfl, ht⟩ := hg.final fun i hi => by simpa using hrem.covers i hi
    have hsum := hg.layout.tiles
    simp only [span_cons, span_nil, Nat.add_zero] at hsum
    rintro ⟨s', hs', hb⟩
    simp only [List.map_nil, freeAll, Option.some.injEq] at hs'
    subst hs'
    have hext := (asItBegan_iff hg.layout ht).mp hb
    rcases hbad with ⟨p, hp, -, hbad⟩ | hbad
    · simp only [placed_cons, placed_nil, List.mem_singleton] at hp
      subst hp
      simp only at hbad
      omega
    · exact hbad trivial
  | cons i todo ih =>
    obtain ⟨hi, hnew, hmem, hrem'⟩ := hrem.head
    obtain ⟨s', pre, t, post, pre', t₀, listed, t', post', hs', rfl, ht, hl, hj, hpost, hg'⟩ :=
      grouped_free hg hi hnew hfits.1
    have hsegs := hg.layout.segments
    have htiles := hg.layout.tiles
    simp only [List.map_cons, freeAll, hs', Option.bind_some]
    rcases hbad with hleak | hbad
    · exact ih hg' (Or.inl (leaky_join hsegs ht htiles hl hj hleak)) hrem' hfits.2
    · rw [RightJoinsAtEnd, not_and_or] at hbad
      rcases hbad with hbad | hbad
      · push Not at hbad
        obtain ⟨hnext, j, hj', hij⟩ := hbad
        have hleak := leaky_before_later hg hrem hl hj hpost hnext hj' hij
        exact ih hg' (Or.inl hleak) hrem' hfits.2
      · exact ih hg' (Or.inr hbad) hrem' hfits.2

end Runs

/-- Requests `ns` on the heap `s` that all succeed and leave a hole. -/
structure Allocated (s : State) (ns ptrs : List ℕ) (s₁ : State) : Prop where
  served : allocateAll s ns = (ptrs, s₁)
  sizes : ∀ n ∈ ns, n + 20 < wordSize
  granted : ∀ p ∈ ptrs, p ≠ 0
  unexhausted : s₁.heap.index.size ≠ 0

/-- Freeing the blocks in this order of their positions leaves the heap as it began. -/
def EndsAsItBegan (s₁ : State) (ptrs order : List ℕ) : Prop :=
  ∃ s₂, freeAll s₁ (order.map fun i => ptrs.getD i 0) = some s₂ ∧ AsItBegan s₂

theorem groups_blocks (o rest : ℕ) (ns : List ℕ) (t : Segment) (ht : t.isHole = true)
    (hext : t.extent = rest) :
    Groups (cells ns rest []) (blocksFrom o ns ++ [t]) ∧ Separated (blocksFrom o ns ++ [t]) := by
  induction ns generalizing o with
  | nil =>
    have hcells : cells [] rest [] = [(rest, true)] := rfl
    rw [hcells]
    exact ⟨.single (.hole _ _ (by simp) (by simp) ht (by simp [hext])), List.isChain_singleton _⟩
  | cons n ns ih =>
    obtain ⟨hg, hs⟩ := ih (o + (n + 20))
    have hcells : cells (n :: ns) rest [] = [(n + 20, false)] ++ cells ns rest [] := by
      simp [cells, List.mapIdx_cons]
    rw [hcells]
    exact ⟨.cons (.block _ _) hg, List.isChain_cons.mpr ⟨fun _ _ h => by simp at h, hs⟩⟩

/-- After the allocations the layout is one block a request and the last hole. -/
theorem Allocated.grouped {s s₁ : State} {ns ptrs : List ℕ}
    (h₀ : BootLayout s [⟨true, bootSize, bootSize, bootStart⟩]) (h : Allocated s ns ptrs s₁) :
    ptrs = pointersFrom 0 ns ∧ ∃ rest tag, Grouped s₁ ns rest [] (blocksFrom 0 ns ++
      [⟨true, rest, rest, tag⟩]) := by
  obtain ⟨hserved, hsizes, hgranted, hhole⟩ := h
  have hfst : (allocateAll s ns).1 = ptrs := by rw [hserved]
  have hsnd : (allocateAll s ns).2 = s₁ := by rw [hserved]
  obtain ⟨h₁, rest, tag, h₂⟩ := allocateAll_layout
    (by simpa using h₀ : BootLayout s ([] ++ [⟨true, bootSize, bootSize, bootStart + span []⟩]))
    (by simp) hsizes (hfst ▸ hgranted) (hsnd ▸ hhole)
  rw [hfst] at h₁
  rw [hsnd] at h₂
  obtain ⟨hg, hs⟩ := groups_blocks 0 rest ns ⟨true, rest, rest, tag⟩ rfl rfl
  exact ⟨h₁, rest, tag, h₂, hg, hs⟩

/-- Requests that fit into the last hole together succeed and leave some of it. -/
theorem allocateAll_fits {ns : List ℕ} {s : State} {bs : List Segment} {k : ℕ}
    (h : BootLayout s (bs ++ [⟨true, k, k, bootStart + span bs⟩]))
    (hbs : ∀ u ∈ bs, u.isHole = false) (hk : (ns.map (· + 20)).sum + 20 ≤ k) :
    (∀ p ∈ (allocateAll s ns).1, p ≠ 0) ∧ (allocateAll s ns).2.heap.index.size ≠ 0 := by
  induction ns generalizing s bs k with
  | nil =>
    refine ⟨by simp [allocateAll], ?_⟩
    rw [allocateAll, h.represents.index_size, holes_length]
    simp
  | cons n ns ih =>
    rw [List.map_cons, List.sum_cons] at hk
    obtain ⟨s', hs', h', hcs, -⟩ := h.allocate_last n hbs (by omega)
    obtain ⟨h₁, h₂⟩ := ih h' hcs (by omega)
    simp only [allocateAll, hs', List.forall_mem_cons]
    exact ⟨⟨by omega, h₁⟩, h₂⟩

theorem allocated_of_fits {s : State} (ns : List ℕ)
    (h : BootLayout s [⟨true, bootSize, bootSize, bootStart⟩])
    (hk : (ns.map (· + 20)).sum + 20 ≤ bootSize) :
    Allocated s ns (allocateAll s ns).1 (allocateAll s ns).2 := by
  have hsize : bootSize < wordSize := by decide
  obtain ⟨h₁, h₂⟩ := allocateAll_fits
    (by simpa using h : BootLayout s ([] ++ [⟨true, bootSize, bootSize, bootStart + span []⟩]))
    (by simp) hk
  refine ⟨rfl, fun n hn => ?_, h₁, h₂⟩
  have hle : n + 20 ≤ (ns.map (· + 20)).sum := List.le_sum_of_mem (List.mem_map_of_mem hn)
  omega

theorem remaining_order {k : ℕ} {order : List ℕ} (h : order.Perm (List.range k)) :
    Remaining k [] order where
  nodup := h.nodup_iff.mpr List.nodup_range
  lt i hi := List.mem_range.mp (h.mem_iff.mp hi)
  fresh := by simp
  covers i hi := Or.inr (h.mem_iff.mpr (List.mem_range.mpr hi))

/-- Nothing is lost exactly if every join to the right reaches the end of the heap. -/
theorem endsAsItBegan_iff {m : Mem} {maxAddress : ℕ} {supervisor readOnly : Bool} {s s₁ : State}
    {ns ptrs order : List ℕ}
    (hinit : init m start (start + initialSize) maxAddress supervisor readOnly = some s)
    (h : Allocated s ns ptrs s₁) (hperm : order.Perm (List.range ns.length))
    (hfits : FitsIndex ns.length [] order) :
    EndsAsItBegan s₁ ptrs order ↔ RightJoinsAtEnd [] order := by
  obtain ⟨rfl, rest, tag, hg⟩ := h.grouped (init_bootLayout hinit)
  constructor
  · intro hends
    by_contra hbad
    exact freeAll_leaky hg (Or.inr hbad) (remaining_order hperm) hfits hends
  · refine fun hend => freeAll_settled hg (fun p hp hole => ?_) (remaining_order hperm) hfits hend
    have htiles := hg.layout.tiles
    rw [placed_append, List.mem_append] at hp
    rcases hp with hp | hp
    · obtain ⟨pre, post, he, -⟩ := placed_split hp
      have := blocksFrom_isHole p.2 (by rw [he]; simp)
      simp [hole] at this
    · simp only [placed_cons, placed_nil, List.mem_singleton] at hp
      subst hp
      simp only [span_append, span_cons, span_nil] at htiles
      exact ⟨rfl, Or.inr (by simp only; omega)⟩

theorem endsAsItBegan_descending :
    ∃ s₁ ptrs, ptrs.length = 3 ∧ EndsAsItBegan s₁ ptrs [2, 1, 0] := by
  have hinit := init_eq (fun _ => 0) 0xCFFFF000 false false
  have halloc := allocated_of_fits [12, 40, 7] (init_bootLayout hinit) (by decide)
  refine ⟨_, _, ?_, (endsAsItBegan_iff hinit halloc (by decide) (by decide)).mpr (by decide)⟩
  simp [allocateAll]

/-- Three blocks, the middle one freed first and the last one last. -/
theorem not_endsAsItBegan :
    ¬ ∀ m maxAddress supervisor readOnly s ns ptrs s₁ order,
      init m start (start + initialSize) maxAddress supervisor readOnly = some s →
      Allocated s ns ptrs s₁ → order.Perm (List.range ns.length) →
      EndsAsItBegan s₁ ptrs order := by
  intro hall
  have hinit := init_eq (fun _ => 0) 0xCFFFF000 false false
  have h₀ := init_bootLayout hinit
  have halloc := allocated_of_fits [12, 12, 12] h₀ (by decide)
  obtain ⟨hptrs, rest, tag, hg⟩ := halloc.grouped h₀
  have hends := hall _ _ _ _ _ _ _ _ [1, 0, 2] hinit halloc (by decide)
  rw [hptrs] at hends
  exact freeAll_leaky hg (Or.inr (by decide)) (remaining_order (by decide)) (by decide) hends

end ExperimentalKernel.Heap
