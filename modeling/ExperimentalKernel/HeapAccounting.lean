import ExperimentalKernel.HeapPages
import ExperimentalKernel.HeapReclamation
import Mathlib.Algebra.Group.Action.Defs

/-!
# The books of the heap

Along every run the holes of the index and the blocks of the live payloads add up to the whole
heap, and there is at most one hole more than there are payloads. So a request is granted as soon
as the sizes that were asked for leave room.
-/

namespace ExperimentalKernel.Heap
open ByteMemory PointerArray LabelledRuns

/-- The payloads of the blocks, in ascending order. -/
def payloads : ℕ → List Segment → List ℕ
  | _, [] => []
  | a, t :: segs =>
    if t.isHole then payloads (a + t.extent) segs else (a + 12) :: payloads (a + t.extent) segs

section Payloads

variable {a : ℕ} {t : Segment} {segs : List Segment}

@[simp] theorem payloads_nil (a : ℕ) : payloads a [] = [] := rfl

theorem payloads_hole (a : ℕ) (segs : List Segment) (ht : t.isHole = true) :
    payloads a (t :: segs) = payloads (a + t.extent) segs := if_pos ht

theorem payloads_block (a : ℕ) (segs : List Segment) (ht : t.isHole = false) :
    payloads a (t :: segs) = (a + 12) :: payloads (a + t.extent) segs :=
  if_neg (ht ▸ Bool.false_ne_true)

theorem payloads_append (a : ℕ) (xs ys : List Segment) :
    payloads a (xs ++ ys) = payloads a xs ++ payloads (a + span xs) ys := by
  induction xs generalizing a with
  | nil => rfl
  | cons x xs ih =>
    rw [List.cons_append, span_cons, ← Nat.add_assoc]
    cases hx : x.isHole with
    | true => rw [payloads_hole a _ hx, payloads_hole a _ hx, ih]
    | false => rw [payloads_block a _ hx, payloads_block a _ hx, ih, List.cons_append]

@[simp] theorem payloads_leftOver (a b r : ℕ) : payloads a (leftOver b r) = [] := by
  by_cases hr : r = 0
  · rw [hr]
    rfl
  · rw [leftOver_pos b hr]
    rfl

/-- Holes and blocks add up. -/
theorem sizes_span {m : Mem} {e : ℕ} (hs : SegmentsAt m e a segs) (hleak : NoLeak segs) :
    ((holes a segs).map (headerSize m)).sum +
      ((payloads a segs).map fun p => headerSize m (p - 12)).sum = span segs := by
  induction segs generalizing a with
  | nil => rfl
  | cons t segs ih =>
    have htail := ih hs.2 (hleak.of_sublist (List.sublist_cons_self _ _))
    have hsize : headerSize m a = t.size := hs.1.header.sized
    rw [span_cons, ← htail]
    cases ht : t.isHole with
    | true =>
      have hfull := hleak t List.mem_cons_self ht
      rw [payloads_hole a _ ht]
      simp only [holes, ht, ↓reduceIte, List.map_cons, List.sum_cons]
      omega
    | false =>
      have hfull := (hs.1.block ht).1
      rw [payloads_block a _ ht]
      simp only [holes, ht, Bool.false_eq_true, ↓reduceIte, List.map_cons, List.sum_cons,
        Nat.add_sub_cancel]
      omega

/-- Between two holes there is a block. -/
theorem Separated.holes_le (hs : Separated segs) :
    (holes a segs).length ≤ (payloads a segs).length + 1 ∧
      ((∀ t ∈ segs.head?, t.isHole = false) → (holes a segs).length ≤ (payloads a segs).length) := by
  induction segs generalizing a with
  | nil => exact ⟨Nat.zero_le _, fun _ => le_rfl⟩
  | cons t segs ih =>
    obtain ⟨hnext, hs⟩ := List.isChain_cons.mp hs
    obtain ⟨hany, hblock⟩ := ih (a := a + t.extent) hs
    cases ht : t.isHole with
    | true =>
      rw [payloads_hole a _ ht]
      simp only [holes, ht, ↓reduceIte, List.length_cons]
      have hle := hblock fun q hq => hnext q hq ht
      exact ⟨Nat.succ_le_succ hle, fun h => absurd ((h t rfl).symm.trans ht) Bool.false_ne_true⟩
    | false =>
      rw [payloads_block a _ ht]
      simp only [holes, ht, Bool.false_eq_true, ↓reduceIte, List.length_cons]
      exact ⟨hany.trans (Nat.le_succ _), fun _ => hany⟩

end Payloads

section Place

variable {pre post : List Segment} {b t : Segment}

theorem Separated.leftOver_append (hs : Separated post) (hhead : ∀ q ∈ post.head?, q.isHole = false)
    (a r : ℕ) : Separated (leftOver a r ++ post) := by
  by_cases hr : r = 0
  · rw [hr]
    exact hs
  · rw [leftOver_pos a hr]
    exact List.isChain_cons.mpr ⟨fun q hq _ => hhead q hq, hs⟩

/-- A block in place of a hole, with what is left of the hole on its sides. -/
theorem Separated.place (hs : Separated (pre ++ t :: post)) (ht : t.isHole = true)
    (hb : b.isHole = false) (a f c r : ℕ) :
    Separated (pre ++ ((leftOver a f ++ b :: leftOver c r) ++ post)) := by
  obtain ⟨hpre, hpost, hlast⟩ := List.isChain_append.mp hs
  obtain ⟨hhead, hpost⟩ := List.isChain_cons.mp hpost
  have hright := Separated.leftOver_append hpost (fun q hq => hhead q hq ht) c r
  have hblock : Separated (b :: (leftOver c r ++ post)) :=
    List.isChain_cons.mpr ⟨fun q _ hhole => absurd (hb.symm.trans hhole) Bool.false_ne_true, hright⟩
  have hmid := Separated.leftOver_append hblock (fun q hq => Option.some.inj hq ▸ hb) a f
  rw [List.append_assoc, List.cons_append]
  refine List.isChain_append.mpr ⟨hpre, hmid, fun p hp q _ hhole => ?_⟩
  have hno := hlast p hp t rfl hhole
  exact absurd (hno.symm.trans ht) Bool.false_ne_true

end Place

/-- The layout belongs to exactly the live payloads: each has a block, hardly longer than it asked
for, and there is no other. -/
structure Tallied (s : State) (segs : List Segment) (live : List (ℕ × ℕ)) : Prop where
  represents : Represents s segs
  noLeak : NoLeak segs
  separated : Separated segs
  nonempty : segs ≠ []
  payloads : (payloads s.heap.startAddress segs).Perm (live.map Prod.fst)
  snug : ∀ p ∈ live, ∃ x t, (x, t) ∈ placed s.heap.startAddress segs ∧ t.isHole = false ∧
    p.1 = x + 12 ∧ p.2 + 20 ≤ t.size ∧ t.size < p.2 + 40

section Steps

variable {s s' : State} {pre post segs : List Segment} {t : Segment} {live : List (ℕ × ℕ)}
  {size n f r x : ℕ}

theorem payloads_pairwise {m : Mem} {e a : ℕ} (hs : SegmentsAt m e a segs) :
    (Heap.payloads a segs).Pairwise (· < ·) ∧ ∀ p ∈ Heap.payloads a segs, a < p := by
  induction segs generalizing a with
  | nil => exact ⟨.nil, fun _ hp => absurd hp List.not_mem_nil⟩
  | cons t segs ih =>
    obtain ⟨hpair, hlow⟩ := ih hs.2
    have hge := hs.1.size_ge
    have hle := hs.1.size_le
    cases ht : t.isHole with
    | true =>
      rw [payloads_hole a _ ht]
      refine ⟨hpair, fun p hp => ?_⟩
      have := hlow p hp
      omega
    | false =>
      rw [payloads_block a _ ht]
      refine ⟨List.pairwise_cons.mpr ⟨fun p hp => ?_, hpair⟩, fun p hp => ?_⟩
      · have := hlow p hp
        omega
      · rcases List.mem_cons.mp hp with rfl | hp
        · omega
        · have := hlow p hp
          omega

theorem Tallied.owned (h : Tallied s segs live) : Owned s.heap.startAddress segs live where
  distinct := by
    have hnodup : (live.map Prod.fst).Nodup := h.payloads.nodup_iff.mp
      ((payloads_pairwise h.represents.segments).1.imp fun hlt => Nat.ne_of_lt hlt)
    exact List.pairwise_map.mp hnodup
  block p hp := by
    obtain ⟨x, t, hx, ht, he, hn, -⟩ := h.snug p hp
    exact ⟨x, t, hx, ht, he, hn⟩

/-- A new block in a hole, for a payload of `size` bytes. -/
theorem Tallied.place (h : Tallied s (pre ++ t :: post) live) (ht : t.isHole = true)
    (hx : s.heap.startAddress + span pre = x)
    (hr : Represents s'
      (pre ++ ((leftOver x f ++ ⟨false, n, n, x + f⟩ :: leftOver (x + f + n) r) ++ post)))
    (ha : SameArena s s') (hsum : f + n + r = t.size) (hn : size + 20 ≤ n) (hlt : n < size + 40) :
    Tallied s' (pre ++ ((leftOver x f ++ ⟨false, n, n, x + f⟩ :: leftOver (x + f + n) r) ++ post))
      ((x + f + 12, size) :: live) := by
  have hext := h.noLeak t (by simp) ht
  have hspan : span (leftOver x f ++ ⟨false, n, n, x + f⟩ :: leftOver (x + f + n) r) = span [t] := by
    simp only [span_append, span_cons, span_nil, span_leftOver, hext]
    omega
  refine ⟨hr, ?_, h.separated.place ht rfl _ _ _ _, by simp, ?_, fun p hp => ?_⟩
  · refine (h.noLeak.of_sublist (by simp)).append (NoLeak.append ?_ (h.noLeak.of_sublist (by simp)))
    refine (noLeak_leftOver _ _).append fun u hu => ?_
    rcases List.mem_cons.mp hu with rfl | hu
    · exact fun hole => absurd hole Bool.false_ne_true
    · exact noLeak_leftOver _ _ u hu
  · have hold := h.payloads
    rw [payloads_append, payloads_hole _ _ ht, hx] at hold
    rw [ha.startAddress, payloads_append, payloads_append, payloads_append, hspan, hx,
      payloads_leftOver, span_leftOver, payloads_block _ _ rfl, payloads_leftOver, span_cons, span_nil,
      List.map_cons]
    exact (List.perm_middle).trans (hold.cons _)
  · rw [ha.startAddress]
    rcases List.mem_cons.mp hp with rfl | hp
    · exact ⟨_, ⟨false, n, n, x + f⟩, by simp [← hx], rfl, rfl, hn, hlt⟩
    · obtain ⟨y, u, hy, hu, he, hbounds⟩ := h.snug p hp
      exact ⟨y, u, mem_placed_replace hspan (by simpa using ht) hu
        (hy : _ ∈ placed _ (pre ++ ([t] ++ post))), hu, he, hbounds⟩

theorem cut_eq (x : ℕ) {need : ℕ} (hn : need ≤ t.size) :
    ∃ n r, cut x need t = ⟨false, n, n, x⟩ :: leftOver (x + n) r ∧ n + r = t.size ∧ need ≤ n ∧
      n < need + 20 := by
  unfold cut
  split
  · next h =>
    refine ⟨t.size, 0, rfl, rfl, hn, ?_⟩
    omega
  · next h =>
    refine ⟨need, t.size - need, ?_, Nat.add_sub_cancel' hn, le_rfl, Nat.lt_add_of_pos_right (by decide)⟩
    rw [leftOver_pos _ (by omega)]

/-- A plain request that finds a hole. -/
theorem Tallied.allocate {i : ℕ} (h : Tallied s segs live)
    (hfind : findSmallestHole s (size + 20) false = some i) :
    ∃ ptr s' segs', Heap.allocate s size false = (ptr, s') ∧ ptr ≠ 0 ∧ SameArena s s' ∧
      Tallied s' segs' ((ptr, size) :: live) := by
  obtain ⟨pre, t, post, rfl, ht, hneed, -, rfl⟩ := findSmallestHole_some h.represents hfind
  have hext := h.noLeak t (by simp) ht
  obtain ⟨s', hs', hr, ha, -⟩ := allocate_represents h.represents ht hext hneed hfind
  obtain ⟨n, r, hcut, hsum, hn, hlt⟩ := cut_eq (s.heap.startAddress + span pre) hneed
  rw [hcut] at hr
  exact ⟨_, s', _, hs', Nat.succ_ne_zero _, ha,
    h.place (f := 0) ht rfl hr ha (by rw [Nat.zero_add, hsum]) hn hlt⟩

/-- A request for a page that finds a hole with room for tags. -/
theorem Tallied.page {i : ℕ} (h : Tallied s segs live)
    (hfind : findSmallestHole s (size + 20) true = some i) (hplace : Placeable s size) :
    ∃ ptr s' segs', Heap.allocate s size true = (ptr, s') ∧ ptr ≠ 0 ∧ SameArena s s' ∧
      Tallied s' segs' ((ptr, size) :: live) := by
  obtain ⟨pre, t, post, rfl, ht, rfl⟩ := h.represents.found hfind
  have hext := h.noLeak t (by simp) ht
  obtain ⟨hsub, -, -⟩ := h.represents.staged_erase ht hext
  obtain ⟨hroom, hgap⟩ := hplace _ hfind
  simp only [hsub, (segmentsAt_append.mp h.represents.segments).2.1.header.sized] at hroom hgap
  obtain ⟨f, n, r, s', hs', -, hn, hlt, hsum, hr, ha, -⟩ :=
    h.represents.allocate_page ht hext hfind hroom hgap
  exact ⟨_, s', _, hs', Nat.succ_ne_zero _, ha, h.place ht rfl hr ha hsum hn hlt⟩

/-- A request that finds a hole is granted. -/
theorem Tallied.request {i : ℕ} {pageAlign : Bool} (h : Tallied s segs live)
    (hplace : pageAlign = true → Placeable s size)
    (hfind : findSmallestHole s (size + 20) pageAlign = some i) :
    ∃ ptr s' segs', Heap.allocate s size pageAlign = (ptr, s') ∧ ptr ≠ 0 ∧ SameArena s s' ∧
      Tallied s' segs' ((ptr, size) :: live) := by
  cases pageAlign with
  | false => exact h.allocate hfind
  | true => exact h.page hfind (hplace rfl)

end Steps

section Free

variable {s s' : State} {pre post pre' post' segs : List Segment} {t t₀ t' : Segment}
  {live : List (ℕ × ℕ)} {listed : Bool} {a e x size : ℕ} {m : Mem}

theorem LeftJoin.payloads_eq (hl : LeftJoin a pre t pre' t₀ listed) :
    payloads a pre' = payloads a pre := by
  cases hl with
  | alone _ _ h => rfl
  | fresh _ l _ h _ => rw [payloads_append, payloads_hole _ _ h, payloads_nil, List.append_nil]
  | stale _ l _ h _ => rw [payloads_append, payloads_hole _ _ h, payloads_nil, List.append_nil]

theorem RightJoin.payloads_eq (hj : RightJoin x t₀ post t' post') :
    payloads (x + t'.extent) post' = payloads (x + t₀.extent) post := by
  cases hj with
  | alone _ h => rfl
  | joined r _ h => rw [payloads_hole _ _ h, Nat.add_assoc]

/-- Each segment as one cell. -/
theorem SegmentsAt.exists_groups (hs : SegmentsAt m e a segs) : ∃ cs, Groups cs segs := by
  induction segs generalizing a with
  | nil => exact ⟨[], .nil⟩
  | cons t segs ih =>
    obtain ⟨cs, hcs⟩ := ih hs.2
    cases ht : t.isHole with
    | true =>
      exact ⟨_, .cons (.hole [(t.extent, true)] t (List.cons_ne_nil _ _) (by simp) ht (by simp)) hcs⟩
    | false =>
      obtain ⟨isHole, n, extent, tag⟩ := t
      obtain rfl : isHole = false := ht
      obtain rfl : extent = n := (hs.1.block rfl).1
      exact ⟨_, .cons (.block extent tag) hcs⟩

/-- The layout after a `free`. -/
theorem Tallied.free (h : Tallied s (pre ++ t :: post) live) (ht : t.isHole = false)
    (hp : (s.heap.startAddress + span pre + 12, size) ∈ live)
    (hl : LeftJoin s.heap.startAddress pre t pre' t₀ listed)
    (hj : RightJoin (s.heap.startAddress + span pre') t₀ post t' post')
    (hext : t₀.extent = t₀.size) (htag : t₀.tag = s.heap.startAddress + span pre')
    (hpre : pre'.Sublist pre) (hr : Represents s' (pre' ++ t' :: post')) (ha : SameArena s s') :
    Tallied s' (pre' ++ t' :: post') (live.erase (s.heap.startAddress + span pre + 12, size)) := by
  obtain ⟨hext', hleak'⟩ := hj.noLeak hext htag (h.noLeak.of_sublist (by simp))
  refine ⟨hr, ?_, ?_, by simp, ?_, fun p hp' => ?_⟩
  · refine (h.noLeak.of_sublist (hpre.trans (by simp))).append fun u hu hole => ?_
    rcases List.mem_cons.mp hu with rfl | hu
    · exact hext'
    · exact hleak' u hu hole
  · obtain ⟨hspre, hseg, hspost⟩ := segmentsAt_append.mp h.represents.segments
    obtain ⟨cx, hcx⟩ := hspre.exists_groups
    obtain ⟨cy, hcy⟩ := hspost.exists_groups
    obtain ⟨hsep, hsep', -⟩ := List.isChain_append.mp h.separated
    obtain ⟨isHole, n, extent, tag⟩ := t
    obtain rfl : isHole = false := ht
    obtain rfl : extent = n := (hseg.block rfl).1
    exact (groups_free hcx hcy hsep hsep'.tail hl hj).2
  · have hold := h.payloads
    have hlen := hl.length_eq
    have hole : t'.isHole = true := hj.isHole (by cases hl <;> rfl)
    rw [payloads_append, payloads_block _ _ ht] at hold
    rw [ha.startAddress, payloads_append, payloads_hole _ _ hole, hl.payloads_eq, hj.payloads_eq, hlen]
    have hlive : (live.map Prod.fst).Perm ((s.heap.startAddress + span pre + 12) ::
        (live.erase (s.heap.startAddress + span pre + 12, size)).map Prod.fst) :=
      (List.perm_cons_erase hp).map Prod.fst
    exact (List.perm_middle.symm.trans (hold.trans hlive)).cons_inv
  · have hne := h.owned.ne_of_mem_erase hp hp'
    obtain ⟨y, u, hy, hu, he, hbounds⟩ := h.snug p (List.erase_sublist.subset hp')
    rw [ha.startAddress]
    simp only at hne
    exact ⟨y, u, free_keeps hl hj hu hy (by omega), hu, he, hbounds⟩

end Free

/-- The state keeps its books: the index is in order and the layout is tallied. -/
def InOrder (w : World) : Prop := IndexClean w.state ∧ ∃ segs, Tallied w.state segs w.live

section Runs

variable {w w' : World} {size : ℕ}

theorem InOrder.request {pageAlign : Bool} (h : InOrder w) (hs : size + 20 < wordSize)
    (hplace : pageAlign = true → Placeable w.state size) : InOrder (w.request size pageAlign).2 := by
  obtain ⟨hclean, segs, ht⟩ := h
  have hadd : add32 size 20 = size + 20 := add32_eq hs
  cases hfind : findSmallestHole w.state (size + 20) pageAlign with
  | none =>
    have hrefused : Heap.allocate w.state size pageAlign = (0, w.state) := by
      simp only [Heap.allocate, hadd, hfind]
    simp only [World.request, hrefused, granted, ↓reduceIte, List.nil_append]
    exact ⟨hclean, segs, ht⟩
  | some i =>
    obtain ⟨ptr, s', segs', hs', hne, ha, ht'⟩ := ht.request hplace hfind
    rw [World.request_eq hs' hne]
    exact ⟨hclean.transfer ha, segs', ht'⟩

theorem InOrder.free {ptr : ℕ} {s' : State} (h : InOrder w) (hp : (ptr, size) ∈ w.live)
    (hf : Heap.free w.state ptr = some s') (hadm : Admissible w (.free ptr)) :
    InOrder ⟨s', w.live.erase (ptr, size)⟩ := by
  obtain ⟨hclean, segs, h⟩ := h
  obtain ⟨x, t, hx, ht, he, -⟩ := h.snug _ hp
  obtain ⟨pre, post, rfl, hxe⟩ := placed_split hx
  simp only at hxe he
  subst hxe he
  obtain ⟨hfresh, hroom⟩ := hadm
  have hr := h.represents
  have hseg := hr.segments.at_placed hx
  have hsub : w.state.heap.startAddress + span pre + 12 - 20 =
      w.state.heap.startAddress + span pre - 8 := by omega
  rw [hsub] at hfresh
  obtain ⟨pre', t₀, listed, hl, hext, -, htag, hpre, hlisted⟩ :=
    exists_leftJoin hclean hr (h.noLeak.of_sublist (by simp)) (hseg.block ht).1 hfresh
  obtain ⟨t', post', hj⟩ := exists_rightJoin (w.state.heap.startAddress + span pre') t₀ post
  have hend : post = [] → ¬ (headerMagic w.state.mem w.state.heap.endAddress = heapMagic ∧
      headerIsHole w.state.mem w.state.heap.endAddress = true) := by
    rintro rfl hlook
    rw [free_hangs hclean.guarded hr ht hl hlook] at hf
    cases hf
  have hcap : listed = true ∨ post' ≠ post ∨
      w.state.heap.index.size < w.state.heap.index.maxSize := by
    rcases hroom with hroom | hroom | hroom
    · exact .inr (.inr hroom)
    · exact .inl (hlisted hroom)
    · exact .inr (.inl (joins_of_holeOnRight hr ht hj hend hroom))
  obtain ⟨s₂, hs₂, hr', ha, -⟩ := free_represents hclean.guarded hr ht hl hj hcap hend
  obtain rfl := Option.some.inj (hf.symm.trans hs₂)
  exact ⟨hclean.transfer ha, _, h.free ht hp hl hj hext htag hpre hr' ha⟩

theorem InOrder.write {ptr address : ℕ} (b : UInt8) (h : InOrder w) (hp : (ptr, size) ∈ w.live)
    (hl : ptr ≤ address) (hh : address < ptr + size) :
    InOrder ⟨⟨w.state.heap, write8 w.state.mem address b⟩, w.live⟩ := by
  obtain ⟨hclean, segs, h⟩ := h
  have hr := h.represents
  obtain ⟨x, t, hx, ht, he, hn, hlt⟩ := h.snug _ hp
  simp only at he hn
  have hle := (hr.segments.at_placed hx).size_le
  have hbound := mem_placed_bounds hx
  have hbelow := hr.below
  simp only at hle hbound
  have hag : AgreeOn w.state.mem (write8 w.state.mem address b) w.state.heap.index.array
      (w.state.heap.index.array + 4 * w.state.heap.index.maxSize) :=
    agreeOn_write8 _ _ (by omega)
  have hindex := w.state.heap.index.elems_congr (hag.mono le_rfl (by have := hr.room; omega))
  exact ⟨hclean.transfer ⟨rfl, rfl, rfl, rfl, wordsFrom_of_agreeOn hag⟩, segs,
    ⟨hr.segments.write8 b hx ht (by omega) (by omega), hr.tiles, hindex.trans hr.index, hr.room, hbelow,
      hr.top⟩, h.noLeak, h.separated, h.nonempty, h.payloads, h.snug⟩

theorem InOrder.serve {a : Service} (h : InOrder w) (hs : Serve w a w') (ha : Servable w a) :
    InOrder w' := by
  cases hs with
  | plain hs =>
    cases hs with
    | @allocate size hsize =>
      have hrequest : InOrder (w.request size false).2 :=
        h.request hsize fun he => absurd he Bool.false_ne_true
      exact hrequest
    | free hp hf => exact h.free hp hf ha
    | write hp hl hh => exact h.write _ hp hl hh
  | page hsize => exact h.request hsize fun _ => ha

theorem inOrder_boot {s : State} (h : BootLayout s [⟨true, bootSize, bootSize, bootStart⟩]) :
    InOrder ⟨s, []⟩ :=
  ⟨h.clean, _, h.represents, fun t ht _ => by rw [List.mem_singleton.mp ht],
    List.isChain_singleton _, List.cons_ne_nil _ _, List.Perm.refl [],
    fun _ hp => absurd hp List.not_mem_nil⟩

theorem inOrder_served (h : Served w) : InOrder w := by
  obtain ⟨m, maxAddress, supervisor, readOnly, s, as, hinit, hrun⟩ := h
  exact hrun.invariant (P := InOrder) (fun w a w' hw hstep => hw.serve hstep.1 hstep.2)
    (inOrder_boot (init_bootLayout hinit))

/-- The header of the block of a payload. -/
def blockSize (s : State) (ptr : ℕ) : ℕ := headerSize s.mem (ptr - 12)

/-- The holes of the index and the blocks of the payloads make up the heap. -/
structure BooksBalance (w : World) : Prop where
  total : ((w.state.heap.index.elems w.state.mem).map (headerSize w.state.mem)).sum +
    (w.live.map fun p => blockSize w.state p.1).sum =
      w.state.heap.endAddress - w.state.heap.startAddress
  snug : ∀ p ∈ w.live, p.2 + 20 ≤ blockSize w.state p.1 ∧ blockSize w.state p.1 < p.2 + 40
  few : w.state.heap.index.size ≤ w.live.length + 1
  whole : w.live = [] → AsItBegan w.state

theorem Tallied.total {s : State} {segs : List Segment} {live : List (ℕ × ℕ)}
    (h : Tallied s segs live) : ((s.heap.index.elems s.mem).map (headerSize s.mem)).sum +
      (live.map fun p => blockSize s p.1).sum = s.heap.endAddress - s.heap.startAddress := by
  have hsum := sizes_span h.represents.segments h.noLeak
  have hperm := (h.payloads.map fun p => headerSize s.mem (p - 12)).sum_eq
  rw [List.map_map] at hperm
  have htiles := h.represents.tiles
  rw [h.represents.index]
  change _ + (live.map ((fun p => headerSize s.mem (p - 12)) ∘ Prod.fst)).sum = _
  omega

theorem Tallied.few {s : State} {segs : List Segment} {live : List (ℕ × ℕ)} (h : Tallied s segs live) :
    s.heap.index.size ≤ live.length + 1 := by
  have hle := (h.separated.holes_le (a := s.heap.startAddress)).1
  have hlen := h.payloads.length_eq
  rw [List.length_map] at hlen
  rw [h.represents.index_size, ← hlen]
  exact hle

/-- Without payloads there is one hole. -/
theorem Tallied.whole {s : State} {segs : List Segment} (h : Tallied s segs []) : AsItBegan s := by
  have hnone : Heap.payloads s.heap.startAddress segs = [] := h.payloads.eq_nil
  have hfew := (h.separated.holes_le (a := s.heap.startAddress)).1
  have hsum := h.total
  have hr := h.represents
  have hpos : segs ≠ [] := h.nonempty
  cases segs with
  | nil => exact absurd rfl hpos
  | cons t segs =>
    cases ht : t.isHole with
    | false =>
      rw [payloads_block _ _ ht] at hnone
      cases hnone
    | true =>
      rw [hnone] at hfew
      have hindex : s.heap.index.elems s.mem = [s.heap.startAddress] := by
        rw [hr.index]
        simp only [holes, ht, ↓reduceIte, List.length_cons, List.length_nil] at hfew ⊢
        rw [List.eq_nil_of_length_eq_zero (Nat.le_zero.mp (Nat.le_of_succ_le_succ hfew))]
      rw [hindex] at hsum
      exact ⟨hindex, hr.segments.1.header.flag.trans ht, by simpa using hsum⟩

theorem Tallied.books {segs : List Segment} (h : Tallied w.state segs w.live) : BooksBalance w := by
  refine ⟨h.total, fun p hp => ?_, h.few, fun hnone => ?_⟩
  · obtain ⟨x, t, hx, -, he, hn, hlt⟩ := h.snug p hp
    have hsize : blockSize w.state p.1 = t.size := by
      rw [blockSize, he, Nat.add_sub_cancel]
      exact (h.represents.segments.at_placed hx).header.sized
    rw [hsize]
    exact ⟨hn, hlt⟩
  · rw [hnone] at h
    exact h.whole

/-- The books balance along every run. -/
theorem books_balance (h : Served w) : BooksBalance w := by
  obtain ⟨-, segs, ht⟩ := inOrder_served h
  exact ht.books

theorem served_bounds (h : Served w) :
    w.state.heap.startAddress = bootStart ∧ w.state.heap.endAddress = start + initialSize := by
  obtain ⟨m, maxAddress, supervisor, readOnly, s, as, hinit, hrun⟩ := h
  have hboot := init_bootLayout hinit
  have hsame : SameBounds s w.state := hrun.invariant (P := fun w => SameBounds s w.state)
    (fun w a w' hw hstep => hw.trans hstep.1.bounds) (.refl s)
  exact ⟨hsame.startAddress.trans hboot.startAddress, hsame.endAddress.trans hboot.endAddress⟩

/-- What a hole may have at most where a request finds none. -/
def shortage (size : ℕ) (pageAlign : Bool) : ℕ := size + 19 + if pageAlign then 4095 else 0

/-- Payloads of these sizes, whose blocks take at most 39 bytes more each, leave more than `room`
bytes for each hole that there can be. -/
def LeavesRoom (sizes : List ℕ) (room : ℕ) : Prop :=
  (sizes.map (· + 39)).sum + (sizes.length + 1) * room < bootSize

instance (sizes : List ℕ) (room : ℕ) : Decidable (LeavesRoom sizes room) :=
  inferInstanceAs (Decidable (_ < _))

theorem LeavesRoom.mono {sizes sizes' : List ℕ} {room room' : ℕ} (h : LeavesRoom sizes room)
    (hsub : sizes'.Sublist sizes) (hle : room' ≤ room) : LeavesRoom sizes' room' := by
  have hsum := (hsub.map (· + 39)).sum_le_sum fun _ _ => Nat.zero_le _
  have hlen := Nat.mul_le_mul (Nat.succ_le_succ hsub.length_le) hle
  exact (Nat.add_le_add hsum hlen).trans_lt h

/-- A request for which there is room is not too large. -/
theorem LeavesRoom.size_lt {sizes : List ℕ} {size : ℕ} {pageAlign : Bool}
    (h : LeavesRoom sizes (shortage size pageAlign)) : size + 20 < wordSize := by
  have hlow : size ≤ shortage size pageAlign := (Nat.le_add_right _ _).trans (Nat.le_add_right _ _)
  have hbound := h.mono (List.nil_sublist _) hlow
  have hboot : bootSize + 20 < wordSize := by decide
  simp only [LeavesRoom, List.map_nil, List.sum_nil, List.length_nil] at hbound
  omega

/-- The holes that a request finds too small. -/
theorem Represents.refused {s : State} {segs : List Segment} {pageAlign : Bool}
    (hr : Represents s segs) (hfind : findSmallestHole s (size + 20) pageAlign = none) :
    ∀ x ∈ s.heap.index.elems s.mem, headerSize s.mem x ≤ shortage size pageAlign := by
  intro x hx
  rw [findSmallestHole_eq, List.findIdx?_eq_none_iff] at hfind
  have hno := hfind x hx
  rw [hr.index] at hx
  obtain ⟨pre, t, post, rfl, ht, rfl⟩ := mem_holes_iff.mp hx
  have hhead := (segmentsAt_append.mp hr.segments).2.1.header
  rw [Bool.eq_false_iff, ne_eq, holeFits_iff (hhead.flag.trans ht), not_or] at hno
  have hgap : gap (s.heap.startAddress + span pre) < 4096 := gap_lt _
  have hlt := hno.1
  rw [Qualifies, Nat.not_le] at hlt
  apply Nat.le_of_lt_succ
  apply hlt.trans_le
  cases pageAlign with
  | false =>
    simp only [shortage, Bool.false_eq_true, ↓reduceIte]
    omega
  | true =>
    simp only [shortage, ↓reduceIte]
    omega

/-- Where the books leave room a request finds a hole. -/
theorem Served.granted {pageAlign : Bool} (h : Served w)
    (hplace : pageAlign = true → Placeable w.state size)
    (hroom : LeavesRoom (w.live.map Prod.snd) (shortage size pageAlign)) :
    (w.request size pageAlign).1 ≠ 0 := by
  obtain ⟨-, segs, ht⟩ := inOrder_served h
  cases hfind : findSmallestHole w.state (size + 20) pageAlign with
  | some i =>
    obtain ⟨ptr, s', segs', hs', hne, -⟩ := ht.request hplace hfind
    rw [World.request_eq hs' hne]
    exact hne
  | none =>
    obtain ⟨htotal, hsnug, hfew, -⟩ := ht.books
    obtain ⟨hstart, hend⟩ := served_bounds h
    have hfree : ((w.state.heap.index.elems w.state.mem).map (headerSize w.state.mem)).sum ≤
        (w.live.length + 1) * shortage size pageAlign := by
      have hle := List.sum_le_card_nsmul
        ((w.state.heap.index.elems w.state.mem).map (headerSize w.state.mem)) (shortage size pageAlign)
        (List.forall_mem_map.mpr (ht.represents.refused hfind))
      rw [List.length_map, PtrArray.elems_length, smul_eq_mul] at hle
      exact hle.trans (Nat.mul_le_mul_right _ hfew)
    have hused : (w.live.map fun p => blockSize w.state p.1).sum ≤
        ((w.live.map Prod.snd).map (· + 39)).sum := by
      rw [List.map_map]
      exact List.sum_le_sum fun p hp => Nat.le_of_lt_succ (hsnug p hp).2
    have hsize : start + initialSize - bootStart = bootSize := by decide
    rw [hstart, hend, hsize] at htotal
    rw [LeavesRoom, List.length_map] at hroom
    omega

/-- Where the books leave room a request is granted a payload of its own. -/
theorem granted_of_room {pageAlign : Bool} (h : Served w)
    (hplace : pageAlign = true → Placeable w.state size)
    (hroom : LeavesRoom (w.live.map Prod.snd) (shortage size pageAlign)) :
    ∃ ptr w', w.request size pageAlign = (ptr, w') ∧ ptr ≠ 0 ∧ w'.live = (ptr, size) :: w.live ∧
      PayloadsApart w' ∧ (pageAlign = true → ptr % pageSize = 0) ∧
      ∀ p ∈ w.live, PayloadKept w.state.mem w'.state.mem p := by
  have hne := h.granted hplace hroom
  obtain ⟨hinv, hkept, haligned⟩ := worldInv_request (worldInv_served h) hroom.size_lt hplace
  exact ⟨_, _, rfl, hne, World.request_live hne, hinv.apart, haligned, hkept⟩

/-- One service more. -/
theorem Served.snoc {a : Service} (h : Served w) (hs : Serve w a w') (ha : Servable w a) :
    Served w' := by
  obtain ⟨m, maxAddress, supervisor, readOnly, s, as, hinit, hrun⟩ := h
  exact ⟨m, maxAddress, supervisor, readOnly, s, _, hinit, hrun.snoc ⟨hs, ha⟩⟩

theorem Served.request {pageAlign : Bool} (h : Served w) (hs : size + 20 < wordSize)
    (hplace : pageAlign = true → Placeable w.state size) : Served (w.request size pageAlign).2 := by
  cases pageAlign with
  | false => exact h.snoc (a := .plain (.allocate size)) (.plain (.allocate hs)) trivial
  | true => exact h.snoc (.page hs) (hplace rfl)

theorem Served.requests {rs : List (ℕ × Bool)} (h : Served w) (hg : w.Grants rs) :
    Served (w.requests rs).2 := by
  induction rs generalizing w with
  | nil => exact h
  | cons r rs ih =>
    obtain ⟨hs, -, hplace, hrest⟩ := hg
    rw [World.requests_cons]
    exact ih (h.request hs hplace) hrest

/-- The pages among the requests can be placed when their turn comes. -/
def World.Places (w : World) : List (ℕ × Bool) → Prop
  | [] => True
  | (size, pageAlign) :: rs =>
    (pageAlign = true → Placeable w.state size) ∧ (w.request size pageAlign).2.Places rs

/-- Requests for which there is room together are granted one after another. -/
theorem Served.grants {rs : List (ℕ × Bool)} {room : ℕ} (h : Served w) (hplaces : w.Places rs)
    (hle : ∀ r ∈ rs, shortage r.1 r.2 ≤ room)
    (hroom : LeavesRoom (rs.map Prod.fst ++ w.live.map Prod.snd) room) : w.Grants rs := by
  induction rs generalizing w with
  | nil => trivial
  | cons r rs ih =>
    obtain ⟨size, pageAlign⟩ := r
    obtain ⟨hplace, hrest⟩ := hplaces
    obtain ⟨hfirst, hle⟩ := List.forall_mem_cons.mp hle
    have hroom₁ : LeavesRoom (w.live.map Prod.snd) (shortage size pageAlign) :=
      hroom.mono (List.sublist_append_right _ _) hfirst
    have hne := h.granted hplace hroom₁
    refine ⟨hroom₁.size_lt, hne, hplace, ih (h.request hroom₁.size_lt hplace) hrest hle ?_⟩
    have hperm : (rs.map Prod.fst ++ size :: w.live.map Prod.snd).Perm
        (size :: (rs.map Prod.fst ++ w.live.map Prod.snd)) := List.perm_middle
    rw [LeavesRoom, World.request_live hne, List.map_cons, (hperm.map (· + 39)).sum_eq, hperm.length_eq]
    exact hroom

theorem books_balance_page :
    ∃ w : World, w.live = [(bootStart + 4096, 12)] ∧ BooksBalance w := by
  obtain ⟨w, hlive, hserved⟩ := exists_served_page
  exact ⟨w, hlive, books_balance hserved⟩

theorem granted_of_room_page : ∃ w w' : World, ∃ ptr, w.live = [(bootStart + 4096, 12)] ∧
    w'.live = [(ptr, 0x800000), (bootStart + 4096, 12)] ∧ PayloadsApart w' := by
  obtain ⟨w, hlive, hserved⟩ := exists_served_page
  have hroom : LeavesRoom (w.live.map Prod.snd) (shortage 0x800000 false) := by
    rw [hlive]
    decide
  obtain ⟨ptr, w', -, -, hlive', hapart, -⟩ :=
    granted_of_room hserved (fun he => absurd he Bool.false_ne_true) hroom
  exact ⟨w, w', ptr, hlive, hlive ▸ hlive', hapart⟩

end Runs

end ExperimentalKernel.Heap
