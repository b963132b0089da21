import ExperimentalKernel.HeapBoot
import ExperimentalKernel.LabelledRuns

/-!
# Payload safety over runs

The heap together with the pointers it has handed out. A run allocates, frees live
pointers and lets the owners write to their payloads. As long as no `free` goes
through a stale footer or needs more room than the index has, every pointer keeps
its own block.
-/

namespace ExperimentalKernel.Heap
open ByteMemory PointerArray LabelledRuns

/-- The heap and the live pointers, each with the size it was asked for. -/
structure World where
  state : State
  live : List (ℕ × ℕ)

inductive Action where
  | allocate (size : ℕ)
  | free (ptr : ℕ)
  | write (address : ℕ) (b : UInt8)

/-- The pointer that `allocate` returned, unless it is null. -/
def granted (ptr size : ℕ) : List (ℕ × ℕ) := if ptr = 0 then [] else [(ptr, size)]

inductive Step : World → Action → World → Prop
  | allocate {w : World} {size : ℕ} (h : size + 20 < wordSize) :
      Step w (.allocate size) ⟨(Heap.allocate w.state size false).2,
        granted (Heap.allocate w.state size false).1 size ++ w.live⟩
  | free {w : World} {ptr size : ℕ} {s' : State} (h : (ptr, size) ∈ w.live)
      (hf : Heap.free w.state ptr = some s') :
      Step w (.free ptr) ⟨s', w.live.erase (ptr, size)⟩
  | write {w : World} {ptr size address : ℕ} {b : UInt8} (h : (ptr, size) ∈ w.live)
      (hl : ptr ≤ address) (hh : address < ptr + size) :
      Step w (.write address b) ⟨⟨w.state.heap, write8 w.state.mem address b⟩, w.live⟩

/-- The live payloads do not overlap and lie inside the heap. -/
structure PayloadsApart (w : World) : Prop where
  disjoint : w.live.Pairwise fun p q => p.1 + p.2 ≤ q.1 ∨ q.1 + q.2 ≤ p.1
  inside : ∀ p ∈ w.live, w.state.heap.startAddress ≤ p.1 ∧ p.1 + p.2 ≤ w.state.heap.endAddress

/-- The bytes of the payload `p` are the same in both memories. -/
def PayloadKept (m m' : Mem) (p : ℕ × ℕ) : Prop := AgreeOn m m' p.1 (p.1 + p.2)

/-- What `allocate` and `free` leave alone: the payloads live before an allocation
and those still live after a `free`. -/
def KeepsPayloads (w : World) : Action → World → Prop
  | .allocate _, w' => ∀ p ∈ w.live, PayloadKept w.state.mem w'.state.mem p
  | .free _, w' => ∀ p ∈ w'.live, PayloadKept w.state.mem w'.state.mem p
  | .write _ _, _ => True

/-- The test that `free` makes for a hole on the left of the block of `ptr`. -/
def holeOnLeft (s : State) (ptr : ℕ) : Prop :=
  footerMagic s.mem (ptr - 20) = heapMagic ∧
    headerIsHole s.mem (footerHeader s.mem (ptr - 20)) = true

/-- The test for a hole on the right. -/
def holeOnRight (s : State) (ptr : ℕ) : Prop :=
  headerMagic s.mem (ptr - 12 + headerSize s.mem (ptr - 12)) = heapMagic ∧
    headerIsHole s.mem (ptr - 12 + headerSize s.mem (ptr - 12)) = true

/-- `free` may go through the footer on the left only if the header it names is in
the index, and needs a spare entry of the index if it joins no hole. -/
def Admissible (w : World) : Action → Prop
  | .free ptr =>
    (holeOnLeft w.state ptr →
      footerHeader w.state.mem (ptr - 20) ∈ w.state.heap.index.elems w.state.mem) ∧
    (w.state.heap.index.size < w.state.heap.index.maxSize ∨ holeOnLeft w.state ptr ∨
      holeOnRight w.state ptr)
  | _ => True

/-- Every hole accounts for all its bytes. -/
def NoLeak (segs : List Segment) : Prop := ∀ t ∈ segs, t.isHole = true → t.extent = t.size

/-- Each live pointer has a block of its own that is long enough. -/
structure Owned (a : ℕ) (segs : List Segment) (live : List (ℕ × ℕ)) : Prop where
  distinct : live.Pairwise fun p q => p.1 ≠ q.1
  block : ∀ p ∈ live, ∃ x t, (x, t) ∈ placed a segs ∧ t.isHole = false ∧ p.1 = x + 12 ∧
    p.2 + 20 ≤ t.size

structure WorldInv (w : World) : Prop where
  clean : IndexClean w.state
  layout : ∃ segs, Represents w.state segs ∧ NoLeak segs ∧
    Owned w.state.heap.startAddress segs w.live

section Owned
variable {m : Mem} {e a : ℕ} {segs : List Segment} {live : List (ℕ × ℕ)}

theorem Owned.apart (ho : Owned a segs live) (hs : SegmentsAt m e a segs)
    (he : a + span segs = e) :
    live.Pairwise (fun p q => p.1 + p.2 ≤ q.1 ∨ q.1 + q.2 ≤ p.1) ∧
      ∀ p ∈ live, a ≤ p.1 ∧ p.1 + p.2 ≤ e := by
  constructor
  · refine ho.distinct.imp_of_mem fun {p q} hp hq hne => ?_
    obtain ⟨x, t, ht, -, hpx, hpt⟩ := ho.block p hp
    obtain ⟨y, u, hu, -, hqy, hqu⟩ := ho.block q hq
    have hxy : (x, t) ≠ (y, u) := by
      intro h
      simp only [Prod.mk.injEq] at h
      omega
    have hle := (hs.at_placed ht).size_le
    have hle' := (hs.at_placed hu).size_le
    have hd := placed_disjoint ht hu hxy
    simp only at hd hle hle'
    omega
  · intro p hp
    obtain ⟨x, t, ht, -, hpx, hpt⟩ := ho.block p hp
    have hle := (hs.at_placed ht).size_le
    have hb := mem_placed_bounds ht
    simp only at hb hle
    omega

/-- Blocks other than those replaced stay where they are. -/
theorem Owned.mono (ho : Owned a segs live) {segs' : List Segment} {live' : List (ℕ × ℕ)}
    (hsub : live'.Sublist live)
    (hkeep : ∀ x t, (x, t) ∈ placed a segs → t.isHole = false →
      (∃ n, (x + 12, n) ∈ live') → (x, t) ∈ placed a segs') : Owned a segs' live' where
  distinct := ho.distinct.sublist hsub
  block p hp := by
    obtain ⟨x, t, ht, hb, hx, hn⟩ := ho.block p (hsub.subset hp)
    exact ⟨x, t, hkeep x t ht hb ⟨p.2, hx ▸ hp⟩, hb, hx, hn⟩

end Owned

/-- A payload lies inside the block of its pointer. -/
theorem Owned.kept {s s' : State} {segs : List Segment} {live : List (ℕ × ℕ)}
    (hr : Represents s segs) (ho : Owned s.heap.startAddress segs live) {lo hi : ℕ}
    (hch : ChangesOnly s s' lo hi) {p : ℕ × ℕ} (hp : p ∈ live)
    (hd : ∀ x t, (x, t) ∈ placed s.heap.startAddress segs → t.isHole = false → p.1 = x + 12 →
      hi ≤ x ∨ x + t.extent ≤ lo) : PayloadKept s.mem s'.mem p := by
  obtain ⟨x, t, ht, hb, hx, hn⟩ := ho.block p hp
  have hle := (hr.segments.at_placed ht).size_le
  have hbound := mem_placed_bounds ht
  have hbelow := hr.below
  have := hd x t ht hb hx
  simp only at hle hbound
  exact hch.agreeOn (by omega) (by omega)

section Allocate

theorem allocate_refused {s : State} {size : ℕ} (hadd : size + 20 < wordSize)
    (h : findSmallestHole s (size + 20) false = none) : allocate s size false = (0, s) := by
  have h₁ : add32 size 20 = size + 20 := add32_eq hadd
  simp only [allocate, h₁, h]

theorem mem_placed_replace {a x : ℕ} {pre mid mid' post : List Segment} {t : Segment}
    (hspan : span mid' = span mid) (hmid : ∀ u ∈ mid, u.isHole = true) (ht : t.isHole = false)
    (h : (x, t) ∈ placed a (pre ++ (mid ++ post))) : (x, t) ∈ placed a (pre ++ (mid' ++ post)) := by
  simp only [placed_append, List.mem_append, hspan] at h ⊢
  rcases h with h | h | h
  · exact Or.inl h
  · obtain ⟨p, q, he, -⟩ := placed_split h
    have := hmid t (by simp [he])
    simp [ht] at this
  · exact Or.inr (Or.inr h)

theorem cut_head (x need : ℕ) (t : Segment) (hn : need ≤ t.size) :
    ∃ u rest, cut x need t = u :: rest ∧ u.isHole = false ∧ need ≤ u.size := by
  unfold cut
  split
  · exact ⟨_, _, rfl, rfl, hn⟩
  · exact ⟨_, _, rfl, rfl, Nat.le_refl _⟩

theorem noLeak_cut {x need : ℕ} {t : Segment} : NoLeak (cut x need t) := by
  intro u hu
  unfold cut at hu
  split at hu <;> simp at hu
  · rw [hu]
    simp
  · rcases hu with rfl | rfl <;> simp

theorem NoLeak.append {xs ys : List Segment} (h : NoLeak xs) (h' : NoLeak ys) : NoLeak (xs ++ ys) :=
  fun t ht => (List.mem_append.mp ht).elim (h t) (h' t)

theorem NoLeak.of_sublist {xs ys : List Segment} (h : NoLeak ys) (hs : xs.Sublist ys) : NoLeak xs :=
  fun t ht => h t (hs.subset ht)

theorem worldInv_allocate {w : World} {size : ℕ} (hw : WorldInv w) (h : size + 20 < wordSize) :
    let r := Heap.allocate w.state size false
    WorldInv ⟨r.2, granted r.1 size ++ w.live⟩ ∧
      ∀ p ∈ w.live, PayloadKept w.state.mem r.2.mem p := by
  obtain ⟨hclean, segs, hr, hleak, ho⟩ := hw
  cases hfind : findSmallestHole w.state (size + 20) false with
  | none =>
    simp only [allocate_refused h hfind, granted, ↓reduceIte, List.nil_append]
    exact ⟨⟨hclean, segs, hr, hleak, ho⟩, fun p _ => AgreeOn.refl _ _ _⟩
  | some i =>
    obtain ⟨pre, t, post, rfl, ht, hneed, -, rfl⟩ := findSmallestHole_some hr hfind
    have hext := hleak t (by simp) ht
    obtain ⟨s', hs', hr', ha, hch⟩ := allocate_represents hr ht hext hneed hfind
    simp only [hs', granted, Nat.add_eq_zero_iff, OfNat.ofNat_ne_zero, and_false, ↓reduceIte,
      List.singleton_append]
    have hspan : span (cut (w.state.heap.startAddress + span pre) (size + 20) t) = span [t] := by
      rw [span_cut hneed]
      simpa using hext.symm
    have hplaced : (w.state.heap.startAddress + span pre, t) ∈
        placed w.state.heap.startAddress (pre ++ t :: post) := by simp
    have hapart : ∀ y u, (y, u) ∈ placed w.state.heap.startAddress (pre ++ t :: post) →
        u.isHole = false → y + u.extent ≤ w.state.heap.startAddress + span pre ∨
          w.state.heap.startAddress + span pre + t.extent ≤ y := by
      intro y u hu hb
      refine placed_disjoint hu hplaced fun he => ?_
      rw [Prod.mk.injEq] at he
      rw [he.2, ht] at hb
      simp at hb
    have hsize := (hr.segments.at_placed hplaced).size_ge
    refine ⟨⟨hclean.transfer ha, _, hr', ?_, ?_⟩, ?_⟩
    · exact (hleak.of_sublist (by simp)).append
        (noLeak_cut.append (hleak.of_sublist (by simp)))
    · rw [ha.startAddress]
      have hmono : Owned w.state.heap.startAddress
          (pre ++ (cut (w.state.heap.startAddress + span pre) (size + 20) t ++ post)) w.live :=
        ho.mono (List.Sublist.refl _) fun y u hu hb _ =>
          mem_placed_replace hspan (by simpa using ht) hb hu
      obtain ⟨u, rest, hcut, hu, hn⟩ := cut_head (w.state.heap.startAddress + span pre) _ t hneed
      refine ⟨List.pairwise_cons.mpr ⟨fun p hp => ?_, ho.distinct⟩, fun p hp => ?_⟩
      · obtain ⟨y, v, hv, hb, hy, -⟩ := ho.block p hp
        have hsv := (hr.segments.at_placed hv).size_ge
        have hlv := (hr.segments.at_placed hv).size_le
        have := hapart y v hv hb
        simp only at hsv hlv hsize ⊢
        omega
      · rcases List.mem_cons.mp hp with rfl | hp
        · exact ⟨_, u, by simp [hcut], hu, rfl, hn⟩
        · exact hmono.block p hp
    · intro p hp
      refine ho.kept hr hch hp fun y u hu hb _ => ?_
      have := hapart y u hu hb
      omega

end Allocate

section Free
variable {s : State} {pre post pre' post' : List Segment} {t t₀ t' : Segment} {listed : Bool} {x : ℕ}

/-- A header inside a hole is not in the index. -/
theorem stale_not_listed {l : Segment} (hr : Represents s (pre ++ l :: post))
    (hs : Stale s.mem (s.heap.startAddress + span pre) l) :
    l.tag ∉ s.heap.index.elems s.mem := by
  obtain ⟨hpre, -, hpost⟩ := segmentsAt_append.mp hr.segments
  have habove := hs.above
  have hbelow := hs.below
  rw [hr.index, holes_append]
  simp only [holes, List.mem_append, not_or]
  refine ⟨fun h => ?_, fun h => ?_⟩
  · have := mem_holes_bounds hpre h
    omega
  · have htail : l.tag ∉ holes (s.heap.startAddress + span pre + l.extent) post := by
      intro h
      have := mem_holes_bounds hpost h
      omega
    split at h
    · rcases List.mem_cons.mp h with h | h
      · omega
      · exact htail h
    · exact htail h

/-- The join on the left when the footer on the left names a listed header: either
there is none, or it is one that accounts for all bytes. -/
theorem exists_leftJoin (hc : IndexClean s) (hr : Represents s (pre ++ t :: post))
    (hleak : NoLeak pre) (hext : t.extent = t.size)
    (hfresh : holeOnLeft s (s.heap.startAddress + span pre + 12) →
      footerHeader s.mem (s.heap.startAddress + span pre - 8) ∈ s.heap.index.elems s.mem) :
    ∃ pre' t₀ listed, LeftJoin s.heap.startAddress pre t pre' t₀ listed ∧
      t₀.extent = t₀.size ∧ t₀.isHole = true ∧ t₀.tag = s.heap.startAddress + span pre' ∧
      pre'.Sublist pre ∧ (holeOnLeft s (s.heap.startAddress + span pre + 12) → listed = true) := by
  have hsub : s.heap.startAddress + span pre + 12 - 20 = s.heap.startAddress + span pre - 8 := by omega
  unfold holeOnLeft at hfresh ⊢
  rw [hsub] at hfresh ⊢
  by_cases hl : ∀ l ∈ pre.getLast?, l.isHole = false
  · refine ⟨pre, _, false, .alone pre t hl, hext, rfl, rfl, List.Sublist.refl _, fun ⟨h₁, h₂⟩ => ?_⟩
    rcases left_closed hc.guarded hr hl with h | h
    · exact absurd h₁ h
    · rw [h.2] at h₂
      simp at h₂
  · push Not at hl
    obtain ⟨l, hlast, hl⟩ := hl
    rw [ne_eq, Bool.not_eq_false] at hl
    obtain ⟨p, rfl⟩ := List.getLast?_eq_some_iff.mp hlast
    rw [List.append_assoc] at hr
    have hx : s.heap.startAddress + span (p ++ [l]) = s.heap.startAddress + span p + l.extent := by
      simp
      omega
    obtain ⟨hf, hflag, hname⟩ := left_footer hr hl
    rw [hx, hf.names, hf.magic] at hfresh
    have hmem := hfresh ⟨rfl, hflag⟩
    have htag : l.tag = s.heap.startAddress + span p := by
      rcases hname with h | h
      · exact h.1
      · exact absurd hmem (stale_not_listed hr h)
    have hfull := hleak l (by simp) hl
    exact ⟨p, _, true, .fresh p l t hl htag, by simp only; omega, rfl, htag, by simp, fun _ => rfl⟩

theorem exists_rightJoin (x : ℕ) (t₀ : Segment) (post : List Segment) :
    ∃ t' post', RightJoin x t₀ post t' post' := by
  cases post with
  | nil => exact ⟨t₀, [], .alone t₀ [] (by simp)⟩
  | cons r post =>
    cases hr : r.isHole with
    | false => exact ⟨t₀, r :: post, .alone t₀ _ (by simpa using hr)⟩
    | true => exact ⟨_, post, .joined t₀ r post hr⟩

theorem RightJoin.noLeak (hj : RightJoin x t₀ post t' post') (ht : t₀.extent = t₀.size)
    (htag : t₀.tag = x) (hleak : NoLeak post) : t'.extent = t'.size ∧ NoLeak post' := by
  cases hj with
  | alone _ h => exact ⟨ht, hleak⟩
  | joined r _ h =>
    have hr := hleak r (by simp) h
    simp only [htag, ↓reduceIte]
    exact ⟨by omega, hleak.of_sublist (by simp)⟩

theorem RightJoin.isHole (hj : RightJoin x t₀ post t' post') (ht : t₀.isHole = true) :
    t'.isHole = true := by
  cases hj with
  | alone _ h => exact ht
  | joined r _ h => rfl

/-- Blocks before the freed one are not touched by the join on the left. -/
theorem LeftJoin.keeps {a : ℕ} (hl : LeftJoin a pre t pre' t₀ listed) {y : ℕ} {u : Segment}
    (hu : u.isHole = false) (h : (y, u) ∈ placed a pre) : (y, u) ∈ placed a pre' := by
  have hlast : ∀ l : Segment, l.isHole = true → (y, u) ∈ placed a (pre' ++ [l]) →
      (y, u) ∈ placed a pre' := by
    intro l hl h
    simp only [placed_append, placed_cons, placed_nil, List.mem_append, List.mem_singleton,
      Prod.mk.injEq] at h
    rcases h with h | ⟨-, rfl⟩
    · exact h
    · simp [hl] at hu
  cases hl with
  | alone _ _ h' => exact h
  | fresh _ l _ h' _ => exact hlast l h' h
  | stale _ l _ h' _ => exact hlast l h' h

theorem RightJoin.keeps (hj : RightJoin x t₀ post t' post') {y : ℕ} {u : Segment}
    (hu : u.isHole = false) (h : (y, u) ∈ placed (x + t₀.extent) post) :
    (y, u) ∈ placed (x + t'.extent) post' := by
  cases hj with
  | alone _ h' => exact h
  | joined r _ h' =>
    rw [placed_cons, List.mem_cons, Prod.mk.injEq] at h
    rcases h with ⟨-, rfl⟩ | h
    · simp [h'] at hu
    · simpa [Nat.add_assoc] using h

/-- Every block but the freed one is still a block. -/
theorem free_keeps {a : ℕ} (hl : LeftJoin a pre t pre' t₀ listed)
    (hj : RightJoin (a + span pre') t₀ post t' post') {y : ℕ} {u : Segment} (hu : u.isHole = false)
    (h : (y, u) ∈ placed a (pre ++ t :: post)) (hne : y ≠ a + span pre) :
    (y, u) ∈ placed a (pre' ++ t' :: post') := by
  simp only [placed_append, placed_cons, List.mem_append, List.mem_cons, Prod.mk.injEq] at h ⊢
  rcases h with h | ⟨h, -⟩ | h
  · exact Or.inl (hl.keeps hu h)
  · exact absurd h hne
  · rw [← hl.length_eq] at h
    exact Or.inr (Or.inr (hj.keeps hu h))

/-- The pointers that stay live after a `free` are other pointers. -/
theorem Owned.ne_of_mem_erase {a : ℕ} {segs : List Segment} {live : List (ℕ × ℕ)} {p q : ℕ × ℕ}
    (ho : Owned a segs live) (hp : p ∈ live) (hq : q ∈ live.erase p) : q.1 ≠ p.1 := by
  have hnodup : live.Nodup := ho.distinct.imp fun h he => h (congrArg Prod.fst he)
  have hsymm : Std.Symm fun p q : ℕ × ℕ => p.1 ≠ q.1 := ⟨fun _ _ => Ne.symm⟩
  obtain ⟨hne, hq⟩ := (List.Nodup.mem_erase_iff hnodup).mp hq
  exact ho.distinct.forall hq hp hne

/-- With a hole on the right the right half joins, unless the heap ends there. -/
theorem joins_of_holeOnRight (hr : Represents s (pre ++ t :: post)) (hb : t.isHole = false)
    {x : ℕ} (hj : RightJoin x t₀ post t' post')
    (hend : post = [] → ¬ (headerMagic s.mem s.heap.endAddress = heapMagic ∧
      headerIsHole s.mem s.heap.endAddress = true))
    (hright : holeOnRight s (s.heap.startAddress + span pre + 12)) : post' ≠ post := by
  have hseg := (segmentsAt_append.mp hr.segments).2.1
  have haddr : s.heap.startAddress + span pre + 12 - 12 +
      headerSize s.mem (s.heap.startAddress + span pre + 12 - 12) =
      s.heap.startAddress + span pre + t.extent := by
    rw [Nat.add_sub_cancel, hseg.header.sized, (hseg.block hb).1]
  obtain ⟨h₁, h₂⟩ := hright
  rw [haddr] at h₁ h₂
  cases post with
  | nil =>
    have hsum := hr.tiles
    simp only [span_append, span_cons, span_nil] at hsum
    have he : s.heap.startAddress + span pre + t.extent = s.heap.endAddress := by omega
    rw [he] at h₁ h₂
    exact absurd ⟨h₁, h₂⟩ (hend rfl)
  | cons r post =>
    have hr' := (segmentsAt_append.mp hr.segments).2.2.1
    rw [hr'.header.flag] at h₂
    cases hj with
    | alone _ h => simp [h₂] at h
    | joined r _ h => simp

theorem worldInv_free {w : World} {ptr size : ℕ} {s' : State} (hw : WorldInv w)
    (hp : (ptr, size) ∈ w.live) (hf : Heap.free w.state ptr = some s')
    (hadm : Admissible w (.free ptr)) :
    WorldInv ⟨s', w.live.erase (ptr, size)⟩ ∧
      ∀ p ∈ w.live.erase (ptr, size), PayloadKept w.state.mem s'.mem p := by
  obtain ⟨hclean, segs, hr, hleak, ho⟩ := hw
  obtain ⟨x, t, ht, hb, hx, hn⟩ := ho.block _ hp
  simp only at hx
  obtain ⟨pre, post, rfl, hxe⟩ := placed_split ht
  simp only at hr hleak ho ht hxe
  subst hxe hx
  obtain ⟨hfresh, hroom⟩ := hadm
  have hseg := hr.segments.at_placed ht
  have hsub : w.state.heap.startAddress + span pre + 12 - 20 =
      w.state.heap.startAddress + span pre - 8 := by omega
  rw [hsub] at hfresh
  obtain ⟨pre', t₀, listed, hl, hext₀, hh₀, htag₀, hpre', hlisted⟩ :=
    exists_leftJoin hclean hr (hleak.of_sublist (by simp)) (hseg.block hb).1 hfresh
  obtain ⟨t', post', hj⟩ := exists_rightJoin (w.state.heap.startAddress + span pre') t₀ post
  have hend : post = [] → ¬ (headerMagic w.state.mem w.state.heap.endAddress = heapMagic ∧
      headerIsHole w.state.mem w.state.heap.endAddress = true) := by
    rintro rfl hlook
    rw [free_hangs hclean.guarded hr hb hl hlook] at hf
    simp at hf
  have hcap : listed = true ∨ post' ≠ post ∨
      w.state.heap.index.size < w.state.heap.index.maxSize := by
    rcases hroom with h | h | h
    · exact Or.inr (Or.inr h)
    · exact Or.inl (hlisted h)
    · exact Or.inr (Or.inl (joins_of_holeOnRight hr hb hj hend h))
  obtain ⟨s₂, hs₂, hr₂, ha, hch⟩ := free_represents hclean.guarded hr hb hl hj hcap hend
  rw [hf, Option.some.injEq] at hs₂
  subst hs₂
  obtain ⟨hext', hleak'⟩ := hj.noLeak hext₀ htag₀ (hleak.of_sublist (by simp))
  have hkeep : ∀ y u, (y, u) ∈ placed w.state.heap.startAddress (pre ++ t :: post) →
      u.isHole = false → y ≠ w.state.heap.startAddress + span pre →
      (y, u) ∈ placed w.state.heap.startAddress (pre' ++ t' :: post') :=
    fun y u hu hb hne => free_keeps hl hj hb hu hne
  refine ⟨⟨hclean.transfer ha, _, hr₂, ?_, ?_⟩, fun p hp' => ?_⟩
  · refine (hleak.of_sublist (hpre'.trans (by simp))).append fun u hu hole => ?_
    rcases List.mem_cons.mp hu with rfl | hu
    · exact hext'
    · exact hleak' u hu hole
  · rw [ha.startAddress]
    refine ho.mono List.erase_sublist fun y u hu hb' hlive => ?_
    obtain ⟨n, hn'⟩ := hlive
    have hne := ho.ne_of_mem_erase hp hn'
    exact hkeep y u hu hb' (by simp only at hne; omega)
  · have hne := ho.ne_of_mem_erase hp hp'
    refine ho.kept hr hch (List.erase_sublist.subset hp') fun y u hu hb' hy => ?_
    have hu' := hkeep y u hu hb' (by simp only at hne; omega)
    have hh' : t'.isHole = true := hj.isHole hh₀
    have ht' : (w.state.heap.startAddress + span pre', t') ∈
        placed w.state.heap.startAddress (pre' ++ t' :: post') := by simp
    have := placed_disjoint hu' ht' fun he => by
      rw [Prod.mk.injEq] at he
      rw [he.2, hh'] at hb'
      simp at hb'
    simp only at this
    omega

end Free

section Write
variable {s : State} {segs : List Segment}

theorem SegmentsAt.write8 {m : Mem} {e a address : ℕ} (b : UInt8) (hs : SegmentsAt m e a segs)
    {x : ℕ} {t : Segment} (ht : (x, t) ∈ placed a segs) (hb : t.isHole = false)
    (hl : x + 12 ≤ address) (hh : address + 8 < x + t.extent) :
    SegmentsAt (ByteMemory.write8 m address b) e a segs := by
  obtain ⟨pre, post, rfl, hx⟩ := placed_split ht
  simp only at hx hs
  subst hx
  obtain ⟨hpre, hseg, hpost⟩ := segmentsAt_append.mp hs
  have hw : AgreeOff m (ByteMemory.write8 m address b) address (address + 1) :=
    agreeOff_write8 _ _ (Nat.le_refl _) (by omega)
  refine segmentsAt_append.mpr ⟨hpre.frame (hw.agreeOn (by omega)), ?_,
    hpost.frame (hw.agreeOn (by omega))⟩
  refine ⟨hseg.header.frame (hw.agreeOn (by omega)), hseg.size_ge, hseg.size_le, hseg.block,
    fun h => (hseg.footer h).frame (hw.agreeOn (by omega)), fun h => ?_⟩
  simp [hb] at h

theorem worldInv_write {w : World} {ptr size address : ℕ} (b : UInt8) (hw : WorldInv w)
    (hp : (ptr, size) ∈ w.live) (hl : ptr ≤ address) (hh : address < ptr + size) :
    WorldInv ⟨⟨w.state.heap, write8 w.state.mem address b⟩, w.live⟩ := by
  obtain ⟨hclean, segs, hr, hleak, ho⟩ := hw
  obtain ⟨x, t, ht, hb, hx, hn⟩ := ho.block _ hp
  simp only at hx hn
  have hle := (hr.segments.at_placed ht).size_le
  have hbound := mem_placed_bounds ht
  have hbelow := hr.below
  simp only at hle hbound
  have hag : AgreeOn w.state.mem (write8 w.state.mem address b) w.state.heap.index.array
      (w.state.heap.index.array + 4 * w.state.heap.index.maxSize) :=
    agreeOn_write8 _ _ (by omega)
  have hroom := hr.room
  refine ⟨hclean.transfer ⟨rfl, rfl, rfl, rfl, wordsFrom_of_agreeOn hag⟩, segs,
    ⟨hr.segments.write8 b ht hb (by omega) (by omega), hr.tiles, ?_, hroom, hbelow, hr.top⟩, hleak, ho⟩
  exact (w.state.heap.index.elems_congr (hag.mono (Nat.le_refl _) (by omega))).trans hr.index

end Write

/-- One admissible step keeps the invariant and the payloads. -/
theorem worldInv_step {w w' : World} {a : Action} (hw : WorldInv w) (h : Step w a w')
    (hadm : Admissible w a) : WorldInv w' ∧ KeepsPayloads w a w' := by
  cases h with
  | allocate h => exact worldInv_allocate hw h
  | free h hf => exact worldInv_free hw h hf hadm
  | write h hl hh => exact ⟨worldInv_write _ hw h hl hh, trivial⟩

theorem worldInv_boot {s : State} (h : BootLayout s [⟨true, bootSize, bootSize, bootStart⟩]) :
    WorldInv ⟨s, []⟩ where
  clean := h.clean
  layout := ⟨_, h.represents, fun t ht _ => by simp at ht; rw [ht], List.Pairwise.nil, by simp⟩

theorem WorldInv.apart {w : World} (hw : WorldInv w) : PayloadsApart w := by
  obtain ⟨-, segs, hr, -, ho⟩ := hw
  obtain ⟨hd, hi⟩ := ho.apart hr.segments hr.tiles
  exact ⟨hd, hi⟩

/-- A world that can be reached from the boot heap by steps that the guard admits. -/
def Reached (guard : World → Action → Prop) (w : World) : Prop :=
  ∃ m maxAddress supervisor readOnly s as,
    init m start (start + initialSize) maxAddress supervisor readOnly = some s ∧
      Run (guarded Step guard) ⟨s, []⟩ as w

theorem worldInv_reached {w : World} (h : Reached Admissible w) : WorldInv w := by
  obtain ⟨m, maxAddress, supervisor, readOnly, s, as, hinit, hrun⟩ := h
  exact hrun.invariant (P := WorldInv)
    (fun w a w' hw hstep => (worldInv_step hw hstep.1 hstep.2).1)
    (worldInv_boot (init_bootLayout hinit))

/-- The payloads of the live pointers are safe in `w` and through its next step. -/
def PayloadSafe (guard : World → Action → Prop) (w : World) : Prop :=
  PayloadsApart w ∧ ∀ a w', Step w a w' → guard w a → KeepsPayloads w a w'

theorem step_allocate {w : World} {size ptr : ℕ} {s' : State} (hs : size + 20 < wordSize)
    (h : Heap.allocate w.state size false = (ptr, s')) (hp : ptr ≠ 0) :
    Step w (.allocate size) ⟨s', (ptr, size) :: w.live⟩ := by
  have hstep := Step.allocate (w := w) hs
  rwa [h, granted, if_neg hp, List.singleton_append] at hstep

theorem step_free {w : World} {ptr : ℕ} (size : ℕ) {s' : State} (live : List (ℕ × ℕ))
    (h : (ptr, size) ∈ w.live) (hf : Heap.free w.state ptr = some s')
    (hl : w.live.erase (ptr, size) = live) : Step w (.free ptr) ⟨s', live⟩ :=
  hl ▸ Step.free h hf

/-- Runs of admissible steps keep every live payload safe. -/
theorem payloadSafe_reached (w : World) (h : Reached Admissible w) : PayloadSafe Admissible w :=
  have hw := worldInv_reached h
  ⟨hw.apart, fun _ _ hstep hadm => (worldInv_step hw hstep hadm).2⟩

theorem payloadSafe_after_free :
    ∃ s, PayloadSafe Admissible ⟨s, [(bootStart + 44, 12)]⟩ := by
  have hsize : bootSize = 33030144 := by decide
  have hinit := init_eq (fun _ => 0) 0xCFFFF000 false false
  have h₀ := init_bootLayout hinit
  obtain ⟨s₁, e₁, h₁, b₁, -⟩ := BootLayout.allocate_last (n := bootSize) 12
    (by simpa using h₀ : BootLayout _ ([] ++ [⟨true, _, _, bootStart + span []⟩]))
    (by simp) (by omega)
  obtain ⟨s₂, e₂, h₂, -⟩ := h₁.allocate_last 12 b₁ (by omega)
  obtain ⟨s₃, e₃, -⟩ := BootLayout.free [] _ _ h₂ rfl (.alone _ _ (by simp))
    (.alone _ _ (by simp)) (by simp) (Or.inr (Or.inr (by simp [holes]; decide)))
  simp only [List.nil_append, span_nil, span_cons, Nat.add_zero, Nat.reduceAdd, Nat.add_assoc]
    at e₁ e₂ e₃
  have hsub : bootStart + 12 - 20 = bootStart - 8 := by omega
  have hleft : ¬ holeOnLeft s₂ (bootStart + 12) := by
    rintro ⟨h, -⟩
    rw [hsub, ← h₂.startAddress] at h
    exact h₂.clean.guarded.2 h
  have hroom : s₂.heap.index.size < s₂.heap.index.maxSize := by
    rw [h₂.represents.index_size, h₂.maxSize]
    simp [holes]
    decide
  exact ⟨s₃, payloadSafe_reached _ ⟨_, _, _, _, _, _, hinit,
    .cons ⟨step_allocate (by decide) e₁ (by simp), trivial⟩
      (.cons ⟨step_allocate (by decide) e₂ (by simp), trivial⟩
        (.single ⟨step_free 12 _ (by simp) e₃ (by simp), fun h => absurd h hleft, Or.inl hroom⟩))⟩⟩

/-- Every step, whatever the state. -/
def anyStep (_ : World) (_ : Action) : Prop := True

/-- A stale footer on the left of the block at `x`, and a block on its right: `free`
credits the bytes of the block to the header that the footer names. -/
theorem free_credits (s : State) {x n : ℕ} (tag : ℕ) (ys : List ℕ) (hx : 8 ≤ x) (hn : 20 ≤ n)
    (hw : x + n < wordSize) (hhead : HeaderAt s.mem x false n)
    (hfoot : footerMagic s.mem (x + n - 8) = heapMagic) (hleft : FooterAt s.mem (x - 8) tag)
    (hole : headerIsHole s.mem tag = true) (htag : tag + 20 ≤ x)
    (hright : headerIsHole s.mem (x + n) = false)
    (hidx : ∀ m, AgreeOff s.mem m tag (x + n) → s.heap.index.elems m = ys) (hys : x + n ∉ ys) :
    ∃ s'', free s (x + 12) = some s'' ∧
      read32 s''.mem (tag + 8) = add32 (read32 s.mem (tag + 8)) n := by
  have hmark : AgreeOff s.mem (write8 s.mem (x + 4) 1) (x + 4) (x + 5) :=
    agreeOff_write8 _ _ (Nat.le_refl _) (by omega)
  have hl := mergeLeft_joined (x + n - 8) hx (hleft.frame (hmark.agreeOn (by omega)))
    ((headerIsHole_congr (hmark.agreeOn (by omega))).trans hole)
    ((read32_congr (hmark.agreeOn (by omega))).trans hhead.sized)
  set m₂ := write32 (write8 s.mem (x + 4) 1) (x + n - 8 + 4) tag with hm₂
  have hoff₂ : AgreeOff s.mem m₂ (x + 4) (x + n) :=
    (hmark.mono (Nat.le_refl _) (by omega)).trans (agreeOff_write32 _ _ (by omega) (by omega))
  have hv : headerSize m₂ tag = read32 s.mem (tag + 8) := read32_congr (hoff₂.agreeOn (by omega))
  rw [hv] at hl
  set m₃ := write32 m₂ (tag + 8) (add32 (read32 s.mem (tag + 8)) n) with hm₃
  have hoff₃ : AgreeOff s.mem m₃ tag (x + n) :=
    (hoff₂.mono (by omega) (Nat.le_refl _)).trans (agreeOff_write32 _ _ (by omega) (by omega))
  have hfree := free_eq hw hn hhead.sized hhead.magic hfoot hl
  have hno : ¬ (headerMagic m₃ (x + n) = heapMagic ∧ headerIsHole m₃ (x + n) = true) := by
    rintro ⟨-, h⟩
    rw [headerIsHole_congr (hoff₃.agreeOn (by omega)), hright] at h
    simp at h
  have hdrop : dropEntry ⟨s.heap, m₃⟩ (x + n) = ⟨s.heap, m₃⟩ :=
    dropEntry_of_notMem (by rw [hidx m₃ hoff₃]; exact hys)
  simp only [mergeRight, if_neg hno, Option.map_some, hdrop, Bool.false_eq_true, ↓reduceIte] at hfree
  exact ⟨_, hfree, read32_write32 _ _ (add32_lt _ _)⟩

/-- A hole at the front of the heap that has lost bytes and whose footer is stale:
once the hole is a payload, freeing the block after it writes into that payload. -/
theorem stale_footer_damages {s : State} {h d e : Segment} {post : List Segment}
    (hr : Represents s (h :: d :: e :: post)) (hh : h.isHole = true) (hd : d.isHole = false)
    (he : e.isHole = false) (hs : Stale s.mem s.heap.startAddress h)
    (hin : h.tag + 20 ≤ s.heap.startAddress + h.size) (hlost : h.size + 20 ≤ h.extent) :
    ∃ s' s'', allocate s (h.size - 20) false = (s.heap.startAddress + 12, s') ∧
      free s' (s.heap.startAddress + h.extent + 12) = some s'' ∧
      ¬ PayloadKept s'.mem s''.mem (s.heap.startAddress + 12, h.size - 20) := by
  obtain ⟨hseg, hsegd, hsege, hpost⟩ := hr.segments
  have habove := hs.above
  have hged := hsegd.size_ge
  have hlee := hsege.size_le
  have hgee := hsege.size_ge
  have hextd := (hsegd.block hd).1
  have htop := hr.top
  have hsum := hr.tiles
  have hbelow := hr.below
  simp only [span_cons] at hsum
  have hr₀ : Represents s ([] ++ h :: d :: e :: post) := hr
  obtain ⟨hsub, hu⟩ := unlisted_erase hr₀ hh
  simp only [span_nil, Nat.add_zero] at hsub hu
  have hroom := hu.room
  have harray := hu.array
  have hfind : findSmallestHole s (h.size - 20 + 20) false = _ :=
    findSmallestHole_first hr₀ hh (by omega) (by simp)
  have halloc := allocate_found (by omega) hfind hsub hseg.header.sized (by omega)
  have habs : absorb (h.size - 20) (h.size - 20 + 20) h.size = (h.size - 20, h.size) := by
    rw [absorb, sub32_eq (by omega), if_pos (by omega), add32_eq (by omega)]
    congr 1
    omega
  rw [habs, placeBlock_exact _ _ (by omega) (by omega)] at halloc
  have hagree := hu.agree
  have hel := hu.elems
  generalize (erase s.heap.index s.mem _).2 = m at halloc hagree hel
  generalize (erase s.heap.index s.mem _).1 = index at halloc hroom harray hel
  set m' := writeFooter (writeHeader m s.heap.startAddress false h.size)
    (s.heap.startAddress + h.size - 8) s.heap.startAddress with hm'
  have hoff : AgreeOff m m' s.heap.startAddress (s.heap.startAddress + h.size) :=
    written_agreeOff m false hseg.size_ge
  have hafter : ∀ {lo hi : ℕ}, s.heap.startAddress + h.size ≤ lo → AgreeOn s.mem m' lo hi :=
    fun hlo => (hagree.agreeOn (by omega)).trans (hoff.agreeOn (by omega))
  have hhdr : AgreeOff m (writeHeader m s.heap.startAddress false h.size) s.heap.startAddress
      (s.heap.startAddress + 12) := writeHeader_agreeOff m false h.size (Nat.le_refl _) (Nat.le_refl _)
  have hftr : AgreeOff (writeHeader m s.heap.startAddress false h.size) m'
      (s.heap.startAddress + h.size - 8) (s.heap.startAddress + h.size) :=
    writeFooter_agreeOff _ _ (Nat.le_refl _) (by omega)
  have hinside : AgreeOn s.mem m' (h.tag + 4) (h.tag + 5) :=
    ((hagree.agreeOn (by omega)).trans (hhdr.agreeOn (by omega))).trans (hftr.agreeOn (by omega))
  have hhead := hsegd.header.frame (hafter (by omega))
  rw [hd, ← hextd] at hhead
  obtain ⟨s'', hs'', hread⟩ := free_credits ⟨{ s.heap with index := index }, m'⟩ h.tag
    (holes (s.heap.startAddress + h.extent) (d :: e :: post)) (by omega) (by omega)
    (by omega) hhead
    ((read32_congr (hafter (by omega))).trans (hsegd.footer (Or.inl hd)).magic)
    ((hseg.footer (Or.inr (by omega))).frame (hafter (by omega)))
    ((headerIsHole_congr hinside).trans hs.flag) hs.below
    ((headerIsHole_congr (hafter (by omega))).trans (hsege.header.flag.trans he))
    (fun m'' h'' => (index.elems_congr ((hoff.agreeOn (by omega)).trans
      (h''.agreeOn (by omega)))).trans (by simpa using hel))
    (by
      simp only [holes, hd, he, Bool.false_eq_true, ↓reduceIte]
      intro hmem
      have := mem_holes_bounds hpost hmem
      omega)
  refine ⟨_, s'', halloc, hs'', fun hkept => ?_⟩
  have hsame : read32 s''.mem (h.tag + 8) = read32 m' (h.tag + 8) :=
    read32_congr (hkept.mono (by simp only; omega) (by simp only; omega))
  rw [hread] at hsame
  exact add32_ne (by omega) (by omega) hsame

def block32 (offset : ℕ) : Segment := ⟨false, 32, 32, bootStart + offset⟩

/-- Five blocks of 32 bytes; the second is freed, then the first, then the third. -/
def staleActions : List Action :=
  [.allocate 12, .allocate 12, .allocate 12, .allocate 12, .allocate 12, .free (bootStart + 44),
    .free (bootStart + 12), .free (bootStart + 76)]

theorem stale_run {s : State} (h₀ : BootLayout s [⟨true, bootSize, bootSize, bootStart⟩]) :
    ∃ s' n, Run (guarded Step anyStep) ⟨s, []⟩ staleActions
        ⟨s', [(bootStart + 140, 12), (bootStart + 108, 12)]⟩ ∧
      BootLayout s' [⟨true, 64, 96, bootStart + 32⟩, block32 96, block32 128,
        ⟨true, n, n, bootStart + 160⟩] := by
  have hsize : bootSize = 33030144 := by decide
  obtain ⟨s₁, e₁, h₁, b₁, -⟩ := BootLayout.allocate_last (s := s) (n := bootSize) 12
    (by simpa using h₀ : BootLayout s ([] ++ [⟨true, _, _, bootStart + span []⟩]))
    (by simp) (by omega)
  obtain ⟨s₂, e₂, h₂, b₂, -⟩ := h₁.allocate_last 12 b₁ (by omega)
  obtain ⟨s₃, e₃, h₃, b₃, -⟩ := h₂.allocate_last 12 b₂ (by omega)
  obtain ⟨s₄, e₄, h₄, b₄, -⟩ := h₃.allocate_last 12 b₃ (by omega)
  obtain ⟨s₅, e₅, h₅, -⟩ := h₄.allocate_last 12 b₄ (by omega)
  simp only [List.nil_append, List.cons_append, span_nil, span_cons, Nat.add_zero,
    Nat.reduceAdd, Nat.add_assoc] at e₁ e₂ e₃ e₄ e₅ h₅
  obtain ⟨s₆, e₆, h₆⟩ := BootLayout.free [block32 0] (block32 32)
    [block32 64, block32 96, block32 128, _] h₅ rfl (.alone _ _ (by simp [block32]))
    (.alone _ _ (by simp [block32])) (by simp) (Or.inr (Or.inr (by simp [holes, block32]; decide)))
  obtain ⟨s₇, e₇, h₇⟩ := BootLayout.free [] _ _ h₆ rfl (.alone _ _ (by simp))
    (.joined _ _ _ rfl) (by simp) (Or.inr (Or.inl (by simp)))
  obtain ⟨s₈, e₈, h₈⟩ := BootLayout.free [_] _ _ h₇ rfl (.stale [] _ _ rfl (by simp [block32]))
    (.alone _ _ (by simp [block32])) (by simp) (Or.inl rfl)
  simp only [List.nil_append, span_nil, span_cons, Nat.add_zero, Nat.reduceAdd,
    Nat.add_assoc, block32, ↓reduceIte] at e₆ e₇ e₈ h₈
  refine ⟨s₈, _, ?_, h₈⟩
  refine .cons ⟨step_allocate (by decide) e₁ (by simp), trivial⟩ ?_
  refine .cons ⟨step_allocate (by decide) e₂ (by simp), trivial⟩ ?_
  refine .cons ⟨step_allocate (by decide) e₃ (by simp), trivial⟩ ?_
  refine .cons ⟨step_allocate (by decide) e₄ (by simp), trivial⟩ ?_
  refine .cons ⟨step_allocate (by decide) e₅ (by simp), trivial⟩ ?_
  refine .cons ⟨step_free 12 _ (by simp) e₆ rfl, trivial⟩ ?_
  refine .cons ⟨step_free 12 _ (by simp) e₇ rfl, trivial⟩ ?_
  exact .single ⟨step_free 12 _ (by simp) e₈ (by simp), trivial⟩

/-- The block after the lost bytes is freed while the first two blocks are one
payload again. -/
theorem not_payloadSafe : ¬ ∀ w, Reached anyStep w → PayloadSafe anyStep w := by
  intro hall
  have hinit := init_eq (fun _ => 0) 0xCFFFF000 false false
  obtain ⟨s₈, n, hrun, h₈⟩ := stale_run (init_bootLayout hinit)
  have hr := h₈.represents
  have hsum := hr.tiles
  have hstale : Stale s₈.mem s₈.heap.startAddress ⟨true, 64, 96, bootStart + 32⟩ := by
    simp only [span_cons, block32] at hsum
    rcases hr.segments.1.hole rfl (by simp only; omega) with h | h
    · simp at h
    · exact h
  obtain ⟨s₉, s₁₀, e₉, e₁₀, hbad⟩ := stale_footer_damages hr rfl rfl rfl hstale
    (by rw [h₈.startAddress]; simp only; omega) (by decide)
  rw [h₈.startAddress] at e₉ e₁₀ hbad
  simp only [Nat.add_assoc, Nat.reduceAdd, Nat.reduceSub] at e₉ e₁₀ hbad
  have hrun₉ := hrun.snoc ⟨step_allocate (by decide) e₉ (by simp), trivial⟩
  have hstep := step_free (w := ⟨s₉, [(bootStart + 12, 44), (bootStart + 140, 12),
    (bootStart + 108, 12)]⟩) 12 [(bootStart + 12, 44), (bootStart + 140, 12)]
    (by simp) e₁₀ (by simp)
  exact hbad ((hall _ ⟨_, _, _, _, _, _, hinit, hrun₉⟩).2 _ _ hstep trivial _ (by simp))

end ExperimentalKernel.Heap
