import ExperimentalKernel.HeapAllocate

/-!
# Freeing on a layout

`free` marks the block as a hole, joins it to the hole on its left through that
hole's footer, joins the hole on its right, and keeps the index. A join on the
left that goes through a stale footer credits the freed bytes to a header inside
the hole, so they leave the index for good.
-/

namespace ExperimentalKernel.Heap
open ByteMemory PointerArray

/-- The index area ends where the heap begins and holds no word equal to the magic
number, so the word before the first header is never taken for a footer. -/
structure IndexClean (s : State) : Prop where
  adjacent : s.heap.startAddress = s.heap.index.array + 4 * s.heap.index.maxSize
  large : 2 ≤ s.heap.index.maxSize
  high : heapMagic < s.heap.startAddress
  clean : ∀ i < s.heap.index.maxSize,
    read32 s.mem (s.heap.index.array + 4 * i) ≠ heapMagic

theorem IndexClean.transfer {s s' : State} (h : IndexClean s) (ha : SameArena s s') : IndexClean s' := by
  refine ⟨?_, ?_, ?_, fun i hi => ?_⟩
  · rw [ha.startAddress, ha.array, ha.maxSize]
    exact h.adjacent
  · rw [ha.maxSize]
    exact h.large
  · rw [ha.startAddress]
    exact h.high
  · rw [ha.maxSize] at hi
    rw [ha.array]
    have hhigh := h.high
    rcases ha.words i hi with ⟨j, hj, he⟩ | hlo
    · rw [he]
      exact h.clean j hj
    · omega

/-- No footer stands right before the heap. -/
def Guarded (s : State) : Prop :=
  8 ≤ s.heap.startAddress ∧ footerMagic s.mem (s.heap.startAddress - 8) ≠ heapMagic

theorem IndexClean.guarded {s : State} (h : IndexClean s) : Guarded s := by
  have hadj := h.adjacent
  have hlarge := h.large
  refine ⟨by omega, ?_⟩
  have hw := h.clean (s.heap.index.maxSize - 2) (by omega)
  have he : s.heap.startAddress - 8 = s.heap.index.array + 4 * (s.heap.index.maxSize - 2) := by omega
  rwa [footerMagic, he]

/-- How the freed block `t` and the segments before it continue: the remaining
prefix, the segment that now holds the block, and whether the index lists it. -/
inductive LeftJoin (a : ℕ) : List Segment → Segment → List Segment → Segment → Bool → Prop
  | alone (pre : List Segment) (t : Segment) (h : ∀ l ∈ pre.getLast?, l.isHole = false) :
      LeftJoin a pre t pre ⟨true, t.size, t.extent, a + span pre⟩ false
  | fresh (pre : List Segment) (l t : Segment) (h : l.isHole = true) (ht : l.tag = a + span pre) :
      LeftJoin a (pre ++ [l]) t pre ⟨true, l.size + t.size, l.extent + t.extent, l.tag⟩ true
  | stale (pre : List Segment) (l t : Segment) (h : l.isHole = true) (ht : l.tag ≠ a + span pre) :
      LeftJoin a (pre ++ [l]) t pre ⟨true, l.size, l.extent + t.extent, l.tag⟩ true

/-- How the hole `t` at `x` and the segments after it continue. -/
inductive RightJoin (x : ℕ) : Segment → List Segment → Segment → List Segment → Prop
  | alone (t : Segment) (post : List Segment) (h : ∀ r ∈ post.head?, r.isHole = false) :
      RightJoin x t post t post
  | joined (t r : Segment) (post : List Segment) (h : r.isHole = true) :
      RightJoin x t (r :: post)
        ⟨true, if t.tag = x then t.size + r.size else t.size, t.extent + r.extent, r.tag⟩ post

/-- `s₁` is a state inside `free s`: the memory already has the segment `t`, the
index lists it or not. -/
structure Pending (s s₁ : State) (pre : List Segment) (t : Segment) (post : List Segment)
    (listed : Bool) : Prop where
  arena : SameArena s s₁
  segments : SegmentsAt s₁.mem s.heap.endAddress s.heap.startAddress (pre ++ t :: post)
  tiles : s.heap.startAddress + span (pre ++ t :: post) = s.heap.endAddress
  hole : t.isHole = true
  change : ChangesOnly s s₁ (s.heap.startAddress + span pre)
    (s.heap.startAddress + span pre + t.extent)
  index : s₁.heap.index.elems s₁.mem = holes s.heap.startAddress pre ++
    ((if listed then [s.heap.startAddress + span pre] else []) ++
      holes (s.heap.startAddress + span pre + t.extent) post)
  room : s₁.heap.index.size ≤ s.heap.index.maxSize
  below : s.heap.index.array + 4 * s.heap.index.maxSize ≤ s.heap.startAddress
  top : s.heap.endAddress < wordSize

section Left
variable {s : State} {pre post : List Segment} {l t : Segment}

/-- Marking the block: the header is a hole's, everything else is as before. -/
theorem pending_mark (hr : Represents s (pre ++ t :: post)) (ht : t.isHole = false) :
    let x := s.heap.startAddress + span pre
    Pending s ⟨s.heap, write8 s.mem (x + 4) 1⟩ pre ⟨true, t.size, t.extent, x⟩ post false := by
  intro x
  obtain ⟨hpre, hseg, hpost⟩ := segmentsAt_append.mp hr.segments
  have hge := hseg.size_ge
  have hle := hseg.size_le
  have hbelow := hr.below
  have hroom := hr.room
  have hblock := hseg.block ht
  have hw : AgreeOff s.mem (write8 s.mem (x + 4) 1) (x + 4) (x + 5) :=
    agreeOff_write8 _ _ (Nat.le_refl _) (by omega)
  refine ⟨⟨rfl, rfl, rfl, rfl, wordsFrom_of_agreeOn (hw.agreeOn (by omega))⟩,
    segmentsAt_append.mpr ⟨?_, ?_, ?_⟩, ?_, rfl, ?_, ?_, hroom, hbelow, hr.top⟩
  · exact hpre.frame (hw.agreeOn (by omega))
  · refine ⟨⟨?_, ?_, ?_⟩, hge, hle, fun h => by simp at h, fun _ => ?_, fun _ _ => ?_⟩
    · exact (read32_congr (hw.agreeOn (by omega))).trans hseg.header.magic
    · have h₁ : write8 s.mem (x + 4) 1 (x + 4) = 1 := write8_same _ _ _
      change (write8 s.mem (x + 4) 1 (x + 4) != 0) = true
      rw [h₁]
      rfl
    · exact (read32_congr (hw.agreeOn (by omega))).trans hseg.header.sized
    · have hf : FooterAt (write8 s.mem (x + 4) 1) (x + t.extent - 8) t.tag :=
        (hseg.footer (Or.inl ht)).frame (hw.agreeOn (by omega))
      rwa [hblock.2] at hf
    · exact Or.inl ⟨rfl, hblock.1⟩
  · exact hpost.frame (hw.agreeOn (by omega))
  · simpa using hr.tiles
  · intro y hy _
    exact hw y (by simp only at hy; omega)
  · rw [if_neg (by simp), List.nil_append]
    change s.heap.index.elems _ = _
    rw [s.heap.index.elems_congr (hw.agreeOn (by omega)), hr.index, holes_append]
    simp [holes, ht]

/-- What stands on the left of a block that comes first or follows a block: no
footer, or the footer of a header that is not a hole's. -/
theorem left_closed (hc : Guarded s) (hr : Represents s (pre ++ t :: post))
    (hl : ∀ l ∈ pre.getLast?, l.isHole = false) :
    let x := s.heap.startAddress + span pre
    footerMagic s.mem (x - 8) ≠ heapMagic ∨
      footerHeader s.mem (x - 8) + 20 ≤ x ∧
        headerIsHole s.mem (footerHeader s.mem (x - 8)) = false := by
  intro x
  rcases List.eq_nil_or_concat pre with rfl | ⟨p, l, rfl⟩
  · exact Or.inl hc.2
  · have hlast := hl l (by simp)
    rw [List.concat_eq_append, List.append_assoc] at hr
    have hseg := (segmentsAt_append.mp hr.segments).2.1
    have hge := hseg.size_ge
    have hle := hseg.size_le
    have hx : x = s.heap.startAddress + span p + l.extent := by simp [x]; omega
    have hf := hseg.footer (Or.inl hlast)
    rw [← hx] at hf
    have hname := hf.names.trans (hseg.block hlast).2
    rw [hname]
    exact Or.inr ⟨by omega, hseg.header.flag.trans hlast⟩

/-- Nothing is joined on the left if the block comes first or follows a block. -/
theorem mergeLeft_alone (hc : Guarded s) (hr : Represents s (pre ++ t :: post))
    (hl : ∀ l ∈ pre.getLast?, l.isHole = false) (footer : ℕ) :
    let x := s.heap.startAddress + span pre
    mergeLeft (write8 s.mem (x + 4) 1) x footer = (x, true, write8 s.mem (x + 4) 1) := by
  intro x
  have hguard := hc.1
  have hw : AgreeOff s.mem (write8 s.mem (x + 4) 1) (x + 4) (x + 5) :=
    agreeOff_write8 _ _ (Nat.le_refl _) (by omega)
  have hsub : sub32 x 8 = x - 8 := sub32_eq (by omega)
  have hmagic : footerMagic (write8 s.mem (x + 4) 1) (x - 8) = footerMagic s.mem (x - 8) :=
    read32_congr (hw.agreeOn (by omega))
  have hname : footerHeader (write8 s.mem (x + 4) 1) (x - 8) = footerHeader s.mem (x - 8) :=
    read32_congr (hw.agreeOn (by omega))
  suffices hno : ¬ (footerMagic (write8 s.mem (x + 4) 1) (x - 8) = heapMagic ∧
      headerIsHole (write8 s.mem (x + 4) 1)
        (footerHeader (write8 s.mem (x + 4) 1) (x - 8)) = true) by
    simp only [mergeLeft, hsub, if_neg hno]
  rw [hmagic, hname]
  rintro ⟨h₁, h₂⟩
  have hclosed : footerMagic s.mem (x - 8) ≠ heapMagic ∨ footerHeader s.mem (x - 8) + 20 ≤ x ∧
      headerIsHole s.mem (footerHeader s.mem (x - 8)) = false := left_closed hc hr hl
  rcases hclosed with h | ⟨hlt, hflag⟩
  · exact h h₁
  · rw [headerIsHole_congr (hw.agreeOn (by omega)), hflag] at h₂
    simp at h₂

theorem mergeLeft_joined {m : Mem} {x tag n : ℕ} (footer : ℕ) (hx : 8 ≤ x) (hf : FooterAt m (x - 8) tag)
    (hole : headerIsHole m tag = true) (hn : headerSize m x = n) :
    mergeLeft m x footer = (tag, false,
      write32 (write32 m (footer + 4) tag) (tag + 8)
        (add32 (headerSize (write32 m (footer + 4) tag) tag) n)) := by
  have hsub : sub32 x 8 = x - 8 := sub32_eq hx
  simp only [mergeLeft, hsub, hf.magic, hf.names, hole, hn, and_self, ↓reduceIte]

/-- A left neighbour that is a hole has a footer that leads to a hole header. -/
theorem left_footer (hr : Represents s (pre ++ l :: t :: post)) (hl : l.isHole = true) :
    let a := s.heap.startAddress + span pre
    FooterAt s.mem (a + l.extent - 8) l.tag ∧ headerIsHole s.mem l.tag = true ∧
      ((l.tag = a ∧ l.extent = l.size) ∨ Stale s.mem a l) := by
  intro a
  obtain ⟨-, hseg, ht⟩ := segmentsAt_append.mp hr.segments
  have hsum := hr.tiles
  have hge := ht.1.size_ge
  have hle := ht.1.size_le
  simp only [span_append, span_cons] at hsum
  have hend : a + l.extent < s.heap.endAddress := by omega
  refine ⟨hseg.footer (Or.inr hend), ?_, hseg.hole hl hend⟩
  rcases hseg.hole hl hend with h | h
  · rw [h.1, hseg.header.flag, hl]
  · exact h.flag

/-- The memory after a join on the left: the footer of the block names `tag`, and
`tag` has the bytes of the block credited to its size. -/
def leftMem (m : Mem) (x n tag : ℕ) : Mem :=
  let m₁ := write8 m (x + 4) 1
  let m₂ := write32 m₁ (x + n - 8 + 4) tag
  write32 m₂ (tag + 8) (add32 (headerSize m₂ tag) n)

/-- What both joins on the left have in common. -/
theorem mergeLeft_hole (hr : Represents s (pre ++ l :: t :: post)) (hl : l.isHole = true) :
    let x := s.heap.startAddress + span pre + l.extent
    mergeLeft (write8 s.mem (x + 4) 1) x (x + t.size - 8) =
      (l.tag, false, leftMem s.mem x t.size l.tag) := by
  intro x
  obtain ⟨hf, hflag, hname⟩ := left_footer hr hl
  obtain ⟨-, hseg, hrest⟩ := segmentsAt_append.mp hr.segments
  have hge := hseg.size_ge
  have hle := hseg.size_le
  have hw : AgreeOff s.mem (write8 s.mem (x + 4) 1) (x + 4) (x + 5) :=
    agreeOff_write8 _ _ (Nat.le_refl _) (by omega)
  have htag : l.tag + 20 ≤ x := by
    rcases hname with h | h
    · omega
    · exact h.below
  have hn : headerSize (write8 s.mem (x + 4) 1) x = t.size :=
    (read32_congr (hw.agreeOn (by omega))).trans hrest.1.header.sized
  exact mergeLeft_joined _ (by omega) (hf.frame (hw.agreeOn (by omega)))
    ((headerIsHole_congr (hw.agreeOn (by omega))).trans hflag) hn

/-- A hole and the block after it, joined: only these two segments differ, and the
index lists the hole as before. -/
theorem pending_joined (hr : Represents s (pre ++ l :: t :: post)) (hl : l.isHole = true)
    (ht : t.isHole = false) {m : Mem} {t' : Segment} (hole : t'.isHole = true)
    (hext : t'.extent = l.extent + t.extent)
    (hm : AgreeOff s.mem m (s.heap.startAddress + span pre)
      (s.heap.startAddress + span pre + t'.extent))
    (hseg : SegmentAt m s.heap.endAddress (s.heap.startAddress + span pre) t') :
    Pending s ⟨s.heap, m⟩ pre t' post true := by
  have hbelow := hr.below
  have hroom := hr.room
  obtain ⟨hpre, -, -, hpost⟩ := segmentsAt_append.mp hr.segments
  have hassoc : s.heap.startAddress + span pre + t'.extent =
      s.heap.startAddress + span pre + l.extent + t.extent := by omega
  refine ⟨⟨rfl, rfl, rfl, rfl, wordsFrom_of_agreeOn (hm.agreeOn (by omega))⟩,
    segmentsAt_append.mpr ⟨?_, hseg, ?_⟩, ?_, hole, ?_, ?_, hroom, hbelow, hr.top⟩
  · exact hpre.frame (hm.agreeOn (by omega))
  · rw [hassoc]
    exact hpost.frame (hm.agreeOn (by omega))
  · have := hr.tiles
    simp only [span_append, span_cons, hext] at this ⊢
    omega
  · exact fun y hy _ => hm y hy
  · change s.heap.index.elems m = _
    rw [s.heap.index.elems_congr (hm.agreeOn (by omega)), hr.index, holes_append, hassoc]
    simp [holes, hl, ht]

theorem leftMem_agreeOff (m : Mem) {a x n tag : ℕ} (ha : a ≤ tag) (ht : tag + 20 ≤ x) (hn : 20 ≤ n) :
    AgreeOff m (leftMem m x n tag) a (x + n) := by
  refine ((agreeOff_write8 m _ ?_ ?_).trans (agreeOff_write32 _ _ ?_ ?_)).trans
    (agreeOff_write32 _ _ ?_ ?_)
  all_goals omega

/-- The bytes of the joined hole that keep their value. -/
theorem leftMem_agreeOn (m : Mem) {x n tag lo hi : ℕ} (hn : 20 ≤ n) (hx : hi ≤ x)
    (ht : hi ≤ tag + 8 ∨ tag + 12 ≤ lo) : AgreeOn m (leftMem m x n tag) lo hi := by
  refine ((agreeOn_write8 m _ ?_).trans (agreeOn_write32 _ _ ?_)).trans (agreeOn_write32 _ _ ?_)
  all_goals omega

theorem leftMem_footer {m : Mem} {x n tag : ℕ} (hn : 20 ≤ n) (ht : tag + 20 ≤ x)
    (hw : tag < wordSize) (hf : footerMagic m (x + n - 8) = heapMagic) :
    FooterAt (leftMem m x n tag) (x + n - 8) tag where
  magic := by
    have h : AgreeOn m (leftMem m x n tag) (x + n - 8) (x + n - 4) := by
      refine ((agreeOn_write8 m _ ?_).trans (agreeOn_write32 _ _ ?_)).trans
        (agreeOn_write32 _ _ ?_)
      all_goals omega
    exact (read32_congr (h.mono (Nat.le_refl _) (by omega))).trans hf
  names := by
    unfold footerHeader leftMem
    rw [read32_write32_of_disjoint _ _ (by omega), read32_write32 _ _ hw]

theorem leftMem_credited {m : Mem} {x n tag k : ℕ} (hn : 20 ≤ n) (ht : tag + 20 ≤ x)
    (hk : headerSize m tag = k) (hs : k + n < wordSize) :
    headerSize (leftMem m x n tag) tag = k + n := by
  have hsize : headerSize (write32 (write8 m (x + 4) 1) (x + n - 8 + 4) tag) tag = k := by
    refine (read32_congr ?_).trans hk
    exact (agreeOn_write8 _ _ (by omega)).trans (agreeOn_write32 _ _ (by omega))
  unfold leftMem headerSize at *
  rw [read32_write32 _ _ (add32_lt _ _), hsize, add32_eq hs]

/-- The footer of the block names the header that the footer before it named. -/
theorem leftMem_joined (hr : Represents s (pre ++ l :: t :: post)) (ht : t.isHole = false)
    (htag : l.tag + 20 ≤ s.heap.startAddress + span pre + l.extent) :
    FooterAt (leftMem s.mem (s.heap.startAddress + span pre + l.extent) t.size l.tag)
      (s.heap.startAddress + span pre + (l.extent + t.extent) - 8) l.tag := by
  have hseg := (segmentsAt_append.mp hr.segments).2.2.1
  have hge := hseg.size_ge
  have hblock := (hseg.block ht).1
  have htop := hr.top
  have hsum := hr.tiles
  simp only [span_append, span_cons] at hsum
  have hend : s.heap.startAddress + span pre + (l.extent + t.extent) - 8 =
      s.heap.startAddress + span pre + l.extent + t.size - 8 := by omega
  rw [hend]
  exact leftMem_footer hge htag (by omega) (hblock ▸ (hseg.footer (Or.inl ht)).magic)

theorem pending_fresh (hr : Represents s (pre ++ l :: t :: post)) (hl : l.isHole = true)
    (ht : t.isHole = false) (htag : l.tag = s.heap.startAddress + span pre) :
    Pending s ⟨s.heap, leftMem s.mem (s.heap.startAddress + span pre + l.extent) t.size l.tag⟩ pre
      ⟨true, l.size + t.size, l.extent + t.extent, l.tag⟩ post true := by
  obtain ⟨-, -, hname⟩ := left_footer hr hl
  obtain ⟨-, hseg, hseg', -⟩ := segmentsAt_append.mp hr.segments
  have hge := hseg.size_ge
  have hge' := hseg'.size_ge
  have hblock := (hseg'.block ht).1
  have hfull : l.extent = l.size := by
    rcases hname with h | h
    · exact h.2
    · have := h.above
      omega
  have htop := hr.top
  have hsum := hr.tiles
  simp only [span_append, span_cons] at hsum
  refine pending_joined hr hl ht rfl rfl ?_ ⟨⟨?_, ?_, ?_⟩, ?_, ?_, ?_, ?_, ?_⟩
  · refine (leftMem_agreeOff s.mem htag.ge (by omega) hge').mono (Nat.le_refl _) ?_
    simp only
    omega
  · exact (read32_congr (leftMem_agreeOn _ hge' (by omega) (by omega))).trans hseg.header.magic
  · exact (headerIsHole_congr (leftMem_agreeOn _ hge' (by omega) (by omega))).trans
      (hseg.header.flag.trans hl)
  · rw [← htag] at hseg ⊢
    exact leftMem_credited hge' (by omega) hseg.header.sized (by omega)
  · simp only
    omega
  · simp only
    omega
  · exact fun h => by simp at h
  · exact fun _ => leftMem_joined hr ht (by omega)
  · exact fun _ _ => Or.inl ⟨htag, by simp only; omega⟩

theorem pending_stale (hr : Represents s (pre ++ l :: t :: post)) (hl : l.isHole = true)
    (ht : t.isHole = false) (htag : l.tag ≠ s.heap.startAddress + span pre) :
    Pending s ⟨s.heap, leftMem s.mem (s.heap.startAddress + span pre + l.extent) t.size l.tag⟩ pre
      ⟨true, l.size, l.extent + t.extent, l.tag⟩ post true := by
  obtain ⟨-, -, hname⟩ := left_footer hr hl
  obtain ⟨-, hseg, hseg', -⟩ := segmentsAt_append.mp hr.segments
  have hge := hseg.size_ge
  have hle := hseg.size_le
  have hge' := hseg'.size_ge
  have hblock := (hseg'.block ht).1
  have hstale : Stale s.mem (s.heap.startAddress + span pre) l := by
    rcases hname with h | h
    · exact absurd h.1 htag
    · exact h
  have habove := hstale.above
  have hbelow := hstale.below
  have htop := hr.top
  have hsum := hr.tiles
  simp only [span_append, span_cons] at hsum
  have hhead : HeaderAt (leftMem s.mem (s.heap.startAddress + span pre + l.extent) t.size l.tag)
      (s.heap.startAddress + span pre) true l.size := by
    rw [← hl]
    exact hseg.header.frame (leftMem_agreeOn _ hge' (by omega) (by omega))
  refine pending_joined hr hl ht rfl rfl ?_ ⟨hhead, hge, ?_, ?_, ?_, ?_⟩
  · refine (leftMem_agreeOff s.mem (by omega) hbelow hge').mono (Nat.le_refl _) ?_
    simp only
    omega
  · simp only
    omega
  · exact fun h => by simp at h
  · exact fun _ => leftMem_joined hr ht hbelow
  · refine fun _ _ => Or.inr ⟨habove, ?_, ?_⟩
    · simp only
      omega
    · change headerIsHole _ l.tag = true
      exact (headerIsHole_congr (leftMem_agreeOn _ hge' (by omega) (by omega))).trans hstale.flag

end Left

end ExperimentalKernel.Heap
