import ExperimentalKernel.HeapBoot

/-!
# Well-formed heaps

Here every segment is what its header says, and its footer, which only the last one
may lack, names its own header. A last block without a footer is no layout of
`Represents`, but a heap that ends before it is one.
-/

namespace ExperimentalKernel.Heap
open ByteMemory PointerArray

/-- A header with the length, and a footer unless the segment ends the heap. -/
structure IntactAt (m : Mem) (e a : ℕ) (s : Segment) : Prop where
  header : HeaderAt m a s.isHole s.size
  size_ge : 20 ≤ s.size
  extent : s.extent = s.size
  tag : s.tag = a
  footer : a + s.size ≠ e → FooterAt m (a + s.size - 8) a

def IntactsAt (m : Mem) (e : ℕ) : ℕ → List Segment → Prop
  | _, [] => True
  | a, s :: segs => IntactAt m e a s ∧ IntactsAt m e (a + s.extent) segs

/-- The segments tile the heap, and the index, which lies below it, lists the headers
of the holes in ascending order. -/
structure WellFormed (s : State) (segs : List Segment) : Prop where
  segments : IntactsAt s.mem s.heap.endAddress s.heap.startAddress segs
  tiles : s.heap.startAddress + span segs = s.heap.endAddress
  index : s.heap.index.elems s.mem = holes s.heap.startAddress segs
  room : s.heap.index.size ≤ s.heap.index.maxSize
  below : s.heap.index.array + 4 * s.heap.index.maxSize ≤ s.heap.startAddress
  top : s.heap.endAddress < wordSize

variable {m m' : Mem} {e a : ℕ} {t : Segment} {pre post segs xs ys : List Segment} {s s' : State}

theorem IntactAt.frame (h : IntactAt m e a t) (hag : AgreeOn m m' a (a + t.extent)) :
    IntactAt m' e a t := by
  have hge := h.size_ge
  have hext := h.extent
  refine ⟨h.header.frame (hag.mono (by omega) (by omega)), hge, hext, h.tag, fun hne => ?_⟩
  exact (h.footer hne).frame (hag.mono (by omega) (by omega))

theorem intactsAt_cons :
    IntactsAt m e a (t :: segs) ↔ IntactAt m e a t ∧ IntactsAt m e (a + t.extent) segs :=
  Iff.rfl

theorem intactsAt_append :
    IntactsAt m e a (xs ++ ys) ↔ IntactsAt m e a xs ∧ IntactsAt m e (a + span xs) ys := by
  induction xs generalizing a with
  | nil => simp [IntactsAt]
  | cons s xs ih =>
    rw [List.cons_append, intactsAt_cons, intactsAt_cons, ih, span_cons, and_assoc, Nat.add_assoc]

theorem IntactsAt.frame (h : IntactsAt m e a segs) (hag : AgreeOn m m' a (a + span segs)) :
    IntactsAt m' e a segs := by
  induction segs generalizing a with
  | nil => trivial
  | cons t segs ih =>
    rw [span_cons] at hag
    exact ⟨h.1.frame (hag.mono (by omega) (by omega)), ih h.2 (hag.mono (by omega) (by omega))⟩

theorem IntactsAt.hole_bounds (h : IntactsAt m e a segs) {x : ℕ} (hx : x ∈ holes a segs) :
    a ≤ x ∧ x + 20 ≤ a + span segs := by
  obtain ⟨pre, t, post, rfl, -, rfl⟩ := mem_holes_iff.mp hx
  have ht := (intactsAt_append.mp h).2.1
  have hge := ht.size_ge
  have hext := ht.extent
  rw [span_append, span_cons]
  omega

/-- The segment at a place of a well-formed heap. -/
theorem WellFormed.intact (h : WellFormed s (pre ++ t :: post)) :
    IntactAt s.mem s.heap.endAddress (s.heap.startAddress + span pre) t :=
  (intactsAt_append.mp h.segments).2.1

theorem WellFormed.bounds (h : WellFormed s (pre ++ t :: post)) :
    s.heap.startAddress + span pre + t.size + span post = s.heap.endAddress := by
  rw [← h.tiles, span_append, span_cons, h.intact.extent]
  omega

theorem IntactAt.segmentAt (h : IntactAt m e a t) (hlast : t.isHole = true ∨ a + t.size ≠ e) :
    SegmentAt m e a t where
  header := h.header
  size_ge := h.size_ge
  size_le := h.extent.ge
  block _ := ⟨h.extent, h.tag⟩
  footer hf := by
    rw [h.extent, h.tag]
    apply h.footer
    rcases hf with hb | hlt
    · exact hlast.resolve_left (by simp [hb])
    · rw [h.extent] at hlt
      exact hlt.ne
  hole _ _ := Or.inl ⟨h.tag, h.extent⟩

/-- Below its end a heap is a layout of `Represents`. -/
theorem IntactsAt.segmentsAt (h : IntactsAt m e a segs) (hlt : a + span segs < e) (e' : ℕ) :
    SegmentsAt m e' a segs := by
  induction segs generalizing a with
  | nil => trivial
  | cons t segs ih =>
    rw [span_cons] at hlt
    have hext := h.1.extent
    have hfoot := h.1.footer (by omega)
    refine ⟨⟨h.1.header, h.1.size_ge, hext.ge, fun _ => ⟨hext, h.1.tag⟩, fun _ => ?_, fun _ _ => ?_⟩,
      ih h.2 (by omega)⟩
    · rw [hext, h.1.tag]
      exact hfoot
    · exact Or.inl ⟨h.1.tag, hext⟩

theorem SegmentsAt.intactsAt (h : SegmentsAt m e a segs) (hle : a + span segs ≤ e)
    (hown : ∀ p ∈ placed a segs, p.2.extent = p.2.size ∧ p.2.tag = p.1) : IntactsAt m e a segs := by
  induction segs generalizing a with
  | nil => trivial
  | cons t segs ih =>
    rw [span_cons] at hle
    obtain ⟨hext, htag⟩ : t.extent = t.size ∧ t.tag = a := hown (a, t) (by simp)
    refine ⟨⟨h.1.header, h.1.size_ge, hext, htag, fun hne => ?_⟩, ih h.2 (by omega) fun p hp => ?_⟩
    · have hfoot := h.1.footer (Or.inr (by omega))
      rwa [hext, htag] at hfoot
    · exact hown p (List.mem_cons_of_mem _ hp)

/-- A layout in which nothing leaked and no footer is stale is well formed. -/
theorem Represents.wellFormed (h : Represents s segs)
    (hown : ∀ p ∈ placed s.heap.startAddress segs, p.2.extent = p.2.size ∧ p.2.tag = p.1) :
    WellFormed s segs :=
  ⟨h.segments.intactsAt h.tiles.le hown, h.tiles, h.index, h.room, h.below, h.top⟩

/-- Where the heap and its index lie does not change. -/
structure SameBounds (s s' : State) : Prop where
  startAddress : s'.heap.startAddress = s.heap.startAddress
  endAddress : s'.heap.endAddress = s.heap.endAddress
  array : s'.heap.index.array = s.heap.index.array
  maxSize : s'.heap.index.maxSize = s.heap.index.maxSize

theorem SameBounds.refl (s : State) : SameBounds s s := ⟨rfl, rfl, rfl, rfl⟩

theorem SameBounds.trans {s'' : State} (h : SameBounds s s') (h' : SameBounds s' s'') :
    SameBounds s s'' :=
  ⟨h'.startAddress.trans h.startAddress, h'.endAddress.trans h.endAddress, h'.array.trans h.array,
    h'.maxSize.trans h.maxSize⟩

/-- Replacing one segment by others of the same total length. -/
theorem WellFormed.replace {mid : List Segment} (h : WellFormed s (pre ++ t :: post))
    (hspan : span mid = t.size)
    (hmid : IntactsAt s'.mem s.heap.endAddress (s.heap.startAddress + span pre) mid)
    (hb : SameBounds s s')
    (hch : ChangesOnly s s' (s.heap.startAddress + span pre)
      (s.heap.startAddress + span pre + t.size))
    (hidx : s'.heap.index.elems s'.mem = holes s.heap.startAddress (pre ++ (mid ++ post)))
    (hroom : s'.heap.index.size ≤ s.heap.index.maxSize) :
    WellFormed s' (pre ++ (mid ++ post)) := by
  have hbelow := h.below
  obtain ⟨hpre, ht, hpost⟩ := intactsAt_append.mp h.segments
  rw [ht.extent] at hpost
  refine ⟨?_, ?_, ?_, hb.maxSize ▸ hroom, ?_, hb.endAddress ▸ h.top⟩
  · rw [hb.startAddress, hb.endAddress]
    refine intactsAt_append.mpr ⟨?_, intactsAt_append.mpr ⟨hmid, ?_⟩⟩
    · exact hpre.frame (hch.agreeOn (by omega) (by omega))
    · rw [hspan]
      exact hpost.frame (hch.agreeOn (by omega) (by omega))
  · rw [hb.startAddress, hb.endAddress, ← h.bounds, span_append, span_append, hspan]
    omega
  · rw [hidx, hb.startAddress]
  · rw [hb.array, hb.maxSize, hb.startAddress]
    exact hbelow

end ExperimentalKernel.Heap
