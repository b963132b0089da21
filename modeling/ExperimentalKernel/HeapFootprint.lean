import ExperimentalKernel.HeapAccesses

/-!
# Where `free` reads and writes

On a well-formed heap `free` stays in the heap and its index, except that it reads the
header after the block without asking whether the heap ends there.
-/

namespace ExperimentalKernel.Heap
open ByteMemory PointerArray TracedMemory LabelledRuns

/-- The addresses of the index area and of the heap. -/
def Inside (s : State) (y : ℕ) : Prop :=
  (s.heap.index.array ≤ y ∧ y < s.heap.index.array + 4 * s.heap.index.maxSize) ∨
    (s.heap.startAddress ≤ y ∧ y < s.heap.endAddress)

def StaysInside (s : State) (ptr : ℕ) : Prop := Within (Inside s) (freeT s ptr)

inductive Call where
  | allocate (size : ℕ)
  | free (ptr : ℕ)

inductive CallStep : State → Call → State → Prop
  | allocate {s : State} {size : ℕ} (h : size < wordSize) :
      CallStep s (.allocate size) (Heap.allocate s size false).2
  | free {s s' : State} {ptr : ℕ} (h : Heap.free s ptr = some s') : CallStep s (.free ptr) s'

/-- A heap that any calls have left of the boot heap. -/
def Called (s : State) : Prop :=
  ∃ m maxAddress supervisor readOnly s₀ calls,
    init m start (start + initialSize) maxAddress supervisor readOnly = some s₀ ∧
      Run CallStep s₀ calls s

section Bounds
variable {s s' : State} {ptr : ℕ}

theorem placeBlock_bounds (h : KernelHeap) (m m' : Mem) (holeAddr holeSize size n : ℕ) :
    SameBounds ⟨h, m⟩ (placeBlock h m' holeAddr holeSize size n) := by
  simp only [placeBlock]
  split
  · exact ⟨rfl, rfl, orderedAdd_array _ _ _, orderedAdd_maxSize _ _ _⟩
  · exact ⟨rfl, rfl, rfl, rfl⟩

theorem allocate_bounds (s : State) (size : ℕ) (pageAlign : Bool) :
    SameBounds s (allocate s size pageAlign).2 := by
  simp only [allocate]
  split
  · exact .refl s
  · next i hi =>
    split
    · dsimp only
      exact placeBlock_bounds s.heap s.mem _ _ _ _ _
    · dsimp only
      have herase : SameBounds s ⟨{ s.heap with index := (erase s.heap.index s.mem i).1 }, s.mem⟩ :=
        ⟨rfl, rfl, rfl, rfl⟩
      exact herase.trans (placeBlock_bounds _ _ _ _ _ _ _)

theorem addEntry_bounds (s : State) (item : ℕ) : SameBounds s (addEntry s item) :=
  ⟨rfl, rfl, orderedAdd_array _ _ _, orderedAdd_maxSize _ _ _⟩

theorem free_bounds (h : free s ptr = some s') : SameBounds s s' := by
  simp only [free] at h
  split at h
  · cases h
    exact .refl _
  · split at h
    · cases h
    · split at h
      · cases h
      · rw [Option.map_eq_some_iff] at h
        obtain ⟨s₁, hs₁, rfl⟩ := h
        have hdrop : ∀ item, SameBounds s (dropEntry s₁ item) := fun item =>
          ((mergeRight_kept hs₁).trans (dropEntry_kept s₁ item)).bounds
        split
        · exact (hdrop _).trans (addEntry_bounds _ _)
        · exact hdrop _

/-- Calls leave the heap where `init` put it. -/
theorem Called.bounds (h : Called s) : PlacedAtStart s ∧ s.heap.endAddress = start + initialSize := by
  obtain ⟨m, maxAddress, supervisor, readOnly, s₀, calls, hinit, hrun⟩ := h
  have h₀ := init_bootLayout hinit
  have hsame : SameBounds s₀ s := by
    refine hrun.invariant (P := SameBounds s₀) (fun s c s' hs hstep => ?_) (.refl s₀)
    cases hstep with
    | allocate _ => exact hs.trans (allocate_bounds _ _ _)
    | free h => exact hs.trans (free_bounds h)
  have hp := h₀.placedAtStart
  exact ⟨⟨hsame.array.trans hp.array, hsame.maxSize.trans hp.maxSize,
    hsame.startAddress.trans hp.startAddress⟩, hsame.endAddress.trans h₀.endAddress⟩

end Bounds

section Footprint
variable {s : State} {pre post : List Segment} {t : Segment} {P : ℕ → Prop} {x : ℕ}

/-- What `free` touches of a block: its tags and, if the footer is one, the rest. -/
theorem WellFormed.within_freeT (hw : WellFormed s (pre ++ t :: post)) (P : ℕ → Prop)
    (hx : x = s.heap.startAddress + span pre) :
    Within P (freeT s (x + 12)) ↔ (∀ i < 4, P (x + 8 + i)) ∧ (∀ i < 4, P (x + i)) ∧
      (∀ i < 4, P (x + t.size - 8 + i)) ∧
      (footerMagic s.mem (x + t.size - 8) = heapMagic → Within P (releaseT s x (x + t.size - 8))) := by
  have hint := hw.intact
  have hbounds := hw.bounds
  have htop := hw.top
  have hge := hint.size_ge
  rw [← hx] at hint hbounds
  have hsub : sub32 (x + 12) 12 = x := sub32_eq (by omega)
  have hfoot : sub32 (add32 x t.size) 8 = x + t.size - 8 := by
    rw [add32_eq (by omega), sub32_eq (by omega)]
  have hsize : headerSize s.mem x = t.size := hint.header.sized
  have hmagic : headerMagic s.mem x = heapMagic := hint.header.magic
  by_cases hf : footerMagic s.mem (x + t.size - 8) = heapMagic
  · simp [freeT, hsub, hsize, hmagic, hfoot, hf]
  · simp [freeT, hsub, hsize, hmagic, hfoot, hf]

/-- If the bytes before the block look like a footer, the header that it names lies
where `free` may touch it. -/
def LeftHarmless (s : State) (x : ℕ) : Prop :=
  footerMagic s.mem (x - 8) = heapMagic →
    Inside s (footerHeader s.mem (x - 8) + 4) ∧
      (headerIsHole s.mem (footerHeader s.mem (x - 8)) = true →
        ∀ i < 4, Inside s (footerHeader s.mem (x - 8) + 8 + i))

/-- The footer of a segment before the block names that segment. -/
theorem WellFormed.leftHarmless (hw : WellFormed s (pre ++ t :: post)) (hpre : pre ≠ []) :
    LeftHarmless s (s.heap.startAddress + span pre) := by
  obtain ⟨p, l, rfl⟩ := (List.eq_nil_or_concat pre).resolve_left hpre
  rw [List.concat_eq_append] at hw ⊢
  have ht := hw.intact.size_ge
  have hbounds := hw.bounds
  rw [List.append_assoc] at hw
  have hl := hw.intact
  have hge := hl.size_ge
  have hend : s.heap.startAddress + span p + l.size = s.heap.startAddress + span (p ++ [l]) := by
    rw [span_append, span_cons, span_nil, hl.extent, Nat.add_zero, Nat.add_assoc]
  have hfoot := hl.footer (by omega)
  rw [hend] at hfoot
  intro _
  rw [hfoot.names]
  exact ⟨.inr ⟨by omega, by omega⟩, fun _ i hi => .inr ⟨by omega, by omega⟩⟩

/-- Marking the block changes no byte below it. -/
theorem mark_agree (m : Mem) (hx : 8 ≤ x) :
    footerMagic (write8 m (x + 4) 1) (x - 8) = footerMagic m (x - 8) ∧
      footerHeader (write8 m (x + 4) 1) (x - 8) = footerHeader m (x - 8) :=
  ⟨read32_write8_of_disjoint m 1 (.inr (by omega)), read32_write8_of_disjoint m 1 (.inr (by omega))⟩

theorem headerIsHole_mark (m : Mem) (x y : ℕ) :
    headerIsHole (write8 m (x + 4) 1) y = true ↔ y = x ∨ headerIsHole m y = true := by
  by_cases hy : y = x
  · rw [hy, headerIsHole, write8_same]
    simp
  · rw [headerIsHole, write8_of_ne _ _ (by omega), or_iff_right hy]
    rfl

theorem mergeLeft_fst (m : Mem) (header footer : ℕ) :
    (mergeLeft m header footer).1 =
      if footerMagic m (sub32 header 8) = heapMagic ∧
        headerIsHole m (footerHeader m (sub32 header 8)) = true
      then footerHeader m (sub32 header 8) else header := by
  simp only [mergeLeft]
  split <;> rfl

/-- A block that does not end the heap is followed by a whole header. -/
theorem WellFormed.next_room (hw : WellFormed s (pre ++ t :: post))
    (hlt : s.heap.startAddress + span pre + t.size ≠ s.heap.endAddress) :
    s.heap.startAddress + span pre + t.size + 20 ≤ s.heap.endAddress := by
  have hbounds := hw.bounds
  cases post with
  | nil =>
    rw [span_nil, Nat.add_zero] at hbounds
    exact absurd hbounds hlt
  | cons r post =>
    have hr := (intactsAt_append.mp hw.segments).2.2.1
    have hge := hr.size_ge
    rw [span_cons, hr.extent] at hbounds
    omega

/-- Below the end of the heap `free` stays inside if it is not misled on the left. -/
theorem WellFormed.releases_inside (hw : WellFormed s (pre ++ t :: post))
    (hadj : s.heap.index.array + 4 * s.heap.index.maxSize = s.heap.startAddress)
    (hlarge : 2 ≤ s.heap.index.maxSize)
    (hlt : s.heap.startAddress + span pre + t.size ≠ s.heap.endAddress)
    (hleft : LeftHarmless s (s.heap.startAddress + span pre)) :
    let x := s.heap.startAddress + span pre
    Within (Inside s) (releaseT s x (x + t.size - 8)) := by
  intro x
  have hnext := hw.next_room hlt
  have htop := hw.top
  have hroom := hw.room
  have hge := hw.intact.size_ge
  have hheap : ∀ {y : ℕ}, s.heap.startAddress ≤ y → y < s.heap.endAddress → Inside s y :=
    fun h h' => .inr ⟨h, h'⟩
  have hbelow : ∀ {y : ℕ}, s.heap.index.array ≤ y → y < s.heap.endAddress → Inside s y := by
    intro y h h'
    by_cases hy : y < s.heap.startAddress
    · exact .inl ⟨h, by omega⟩
    · exact hheap (by omega) h'
  obtain ⟨hmagic, hname⟩ := mark_agree s.mem (by omega : 8 ≤ x)
  have hsub : sub32 x 8 = x - 8 := sub32_eq (by omega)
  have hadd : add32 (x + t.size - 8) 8 = x + t.size := by
    rw [add32_eq (by omega)]
    omega
  -- the header that the left test finds has its flag and its size inside
  have hnamed : footerMagic s.mem (x - 8) = heapMagic →
      headerIsHole (write8 s.mem (x + 4) 1) (footerHeader s.mem (x - 8)) = true →
      ∀ i < 4, Inside s (footerHeader s.mem (x - 8) + 8 + i) := by
    intro hm hflag
    rcases (headerIsHole_mark _ _ _).mp hflag with heq | hole
    · rw [heq]
      exact fun i hi => hheap (by omega) (by omega)
    · exact (hleft hm).2 hole
  refine within_releaseT (fun y hy hy' => hbelow hy (by omega)) (hheap (by omega) (by omega)) ?_ ?_ ?_
  · rw [hadd]
    exact fun i hi => hheap (by omega) (by omega)
  · rw [within_mergeLeftT, hsub, hmagic, hname]
    refine ⟨fun i hi => hbelow (by omega) (by omega), fun hm => ⟨fun i hi => hbelow (by omega) (by omega),
      (hleft hm).1, fun hflag => ⟨fun i hi => hheap (by omega) (by omega), fun i hi =>
        hheap (by omega) (by omega), hnamed hm hflag⟩⟩⟩
  · rw [mergeLeft_fst, hsub, hmagic, hname]
    split
    · next h => exact hnamed h.1 h.2
    · exact fun i hi => hheap (by omega) (by omega)

/-- A `free` that stays inside does not look at the header after the block, or the heap
goes on there, and is not misled on the left. -/
theorem within_releaseT_parts {header footer : ℕ} (h : Within P (releaseT s header footer)) :
    P (add32 footer 8) ∧ Within P (mergeLeftT (write8 s.mem (header + 4) 1) header footer) := by
  simp only [releaseT, within_bind, within_put8, value_put8] at h
  obtain ⟨-, hleft, hright, -⟩ := h
  rw [mergeRightT, within_bind, within_headerMagicT] at hright
  exact ⟨hright.1 0 (by decide), hleft⟩

/-- A `free` that stays inside and gets to the merges is not misled on the left. -/
theorem leftHarmless_of_releases (hx : 8 ≤ x) {footer : ℕ}
    (h : Within (Inside s) (releaseT s x footer)) : LeftHarmless s x := by
  have hleft := (within_releaseT_parts h).2
  obtain ⟨hmagic, hname⟩ := mark_agree s.mem hx
  have hsub : sub32 x 8 = x - 8 := sub32_eq hx
  rw [within_mergeLeftT, hsub, hmagic, hname] at hleft
  intro hm
  obtain ⟨-, hflag, hsize⟩ := hleft.2 hm
  exact ⟨hflag, fun hole => (hsize ((headerIsHole_mark _ _ _).mpr (.inr hole))).2.2⟩

/-- `free` of a block that ends a well-formed heap stays inside only if the block has no
footer; of any other block exactly if it is not the first, or nothing below it looks
like a footer that leads outside. The trace is one of `free`. -/
theorem staysInside_iff (hc : Called s) (hw : WellFormed s (pre ++ t :: post)) :
    let x := s.heap.startAddress + span pre
    (StaysInside s (x + 12) ↔
      if x + t.size = s.heap.endAddress then footerMagic s.mem (x + t.size - 8) ≠ heapMagic
      else pre = [] → LeftHarmless s x) ∧ (freeT s (x + 12)).value = free s (x + 12) := by
  intro x
  refine ⟨?_, value_freeT s (x + 12)⟩
  obtain ⟨hp, -⟩ := hc.bounds
  have hadj : s.heap.index.array + 4 * s.heap.index.maxSize = s.heap.startAddress := by
    rw [hp.array, hp.maxSize, hp.startAddress, bootStart]
  have hlarge : 2 ≤ s.heap.index.maxSize := by
    rw [hp.maxSize]
    decide
  have hint := hw.intact
  have hge := hint.size_ge
  have hbounds := hw.bounds
  have htop := hw.top
  have htags : (∀ i < 4, Inside s (x + 8 + i)) ∧ (∀ i < 4, Inside s (x + i)) ∧
      (∀ i < 4, Inside s (x + t.size - 8 + i)) := by
    refine ⟨fun i hi => .inr ?_, fun i hi => .inr ?_, fun i hi => .inr ?_⟩
    all_goals omega
  have hstays : StaysInside s (x + 12) ↔ (footerMagic s.mem (x + t.size - 8) = heapMagic →
      Within (Inside s) (releaseT s x (x + t.size - 8))) := by
    rw [StaysInside, hw.within_freeT _ rfl]
    exact ⟨fun h => h.2.2.2, fun h => ⟨htags.1, htags.2.1, htags.2.2, h⟩⟩
  rw [hstays]
  by_cases hend : x + t.size = s.heap.endAddress
  · rw [if_pos hend]
    refine ⟨fun h hm => ?_, fun hne hm => absurd hm hne⟩
    have hout := (within_releaseT_parts (h hm)).1
    rw [add32_eq (by omega), Inside] at hout
    omega
  · rw [if_neg hend]
    constructor
    · exact fun h _ => leftHarmless_of_releases (by omega) (h (hint.footer hend).magic)
    · intro h _
      refine hw.releases_inside hadj hlarge hend ?_
      by_cases hpre : pre = []
      · exact h hpre
      · exact hw.leftHarmless hpre

end Footprint

/-- The first block of the boot heap, with the rest of the heap after it. -/
theorem staysInside_boot :
    ∃ s, Called s ∧ StaysInside s (s.heap.startAddress + span [] + 12) := by
  obtain ⟨s₀, hinit, h₀⟩ := exists_init
  obtain ⟨hl, hw⟩ := served_wellFormed [12] h₀ (by decide)
  have hc : Called (allocateAll s₀ [12]).2 :=
    ⟨_, _, _, _, s₀, [.allocate 12], hinit, .single (.allocate (by decide))⟩
  refine ⟨_, hc, (@staysInside_iff _ [] _ _ hc hw).1.mpr ?_⟩
  rw [if_neg]
  · exact fun _ hm => absurd hm hl.clean.guarded.2
  · rw [hl.startAddress, hl.endAddress]
    decide

/-- A request for the whole of the boot heap leaves one block, which ends it. -/
theorem exists_full :
    ∃ s, Called s ∧ WellFormed s [⟨false, bootSize, bootSize, bootStart⟩] ∧
      footerMagic s.mem (s.heap.startAddress + bootSize - 8) = heapMagic := by
  obtain ⟨s₀, hinit, h₀⟩ := exists_init
  have hroom : bootSize - 20 + 20 = bootSize := by decide
  have hr₀ : Represents s₀ ([] ++ ⟨true, bootSize, bootSize, bootStart⟩ :: []) := h₀.represents
  have hfind := findSmallestHole_first hr₀ rfl hroom.le (by simp)
  obtain ⟨s, hs, hr, harena, -⟩ := allocate_represents hr₀ rfl rfl hroom.le hfind
  have hstart := harena.startAddress.trans h₀.startAddress
  rw [cut, hroom, if_pos (by simp), h₀.startAddress] at hr
  have hr' : Represents s [⟨false, bootSize, bootSize, bootStart⟩] := hr
  have hc : Called s :=
    ⟨_, _, _, _, s₀, [.allocate (bootSize - 20)], hinit, .single (by
      have hstep : CallStep s₀ (.allocate (bootSize - 20)) (allocate s₀ (bootSize - 20) false).2 :=
        .allocate (by decide)
      rwa [hs] at hstep)⟩
  refine ⟨s, hc, hr'.wellFormed fun p hp => ?_, (hr'.segments.1.footer (.inl rfl)).magic⟩
  rw [placed_cons, placed_nil, List.mem_singleton] at hp
  rw [hp]
  exact ⟨rfl, hstart.symm⟩

/-- Freeing that block reads a header where the heap ends. -/
theorem not_staysInside :
    ¬ ∀ s pre t post, Called s → WellFormed s (pre ++ t :: post) → t.isHole = false →
      StaysInside s (s.heap.startAddress + span pre + 12) := by
  intro hall
  obtain ⟨s, hc, hw, hfoot⟩ := exists_full
  have hstays := hall s [] _ [] hc hw rfl
  have hw' : WellFormed s ([] ++ ⟨false, bootSize, bootSize, bootStart⟩ :: []) := hw
  rw [StaysInside, hw'.within_freeT _ rfl, span_nil, Nat.add_zero] at hstays
  have hout := (within_releaseT_parts (hstays.2.2.2 hfoot)).1
  obtain ⟨hp, hend⟩ := hc.bounds
  have hbelow := hw.below
  rw [hp.startAddress, add32_eq (by decide), Inside, hp.startAddress, hend] at hout
  rw [hp.startAddress] at hbelow
  have hsum : bootStart + bootSize - 8 + 8 = start + initialSize := by decide
  have hlt : bootStart < start + initialSize := by decide
  simp only at hout
  omega

end ExperimentalKernel.Heap
