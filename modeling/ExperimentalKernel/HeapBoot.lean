import ExperimentalKernel.HeapCoalesce

/-!
# The heap after initialisation

On its boot region `init` leaves one hole, which has no footer. As long as the
last hole is not used up, requests on a heap without other holes are cut from it
one after another.
-/

namespace ExperimentalKernel.Heap
open ByteMemory PointerArray

/-- Where the heap begins after the index area of the boot region. -/
def bootStart : ℕ := start + 4 * indexSize

def bootSize : ℕ := initialSize - 4 * indexSize

/-- A heap on the boot region with this layout. -/
structure BootLayout (s : State) (segs : List Segment) : Prop where
  startAddress : s.heap.startAddress = bootStart
  endAddress : s.heap.endAddress = start + initialSize
  maxSize : s.heap.index.maxSize = indexSize
  represents : Represents s segs
  clean : IndexClean s

theorem BootLayout.segments {s : State} {segs : List Segment} (h : BootLayout s segs) :
    SegmentsAt s.mem (start + initialSize) bootStart segs := by
  rw [← h.startAddress, ← h.endAddress]
  exact h.represents.segments

theorem BootLayout.tiles {s : State} {segs : List Segment} (h : BootLayout s segs) :
    bootStart + span segs = start + initialSize := by
  rw [← h.startAddress, ← h.endAddress]
  exact h.represents.tiles

theorem roundStart_even {a : ℕ} (h : a % 2 = 0) : roundStart a = a := by
  have hand : a &&& 1 = 0 := by rw [Nat.and_one_is_mod, h]
  rw [roundStart, hand]
  rfl

/-- The header that `init` writes: the size first, then the magic and the flag. -/
theorem headerAt_init (m : Mem) (a : ℕ) {size : ℕ} (hs : size < wordSize) :
    HeaderAt (write8 (write32 (write32 m (a + 8) size) a heapMagic) (a + 4) 1) a true size where
  magic := by
    unfold headerMagic
    rw [read32_write8_of_disjoint _ _ (by omega), read32_write32 _ _ heapMagic_lt]
  flag := by
    unfold headerIsHole
    rw [write8_same]
    rfl
  sized := by
    unfold headerSize
    rw [read32_write8_of_disjoint _ _ (by omega), read32_write32_of_disjoint _ _ (by omega),
      read32_write32 _ _ hs]

theorem headerAt_init_agreeOff (m : Mem) (a size : ℕ) :
    AgreeOff m (write8 (write32 (write32 m (a + 8) size) a heapMagic) (a + 4) 1) a (a + 12) := by
  refine ((agreeOff_write32 m _ ?_ ?_).trans (agreeOff_write32 _ _ ?_ ?_)).trans
    (agreeOff_write8 _ _ ?_ ?_)
  all_goals omega

/-- Adding the first entry to an array whose words are zero. -/
theorem orderedAdd_first {m : Mem} {base n : ℕ} (item : ℕ) (hi : item < wordSize)
    (hz : ∀ i < n, read32 m (base + 4 * i) = 0) :
    let r := orderedAdd ⟨base, 0, n⟩ m item
    r.1.elems r.2 = [item] ∧ r.1.size = 1 ∧ AgreeOff m r.2 base (base + 4) ∧
      ∀ i < n, read32 r.2 (base + 4 * i) = if i = 0 then item else 0 := by
  intro r
  refine ⟨orderedAdd_elems m hi (by simp), orderedAdd_size m item (by simp),
    orderedAdd_agreeOff ⟨base, 0, n⟩ m item, fun i hin => ?_⟩
  have hslot : findSlot m base item 0 0 = 0 := rfl
  have hread := read32_orderedAdd ⟨base, 0, n⟩ m hi i
  simp only [hslot, Nat.le_zero] at hread
  rw [hread, hz i hin]
  by_cases hi0 : i = 0
  · rw [if_pos hi0, if_pos hi0]
  · rw [if_neg hi0, if_neg hi0, if_neg (by omega)]

theorem init_eq (m : Mem) (maxAddress : ℕ) (supervisor readOnly : Bool) :
    let m₁ := fill m start 0 (4 * indexSize)
    let m₃ := write8 (write32 (write32 m₁ (bootStart + 8) bootSize) bootStart heapMagic)
      (bootStart + 4) 1
    let r := orderedAdd ⟨start, 0, indexSize⟩ m₃ bootStart
    init m start (start + initialSize) maxAddress supervisor readOnly =
      some ⟨⟨r.1, bootStart, start + initialSize, maxAddress, supervisor, readOnly, true⟩, r.2⟩ := by
  intro m₁ m₃ r
  have hadd : add32 start (4 * indexSize) = bootStart := add32_eq (by decide)
  have hround : roundStart bootStart = bootStart := roundStart_even (by decide)
  have hsub : sub32 (start + initialSize) bootStart = bootSize := by
    rw [sub32_eq (by decide)]
    decide
  have hbytes : u32 (4 * indexSize) = 4 * indexSize := u32_eq (by decide)
  have haligned : ¬ (start % pageSize ≠ 0 ∨ (start + initialSize) % pageSize ≠ 0) := by decide
  simp only [init, construct, hbytes, if_neg haligned, hadd, hround, hsub]
  rfl

theorem init_bootLayout {m : Mem} {maxAddress : ℕ} {supervisor readOnly : Bool} {s : State}
    (h : init m start (start + initialSize) maxAddress supervisor readOnly = some s) :
    BootLayout s [⟨true, bootSize, bootSize, bootStart⟩] := by
  rw [init_eq] at h
  simp only [Option.some.injEq] at h
  have hindex : start + 4 * indexSize = bootStart := rfl
  have hz : ∀ i < indexSize, read32 (fill m start 0 (4 * indexSize)) (start + 4 * i) = 0 :=
    fun i hi => read32_fill_zero m (by omega) (by omega)
  generalize fill m start 0 (4 * indexSize) = m₁ at h hz
  have hhead := headerAt_init m₁ bootStart (by decide : bootSize < wordSize)
  have hoff := headerAt_init_agreeOff m₁ bootStart bootSize
  generalize write8 (write32 (write32 m₁ (bootStart + 8) _) _ heapMagic) _ 1 = m₃ at h hhead hoff
  have hz₃ : ∀ i < indexSize, read32 m₃ (start + 4 * i) = 0 := fun i hi =>
    (read32_congr (hoff.agreeOn (by omega))).trans (hz i hi)
  obtain ⟨hel, hsize, hag, hwords⟩ := orderedAdd_first bootStart (by decide) hz₃
  have harray := orderedAdd_array ⟨start, 0, indexSize⟩ m₃ bootStart
  have hmax := orderedAdd_maxSize ⟨start, 0, indexSize⟩ m₃ bootStart
  generalize orderedAdd ⟨start, 0, indexSize⟩ m₃ bootStart = r at *
  subst h
  have hall : AgreeOn m₃ r.2 bootStart (bootStart + 12) := hag.agreeOn (Or.inl (by decide))
  have hsum : bootStart + bootSize = start + initialSize := by decide
  refine ⟨rfl, rfl, hmax, ⟨⟨⟨hhead.frame hall, by decide, Nat.le_refl _, ?_, ?_, ?_⟩, trivial⟩,
    ?_, hel, ?_, ?_, ?_⟩, ⟨?_, ?_, ?_, ?_⟩⟩
  · exact fun h => by simp at h
  · rintro (h | h)
    · simp at h
    · exact absurd h (by simp only; omega)
  · exact fun _ h => absurd h (by simp only; omega)
  · exact hsum
  · simp only [hsize, hmax]
    decide
  · simp only [harray, hmax]
    decide
  · change start + initialSize < wordSize
    decide
  · simp only [harray, hmax]
    rfl
  · simp only [hmax]
    decide
  · change heapMagic < bootStart
    decide
  · simp only [harray, hmax]
    intro i hi
    rw [hwords i hi]
    split <;> decide

/-- The boot heap on blank memory. -/
theorem exists_init :
    ∃ s, init (fun _ => 0) start (start + initialSize) 0xCFFFF000 false false = some s ∧
      BootLayout s [⟨true, bootSize, bootSize, bootStart⟩] :=
  have hinit := init_eq (fun _ => 0) 0xCFFFF000 false false
  ⟨_, hinit, init_bootLayout hinit⟩

/-- The first hole that is large enough is found. -/
theorem findSmallestHole_first {s : State} {pre post : List Segment} {t : Segment} {need : ℕ}
    (hr : Represents s (pre ++ t :: post)) (ht : t.isHole = true) (hneed : need ≤ t.size)
    (hpre : ∀ u ∈ pre, u.isHole = true → u.size < need) :
    findSmallestHole s need false = some (holes s.heap.startAddress pre).length := by
  cases hfind : findSmallestHole s need false with
  | none =>
    have := findSmallestHole_none hr hfind t (by simp) ht
    omega
  | some i =>
    obtain ⟨pre', t', post', he, ht', hneed', hpre', rfl⟩ := findSmallestHole_some hr hfind
    rcases List.append_eq_append_iff.mp he with ⟨cs, hp, hq⟩ | ⟨cs, hp, hq⟩
    · cases cs with
      | nil => simp [hp]
      | cons c cs =>
        simp only [List.cons_append, List.cons.injEq] at hq
        have := hpre' t (by simp [hp, hq.1]) ht
        omega
    · cases cs with
      | nil => simp [hp]
      | cons c cs =>
        simp only [List.cons_append, List.cons.injEq] at hq
        have := hpre t' (by simp [hp, hq.1]) ht'
        omega

theorem holes_blocks {a : ℕ} {segs : List Segment} (h : ∀ t ∈ segs, t.isHole = false) :
    holes a segs = [] := by
  induction segs generalizing a with
  | nil => rfl
  | cons t segs ih =>
    have ht := h t (by simp)
    simp only [holes, ht, Bool.false_eq_true, ↓reduceIte]
    exact ih fun u hu => h u (by simp [hu])

/-- A request is cut from the last hole if no other hole is there and something of
it is left. -/
theorem allocate_last {s : State} {bs : List Segment} {t : Segment} (size : ℕ)
    (hr : Represents s (bs ++ [t])) (hbs : ∀ u ∈ bs, u.isHole = false) (ht : t.isHole = true)
    (hext : t.extent = t.size) (hroom : size + 40 ≤ t.size) :
    let x := s.heap.startAddress + span bs
    ∃ s', allocate s size false = (x + 12, s') ∧ SameArena s s' ∧
      Represents s' ((bs ++ [⟨false, size + 20, size + 20, x⟩]) ++
        [⟨true, t.size - (size + 20), t.size - (size + 20), x + (size + 20)⟩]) := by
  intro x
  have hfind : findSmallestHole s (size + 20) false = _ := findSmallestHole_first hr ht (by omega)
    fun u hu hole => by simp [hbs u hu] at hole
  obtain ⟨s', hs', hr', ha, -⟩ := allocate_represents hr ht hext (by omega) hfind
  refine ⟨s', hs', ha, ?_⟩
  rw [cut, if_neg (by omega)] at hr'
  simpa using hr'

theorem BootLayout.allocate_last {s : State} {bs : List Segment} {n : ℕ} (size : ℕ)
    (h : BootLayout s (bs ++ [⟨true, n, n, bootStart + span bs⟩]))
    (hbs : ∀ u ∈ bs, u.isHole = false) (hroom : size + 40 ≤ n) :
    let cs := bs ++ [⟨false, size + 20, size + 20, bootStart + span bs⟩]
    ∃ s', allocate s size false = (bootStart + span bs + 12, s') ∧
      BootLayout s' (cs ++ [⟨true, n - (size + 20), n - (size + 20), bootStart + span cs⟩]) ∧
      (∀ u ∈ cs, u.isHole = false) ∧ span cs = span bs + (size + 20) := by
  intro cs
  obtain ⟨s', hs', ha, hr'⟩ := Heap.allocate_last size h.represents hbs rfl rfl hroom
  have hspan : span cs = span bs + (size + 20) := by simp [cs]
  have hblocks : ∀ u ∈ cs, u.isHole = false := by simpa [cs, or_imp, forall_and] using hbs
  rw [h.startAddress] at hs' hr'
  rw [Nat.add_assoc, ← hspan] at hr'
  exact ⟨s', hs', ⟨ha.startAddress.trans h.startAddress, ha.endAddress.trans h.endAddress,
    ha.maxSize.trans h.maxSize, hr', h.clean.transfer ha⟩, hblocks, hspan⟩

theorem BootLayout.free {s : State} (pre : List Segment) (t : Segment) (post : List Segment)
    {pre' post' : List Segment} {t₀ t' : Segment} {listed : Bool} (h : BootLayout s (pre ++ t :: post)) (ht : t.isHole = false)
    (hl : LeftJoin bootStart pre t pre' t₀ listed)
    (hj : RightJoin (bootStart + span pre') t₀ post t' post') (hpost : post ≠ [])
    (hcap : listed = true ∨ post' ≠ post ∨
      (holes bootStart (pre ++ t :: post)).length < indexSize) :
    ∃ s', Heap.free s (bootStart + span pre + 12) = some s' ∧ BootLayout s' (pre' ++ t' :: post') := by
  have hsize := h.represents.index_size
  rw [h.startAddress] at hsize
  rw [← hsize, ← h.maxSize] at hcap
  rw [← h.startAddress] at hl hj ⊢
  obtain ⟨s', hs', hr', ha, -⟩ := free_represents h.clean.guarded h.represents ht hl hj hcap
    fun he => absurd he hpost
  exact ⟨s', hs', ha.startAddress.trans h.startAddress, ha.endAddress.trans h.endAddress,
    ha.maxSize.trans h.maxSize, hr', h.clean.transfer ha⟩

end ExperimentalKernel.Heap
