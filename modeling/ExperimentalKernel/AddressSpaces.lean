import ExperimentalKernel.AddressSpaceIsolation

/-!
# Address spaces beside each other

Directories that have the tables of the kernel in common and nothing else. A byte behind
a private address then has one name in all of them, and a clone of one of them is another
one with these properties.
-/

namespace ExperimentalKernel.Paging
open ByteMemory Function

/-- Beside the kernel's tables every frame that a directory of `ds` maps is its own, and
holds one page. -/
structure AddressSpaces (s : State) (ds : List ℕ) : Prop where
  zeroBusy : busy s.frames 0 = true
  kernel : ∀ d ∈ ds, ∀ i < 1024, (s.directories s.pageDirectory).pageTables i ≠ 0 →
    (s.directories d).pageTables i = (s.directories s.pageDirectory).pageTables i
  isolated : ∀ d ∈ ds, Isolated s d
  apart : ∀ d ∈ ds, ∀ d' ∈ ds, d ≠ d' → FramesApart s d d'
  distinct : ∀ d ∈ ds, ∀ n < 1024 * 1024, ∀ n' < 1024 * 1024, Private s d (n / 1024) →
    Private s d (n' / 1024) → (entry s d n).present = true → (entry s d n').present = true →
    (entry s d n).frame = (entry s d n').frame → n = n'
  mapped : ∀ d ∈ ds, ∀ n < 1024 * 1024, Private s d (n / 1024) → (entry s d n).present = true →
    (entry s d n).frame ≠ 0

variable {s s' : State} {ds : List ℕ} {d d' a a' x : ℕ}

theorem walk_eq_some : walk s d a = some x ↔
    ((s.directories d).pageTables (a / 0x1000 / 1024) ≠ 0 ∧
      (entry s d (a / 0x1000)).present = true) ∧
    (entry s d (a / 0x1000)).frame.toNat * pageSize + a % 0x1000 = x := by
  rw [walk]
  split
  · next h => simp [h]
  · next h => simp [h]

section Walks

/-- A byte behind a private address has no other name. -/
theorem AddressSpaces.walk_unique (h : AddressSpaces s ds) (hd : d ∈ ds) (hd' : d' ∈ ds)
    (ha : a < wordSize) (ha' : a' < wordSize) (hp : Private s d (a / 0x1000 / 1024))
    (hx : walk s d a = some x) (hx' : walk s d' a' = some x) : d' = d ∧ a' = a := by
  unfold wordSize at ha ha'
  obtain ⟨⟨-, hpr⟩, he⟩ := walk_eq_some.mp hx
  obtain ⟨⟨h0', hpr'⟩, he'⟩ := walk_eq_some.mp hx'
  have hframe : (entry s d (a / 0x1000)).frame = (entry s d' (a' / 0x1000)).frame := by
    apply BitVec.eq_of_toNat_eq
    unfold pageSize at he he'
    omega
  have hoffset : a % 0x1000 = a' % 0x1000 := by
    unfold pageSize at he he'
    omega
  by_cases hdd : d = d'
  · subst hdd
    rcases private_or_shared h0' with hp' | hs'
    · have hpage := h.distinct d hd _ (by omega) _ (by omega) hp hp' hpr hpr' hframe
      exact ⟨rfl, by omega⟩
    · exact absurd hframe
        ((h.isolated d hd).unshared _ (by omega) _ (by omega) hp hpr hs' hpr')
  · exact absurd hframe
      (h.apart d hd d' hd' hdd _ (by omega) _ (by omega) hp hpr h0' hpr')

theorem AddressSpaces.entry_eq (h : AddressSpaces s ds) (hd : d ∈ ds) {n : ℕ}
    (hn : n < 1024 * 1024) (h0 : (s.directories s.pageDirectory).pageTables (n / 1024) ≠ 0) :
    entry s d n = entry s s.pageDirectory n := by
  rw [entry, entry, entryAddress, entryAddress, h.kernel d hd (n / 1024) (by omega) h0]

/-- What the kernel's tables map is the same in all directories. -/
theorem AddressSpaces.walk_shown (h : AddressSpaces s ds) (hd : d ∈ ds) (ha : a < wordSize)
    (hx : walk s s.pageDirectory a = some x) : walk s d a = some x := by
  unfold wordSize at ha
  obtain ⟨⟨h0, hpr⟩, he⟩ := walk_eq_some.mp hx
  rw [walk_eq_some, h.entry_eq hd (by omega) h0, h.kernel d hd _ (by omega) h0]
  exact ⟨⟨h0, hpr⟩, he⟩

/-- Everything else lies in a private table. -/
theorem AddressSpaces.walk_private (h : AddressSpaces s ds) (hd : d ∈ ds) (ha : a < wordSize)
    (hk : walk s s.pageDirectory a = none) (hx : walk s d a = some x) :
    Private s d (a / 0x1000 / 1024) := by
  unfold wordSize at ha
  obtain ⟨⟨h0, hpr⟩, he⟩ := walk_eq_some.mp hx
  refine ⟨h0, fun heq => ?_⟩
  rw [heq] at h0
  rw [h.entry_eq hd (by omega) h0] at hpr he
  rw [walk_eq_some.mpr ⟨⟨h0, hpr⟩, he⟩] at hk
  cases hk

/-- The bytes in memory and the directory in use are no part of this. -/
theorem AddressSpaces.update (h : AddressSpaces s ds) (m : Mem) (current : ℕ) :
    AddressSpaces { s with memory := m, currentPageDirectory := current } ds where
  zeroBusy := h.zeroBusy
  kernel := h.kernel
  isolated d hd := ⟨(h.isolated d hd).busy, (h.isolated d hd).unshared⟩
  apart := h.apart
  distinct := h.distinct
  mapped := h.mapped

end Walks

section Cloning

variable {src pDir : ℕ} {ptrs : List ℕ}

/-- The regions `ptrs` are new to the directories `ds`, and so is `pDir`. -/
structure NewTo (s : State) (ds : List ℕ) (pDir : ℕ) (ptrs : List ℕ) : Prop where
  directory : pDir ∉ ds
  tables : ∀ ptr ∈ ptrs, ∀ d ∈ ds, ∀ j < 1024, (s.directories d).pageTables j ≠ 0 →
    Apart ptr ((s.directories d).pageTables j)

theorem NewTo.ne (h : NewTo s ds pDir ptrs) (hd : d ∈ ds) : d ≠ pDir := by
  rintro rfl
  exact h.directory hd

/-- Entries outside the new regions stay. -/
theorem Undisturbed.entry_kept (h : Undisturbed s s' pDir ptrs) (hd : d ≠ pDir) {n : ℕ}
    (ha : ∀ ptr ∈ ptrs, Apart ptr ((s.directories d).pageTables (n / 1024))) :
    entry s' d n = entry s d n := by
  rw [entry, h.entryAddress_eq hd]
  exact h.pages _ fun ptr hptr => (ha ptr hptr).entry_outside n

/-- The clone of a directory in `ds`, in regions that are new to them. -/
structure ClonedInto (s s' : State) (ds : List ℕ) (src pDir : ℕ) (ptrs : List ℕ) : Prop
    extends Cloned s s' src pDir ptrs where
  spaces : AddressSpaces s ds
  mem : src ∈ ds
  newTo : NewTo s ds pDir ptrs
  regions : ∀ j < 1024, Private s src j → (s'.directories pDir).pageTables j ∈ ptrs

variable (h : ClonedInto s s' ds src pDir ptrs)
include h

theorem ClonedInto.entry_others (hd : d ∈ ds) {n : ℕ} (hn : n < 1024 * 1024)
    (h0 : (s.directories d).pageTables (n / 1024) ≠ 0) : entry s' d n = entry s d n :=
  h.undisturbed.entry_kept (h.newTo.ne hd) fun ptr hptr =>
    h.newTo.tables ptr hptr d hd _ (by omega) h0

theorem ClonedInto.private_others (hd : d ∈ ds) {i : ℕ} : Private s' d i ↔ Private s d i :=
  h.undisturbed.private_iff (h.newTo.ne hd) h.toCloned.kernel

theorem ClonedInto.shared_others (hd : d ∈ ds) {i : ℕ} : Shared s' d i ↔ Shared s d i := by
  rw [Shared, Shared, h.undisturbed.pageDirectory, h.undisturbed.tables d (h.newTo.ne hd),
    h.undisturbed.tables _ h.toCloned.kernel]

theorem ClonedInto.kernel_tables :
    (s'.directories s'.pageDirectory).pageTables = (s.directories s.pageDirectory).pageTables := by
  rw [h.undisturbed.pageDirectory, h.undisturbed.tables _ h.toCloned.kernel]

theorem ClonedInto.entry_kernel {n : ℕ} (hn : n < 1024 * 1024)
    (h0 : (s.directories s.pageDirectory).pageTables (n / 1024) ≠ 0) :
    entry s' s'.pageDirectory n = entry s s.pageDirectory n := by
  rw [h.undisturbed.pageDirectory]
  refine h.undisturbed.entry_kept h.toCloned.kernel fun ptr hptr => ?_
  have hsrc := h.spaces.kernel src h.mem (n / 1024) (by omega) h0
  have ha := h.newTo.tables ptr hptr src h.mem (n / 1024) (by omega)
  rw [hsrc] at ha
  exact ha h0

/-- A slot that the kernel has is shared by the source and by the clone. -/
theorem ClonedInto.shared_kernel {i : ℕ} (hi : i < 1024)
    (h0 : (s.directories s.pageDirectory).pageTables i ≠ 0) : Shared s src i := by
  have he := h.spaces.kernel src h.mem i hi h0
  exact ⟨he ▸ h0, he⟩

/-- The frame of a private entry of the clone was free, and is busy. -/
theorem ClonedInto.private_frame {n : ℕ} (hn : n < 1024 * 1024) (hp : Private s src (n / 1024))
    (hpr : (entry s' pDir n).present = true) :
    (entry s src n).frame ≠ 0 ∧ busy s.frames (entry s' pDir n).frame.toNat = false ∧
      busy s'.frames (entry s' pDir n).frame.toNat = true := by
  have hcloned := h.cloned n hn hp
  have hf : (entry s src n).frame ≠ 0 := by
    intro hzero
    rw [entry, hcloned.skipped hzero] at hpr
    cases hpr
  exact ⟨hf, hcloned.free hf, hcloned.taken hf⟩

theorem ClonedInto.shared_busy {n : ℕ} (hn : n < 1024 * 1024) (hs : Shared s src (n / 1024))
    (hpr : (entry s' pDir n).present = true) :
    busy s.frames (entry s' pDir n).frame.toNat = true := by
  rw [h.shared_entry hn hs] at hpr ⊢
  exact (h.spaces.isolated src h.mem).busy n hn hs.1 hpr

omit h in
theorem ne_of_busy {frames : ℕ → BitVec 32} {f f' : BitVec 20} (hb : busy frames f.toNat = true)
    (hf : busy frames f'.toNat = false) : f ≠ f' := by
  rintro rfl
  rw [hb] at hf
  cases hf

theorem ClonedInto.isolated : Isolated s' pDir := by
  constructor
  · intro n hn h0 hpr
    rcases h.copy_cases hn h0 hpr with ⟨hs, -⟩ | ⟨hp, -⟩
    · exact h.undisturbed.grown.bits _ (h.shared_busy hn hs hpr)
    · exact (h.private_frame hn hp hpr).2.2
  · intro n hn n' hn' hp hpr hs hpr'
    have hp₀ := (h.private_iff (by omega)).mp hp
    have hfree := (h.private_frame hn hp₀ hpr).2.1
    rcases h.copy_cases hn' hs.1 hpr' with ⟨hs₀, -⟩ | ⟨hp', -⟩
    · exact (ne_of_busy (h.shared_busy hn' hs₀ hpr') hfree).symm
    · exact absurd hs.2 ((h.private_iff (by omega)).mpr hp').2

/-- A private frame of another directory is none of the clone's. -/
theorem ClonedInto.framesApart_others (hd : d ∈ ds) : FramesApart s' d pDir := by
  intro n hn n' hn' hp hpr h0 hpr'
  have hp₀ := (h.private_others hd).mp hp
  rw [h.entry_others hd hn hp₀.1] at hpr ⊢
  have hbusy := (h.spaces.isolated d hd).busy n hn hp₀.1 hpr
  rcases h.copy_cases hn' h0 hpr' with ⟨hs, he⟩ | ⟨hpn, hfree⟩
  · -- the kernel's table is in `d` as well
    have hk : (s.directories s.pageDirectory).pageTables (n' / 1024) ≠ 0 := hs.2 ▸ hs.1
    have hsd : Shared s d (n' / 1024) := by
      have hkd := h.spaces.kernel d hd (n' / 1024) (by omega) hk
      exact ⟨hkd ▸ hk, hkd⟩
    have hentry : entry s d n' = entry s src n' :=
      (h.spaces.entry_eq hd hn' hk).trans (h.spaces.entry_eq h.mem hn' hk).symm
    rw [he, ← hentry] at hpr' ⊢
    exact (h.spaces.isolated d hd).unshared n hn n' hn' hp₀ hpr hsd hpr'
  · exact ne_of_busy hbusy hfree

theorem ClonedInto.framesApart_clone (hd : d ∈ ds) : FramesApart s' pDir d := by
  intro n hn n' hn' hp hpr h0 hpr'
  have hp₀ := (h.private_iff (by omega)).mp hp
  have hfree := (h.private_frame hn hp₀ hpr).2.1
  rw [h.undisturbed.tables d (h.newTo.ne hd)] at h0
  rw [h.entry_others hd hn' h0] at hpr' ⊢
  exact (ne_of_busy ((h.spaces.isolated d hd).busy n' hn' h0 hpr') hfree).symm

theorem ClonedInto.distinct_clone {n n' : ℕ} (hn : n < 1024 * 1024) (hn' : n' < 1024 * 1024)
    (hp : Private s' pDir (n / 1024)) (hp' : Private s' pDir (n' / 1024))
    (hpr : (entry s' pDir n).present = true) (hpr' : (entry s' pDir n').present = true)
    (he : (entry s' pDir n).frame = (entry s' pDir n').frame) : n = n' := by
  have hp₀ := (h.private_iff (by omega)).mp hp
  have hp₀' := (h.private_iff (by omega)).mp hp'
  have hf := (h.private_frame hn hp₀ hpr).1
  have hf' := (h.private_frame hn' hp₀' hpr').1
  rcases lt_trichotomy n n' with hlt | heq | hlt
  · exact absurd he (h.distinct n n' hlt hn' hp₀ hp₀' hf hf')
  · exact heq
  · exact absurd he.symm (h.distinct n' n hlt hn hp₀' hp₀ hf' hf)

theorem ClonedInto.isolated_others (hd : d ∈ ds) : Isolated s' d := by
  constructor
  · intro n hn h0 hpr
    rw [h.undisturbed.tables d (h.newTo.ne hd)] at h0
    rw [h.entry_others hd hn h0] at hpr ⊢
    exact h.undisturbed.grown.bits _ ((h.spaces.isolated d hd).busy n hn h0 hpr)
  · intro n hn n' hn' hp hpr hs hpr'
    have hp₀ := (h.private_others hd).mp hp
    have hs₀ := (h.shared_others hd).mp hs
    rw [h.entry_others hd hn hp₀.1] at hpr ⊢
    rw [h.entry_others hd hn' hs₀.1] at hpr' ⊢
    exact (h.spaces.isolated d hd).unshared n hn n' hn' hp₀ hpr hs₀ hpr'

/-- The clone joins the directories. -/
theorem ClonedInto.addressSpaces : AddressSpaces s' (ds ++ [pDir]) := by
  have hcases : ∀ d ∈ ds ++ [pDir], d ∈ ds ∨ d = pDir := by simp
  constructor
  · exact h.undisturbed.grown.bits _ h.spaces.zeroBusy
  · intro d hd i hi h0
    rw [h.kernel_tables] at h0 ⊢
    rcases hcases d hd with hd | rfl
    · rw [h.undisturbed.tables d (h.newTo.ne hd)]
      exact h.spaces.kernel d hd i hi h0
    · rw [(h.shared i hi (h.shared_kernel hi h0)).1]
      exact h.spaces.kernel src h.mem i hi h0
  · intro d hd
    rcases hcases d hd with hd | rfl
    · exact h.isolated_others hd
    · exact h.isolated
  · intro d hd d' hd' hne
    rcases hcases d hd with hold | rfl <;> rcases hcases d' hd' with hold' | rfl
    · intro n hn n' hn' hp hpr h0 hpr'
      have hp₀ := (h.private_others hold).mp hp
      rw [h.undisturbed.tables d' (h.newTo.ne hold')] at h0
      rw [h.entry_others hold hn hp₀.1] at hpr ⊢
      rw [h.entry_others hold' hn' h0] at hpr' ⊢
      exact h.spaces.apart d hold d' hold' hne n hn n' hn' hp₀ hpr h0 hpr'
    · exact h.framesApart_others hold
    · exact h.framesApart_clone hold'
    · exact absurd rfl hne
  · intro d hd n hn n' hn' hp hp' hpr hpr' he
    rcases hcases d hd with hd | rfl
    · have hp₀ := (h.private_others hd).mp hp
      have hp₀' := (h.private_others hd).mp hp'
      rw [h.entry_others hd hn hp₀.1] at hpr he
      rw [h.entry_others hd hn' hp₀'.1] at hpr' he
      exact h.spaces.distinct d hd n hn n' hn' hp₀ hp₀' hpr hpr' he
    · exact h.distinct_clone hn hn' hp hp' hpr hpr' he
  · intro d hd n hn hp hpr
    rcases hcases d hd with hd | rfl
    · have hp₀ := (h.private_others hd).mp hp
      rw [h.entry_others hd hn hp₀.1] at hpr ⊢
      exact h.spaces.mapped d hd n hn hp₀ hpr
    · have hfree := (h.private_frame hn ((h.private_iff (by omega)).mp hp) hpr).2.1
      have hzero : busy s.frames (0#20).toNat = true := h.spaces.zeroBusy
      exact (ne_of_busy hzero hfree).symm

/-- The kernel's window stays where it is. -/
theorem ClonedInto.walk_kernel (ha : a < wordSize) :
    walk s' s'.pageDirectory a = walk s s.pageDirectory a := by
  unfold wordSize at ha
  rw [walk, walk, h.kernel_tables]
  by_cases h0 : (s.directories s.pageDirectory).pageTables (a / 0x1000 / 1024) = 0
  · simp [h0]
  · rw [h.entry_kernel (by omega) h0]

/-- The other directories load what they loaded. -/
theorem ClonedInto.load_others (hd : d ∈ ds) (ha : a < wordSize) :
    loadByte s' d a = loadByte s d a := by
  have hwalk : walk s' d a = walk s d a := by
    unfold wordSize at ha
    rw [walk, walk, h.undisturbed.tables d (h.newTo.ne hd)]
    by_cases h0 : (s.directories d).pageTables (a / 0x1000 / 1024) = 0
    · simp [h0]
    · rw [h.entry_others hd (by omega) h0]
  rw [loadByte, loadByte, hwalk]
  cases hx : walk s d a with
  | none => rfl
  | some x =>
    unfold wordSize at ha
    obtain ⟨⟨h0, hpr⟩, rfl⟩ := walk_eq_some.mp hx
    have hlt : a % 0x1000 < pageSize := Nat.mod_lt _ (by decide)
    refine congrArg some (h.undisturbed.grown.memory _ (.inl ?_))
    rw [frame_offset_div _ hlt]
    exact (h.spaces.isolated d hd).busy _ (by omega) h0 hpr

/-- The clone loads what the source loads. -/
theorem ClonedInto.load_clone (ha : a < wordSize) : loadByte s' pDir a = loadByte s src a := by
  have hsrc := h.spaces.isolated src h.mem
  by_cases h0 : (s.directories src).pageTables (a / 0x1000 / 1024) = 0
  · rw [loadByte, loadByte, walk, walk, if_neg fun hw => hw.1 (h.null _ h0), if_neg fun hw => hw.1 h0]
    rfl
  rcases private_or_shared h0 with hp | hs
  · by_cases hf : (entry s src (a / 0x1000)).frame = 0
    · have hn : a / 0x1000 < 1024 * 1024 := by
        unfold wordSize at ha
        omega
      have habsent : ¬ (entry s src (a / 0x1000)).present = true :=
        fun hpr => h.spaces.mapped src h.mem _ hn hp hpr hf
      have habsent' : ¬ (entry s' pDir (a / 0x1000)).present = true := by
        rw [entry, (h.cloned _ hn hp).skipped hf]
        exact Bool.false_ne_true
      rw [loadByte, loadByte, walk, walk, if_neg fun hw => habsent' hw.2,
        if_neg fun hw => habsent hw.2]
      rfl
    · exact h.private_byte hsrc ha hp hf
  · rw [← h.source_byte hsrc ha, loadByte, loadByte, h.shared_walk ha hs, h.source_walk ha]

theorem ClonedInto.framesNeeded_others (hd : d ∈ ds) :
    framesNeeded s' d 0 1024 = framesNeeded s d 0 1024 :=
  h.undisturbed.framesNeeded_eq (h.newTo.ne hd) h.toCloned.kernel le_rfl
    fun ptr hptr => h.newTo.tables ptr hptr d hd

/-- The clone has a frame where the source has one. -/
theorem ClonedInto.frame_iff {n : ℕ} (hn : n < 1024 * 1024) (hp : Private s src (n / 1024)) :
    (entry s' pDir n).frame ≠ 0 ↔ (entry s src n).frame ≠ 0 := by
  have hcloned := h.cloned n hn hp
  constructor
  · intro hf hzero
    exact hf (congrArg Page.frame (hcloned.skipped hzero))
  · intro hf
    have hzero : busy s.frames (0#20).toNat = true := h.spaces.zeroBusy
    exact (ne_of_busy hzero (hcloned.free hf)).symm

theorem ClonedInto.framesNeeded_clone :
    framesNeeded s' pDir 0 1024 = framesNeeded s src 0 1024 := by
  unfold framesNeeded
  congr 1
  apply List.map_congr_left
  intro i hi
  have hlt : i < 1024 := by
    have := (List.mem_range'_1.mp hi).2
    omega
  by_cases hp : Private s src i
  · rw [if_pos hp, if_pos ((h.private_iff hlt).mpr hp)]
    apply List.countP_congr
    intro j hj
    have hj := (List.mem_range'_1.mp hj).2
    have hiff := h.frame_iff (n := 1024 * i + j) (by omega)
    have hslot : (1024 * i + j) / 1024 = i := by omega
    have hmod : (1024 * i + j) % 1024 = j := by omega
    rw [entry, entry, entryAddress, entryAddress, hslot, hmod] at hiff
    rw [decide_eq_true_eq, decide_eq_true_eq]
    exact hiff hp
  · rw [if_neg hp, if_neg (mt (h.private_iff hlt).mp hp)]

end Cloning

section PhysicalAddresses

variable {src pDir i k phys ptr : ℕ} {ptrs rest : List ℕ}

theorem setDirectory_physicalAddress {e : PageDirectory} {x : ℕ}
    (h : e.physicalAddress = (s.directories x).physicalAddress) :
    ((s.setDirectory x e).directories d).physicalAddress = (s.directories d).physicalAddress := by
  by_cases hd : d = x
  · rw [hd, State.setDirectory_same, h]
  · rw [State.setDirectory_of_ne s e hd]

theorem setTable_physicalAddress (s : State) (x i table phys : ℕ) :
    ((s.setTable x i table phys).directories d).physicalAddress =
      (s.directories d).physicalAddress :=
  setDirectory_physicalAddress rfl

theorem clonePageTable_directories (s : State) (src pTbl : ℕ) :
    (clonePageTable s src pTbl).directories = s.directories := by
  obtain ⟨f, p, m, he⟩ := (clonePageTable_entriesOnly s src pTbl).same
  rw [he]

theorem kmalloc_physicalAddress (h : kmalloc s ptr = some (phys, s')) :
    (s'.directories d).physicalAddress = (s.directories d).physicalAddress := by
  unfold kmalloc at h
  split at h
  · simp only [findPage, Option.map_eq_some_iff, Prod.mk.injEq] at h
    obtain ⟨⟨page, s₁⟩, hfind, -, rfl⟩ := h
    split at hfind
    · obtain ⟨-, rfl⟩ := Prod.mk.inj (Option.some.inj hfind)
      exact setDirectory_physicalAddress rfl
    · cases hfind
  · obtain ⟨-, rfl⟩ := Prod.mk.inj (Option.some.inj h)
    rfl

theorem cloneSlot_physicalAddress (h : cloneSlot s src pDir i ptrs = some (s', rest)) :
    (s'.directories d).physicalAddress = (s.directories d).physicalAddress := by
  by_cases h0 : (s.directories src).pageTables i = 0
  · rw [cloneSlot_null h0] at h
    obtain ⟨rfl, -⟩ := Prod.mk.inj (Option.some.inj h)
    rfl
  rcases private_or_shared h0 with hp | hs
  · cases ptrs with
    | nil =>
      rw [cloneSlot_nil hp] at h
      cases h
    | cons ptr ptrs =>
      rw [cloneSlot_eq hp] at h
      obtain ⟨⟨phys, s₂⟩, hkmalloc, heq⟩ := Option.map_eq_some_iff.mp h
      obtain ⟨rfl, -⟩ := Prod.mk.inj heq
      rw [setTable_physicalAddress, clonePageTable_directories]
      exact (kmalloc_physicalAddress hkmalloc).trans (setDirectory_physicalAddress rfl)
  · rw [cloneSlot_shared hs] at h
    obtain ⟨rfl, -⟩ := Prod.mk.inj (Option.some.inj h)
    exact setDirectory_physicalAddress rfl

/-- No slot changes where a directory lies. -/
theorem cloneSlots_physicalAddress (h : cloneSlots s src pDir i ptrs k = some (s', rest)) :
    (s'.directories d).physicalAddress = (s.directories d).physicalAddress := by
  induction k generalizing s i ptrs with
  | zero =>
    obtain ⟨rfl, -⟩ := Prod.mk.inj (Option.some.inj h)
    rfl
  | succ k ih =>
    obtain ⟨⟨s₁, ptrs₁⟩, hslot, hrest⟩ := Option.bind_eq_some_iff.mp h
    exact (ih hrest).trans (cloneSlot_physicalAddress hslot)

end PhysicalAddresses

/-- The call of `fork`: it clones the directory in use. -/
theorem clonePageDirectory_clonedInto {pDir : ℕ} {ptrs : List ℕ} (hs : AddressSpaces s ds)
    (hmem : s.currentPageDirectory ∈ ds) (hm : Mapped s pDir)
    (hr : Ready s s.currentPageDirectory pDir 0 1024 ptrs) (hn : NewTo s ds pDir ptrs) :
    ∃ s', clonePageDirectory s s.currentPageDirectory (pDir :: ptrs) = some s' ∧
      ClonedInto s s' ds s.currentPageDirectory pDir ptrs ∧
      freeFrames s' + framesNeeded s s.currentPageDirectory 0 1024 = freeFrames s ∧
      (∀ d, d ≠ pDir → (s'.directories d).physicalAddress = (s.directories d).physicalAddress) ∧
      (kmalloc s pDir).map Prod.fst = some (s'.directories pDir).physicalAddress := by
  have hsrc : orCurrent s s.currentPageDirectory = s.currentPageDirectory := by
    unfold orCurrent
    split <;> rfl
  obtain ⟨phys, s₁, hkmalloc, hu₁, -, hframes, -⟩ := kmalloc_spec [] hm hr.current
  have hu : Undisturbed s
      (s₁.setDirectory pDir { PageDirectory.zero with physicalAddress := phys }) pDir [] :=
    hu₁.trans (undisturbed_setDirectory _)
  have hfree : freeFrames (s₁.setDirectory pDir { PageDirectory.zero with physicalAddress := phys }) =
      freeFrames s := freeFrames_congr hu.grown.frameNumber hframes
  have hr₂ := hr.of_undisturbed [] hu (by omega) (hfree ▸ hr.frames) hr.tables
  obtain ⟨s', used, rest, rfl, hloop, hdone⟩ := cloneSlots_spec 1024 le_rfl hr₂
  have hcloned : Cloned s s' s.currentPageDirectory pDir used := by
    refine Cloned.of_slotsDone hr hu (fun j => ?_) hdone
    rw [State.setDirectory_same]
    rfl
  have hsub : used ⊆ used ++ rest := List.subset_append_left used rest
  refine ⟨s', ?_, ⟨{ hcloned with
    undisturbed := hcloned.undisturbed.mono hsub
    apart := hr.apartSource }, hs, hmem, hn, fun j hj hp => ?_⟩, ?_, fun d hd => ?_, ?_⟩
  · rw [clonePageDirectory_eq hkmalloc, hsrc, hloop, Option.map_some]
  · have hp₂ := (hu.private_iff hr.source hr.kernel).mpr hp
    exact hsub (hdone.fresh j (Nat.zero_le j) (by omega) hp₂)
  · have hused := hdone.used
    rw [hu.framesNeeded_eq hr.source hr.kernel (by omega) (fun ptr hptr => by cases hptr)] at hused
    rw [hused, hfree]
  · rw [cloneSlots_physicalAddress hloop, State.setDirectory_of_ne _ _ hd]
    exact kmalloc_physicalAddress hkmalloc
  · rw [hkmalloc, cloneSlots_physicalAddress hloop, State.setDirectory_same]
    rfl

end ExperimentalKernel.Paging
