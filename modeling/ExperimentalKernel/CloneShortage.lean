import Mathlib.Algebra.Order.BigOperators.Group.List
import ExperimentalKernel.BitmapOverrun
import ExperimentalKernel.AddressSpaceIsolation
import ExperimentalKernel.BootExhaustion

/-!
# Cloning without enough frames

A directory is cloned table by table, and the requests of its tables follow each other.
Nothing looks at whether a request is answered: the copy of an entry that gets no frame
goes to frame 0. A request that is answered from behind the bitmap has set a bit in memory
that is something else.
-/

namespace ExperimentalKernel.Paging
open ByteMemory Function

section Writes

/-- The frames that `allocFrame` stores into behind the bitmap: of the four bytes of
`frames_[index / 32]`. Kernel memory is mapped where it is. -/
def Bitmap.allocWrites (b : Bitmap) (s : State) (page : ℕ) : List ℕ :=
  if (s.pages page).frame = 0 then
    match b.getFreeFrame s with
    | none => []
    | some index =>
      if index / 32 < s.frameNumber / 32 then []
      else (List.range 4).map fun j => (b.address + 4 * (index / 32) + j) / pageSize
  else []

/-- The frames that a turn of the loop of `clonePageTable` writes: these, and the one it
copies the page into. -/
def Bitmap.entryWrites (b : Bitmap) (s : State) (src pTbl i : ℕ) : List ℕ :=
  if (s.pages (src + 4 * i)).frame = 0 then []
  else b.allocWrites s (pTbl + 4 * i) ++
    [((b.allocUser s (pTbl + 4 * i)).pages (pTbl + 4 * i)).frame.toNat]

def Bitmap.entriesWrites (b : Bitmap) (s : State) (src pTbl i : ℕ) : ℕ → List ℕ
  | 0 => []
  | k + 1 => b.entryWrites s src pTbl i ++
    b.entriesWrites (cloneEntryWith b.allocUser s src pTbl i) src pTbl (i + 1) k

def Bitmap.tableWrites (b : Bitmap) (s : State) (src pTbl : ℕ) : List ℕ :=
  b.entriesWrites (s.clearTable pTbl) src pTbl 0 1024

/-- Those of a turn of the loop of `clonePageDirectory`. -/
def Bitmap.slotWrites (b : Bitmap) (s : State) (src i : ℕ) (ptrs : List ℕ) : List ℕ :=
  if Private s src i then
    match ptrs with
    | [] => []
    | ptr :: _ =>
      match kmalloc (s.setDirectory src ((s.directories src).orPresent i)) ptr with
      | none => []
      | some (_, s₁) => b.tableWrites s₁ ((s.directories src).pageTables i) ptr
  else []

def Bitmap.slotsWrites (b : Bitmap) (s : State) (src pDir i : ℕ) (ptrs : List ℕ) : ℕ → List ℕ
  | 0 => []
  | k + 1 => b.slotWrites s src i ptrs ++
    match cloneSlotWith b.allocUser s src pDir i ptrs with
    | none => []
    | some (s₁, ptrs₁) => b.slotsWrites s₁ src pDir (i + 1) ptrs₁ k

def Bitmap.directoryWrites (b : Bitmap) (s : State) (src : ℕ) (ptrs : List ℕ) : List ℕ :=
  match ptrs with
  | [] => []
  | pDir :: ptrs =>
    match kmalloc s pDir with
    | none => []
    | some (phys, s₁) =>
      b.slotsWrites (s₁.setDirectory pDir { PageDirectory.zero with physicalAddress := phys })
        (orCurrent s src) pDir 0 ptrs 1024

end Writes

section Memory

variable {s s' : State} {b : Bitmap} {src pDir pTbl i ptr phys x : ℕ} {ptrs rest : List ℕ}

theorem Bitmap.setObjectWord_memory (s : State) (x : ℕ) (w : BitVec 32) :
    (b.setObjectWord s x w).memory = s.memory := by
  unfold Bitmap.setObjectWord
  split <;> rfl

theorem Bitmap.allocUser_memory (s : State) (page : ℕ) : (b.allocUser s page).memory = s.memory := by
  have hset : ∀ index, (b.set s index).memory = s.memory := by
    intro index
    unfold Bitmap.set
    split
    · rfl
    · exact Bitmap.setObjectWord_memory s _ _
  unfold Bitmap.allocUser Bitmap.allocFrame
  split
  · split
    · rfl
    · exact hset _
  · rfl

theorem Bitmap.cloneEntry_memory (h : x / pageSize ∉ b.entryWrites s src pTbl i) :
    (cloneEntryWith b.allocUser s src pTbl i).memory x = s.memory x := by
  by_cases h0 : (s.pages (src + 4 * i)).frame = 0
  · rw [cloneEntryWith, if_pos h0]
  · rw [Bitmap.entryWrites, if_neg h0, List.mem_append, not_or, List.mem_singleton] at h
    rw [cloneEntryWith, if_neg h0]
    dsimp only
    rw [copyPagePhysical_of_ne _ _ h.2, Bitmap.allocUser_memory]

/-- Memory changes in these frames only. -/
theorem Bitmap.cloneEntries_memory (k : ℕ) (h : x / pageSize ∉ b.entriesWrites s src pTbl i k) :
    (cloneEntriesWith b.allocUser s src pTbl i k).memory x = s.memory x := by
  induction k generalizing s i with
  | zero => rfl
  | succ k ih =>
    rw [Bitmap.entriesWrites, List.mem_append, not_or] at h
    rw [cloneEntriesWith, ih h.2, Bitmap.cloneEntry_memory h.1]

theorem Bitmap.clonePageTable_memory (h : x / pageSize ∉ b.tableWrites s src pTbl) :
    (b.clonePageTable s src pTbl).memory x = s.memory x := by
  rw [Bitmap.clonePageTable, clonePageTableWith, Bitmap.cloneEntries_memory 1024 h, State.clearTable]

theorem kmalloc_memory (h : kmalloc s ptr = some (phys, s')) : s'.memory = s.memory := by
  rcases kmalloc_cases h with rfl | ⟨-, rfl⟩ <;> rfl

theorem Bitmap.cloneSlot_memory
    (h : cloneSlotWith b.allocUser s src pDir i ptrs = some (s', rest))
    (hx : x / pageSize ∉ b.slotWrites s src i ptrs) : s'.memory x = s.memory x := by
  by_cases hp : Private s src i
  · cases ptrs with
    | nil =>
      rw [cloneSlotWith, if_neg hp.1, if_neg hp.2] at h
      cases h
    | cons ptr ptrs =>
      rw [Bitmap.cloneSlot_private hp] at h
      obtain ⟨⟨phys, s₁⟩, hk, heq⟩ := Option.map_eq_some_iff.mp h
      simp only [Bitmap.slotWrites, if_pos hp, hk] at hx
      have htable := Bitmap.clonePageTable_memory hx
      have hkmalloc := kmalloc_memory hk
      obtain ⟨s₂, hs₂⟩ : ∃ s₂, b.clonePageTable s₁ ((s.directories src).pageTables i) ptr = s₂ :=
        ⟨_, rfl⟩
      rw [hs₂] at htable
      dsimp only at heq
      rw [hs₂] at heq
      obtain ⟨rfl, -⟩ := Prod.mk.inj heq
      exact htable.trans (congrFun hkmalloc x)
  · rw [Bitmap.cloneSlot_eq hp] at h
    by_cases h0 : (s.directories src).pageTables i = 0
    · rw [cloneSlot_null h0] at h
      cases h
      rfl
    · rw [cloneSlot_shared ⟨h0, by by_contra hne; exact hp ⟨h0, hne⟩⟩] at h
      cases h
      rfl

theorem Bitmap.cloneSlots_memory (k : ℕ)
    (h : cloneSlotsWith b.allocUser s src pDir i ptrs k = some (s', rest))
    (hx : x / pageSize ∉ b.slotsWrites s src pDir i ptrs k) : s'.memory x = s.memory x := by
  induction k generalizing s i ptrs with
  | zero =>
    cases h
    rfl
  | succ k ih =>
    obtain ⟨⟨s₁, ptrs₁⟩, hslot, hrest⟩ := Option.bind_eq_some_iff.mp h
    rw [Bitmap.slotsWrites, hslot, List.mem_append, not_or] at hx
    rw [ih hrest hx.2, Bitmap.cloneSlot_memory hslot hx.1]

theorem Bitmap.clonePageDirectory_memory (h : b.clonePageDirectory s src ptrs = some s')
    (hx : x / pageSize ∉ b.directoryWrites s src ptrs) : s'.memory x = s.memory x := by
  cases ptrs with
  | nil => cases h
  | cons pDir ptrs =>
    obtain ⟨⟨phys, s₁⟩, hk, hrest⟩ := Option.bind_eq_some_iff.mp h
    obtain ⟨⟨s₂, ptrs₂⟩, hslots, rfl⟩ := Option.map_eq_some_iff.mp hrest
    simp only [Bitmap.directoryWrites, hk] at hx
    exact (Bitmap.cloneSlots_memory 1024 hslots hx).trans (congrFun (kmalloc_memory hk) x)

end Memory

section Shortage

variable {s s' : State} {b : Bitmap} {src pDir pTbl i k : ℕ} {ptrs used rest : List ℕ}

/-- Frame 0, or one of the words behind the bitmap that the search goes through. -/
def Bitmap.Spoiled (b : Bitmap) (s : State) (f : ℕ) : Prop :=
  f = 0 ∨ ∃ x, b.address + 4 * (s.frameNumber / 32) ≤ x ∧ x < b.address + 4 * s.frameNumber ∧
    f = x / pageSize

def Bitmap.Spoils (b : Bitmap) (s : State) (written : List ℕ) : Prop := ∃ f ∈ written, b.Spoiled s f

theorem Bitmap.Spoils.of_number {written written' : List ℕ} (h : b.Spoils s' written)
    (hn : s'.frameNumber = s.frameNumber) (hsub : written ⊆ written') : b.Spoils s written' := by
  obtain ⟨f, hf, hspoiled⟩ := h
  refine ⟨f, hsub hf, ?_⟩
  unfold Bitmap.Spoiled at hspoiled ⊢
  rwa [← hn]

theorem clearBits_eq_zero_iff {frames : ℕ → BitVec 32} {m : ℕ} :
    clearBits frames m = 0 ↔ ∀ b < m, busy frames b = true := by
  rw [clearBits, Finset.card_eq_zero, Finset.filter_eq_empty_iff]
  simp only [Finset.mem_range, Bool.not_eq_false]

/-- The first request that finds no clear bit in the bitmap. -/
theorem Bitmap.entry_spoils (h0 : (s.pages (src + 4 * i)).frame ≠ 0)
    (hempty : s.pages (pTbl + 4 * i) = Page.zero) (hnone : freeFrames s = 0) :
    b.Spoils s (b.entryWrites s src pTbl i) := by
  have hzero : (s.pages (pTbl + 4 * i)).frame = 0 := by rw [hempty]; rfl
  rw [Bitmap.entryWrites, if_neg h0]
  cases hfind : b.getFreeFrame s with
  | none =>
    have halloc : b.allocUser s (pTbl + 4 * i) = s := by
      simp only [Bitmap.allocUser, Bitmap.allocFrame, hzero, ↓reduceIte, hfind]
    refine ⟨0, List.mem_append_right _ (List.mem_singleton.mpr ?_), .inl rfl⟩
    rw [halloc, hzero]
    rfl
  | some n =>
    obtain ⟨hn, hfree, -⟩ := freeFrameFrom_some hfind
    have hbehind : ¬ n / 32 < s.frameNumber / 32 := by
      intro hlt
      rw [Bitmap.busy_word hlt, clearBits_eq_zero_iff.mp hnone n (by omega)] at hfree
      cases hfree
    refine ⟨(b.address + 4 * (n / 32) + 0) / pageSize, List.mem_append_left _ ?_,
      .inr ⟨b.address + 4 * (n / 32), by omega, by omega, rfl⟩⟩
    simp only [Bitmap.allocWrites, hzero, ↓reduceIte, hfind, if_neg hbehind]
    exact List.mem_map_of_mem (List.mem_range.mpr (by decide))

/-- A table with more pages than there are frames. -/
theorem Bitmap.entries_spoil (k : ℕ) (h32 : WholeWords s) (h : TurnsLeft s src pTbl i k)
    (hshort : freeFrames s < tableFrames s src i k) : b.Spoils s (b.entriesWrites s src pTbl i k) := by
  induction k generalizing s i with
  | zero => exact absurd hshort (Nat.not_lt_zero _)
  | succ k ih =>
    rw [tableFrames_succ] at hshort
    by_cases hfree : (s.pages (src + 4 * i)).frame ≠ 0 → 0 < freeFrames s
    · have hturn := h.taken hfree
      have hframes := hturn.frames
      have hneeded := hturn.needed
      have hwhole : WholeWords (cloneEntry s src pTbl i) := by
        rw [WholeWords, hturn.frameNumber]
        exact h32
      have hrest := ih hwhole hturn.left (by omega)
      rw [Bitmap.entriesWrites, Bitmap.cloneEntry_eq h32 hfree]
      exact hrest.of_number hturn.frameNumber (List.subset_append_right _ _)
    · obtain ⟨h0, hnone⟩ := Classical.not_imp.mp hfree
      have hfirst := Bitmap.entry_spoils (b := b) h0 (h.empty i le_rfl (by omega)) (by omega)
      exact hfirst.of_number rfl (List.subset_append_left _ _)

theorem Bitmap.table_spoils (h32 : WholeWords s) (hnum : s.frameNumber ≤ 2 ^ 20)
    (ha : Apart pTbl src) (hshort : freeFrames s < tableFrames s src 0 1024) :
    b.Spoils s (b.tableWrites s src pTbl) := by
  have hneeded := tableFrames_clearTable s ha
  have hfree : freeFrames (s.clearTable pTbl) = freeFrames s := freeFrames_congr rfl rfl
  have hdone : b.Spoils (s.clearTable pTbl) (b.tableWrites s src pTbl) :=
    Bitmap.entries_spoil 1024 h32 (TurnsLeft.cleared hnum ha) (by omega)
  exact hdone.of_number rfl (List.Subset.refl _)

/-- The heap hands out `ptrs`, mapped and outside what is cloned. -/
structure Provided (s : State) (src pDir i k : ℕ) (ptrs : List ℕ) : Prop where
  source : src ≠ pDir
  kernel : s.pageDirectory ≠ pDir
  current : s.currentPageDirectory ≠ pDir
  mapped : ∀ ptr ∈ ptrs, Mapped s ptr
  apartSource : ∀ ptr ∈ ptrs, ∀ j < 1024, (s.directories src).pageTables j ≠ 0 →
    Apart ptr ((s.directories src).pageTables j)
  tables : tablesNeeded s src i k ≤ ptrs.length

theorem Provided.of_undisturbed {i' k' : ℕ} (hr : Provided s src pDir i k (used ++ rest))
    (hu : Undisturbed s s' pDir used) (htables : tablesNeeded s src i' k' ≤ rest.length) :
    Provided s' src pDir i' k' rest := by
  have hmem : ∀ ptr ∈ rest, ptr ∈ used ++ rest := fun ptr hptr => List.mem_append_right _ hptr
  refine ⟨hr.source, hu.pageDirectory ▸ hr.kernel, hu.current ▸ hr.current, fun ptr hptr => ?_,
    fun ptr hptr j hj h0 => ?_, ?_⟩
  · exact hu.mapped hr.current (hr.mapped ptr (hmem ptr hptr))
  · rw [hu.tables src hr.source] at h0 ⊢
    exact hr.apartSource ptr (hmem ptr hptr) j hj h0
  · rwa [hu.tablesNeeded_eq hr.source hr.kernel]

/-- A slot whose pages get frames. -/
theorem Provided.slot_cloned (hr : Provided s src pDir i (k + 1) ptrs) (hi : i < 1024)
    (hnum : s.frameNumber = 0x1000) (hfree : framesNeeded s src i 1 ≤ freeFrames s) :
    ∃ s' used rest, ptrs = used ++ rest ∧
      cloneSlotWith b.allocUser s src pDir i ptrs = some (s', rest) ∧ Undisturbed s s' pDir used ∧
      freeFrames s' + framesNeeded s src i 1 = freeFrames s ∧
      used.length = tablesNeeded s src i 1 := by
  by_cases hp : Private s src i
  · have htables := hr.tables
    rw [tablesNeeded_succ, tablesNeeded_one, if_pos hp] at htables
    cases ptrs with
    | nil => simp at htables
    | cons ptr rest =>
      have hmem : ptr ∈ ptr :: rest := List.mem_cons_self
      have hready : SlotReady s src pDir i ptr :=
        ⟨by rw [hnum]; decide, hr.source, hr.current, hr.mapped ptr hmem,
          hr.apartSource ptr hmem i hi hp.1⟩
      obtain ⟨s₁, -, hrun, hu, hused⟩ :=
        hready.cloned (b := b) (by rw [WholeWords, hnum]) hp hfree rest
      exact ⟨s₁, [ptr], rest, rfl, hrun, hu, hused, by rw [tablesNeeded_one, if_pos hp]; rfl⟩
  · obtain ⟨s₁, hplain, hdone⟩ := @cloneSlot_not_private s src pDir i ptrs hp
    exact ⟨s₁, [], ptrs, rfl, (Bitmap.cloneSlot_eq hp ptrs).trans hplain, hdone.undisturbed, hdone.used,
      hdone.taken⟩

/-- A slot whose table has more pages than there are frames. -/
theorem Provided.slot_spoils (hr : Provided s src pDir i (k + 1) ptrs) (hi : i < 1024)
    (hnum : s.frameNumber = 0x1000) (hshort : freeFrames s < framesNeeded s src i 1) :
    b.Spoils s (b.slotWrites s src i ptrs) := by
  have hp : Private s src i := by
    by_contra hp
    rw [framesNeeded_one, if_neg hp] at hshort
    omega
  have htables := hr.tables
  rw [tablesNeeded_succ, tablesNeeded_one, if_pos hp] at htables
  rw [framesNeeded_one, if_pos hp] at hshort
  cases ptrs with
  | nil => simp at htables
  | cons ptr rest =>
    have hmem : ptr ∈ ptr :: rest := List.mem_cons_self
    obtain ⟨phys, s₂, hkmalloc, hu₂, hframes₂, hpages, -, -⟩ :=
      cloneSlot_allocated rest hr.source hr.current (hr.mapped ptr hmem) hp
    have hnumber := hu₂.grown.frameNumber
    have hfree₂ : freeFrames s₂ = freeFrames s := freeFrames_congr hnumber hframes₂
    have hcount : tableFrames s₂ ((s.directories src).pageTables i) 0 1024 =
        tableFrames s ((s.directories src).pageTables i) 0 1024 := tableFrames_congr fun j _ _ => hpages _
    have htable := Bitmap.table_spoils (b := b) (by rw [WholeWords, hnumber, hnum])
      (by rw [hnumber, hnum]; decide) (hr.apartSource ptr hmem i hi hp.1) (by omega)
    refine htable.of_number hnumber ?_
    simp only [Bitmap.slotWrites, if_pos hp, hkmalloc]
    exact List.Subset.refl _

/-- Slots with more pages than there are frames. -/
theorem Provided.slots_spoil (k : ℕ) (hr : Provided s src pDir i k ptrs) (hik : i + k ≤ 1024)
    (hnum : s.frameNumber = 0x1000) (hshort : freeFrames s < framesNeeded s src i k) :
    b.Spoils s (b.slotsWrites s src pDir i ptrs k) := by
  induction k generalizing s i ptrs with
  | zero => exact absurd hshort (Nat.not_lt_zero _)
  | succ k ih =>
    by_cases hfree : framesNeeded s src i 1 ≤ freeFrames s
    · obtain ⟨s₁, used, rest, rfl, hslot, hu, hused, htaken⟩ :=
        hr.slot_cloned (b := b) (by omega) hnum hfree
      have hnumber := hu.grown.frameNumber
      have htables := hr.tables
      have hneed : framesNeeded s₁ src (i + 1) k = framesNeeded s src (i + 1) k :=
        hu.framesNeeded_eq hr.source hr.kernel (by omega) fun ptr hptr =>
          hr.apartSource ptr (List.mem_append_left _ hptr)
      rw [tablesNeeded_succ, List.length_append] at htables
      rw [framesNeeded_succ] at hshort
      have hlater : Provided s₁ src pDir (i + 1) k rest := hr.of_undisturbed hu (by omega)
      have hrest := ih hlater (by omega) (hnumber.trans hnum) (by omega)
      rw [Bitmap.slotsWrites, hslot]
      exact hrest.of_number hnumber (List.subset_append_right _ _)
    · have hfirst := hr.slot_spoils (b := b) (by omega) hnum (Nat.not_le.mp hfree)
      exact hfirst.of_number rfl (List.subset_append_left _ _)

theorem Bitmap.directory_spoils (hm : Mapped s pDir)
    (hr : Provided s (orCurrent s src) pDir 0 1024 ptrs) (hnum : s.frameNumber = 0x1000)
    (hshort : freeFrames s < framesNeeded s (orCurrent s src) 0 1024) :
    b.Spoils s (b.directoryWrites s src (pDir :: ptrs)) := by
  obtain ⟨phys, s₁, hkmalloc, hu₁, -, hframes, -⟩ := kmalloc_spec [] hm hr.current
  have hu : Undisturbed s
      (s₁.setDirectory pDir { PageDirectory.zero with physicalAddress := phys }) pDir [] :=
    hu₁.trans (undisturbed_setDirectory _)
  have hwrites : b.directoryWrites s src (pDir :: ptrs) = b.slotsWrites
      (s₁.setDirectory pDir { PageDirectory.zero with physicalAddress := phys })
      (orCurrent s src) pDir 0 ptrs 1024 := by
    simp only [Bitmap.directoryWrites, hkmalloc]
  have hbits : (s₁.setDirectory pDir { PageDirectory.zero with physicalAddress := phys }).frames =
      s.frames := hframes
  obtain ⟨s₂, hs₂⟩ : ∃ s₂, s₁.setDirectory pDir
    { PageDirectory.zero with physicalAddress := phys } = s₂ := ⟨_, rfl⟩
  rw [hs₂] at hu hwrites hbits
  have hnumber := hu.grown.frameNumber
  have hfree : freeFrames s₂ = freeFrames s := freeFrames_congr hnumber hbits
  have hneed : framesNeeded s₂ (orCurrent s src) 0 1024 = framesNeeded s (orCurrent s src) 0 1024 :=
    hu.framesNeeded_eq hr.source hr.kernel le_rfl fun ptr hptr => by cases hptr
  have hr₀ : Provided s (orCurrent s src) pDir 0 1024 ([] ++ ptrs) := hr
  have hr₂ : Provided s₂ (orCurrent s src) pDir 0 1024 ptrs := hr₀.of_undisturbed hu hr.tables
  rw [hwrites]
  exact (hr₂.slots_spoil 1024 le_rfl (hnumber.trans hnum) (by omega)).of_number hnumber
    (List.Subset.refl _)

end Shortage

section Damage

variable {ι : Type} {s : State} {b : Bitmap}

/-- The copy has a frame that was free and that no other copy has. -/
structure OwnFrame (s : State) (clone : ι → Page) (i : ι) : Prop where
  nonzero : (clone i).frame ≠ 0
  inRange : (clone i).frame.toNat < s.frameNumber
  wasFree : busy s.frames (clone i).frame.toNat = false
  exclusive : ∀ j, j ≠ i → (clone j).frame ≠ (clone i).frame

/-- No frame in use is written, frame 0 in particular, and what is present has a frame. -/
structure Undamaged (s : State) (written : List ℕ) (clone : Option (ι → Page)) : Prop where
  spared : ∀ f ∈ written, f ≠ 0 ∧ busy s.frames f = false
  owned : ∀ pages, clone = some pages → ∀ i, (pages i).present = true → OwnFrame s pages i

/-- Beside its tables the call changes memory in these frames only. -/
def WritesOnly (s s' : State) (written : List ℕ) : Prop :=
  ∀ x, x / pageSize ∉ written → s'.memory x = s.memory x

/-- What lies behind the bitmap is in use. -/
def Bitmap.Covered (b : Bitmap) (s : State) : Prop :=
  ∀ x, b.address + 4 * (s.frameNumber / 32) ≤ x → x < b.address + 4 * s.frameNumber →
    busy s.frames (x / pageSize) = true

theorem Bitmap.covered_of_full (hfull : ∀ f < s.frameNumber, busy s.frames f = true)
    (hend : b.address + 4 * s.frameNumber ≤ pageSize * s.frameNumber) : b.Covered s :=
  fun _ _ h₂ => hfull _ (Nat.div_lt_of_lt_mul (h₂.trans_le hend))

/-- Boot leaves no frame free, and no bit is ever cleared. -/
theorem BootLeaves.covered {b₀ b₁ : Boot} {N : ℕ} (h : BootLeaves b₀ b₁ N) (hg : Grown b₁.mmu s)
    (hend : b.address + 4 * 0x1000 ≤ memSize) : b.Covered s := by
  have hnumber : s.frameNumber = 0x1000 := hg.frameNumber.trans h.number
  refine Bitmap.covered_of_full (fun f hf => hg.bits f (h.full f (hg.frameNumber ▸ hf))) ?_
  rw [hnumber]
  exact hend

theorem Bitmap.Spoils.damages {written : List ℕ} (h : b.Spoils s written) (hc : b.Covered s)
    (clone : Option (ι → Page)) : ¬ Undamaged s written clone := by
  rintro ⟨hspared, -⟩
  obtain ⟨f, hf, rfl | ⟨x, h₁, h₂, rfl⟩⟩ := h
  · exact (hspared 0 hf).1 rfl
  · have hfree := (hspared _ hf).2
    rw [hc x h₁ h₂] at hfree
    cases hfree

end Damage

/-- A page of a private table. -/
def PrivatePage (s : State) (src : ℕ) : Type :=
  { n : ℕ // n < 1024 * 1024 ∧ Private s src (n / 1024) }

/-- A clone that asks for more frames than are free writes into a frame that is in use. -/
theorem cloning_damages (b : Bitmap) (s : State) (hnum : s.frameNumber = memSize / 0x1000)
    (hc : b.Covered s) :
    (∀ src pTbl, Apart pTbl src → freeFrames s < tableFrames s src 0 1024 →
      WritesOnly s (b.clonePageTable s src pTbl) (b.tableWrites s src pTbl) ∧
      ¬ Undamaged s (b.tableWrites s src pTbl)
        (some fun j : Fin 1024 => (b.clonePageTable s src pTbl).pages (pTbl + 4 * j))) ∧
    ∀ src pDir ptrs, Mapped s pDir → Provided s (orCurrent s src) pDir 0 1024 ptrs →
      freeFrames s < framesNeeded s (orCurrent s src) 0 1024 →
      (∀ s', b.clonePageDirectory s src (pDir :: ptrs) = some s' →
        WritesOnly s s' (b.directoryWrites s src (pDir :: ptrs))) ∧
      ¬ Undamaged s (b.directoryWrites s src (pDir :: ptrs))
        ((b.clonePageDirectory s src (pDir :: ptrs)).map fun s'
          (n : PrivatePage s (orCurrent s src)) => entry s' pDir n.val) := by
  have hnumber : s.frameNumber = 0x1000 := hnum
  constructor
  · intro src pTbl ha hshort
    have hspoils := Bitmap.table_spoils (b := b) (by rw [WholeWords, hnumber])
      (by rw [hnumber]; decide) ha hshort
    exact ⟨fun x hx => Bitmap.clonePageTable_memory hx, hspoils.damages hc _⟩
  · intro src pDir ptrs hm hr hshort
    have hspoils := Bitmap.directory_spoils (b := b) hm hr hnumber hshort
    exact ⟨fun s' hclone x hx => Bitmap.clonePageDirectory_memory hclone hx, hspoils.damages hc _⟩

section NoFrames

/-- The directories of `twoTables` when no frame is left. -/
def noFrames : State := { twoTables with frames := fun _ => 0xFFFFFFFF }

/-- The bitmap ends where the kernel's directory begins. -/
def lowBitmap : Bitmap := ⟨0xFFE00, [0x100000, 0x110000]⟩

theorem busy_noFrames (n : ℕ) : busy noFrames.frames n = true := by
  have hones : ∀ j < 32, (0xFFFFFFFF#32).getLsbD j = true := by decide
  exact hones _ (Nat.mod_lt n (by decide))

theorem covered_noFrames : lowBitmap.Covered noFrames := fun _ _ _ => busy_noFrames _

theorem freeFrames_noFrames : freeFrames noFrames = 0 :=
  clearBits_eq_zero_iff.mpr fun b _ => busy_noFrames b

theorem tableFrames_noFrames : 0 < tableFrames noFrames 0x210000 0 1024 :=
  List.countP_pos_iff.mpr ⟨0, List.mem_range'_1.mpr (by decide), by decide⟩

/-- The pages of one slot are among those of the directory. -/
theorem tableFrames_le_framesNeeded {s : State} {src j : ℕ} (hj : j < 1024) (hp : Private s src j) :
    tableFrames s ((s.directories src).pageTables j) 0 1024 ≤ framesNeeded s src 0 1024 :=
  List.le_sum_of_mem (List.mem_map.mpr ⟨j, List.mem_range'_1.mpr ⟨Nat.zero_le j, by omega⟩, if_pos hp⟩)

theorem framesNeeded_noFrames : 0 < framesNeeded noFrames 0x110000 0 1024 := by
  have htable : (noFrames.directories 0x110000).pageTables 1 = 0x210000 := by decide
  have hslot := @tableFrames_le_framesNeeded noFrames 0x110000 1 (by decide) (by decide)
  rw [htable] at hslot
  exact tableFrames_noFrames.trans_le hslot

theorem provided_noFrames : Provided noFrames 0x110000 0x300000 0 1024 [0x310000] := by
  refine ⟨by decide, by decide, by decide, fun ptr hptr _ => ?_, fun ptr hptr j hj h0 => ?_,
    tablesNeeded_le_one private_twoTables⟩
  · obtain rfl := List.mem_singleton.mp hptr
    decide
  · obtain rfl := List.mem_singleton.mp hptr
    simp only [noFrames, twoTables, Apart, pageSize] at h0 ⊢
    split_ifs at h0 ⊢ <;> omega

theorem cloning_damages_noFrames :
    (WritesOnly noFrames (lowBitmap.clonePageTable noFrames 0x210000 0x310000)
        (lowBitmap.tableWrites noFrames 0x210000 0x310000) ∧
      ¬ Undamaged noFrames (lowBitmap.tableWrites noFrames 0x210000 0x310000)
        (some fun j : Fin 1024 =>
          (lowBitmap.clonePageTable noFrames 0x210000 0x310000).pages (0x310000 + 4 * j))) ∧
    (∀ s', lowBitmap.clonePageDirectory noFrames 0x110000 [0x300000, 0x310000] = some s' →
        WritesOnly noFrames s'
          (lowBitmap.directoryWrites noFrames 0x110000 [0x300000, 0x310000])) ∧
      ¬ Undamaged noFrames (lowBitmap.directoryWrites noFrames 0x110000 [0x300000, 0x310000])
        ((lowBitmap.clonePageDirectory noFrames 0x110000 [0x300000, 0x310000]).map fun s'
          (n : PrivatePage noFrames 0x110000) => entry s' 0x300000 n.val) :=
  ⟨(cloning_damages lowBitmap noFrames (by decide) covered_noFrames).1 0x210000 0x310000
    (.inr (by decide)) (freeFrames_noFrames.trans_lt tableFrames_noFrames),
   (cloning_damages lowBitmap noFrames (by decide) covered_noFrames).2 0x110000 0x300000 [0x310000]
    (fun _ => by decide) provided_noFrames (freeFrames_noFrames.trans_lt framesNeeded_noFrames)⟩

/-- The only page of the table is copied though there is no frame for it. -/
theorem cloning_not_harmless :
    ¬ ∀ (b : Bitmap) (s : State) (src pTbl : ℕ), s.frameNumber = memSize / 0x1000 → b.Covered s →
      Apart pTbl src → freeFrames s < tableFrames s src 0 1024 →
      Undamaged s (b.tableWrites s src pTbl)
        (some fun j : Fin 1024 => (b.clonePageTable s src pTbl).pages (pTbl + 4 * j)) := by
  intro h
  have ha : Apart 0x310000 0x210000 := .inr (by decide)
  have hshort := freeFrames_noFrames.trans_lt tableFrames_noFrames
  have hspoils := Bitmap.table_spoils (b := lowBitmap) (s := noFrames)
    (by unfold WholeWords; decide) (by decide) ha hshort
  exact hspoils.damages covered_noFrames _
    (h lowBitmap noFrames 0x210000 0x310000 (by decide) covered_noFrames ha hshort)

end NoFrames

end ExperimentalKernel.Paging
