import ExperimentalKernel.DirectoryCloning

/-!
# Two page walks

The processor follows `pageTablesPhysical`, the kernel follows `pageTables`. Both
arrays of a directory are filled together, and tables do not move while the kernel
runs, so the two walks end in the same word.
-/

namespace ExperimentalKernel.Paging
open ByteMemory Function

/-- The physical address of the kernel's address `v`. -/
def translate (s : State) (v : ℕ) : ℕ :=
  if s.paging = true then
    (entry s s.currentPageDirectory (v / 0x1000)).frame.toNat * pageSize + v % 0x1000
  else v

/-- The page of `v` has a frame; `frame_` zero means none. -/
def Backed (s : State) (v : ℕ) : Prop :=
  s.paging = true →
    (s.directories s.currentPageDirectory).pageTables (v / 0x1000 / 1024) ≠ 0 ∧
      (entry s s.currentPageDirectory (v / 0x1000)).frame ≠ 0

/-- The object at `v` starts at the physical address `p`. -/
structure Placed (s : State) (v p : ℕ) : Prop where
  nonnull : v ≠ 0
  aligned : v % 0x1000 = 0
  bounded : v < wordSize
  backed : Backed s v
  translated : translate s v = p

/-- Pages that have a frame keep it. -/
structure Extends (s s' : State) : Prop where
  paging : s'.paging = s.paging
  current : s'.currentPageDirectory = s.currentPageDirectory
  entries : ∀ n < 1024 * 1024,
    (s.directories s.currentPageDirectory).pageTables (n / 1024) ≠ 0 →
    (entry s s.currentPageDirectory n).frame ≠ 0 →
    (s'.directories s.currentPageDirectory).pageTables (n / 1024) ≠ 0 ∧
      (entry s' s.currentPageDirectory n).frame = (entry s s.currentPageDirectory n).frame

/-- A directory slot as the kernel and the processor see it. -/
structure SlotAgrees (s : State) (table : ℕ) (w : BitVec 32) : Prop where
  present : table ≠ 0 ↔ w.getLsbD 0 = true
  placed : table ≠ 0 → Placed s table (tableFrame w).toNat

structure DirectoryAgrees (s : State) (d : ℕ) : Prop where
  slots : ∀ i < 1024,
    SlotAgrees s ((s.directories d).pageTables i) ((s.directories d).pageTablesPhysical i)
  placed : Placed s d (s.directories d).physicalAddress

structure WalksAgree (s : State) (ds : List ℕ) : Prop where
  current : s.currentPageDirectory ∈ ds
  agree : ∀ d ∈ ds, DirectoryAgrees s d

theorem translate_lt (s : State) {v : ℕ} (hv : v < wordSize) : translate s v < wordSize := by
  unfold translate
  split
  · have := (entry s s.currentPageDirectory (v / 0x1000)).frame.isLt
    unfold pageSize wordSize
    omega
  · exact hv

/-- An object that does not cross a page moves as a whole. -/
theorem translate_add (s : State) {v o : ℕ} (hv : v % 0x1000 = 0) (ho : o < 0x1000) :
    translate s (v + o) = translate s v + o := by
  unfold translate
  have hdiv : (v + o) / 0x1000 = v / 0x1000 := by omega
  rw [hdiv]
  split <;> omega

theorem translate_mod (s : State) {v : ℕ} (hv : v % 0x1000 = 0) : translate s v % 0x1000 = 0 := by
  unfold translate pageSize
  split <;> omega

theorem tableFrame_ofNat {p : ℕ} (hlt : p < wordSize) (hp : p % 0x1000 = 0) :
    (tableFrame (BitVec.ofNat 32 p)).toNat = p := by
  have h : tableFrame (BitVec.ofNat 32 p) = BitVec.ofNat 32 p := by
    apply BitVec.eq_of_getLsbD_eq
    intro i hi
    rw [tableFrame, BitVec.getLsbD_and]
    by_cases h12 : i < 12
    · have hbit : (BitVec.ofNat 32 p).getLsbD i = false := by
        rw [BitVec.getLsbD_ofNat]
        have hdvd : p = 2 ^ 12 * (p / 0x1000) := by omega
        rw [hdvd, Nat.testBit_two_pow_mul]
        simp [show ¬ 12 ≤ i by omega]
      rw [hbit, Bool.false_and]
    · have hmask : (0xFFFFF000#32).getLsbD i = true := by
        revert i
        decide
      rw [hmask, Bool.and_true]
  rw [h, BitVec.toNat_ofNat]
  exact Nat.mod_eq_of_lt hlt

theorem present_or (w : BitVec 32) : (w ||| 7#32).getLsbD 0 = true := by simp

theorem SlotAgrees.orPresent {s : State} {table : ℕ} {w : BitVec 32} (h : SlotAgrees s table w)
    (h0 : table ≠ 0) : SlotAgrees s table (w ||| 7#32) :=
  ⟨⟨fun _ => present_or w, fun _ => h0⟩, fun h0 => by rw [tableFrame_or]; exact h.placed h0⟩

theorem Placed.slotAgrees {s : State} {table p : ℕ} (h : Placed s table p) :
    SlotAgrees s table (BitVec.ofNat 32 p ||| 7#32) := by
  have hlt := translate_lt s h.bounded
  have hmod := translate_mod s h.aligned
  rw [h.translated] at hlt hmod
  refine ⟨⟨fun _ => present_or _, fun _ => h.nonnull⟩, fun _ => ?_⟩
  rw [tableFrame_or, tableFrame_ofNat hlt hmod]
  exact h

section Stability

variable {s s' s'' : State} {ds : List ℕ} {d i ptr : ℕ}

theorem Extends.refl (s : State) : Extends s s := ⟨rfl, rfl, fun _ _ h₁ _ => ⟨h₁, rfl⟩⟩

theorem Placed.extends {v p : ℕ} (h : Placed s v p) (he : Extends s s') : Placed s' v p := by
  have hlt := h.bounded
  unfold wordSize at hlt
  have hmapped : s.paging = true →
      (s'.directories s.currentPageDirectory).pageTables (v / 0x1000 / 1024) ≠ 0 ∧
        (entry s' s.currentPageDirectory (v / 0x1000)).frame =
          (entry s s.currentPageDirectory (v / 0x1000)).frame := fun hp =>
    he.entries (v / 0x1000) (by omega) (h.backed hp).1 (h.backed hp).2
  refine ⟨h.nonnull, h.aligned, h.bounded, fun hp => ?_, ?_⟩
  · rw [he.paging] at hp
    rw [he.current]
    exact ⟨(hmapped hp).1, (hmapped hp).2 ▸ (h.backed hp).2⟩
  · rw [← h.translated, translate, translate, he.paging, he.current]
    split
    · next hp => rw [(hmapped hp).2]
    · rfl

theorem SlotAgrees.extends {table : ℕ} {w : BitVec 32} (h : SlotAgrees s table w)
    (he : Extends s s') : SlotAgrees s' table w :=
  ⟨h.present, fun h0 => (h.placed h0).extends he⟩

/-- A step that moves nothing and leaves good slots behind keeps the walks together. -/
theorem WalksAgree.transfer (h : WalksAgree s ds) (he : Extends s s')
    (hslots : ∀ d ∈ ds, ∀ i < 1024, SlotAgrees s ((s'.directories d).pageTables i)
      ((s'.directories d).pageTablesPhysical i))
    (hphys : ∀ d ∈ ds, (s'.directories d).physicalAddress = (s.directories d).physicalAddress) :
    WalksAgree s' ds where
  current := he.current ▸ h.current
  agree d hd := ⟨fun i hi => (hslots d hd i hi).extends he,
    hphys d hd ▸ (h.agree d hd).placed.extends he⟩

theorem WalksAgree.of_directories (h : WalksAgree s ds) (he : Extends s s')
    (hd : s'.directories = s.directories) : WalksAgree s' ds := by
  refine h.transfer he (fun d hmem i hi => ?_) fun d _ => by rw [hd]
  rw [hd]
  exact (h.agree d hmem).slots i hi

theorem extends_setDirectory {e : PageDirectory}
    (h : d = s.currentPageDirectory → ∀ i, (s.directories d).pageTables i ≠ 0 →
      e.pageTables i = (s.directories d).pageTables i) : Extends s (s.setDirectory d e) := by
  refine ⟨rfl, rfl, fun n _ h₁ _ => ?_⟩
  by_cases hd : d = s.currentPageDirectory
  · have htable := h hd (n / 1024) (hd ▸ h₁)
    subst hd
    rw [entry, entryAddress, State.setDirectory_same, htable]
    exact ⟨h₁, rfl⟩
  · rw [entry, entryAddress, State.setDirectory_of_ne s e (Ne.symm hd)]
    exact ⟨h₁, rfl⟩

theorem EntriesOnly.extends (h : EntriesOnly s s' ptr (ptr + pageSize))
    (ha : ∀ i < 1024, (s.directories s.currentPageDirectory).pageTables i ≠ 0 →
      Apart ptr ((s.directories s.currentPageDirectory).pageTables i)) : Extends s s' := by
  have hothers := h.others
  obtain ⟨f, p, m, rfl⟩ := h.same
  refine ⟨rfl, rfl, fun n hn h₁ _ => ⟨h₁, congrArg Page.frame (hothers _ ?_)⟩⟩
  exact (ha (n / 1024) (by omega) h₁).entry_outside n

theorem allocFrame_extends (s : State) (page : ℕ) (isKernel isWriteable : Bool) :
    Extends s (allocFrame s page isKernel isWriteable).2 := by
  by_cases h : (s.pages page).frame = 0
  · simp only [allocFrame, h, ↓reduceIte]
    cases getFreeFrame s with
    | none => exact Extends.refl s
    | some index =>
      refine ⟨rfl, rfl, fun n _ h₁ h₂ => ⟨h₁, congrArg Page.frame (update_of_ne ?_ _ _)⟩⟩
      intro heq
      exact h₂ ((congrArg (fun q => (s.pages q).frame) heq).trans h)
  · rw [allocFrame_of_ne h]
    exact Extends.refl s

/-- Filling a slot that the current directory does not use. -/
theorem WalksAgree.setSlot (h : WalksAgree s ds) {table : ℕ} {w : BitVec 32}
    (hslot : SlotAgrees s table w)
    (hfree : d = s.currentPageDirectory → (s.directories d).pageTables i = 0) :
    WalksAgree (s.setDirectory d { s.directories d with
      pageTables := update (s.directories d).pageTables i table
      pageTablesPhysical := update (s.directories d).pageTablesPhysical i w }) ds := by
  have he : Extends s (s.setDirectory d { s.directories d with
      pageTables := update (s.directories d).pageTables i table
      pageTablesPhysical := update (s.directories d).pageTablesPhysical i w }) := by
    refine extends_setDirectory fun hd j hj => update_of_ne ?_ _ _
    rintro rfl
    exact hj (hfree hd)
  refine h.transfer he (fun x hx j hj => ?_) fun x _ => ?_
  · by_cases hxd : x = d
    · subst hxd
      rw [State.setDirectory_same]
      by_cases hji : j = i
      · subst hji
        simpa using hslot
      · simpa [update_of_ne hji] using (h.agree x hx).slots j hj
    · rw [State.setDirectory_of_ne s _ hxd]
      exact (h.agree x hx).slots j hj
  · by_cases hxd : x = d
    · subst hxd
      rw [State.setDirectory_same]
    · rw [State.setDirectory_of_ne s _ hxd]

theorem WalksAgree.orPresent (h : WalksAgree s ds)
    (h0 : (s.directories d).pageTables i ≠ 0) :
    WalksAgree (s.setDirectory d ((s.directories d).orPresent i)) ds := by
  refine h.transfer (extends_setDirectory fun _ _ _ => rfl) (fun x hx j hj => ?_) fun x _ => ?_
  · by_cases hxd : x = d
    · subst hxd
      rw [State.setDirectory_same]
      have hslot := (h.agree x hx).slots j hj
      by_cases hji : j = i
      · subst hji
        simpa [PageDirectory.orPresent] using hslot.orPresent h0
      · simpa [PageDirectory.orPresent, update_of_ne hji] using hslot
    · rw [State.setDirectory_of_ne s _ hxd]
      exact (h.agree x hx).slots j hj
  · by_cases hxd : x = d
    · subst hxd
      rw [State.setDirectory_same]
      rfl
    · rw [State.setDirectory_of_ne s _ hxd]

end Stability

/-- `kmalloc` hands out `size` bytes at `ptr`: page-aligned, outside all directories and
tables there are, and at the physical address it stores. -/
structure Handed (s : State) (ds : List ℕ) (ptr size : ℕ) : Prop where
  nonnull : ptr ≠ 0
  aligned : ptr % 0x1000 = 0
  bounded : ptr + size ≤ wordSize
  tables : ∀ d ∈ ds, ∀ i < 1024, (s.directories d).pageTables i ≠ 0 →
    ptr + size ≤ (s.directories d).pageTables i ∨ (s.directories d).pageTables i + pageSize ≤ ptr
  directories : ∀ d ∈ ds, ptr + size ≤ d ∨ d + directorySize ≤ ptr
  backed : Backed s ptr
  physical : ∀ phys s', kmalloc s ptr = some (phys, s') → phys = translate s ptr

theorem findPage_cases {s s' : State} {a directory page : ℕ}
    (h : findPage s a directory = some (page, s')) :
    (s.directories (orCurrent s directory)).pageTables (a / 0x1000 / 1024) ≠ 0 ∧
      page = entryAddress s (orCurrent s directory) (a / 0x1000) ∧
      s' = s.setDirectory (orCurrent s directory)
        ((s.directories (orCurrent s directory)).orPresent (a / 0x1000 / 1024)) := by
  simp only [findPage] at h
  split at h
  · next h0 =>
    cases h
    exact ⟨h0, rfl, rfl⟩
  · cases h

theorem findPage_none {s : State} {a directory : ℕ} (h : findPage s a directory = none) :
    (s.directories (orCurrent s directory)).pageTables (a / 0x1000 / 1024) = 0 := by
  simp only [findPage] at h
  split at h
  · cases h
  · next h0 => simpa using h0

/-- `kmalloc` does nothing but look the region up. -/
theorem kmalloc_cases {s s' : State} {ptr phys : ℕ} (h : kmalloc s ptr = some (phys, s')) :
    s' = s ∨ ((s.directories s.currentPageDirectory).pageTables (ptr / 0x1000 / 1024) ≠ 0 ∧
      s' = s.setDirectory s.currentPageDirectory
        ((s.directories s.currentPageDirectory).orPresent (ptr / 0x1000 / 1024))) := by
  unfold kmalloc at h
  split at h
  · obtain ⟨⟨page, s₁⟩, hfind, heq⟩ := Option.map_eq_some_iff.mp h
    cases heq
    obtain ⟨h0, -, hs⟩ := findPage_cases hfind
    exact .inr ⟨h0, hs⟩
  · cases h
    exact .inl rfl

theorem orPresent_tables (s : State) (d i x : ℕ) :
    ((s.setDirectory d ((s.directories d).orPresent i)).directories x).pageTables =
      (s.directories x).pageTables := by
  have h : Undisturbed s (s.setDirectory d ((s.directories d).orPresent i)) (x + 1) [] :=
    undisturbed_orPresent d
  exact h.tables x (by omega)

/-- The state after a `kmalloc`, which has the same tables. -/
structure Looked (s s' : State) (ds : List ℕ) (ptr phys : ℕ) : Prop where
  agree : WalksAgree s' ds
  placed : Placed s' ptr phys
  tables : ∀ x, (s'.directories x).pageTables = (s.directories x).pageTables
  current : s'.currentPageDirectory = s.currentPageDirectory

theorem kmalloc_looked {s s' : State} {ds : List ℕ} {ptr size phys : ℕ} (h : WalksAgree s ds)
    (hf : Handed s ds ptr size) (hsize : 0 < size) (hk : kmalloc s ptr = some (phys, s')) :
    Looked s s' ds ptr phys := by
  have hplaced : Placed s ptr phys := by
    refine ⟨hf.nonnull, hf.aligned, ?_, hf.backed, (hf.physical phys s' hk).symm⟩
    have := hf.bounded
    omega
  rcases kmalloc_cases hk with rfl | ⟨h0, rfl⟩
  · exact ⟨h, hplaced, fun _ => rfl, rfl⟩
  · exact ⟨h.orPresent h0, hplaced.extends (extends_setDirectory fun _ _ _ => rfl),
      orPresent_tables s _ _, rfl⟩

theorem WalksAgree.getPage {s s' : State} {ds : List ℕ} {a directory ptr page : ℕ}
    (h : WalksAgree s ds) (hf : findPage s a directory = none → Handed s ds ptr pageSize)
    (hg : getPage s a true directory ptr = some (page, s')) : WalksAgree s' ds := by
  unfold Paging.getPage at hg
  cases hfind : findPage s a directory with
  | some r =>
    rw [hfind] at hg
    cases hg
    obtain ⟨h0, -, rfl⟩ := findPage_cases hfind
    exact h.orPresent h0
  | none =>
    rw [hfind] at hg
    obtain ⟨⟨phys, s₁⟩, hk, heq⟩ := Option.map_eq_some_iff.mp hg
    have hlooked := kmalloc_looked h (hf hfind) (by decide) hk
    have honly := clearTable_entriesOnly s₁ ptr
    have hclear : Extends s₁ (s₁.clearTable ptr) := by
      refine honly.extends fun i hi h0 => ?_
      rw [hlooked.current, hlooked.tables] at h0 ⊢
      exact (hf hfind).tables _ h.current i hi h0
    have hslot := (hlooked.placed.extends hclear).slotAgrees
    have hset := (hlooked.agree.of_directories hclear rfl).setSlot (i := a / 0x1000 / 1024)
      (d := orCurrent s directory) hslot fun _ => by
        change (s₁.directories _).pageTables _ = 0
        rw [hlooked.tables]
        exact findPage_none hfind
    cases heq
    exact hset

section Cloning

variable {ds : List ℕ} {src pDir : ℕ}

/-- The `kmalloc` of one turn of the loop of `clonePageDirectory`, if it makes one. -/
def SlotSupplied (s : State) (ds : List ℕ) (src pDir i : ℕ) (ptrs : List ℕ) : Prop :=
  Private s src i → ∀ ptr ∈ ptrs.head?,
    Handed (s.setDirectory src ((s.directories src).orPresent i)) (pDir :: ds) ptr pageSize

/-- All those of `k` turns. -/
def LoopSupplied (alloc : State → ℕ → State) (ds : List ℕ) (src pDir : ℕ) :
    ℕ → State → ℕ → List ℕ → Prop
  | 0, _, _, _ => True
  | k + 1, s, i, ptrs => SlotSupplied s ds src pDir i ptrs ∧
      ∀ s' ptrs', cloneSlotWith alloc s src pDir i ptrs = some (s', ptrs') →
        LoopSupplied alloc ds src pDir k s' (i + 1) ptrs'

theorem WalksAgree.cloneSlot {s s' : State} {i : ℕ} {ptrs ptrs' : List ℕ}
    (h : WalksAgree s (pDir :: ds)) (hi : i < 1024) (hsrc : src ∈ ds)
    (hcur : pDir ≠ s.currentPageDirectory) (hf : SlotSupplied s ds src pDir i ptrs)
    (hc : cloneSlot s src pDir i ptrs = some (s', ptrs')) :
    WalksAgree s' (pDir :: ds) ∧ s'.currentPageDirectory = s.currentPageDirectory := by
  have hslot := (h.agree src (List.mem_cons_of_mem _ hsrc)).slots i hi
  by_cases h0 : (s.directories src).pageTables i = 0
  · rw [cloneSlot_null h0] at hc
    cases hc
    exact ⟨h, rfl⟩
  · by_cases hk : (s.directories src).pageTables i = (s.directories s.pageDirectory).pageTables i
    · have hshare := h.setSlot (d := pDir) (i := i) hslot fun heq => absurd heq hcur
      rw [cloneSlot_shared ⟨h0, hk⟩] at hc
      cases hc
      exact ⟨hshare, rfl⟩
    · cases ptrs with
      | nil =>
        rw [cloneSlot_nil ⟨h0, hk⟩] at hc
        cases hc
      | cons ptr rest =>
        have hhanded := hf ⟨h0, hk⟩ ptr rfl
        have h₁ := h.orPresent h0
        rw [cloneSlot_eq ⟨h0, hk⟩] at hc
        obtain ⟨⟨phys, s₂⟩, hkm, heq⟩ := Option.map_eq_some_iff.mp hc
        have hlooked := kmalloc_looked h₁ hhanded (by decide) hkm
        have honly := clonePageTable_entriesOnly s₂ ((s.directories src).pageTables i) ptr
        generalize clonePageTable s₂ ((s.directories src).pageTables i) ptr = s₃ at heq honly
        have hcur₂ : s₂.currentPageDirectory = s.currentPageDirectory := hlooked.current
        have hext : Extends s₂ s₃ := by
          refine honly.extends fun j hj hne => ?_
          rw [hlooked.current, hlooked.tables] at hne ⊢
          exact hhanded.tables _ h₁.current j hj hne
        have hdirs : s₃.directories = s₂.directories := by
          obtain ⟨f, p, m, rfl⟩ := honly.same
          rfl
        have hset := (hlooked.agree.of_directories hext hdirs).setSlot (d := pDir) (i := i)
          (hlooked.placed.extends hext).slotAgrees fun heq => by
            rw [hext.current, hcur₂] at heq
            exact absurd heq hcur
        obtain ⟨hs', -⟩ := Prod.mk.inj heq
        rw [← hs', State.setTable_current]
        exact ⟨hset, hext.current.trans hcur₂⟩

theorem WalksAgree.cloneSlots (k : ℕ) {s s' : State} {i : ℕ} {ptrs ptrs' : List ℕ}
    (h : WalksAgree s (pDir :: ds)) (hik : i + k ≤ 1024) (hsrc : src ∈ ds)
    (hcur : pDir ≠ s.currentPageDirectory) (hf : LoopSupplied allocUser ds src pDir k s i ptrs)
    (hc : cloneSlots s src pDir i ptrs k = some (s', ptrs')) : WalksAgree s' (pDir :: ds) := by
  induction k generalizing s i ptrs with
  | zero =>
    cases hc
    exact h
  | succ k ih =>
    obtain ⟨⟨s₁, ptrs₁⟩, h₁, h₂⟩ := Option.bind_eq_some_iff.mp hc
    obtain ⟨hagree, hsame⟩ := h.cloneSlot (by omega) hsrc hcur hf.1 h₁
    exact ih hagree (by omega) (hsame ▸ hcur) (hf.2 _ _ h₁) h₂

/-- The `kmalloc`s of `clonePageDirectory`. -/
def CloneSupplied (alloc : State → ℕ → State) (s : State) (ds : List ℕ) (src pDir : ℕ)
    (ptrs : List ℕ) : Prop :=
  Handed s ds pDir directorySize ∧ ∀ phys s', kmalloc s pDir = some (phys, s') →
    LoopSupplied alloc ds src pDir 1024
      (s'.setDirectory pDir { PageDirectory.zero with physicalAddress := phys }) 0 ptrs

theorem slotAgrees_null (s : State) : SlotAgrees s 0 0 :=
  ⟨⟨fun h => absurd rfl h, fun h => by simp at h⟩, fun h => absurd rfl h⟩

theorem WalksAgree.clonePageDirectory {s s' : State} {ptrs : List ℕ} (h : WalksAgree s ds)
    (hsrc : orCurrent s src ∈ ds) (hf : CloneSupplied allocUser s ds (orCurrent s src) pDir ptrs)
    (hc : clonePageDirectory s src (pDir :: ptrs) = some s') : WalksAgree s' (pDir :: ds) := by
  obtain ⟨hhanded, hloop⟩ := hf
  obtain ⟨⟨phys, s₁⟩, hkm, hrest⟩ := Option.bind_eq_some_iff.mp hc
  obtain ⟨⟨s₂, ptrs₂⟩, hslots, rfl⟩ := Option.map_eq_some_iff.mp hrest
  have hlooked := kmalloc_looked h hhanded (by decide) hkm
  have hnew : ∀ d ∈ ds, d ≠ pDir := by
    rintro d hd rfl
    have := hhanded.directories d hd
    unfold directorySize at this
    omega
  have hcur : pDir ≠ s₁.currentPageDirectory := (hnew _ hlooked.agree.current).symm
  have hext : Extends s₁
      (s₁.setDirectory pDir { PageDirectory.zero with physicalAddress := phys }) :=
    extends_setDirectory fun heq => absurd heq hcur
  have hinit : WalksAgree
      (s₁.setDirectory pDir { PageDirectory.zero with physicalAddress := phys }) (pDir :: ds) := by
    refine ⟨List.mem_cons_of_mem _ hlooked.agree.current, fun d hd => ?_⟩
    rcases List.mem_cons.mp hd with rfl | hd
    · constructor
      · intro i _
        rw [State.setDirectory_same]
        exact slotAgrees_null _
      · rw [State.setDirectory_same]
        exact hlooked.placed.extends hext
    · have hagree := hlooked.agree.agree d hd
      constructor
      · intro i hi
        rw [State.setDirectory_of_ne s₁ _ (hnew d hd)]
        exact (hagree.slots i hi).extends hext
      · rw [State.setDirectory_of_ne s₁ _ (hnew d hd)]
        exact hagree.placed.extends hext
  exact hinit.cloneSlots 1024 le_rfl hsrc hcur (hloop _ _ hkm) hslots

end Cloning

end ExperimentalKernel.Paging
