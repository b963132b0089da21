import ExperimentalKernel.PageTableCloning

/-!
# Cloning a directory

The loop of `clonePageDirectory` slot by slot: a table that the kernel directory
also has in that slot is shared, any other is cloned into a region the heap hands
out. Nothing else moves except bits that say a table is present.
-/

namespace ExperimentalKernel.Paging
open ByteMemory Function

/-- Slot `i` holds a table that the kernel directory does not have there. -/
def Private (s : State) (directory i : ℕ) : Prop :=
  (s.directories directory).pageTables i ≠ 0 ∧
    (s.directories directory).pageTables i ≠ (s.directories s.pageDirectory).pageTables i

instance (s : State) (directory i : ℕ) : Decidable (Private s directory i) :=
  inferInstanceAs (Decidable (_ ∧ _))

/-- Slot `i` holds the table of the kernel directory. -/
def Shared (s : State) (directory i : ℕ) : Prop :=
  (s.directories directory).pageTables i ≠ 0 ∧
    (s.directories directory).pageTables i = (s.directories s.pageDirectory).pageTables i

/-- The address of the entry for virtual page `n`. -/
def entryAddress (s : State) (directory n : ℕ) : ℕ :=
  (s.directories directory).pageTables (n / 1024) + 4 * (n % 1024)

def entry (s : State) (directory n : ℕ) : Page := s.pages (entryAddress s directory n)

/-- The address of a page table as a directory entry gives it. -/
def tableFrame (w : BitVec 32) : BitVec 32 := w &&& 0xFFFFF000#32

@[simp] theorem tableFrame_or (w : BitVec 32) : tableFrame (w ||| 7#32) = tableFrame w := by
  apply BitVec.eq_of_getLsbD_eq
  intro i hi
  simp only [tableFrame, BitVec.getLsbD_and, BitVec.getLsbD_or]
  have h7 : (7#32).getLsbD i = true → (0xFFFFF000#32).getLsbD i = false := by
    revert i
    decide
  cases h : (7#32).getLsbD i with
  | false => simp
  | true => simp [h7 h]

/-- What cloning into `pDir` and the regions `ptrs` leaves alone. -/
structure Undisturbed (s s' : State) (pDir : ℕ) (ptrs : List ℕ) : Prop where
  grown : Grown s s'
  pageDirectory : s'.pageDirectory = s.pageDirectory
  current : s'.currentPageDirectory = s.currentPageDirectory
  heap : s'.heapEnabled = s.heapEnabled
  tables : ∀ d, d ≠ pDir → (s'.directories d).pageTables = (s.directories d).pageTables
  physical : ∀ d, d ≠ pDir → ∀ i, tableFrame ((s'.directories d).pageTablesPhysical i) =
    tableFrame ((s.directories d).pageTablesPhysical i)
  pages : ∀ x, (∀ ptr ∈ ptrs, x < ptr ∨ ptr + pageSize ≤ x) → s'.pages x = s.pages x

variable {s s' s'' : State} {src pDir i k : ℕ} {ptrs : List ℕ}

theorem Undisturbed.refl (s : State) (pDir : ℕ) (ptrs : List ℕ) : Undisturbed s s pDir ptrs :=
  ⟨Grown.of_eq rfl rfl rfl, rfl, rfl, rfl, fun _ _ => rfl, fun _ _ _ => rfl, fun _ _ => rfl⟩

theorem Undisturbed.trans (h : Undisturbed s s' pDir ptrs) (h' : Undisturbed s' s'' pDir ptrs) :
    Undisturbed s s'' pDir ptrs where
  grown := h.grown.trans h'.grown
  pageDirectory := h'.pageDirectory.trans h.pageDirectory
  current := h'.current.trans h.current
  heap := h'.heap.trans h.heap
  tables d hd := (h'.tables d hd).trans (h.tables d hd)
  physical d hd i := (h'.physical d hd i).trans (h.physical d hd i)
  pages x hx := (h'.pages x hx).trans (h.pages x hx)

theorem Undisturbed.mono (h : Undisturbed s s' pDir ptrs) {ptrs' : List ℕ} (hsub : ptrs ⊆ ptrs') :
    Undisturbed s s' pDir ptrs' :=
  { h with pages := fun x hx => h.pages x fun ptr hptr => hx ptr (hsub hptr) }

theorem Undisturbed.private_iff (h : Undisturbed s s' pDir ptrs) (hsrc : src ≠ pDir)
    (hk : s.pageDirectory ≠ pDir) : Private s' src i ↔ Private s src i := by
  rw [Private, Private, h.pageDirectory, h.tables src hsrc, h.tables _ hk]

theorem undisturbed_setDirectory (d : PageDirectory) :
    Undisturbed s (s.setDirectory pDir d) pDir ptrs where
  grown := Grown.of_eq rfl rfl rfl
  pageDirectory := rfl
  current := rfl
  heap := rfl
  tables _ h := by rw [State.setDirectory_of_ne s d h]
  physical _ h _ := by rw [State.setDirectory_of_ne s d h]
  pages _ _ := rfl

theorem undisturbed_orPresent (d : ℕ) :
    Undisturbed s (s.setDirectory d ((s.directories d).orPresent i)) pDir ptrs where
  grown := Grown.of_eq rfl rfl rfl
  pageDirectory := rfl
  current := rfl
  heap := rfl
  tables x _ := by
    by_cases hx : x = d
    · subst hx
      rw [State.setDirectory_same]
      rfl
    · rw [State.setDirectory_of_ne s _ hx]
  physical x _ j := by
    by_cases hx : x = d
    · subst hx
      rw [State.setDirectory_same]
      by_cases hj : j = i
      · subst hj
        simp [PageDirectory.orPresent]
      · simp [PageDirectory.orPresent, update_of_ne hj]
    · rw [State.setDirectory_of_ne s _ hx]
  pages _ _ := rfl

/-- The heap region at `ptr` is mapped, so that `kmalloc` finds its page. -/
def Mapped (s : State) (ptr : ℕ) : Prop :=
  s.heapEnabled = true →
    (s.directories s.currentPageDirectory).pageTables (ptr / 0x1000 / 1024) ≠ 0

theorem Undisturbed.mapped (h : Undisturbed s s' pDir ptrs) (hc : s.currentPageDirectory ≠ pDir)
    {ptr : ℕ} (hm : Mapped s ptr) : Mapped s' ptr := by
  intro hheap
  rw [h.current, h.tables _ hc]
  exact hm (by rw [← h.heap, hheap])

/-- `kmalloc` on the heap translates the region with the current directory. -/
theorem kmalloc_enabled {ptr : ℕ} (hheap : s.heapEnabled = true) (hm : Mapped s ptr) :
    kmalloc s ptr = some
      ((entry s s.currentPageDirectory (ptr / 0x1000)).frame.toNat * pageSize + ptr % 0x1000,
        s.setDirectory s.currentPageDirectory
          ((s.directories s.currentPageDirectory).orPresent (ptr / 0x1000 / 1024))) := by
  have hfind : findPage s ptr 0 = some _ := if_pos (hm hheap)
  simp only [kmalloc, hheap, ↓reduceIte, hfind, Option.map_some]
  rfl

/-- `kmalloc` returns; it changes only directories, and not `pDir`. -/
theorem kmalloc_spec (ptrs : List ℕ) {ptr : ℕ} (hm : Mapped s ptr) (hc : s.currentPageDirectory ≠ pDir) :
    ∃ phys s', kmalloc s ptr = some (phys, s') ∧ Undisturbed s s' pDir ptrs ∧
      s'.directories pDir = s.directories pDir ∧ s'.frames = s.frames ∧ s'.pages = s.pages := by
  by_cases hheap : s.heapEnabled = true
  · exact ⟨_, _, kmalloc_enabled hheap hm, undisturbed_orPresent s.currentPageDirectory,
      State.setDirectory_of_ne s _ (Ne.symm hc), rfl, rfl⟩
  · exact ⟨ptr, s, by rw [kmalloc, if_neg hheap], Undisturbed.refl s _ _, rfl, rfl, rfl⟩

/-- How many frames the clones of the private tables in the `k` slots from `i` on need. -/
def framesNeeded (s : State) (src i k : ℕ) : ℕ :=
  ((List.range' i k).map fun j =>
    if Private s src j then tableFrames s ((s.directories src).pageTables j) 0 1024 else 0).sum

def tablesNeeded (s : State) (src i k : ℕ) : ℕ :=
  (List.range' i k).countP fun j => Private s src j

/-- Enough frames are free and the heap hands out `ptrs`, fresh and nonnull. -/
structure Ready (s : State) (src pDir i k : ℕ) (ptrs : List ℕ) : Prop where
  number : s.frameNumber ≤ 2 ^ 20
  source : src ≠ pDir
  kernel : s.pageDirectory ≠ pDir
  current : s.currentPageDirectory ≠ pDir
  nonnull : ∀ ptr ∈ ptrs, ptr ≠ 0
  mapped : ∀ ptr ∈ ptrs, Mapped s ptr
  disjoint : ptrs.Pairwise Apart
  apartSource : ∀ ptr ∈ ptrs, ∀ j < 1024, (s.directories src).pageTables j ≠ 0 →
    Apart ptr ((s.directories src).pageTables j)
  apartKernel : ∀ ptr ∈ ptrs, ∀ j < 1024, ptr ≠ (s.directories s.pageDirectory).pageTables j
  frames : framesNeeded s src i k ≤ freeFrames s
  tables : tablesNeeded s src i k ≤ ptrs.length

/-- What the `k` turns from slot `i` on have done with the regions `ptrs`. -/
structure SlotsDone (s s' : State) (src pDir i k : ℕ) (ptrs : List ℕ) : Prop where
  undisturbed : Undisturbed s s' pDir ptrs
  used : freeFrames s' + framesNeeded s src i k = freeFrames s
  taken : ptrs.length = tablesNeeded s src i k
  outside : ∀ j, j < i ∨ i + k ≤ j ∨ (s.directories src).pageTables j = 0 →
    (s'.directories pDir).pageTables j = (s.directories pDir).pageTables j ∧
    (s'.directories pDir).pageTablesPhysical j = (s.directories pDir).pageTablesPhysical j
  shared : ∀ j, i ≤ j → j < i + k → Shared s src j →
    (s'.directories pDir).pageTables j = (s.directories src).pageTables j ∧
    tableFrame ((s'.directories pDir).pageTablesPhysical j) =
      tableFrame ((s.directories src).pageTablesPhysical j)
  fresh : ∀ j, i ≤ j → j < i + k → Private s src j → (s'.directories pDir).pageTables j ∈ ptrs
  cloned : ∀ n, 1024 * i ≤ n → n < 1024 * (i + k) → Private s src (n / 1024) →
    EntryCloned s s' (entryAddress s src n) (entryAddress s' pDir n)
  distinct : ∀ n n', 1024 * i ≤ n → n < n' → n' < 1024 * (i + k) →
    Private s src (n / 1024) → Private s src (n' / 1024) →
    (entry s src n).frame ≠ 0 → (entry s src n').frame ≠ 0 →
    (entry s' pDir n).frame ≠ (entry s' pDir n').frame

theorem framesNeeded_succ (s : State) (src i k : ℕ) : framesNeeded s src i (k + 1) =
    framesNeeded s src i 1 + framesNeeded s src (i + 1) k := by
  simp [framesNeeded, List.range'_succ]

theorem tablesNeeded_succ (s : State) (src i k : ℕ) : tablesNeeded s src i (k + 1) =
    tablesNeeded s src i 1 + tablesNeeded s src (i + 1) k := by
  simp [tablesNeeded, List.range'_succ, List.countP_cons, Nat.add_comm]

theorem framesNeeded_one (s : State) (src i : ℕ) : framesNeeded s src i 1 =
    if Private s src i then tableFrames s ((s.directories src).pageTables i) 0 1024 else 0 := by
  simp [framesNeeded]

theorem tablesNeeded_one (s : State) (src i : ℕ) :
    tablesNeeded s src i 1 = if Private s src i then 1 else 0 := by
  simp [tablesNeeded, List.countP_cons]

theorem EntriesOnly.undisturbed {ptr : ℕ} (h : EntriesOnly s s' ptr (ptr + pageSize))
    (hgrown : Grown s s') : Undisturbed s s' pDir [ptr] := by
  have hpages : ∀ x, (∀ p ∈ [ptr], x < p ∨ p + pageSize ≤ x) → s'.pages x = s.pages x :=
    fun x hx => h.others x (hx ptr (List.mem_singleton_self ptr))
  obtain ⟨f, p, m, rfl⟩ := h.same
  exact ⟨hgrown, rfl, rfl, rfl, fun _ _ => rfl, fun _ _ _ => rfl, hpages⟩

theorem cloneSlot_null (h0 : (s.directories src).pageTables i = 0) (ptrs : List ℕ) :
    cloneSlot s src pDir i ptrs = some (s, ptrs) :=
  if_pos h0

theorem cloneSlot_shared (hs : Shared s src i) (ptrs : List ℕ) :
    cloneSlot s src pDir i ptrs = some (s.setDirectory pDir { s.directories pDir with
      pageTables := update (s.directories pDir).pageTables i ((s.directories src).pageTables i)
      pageTablesPhysical := update (s.directories pDir).pageTablesPhysical i
        ((s.directories src).pageTablesPhysical i) }, ptrs) :=
  (if_neg hs.1).trans (if_pos hs.2)

theorem cloneSlot_nil (hp : Private s src i) : cloneSlot s src pDir i [] = none :=
  (if_neg hp.1).trans (if_neg hp.2)

theorem cloneSlot_eq (hp : Private s src i) (ptr : ℕ) (rest : List ℕ) :
    cloneSlot s src pDir i (ptr :: rest) =
      (kmalloc (s.setDirectory src ((s.directories src).orPresent i)) ptr).map fun r =>
        ((clonePageTable r.2 ((s.directories src).pageTables i) ptr).setTable pDir i ptr r.1, rest) :=
  (if_neg hp.1).trans (if_neg hp.2)

/-- A slot without a table, or with the kernel's. -/
theorem cloneSlot_not_private (ptrs : List ℕ) (hp : ¬ Private s src i) :
    ∃ s', cloneSlot s src pDir i ptrs = some (s', ptrs) ∧ SlotsDone s s' src pDir i 1 [] := by
  have hframes : framesNeeded s src i 1 = 0 := by rw [framesNeeded_one, if_neg hp]
  have htables : tablesNeeded s src i 1 = 0 := by rw [tablesNeeded_one, if_neg hp]
  have hrange : ∀ n, 1024 * i ≤ n → n < 1024 * (i + 1) → ¬ Private s src (n / 1024) := by
    intro n h₁ h₂
    have hn : n / 1024 = i := by omega
    rwa [hn]
  by_cases h0 : (s.directories src).pageTables i = 0
  · refine ⟨s, cloneSlot_null h0 ptrs, Undisturbed.refl s _ _, by rw [hframes, Nat.add_zero],
      htables.symm, fun _ _ => ⟨rfl, rfl⟩, fun j h₁ h₂ hs => ?_, fun j h₁ h₂ hj => ?_,
      fun n h₁ h₂ hn => absurd hn (hrange n h₁ h₂), fun n n' h₁ h₂ h₃ hn => ?_⟩
    · have hj : j = i := by omega
      subst hj
      exact absurd h0 hs.1
    · have hj' : j = i := by omega
      subst hj'
      exact absurd hj hp
    · exact absurd hn (hrange n h₁ (by omega))
  · have hk : (s.directories src).pageTables i = (s.directories s.pageDirectory).pageTables i := by
      by_contra hne
      exact hp ⟨h0, hne⟩
    refine ⟨_, cloneSlot_shared ⟨h0, hk⟩ ptrs, undisturbed_setDirectory _,
      by rw [hframes, Nat.add_zero]; rfl, htables.symm, fun j hj => ?_, fun j h₁ h₂ hs => ?_,
      fun j h₁ h₂ hj => ?_, fun n h₁ h₂ hn => absurd hn (hrange n h₁ h₂), fun n n' h₁ h₂ h₃ hn => ?_⟩
    · have hne : j ≠ i := by
        rintro rfl
        rcases hj with hj | hj | hj
        · omega
        · omega
        · exact h0 hj
      simp [update_of_ne hne]
    · have hj : j = i := by omega
      subst hj
      simp
    · have hj' : j = i := by omega
      subst hj'
      exact absurd hj hp
    · exact absurd hn (hrange n h₁ (by omega))

theorem freeFrames_congr (hn : s'.frameNumber = s.frameNumber) (hf : s'.frames = s.frames) :
    freeFrames s' = freeFrames s := by
  rw [freeFrames, freeFrames, hn, hf]

/-- What a private slot asks of the heap; its table is cloned in the state behind it. -/
theorem cloneSlot_allocated {ptr : ℕ} (rest : List ℕ) (hsource : src ≠ pDir)
    (hcurrent : s.currentPageDirectory ≠ pDir) (hm : Mapped s ptr) (hp : Private s src i) :
    ∃ phys s₂, kmalloc (s.setDirectory src ((s.directories src).orPresent i)) ptr = some (phys, s₂) ∧
      Undisturbed s s₂ pDir [ptr] ∧ s₂.frames = s.frames ∧ (∀ x, s₂.pages x = s.pages x) ∧
      (clonePageTable s₂ ((s.directories src).pageTables i) ptr).directories pDir =
        s.directories pDir ∧
      cloneSlot s src pDir i (ptr :: rest) =
        some ((clonePageTable s₂ ((s.directories src).pageTables i) ptr).setTable pDir i ptr phys,
          rest) := by
  have hu₁ : Undisturbed s (s.setDirectory src ((s.directories src).orPresent i)) pDir [ptr] :=
    undisturbed_orPresent src
  obtain ⟨phys, s₂, hkmalloc, hu₂, hpDir₂, hframes₂, hpages₂⟩ := kmalloc_spec [ptr]
    (hu₁.mapped hcurrent hm) hcurrent
  have honly := clonePageTable_entriesOnly s₂ ((s.directories src).pageTables i) ptr
  refine ⟨phys, s₂, hkmalloc, hu₁.trans hu₂, hframes₂, congrFun hpages₂, ?_, ?_⟩
  · generalize clonePageTable s₂ ((s.directories src).pageTables i) ptr = s₃ at honly
    obtain ⟨f, p, m, rfl⟩ := honly.same
    rw [hpDir₂, State.setDirectory_of_ne s _ (Ne.symm hsource)]
  · simp only [cloneSlot_eq hp, hkmalloc, Option.map_some]

/-- A slot whose table is cloned into the next region. -/
theorem cloneSlot_private {ptr : ℕ} {rest : List ℕ} (hi : i < 1024)
    (hr : Ready s src pDir i 1 (ptr :: rest)) (hp : Private s src i) :
    ∃ s', cloneSlot s src pDir i (ptr :: rest) = some (s', rest) ∧
      SlotsDone s s' src pDir i 1 [ptr] := by
  have hmem : ptr ∈ ptr :: rest := List.mem_cons_self
  have hneed : framesNeeded s src i 1 =
      tableFrames s ((s.directories src).pageTables i) 0 1024 := by rw [framesNeeded_one, if_pos hp]
  obtain ⟨phys, s₂, -, hu₂, hframes₂, hpages, hpDir, hslot⟩ :=
    cloneSlot_allocated rest hr.source hr.current (hr.mapped ptr hmem) hp
  have hfree : freeFrames s₂ = freeFrames s := freeFrames_congr hu₂.grown.frameNumber hframes₂
  have hcount : tableFrames s₂ ((s.directories src).pageTables i) 0 1024 =
      tableFrames s ((s.directories src).pageTables i) 0 1024 :=
    tableFrames_congr fun j _ _ => hpages _
  have hdone := clonePageTable_spec (s := s₂) (hu₂.grown.frameNumber ▸ hr.number)
    (hr.apartSource ptr hmem i hi hp.1) (by rw [hcount, hfree, ← hneed]; exact hr.frames)
  have honly := clonePageTable_entriesOnly s₂ ((s.directories src).pageTables i) ptr
  obtain ⟨s₃, hs₃⟩ : ∃ s₃, clonePageTable s₂ ((s.directories src).pageTables i) ptr = s₃ := ⟨_, rfl⟩
  rw [hs₃] at hdone honly hpDir hslot
  refine ⟨s₃.setTable pDir i ptr phys, hslot, ?_⟩
  change SlotsDone s (s₃.setDirectory pDir _) src pDir i 1 [ptr]
  set d : PageDirectory := { s₃.directories pDir with
      pageTables := update (s₃.directories pDir).pageTables i ptr
      pageTablesPhysical := update (s₃.directories pDir).pageTablesPhysical i
        (BitVec.ofNat 32 phys ||| 7#32) } with hd
  have haddr : ∀ n, n / 1024 = i →
      entryAddress (s₃.setDirectory pDir d) pDir n = ptr + 4 * (n % 1024) := by
    intro n hn
    rw [entryAddress, State.setDirectory_same, hn, hd]
    simp
  refine ⟨(hu₂.trans (honly.undisturbed hdone.grown)).trans (undisturbed_setDirectory _), ?_, ?_,
    fun j hj => ?_, fun j h₁ h₂ hs => ?_, fun j h₁ h₂ _ => ?_, fun n h₁ h₂ _ => ?_,
    fun n n' h₁ h₂ h₃ _ _ hn hn' => ?_⟩
  · rw [hneed, ← hcount, ← hfree]
    exact hdone.used
  · rw [tablesNeeded_one, if_pos hp, List.length_singleton]
  · have hne : j ≠ i := by
      rintro rfl
      rcases hj with hj | hj | hj
      · omega
      · omega
      · exact hp.1 hj
    rw [State.setDirectory_same, ← hpDir]
    exact ⟨update_of_ne hne _ _, update_of_ne hne _ _⟩
  · have hj : j = i := by omega
    subst hj
    exact absurd hs.2 hp.2
  · have hj : j = i := by omega
    subst hj
    rw [State.setDirectory_same]
    simp [hd]
  · have hni : n / 1024 = i := by omega
    rw [haddr n hni, entryAddress, hni]
    exact ((hdone.cloned (n % 1024) (Nat.zero_le _) (by omega)).earlier hu₂.grown (hpages _)).later
      (Grown.of_eq rfl rfl rfl) rfl
  · have hni : n / 1024 = i := by omega
    have hni' : n' / 1024 = i := by omega
    rw [entry, entryAddress, hni, ← hpages] at hn
    rw [entry, entryAddress, hni', ← hpages] at hn'
    rw [entry, entry, haddr n hni, haddr n' hni']
    exact hdone.distinct (n % 1024) (n' % 1024) (Nat.zero_le _) (by omega) (by omega) hn hn'

theorem Apart.entry_outside {ptr table : ℕ} (h : Apart ptr table) (n : ℕ) :
    table + 4 * (n % 1024) < ptr ∨ ptr + pageSize ≤ table + 4 * (n % 1024) := by
  unfold Apart pageSize at *
  omega

theorem Undisturbed.entryAddress_eq (h : Undisturbed s s' pDir ptrs) (hsrc : src ≠ pDir) (n : ℕ) :
    entryAddress s' src n = entryAddress s src n := by
  rw [entryAddress, h.tables src hsrc]
  rfl

/-- The entries of the private tables of the source stay. -/
theorem Undisturbed.source_pages (h : Undisturbed s s' pDir ptrs)
    (ha : ∀ ptr ∈ ptrs, ∀ j < 1024, (s.directories src).pageTables j ≠ 0 →
      Apart ptr ((s.directories src).pageTables j))
    {n : ℕ} (hn : n < 1024 * 1024) (hp : Private s src (n / 1024)) :
    s'.pages (entryAddress s src n) = s.pages (entryAddress s src n) :=
  h.pages _ fun ptr hptr => (ha ptr hptr (n / 1024) (by omega) hp.1).entry_outside n

theorem Undisturbed.framesNeeded_eq (h : Undisturbed s s' pDir ptrs) (hsrc : src ≠ pDir)
    (hk : s.pageDirectory ≠ pDir) (hik : i + k ≤ 1024)
    (ha : ∀ ptr ∈ ptrs, ∀ j < 1024, (s.directories src).pageTables j ≠ 0 →
      Apart ptr ((s.directories src).pageTables j)) :
    framesNeeded s' src i k = framesNeeded s src i k := by
  unfold framesNeeded
  congr 1
  apply List.map_congr_left
  intro j hj
  obtain ⟨-, h₂⟩ := List.mem_range'_1.mp hj
  rw [h.tables src hsrc]
  by_cases hp : Private s src j
  · rw [if_pos hp, if_pos ((h.private_iff hsrc hk).mpr hp)]
    apply tableFrames_congr
    intro e h₁ he
    have := h.source_pages ha (n := 1024 * j + e) (by omega)
    rw [entryAddress, show (1024 * j + e) / 1024 = j by omega,
      show (1024 * j + e) % 1024 = e by omega] at this
    exact this hp
  · rw [if_neg hp, if_neg (mt (h.private_iff hsrc hk).mp hp)]

theorem Undisturbed.tablesNeeded_eq (h : Undisturbed s s' pDir ptrs) (hsrc : src ≠ pDir)
    (hk : s.pageDirectory ≠ pDir) : tablesNeeded s' src i k = tablesNeeded s src i k := by
  apply List.countP_congr
  intro j _
  simp only [decide_eq_true_eq]
  exact h.private_iff hsrc hk

/-- Using up regions leaves the others ready. -/
theorem Ready.of_undisturbed (used : List ℕ) {rest : List ℕ} {i' k' : ℕ}
    (hr : Ready s src pDir i k (used ++ rest)) (hu : Undisturbed s s' pDir used)
    (hik : i' + k' ≤ 1024) (hframes : framesNeeded s src i' k' ≤ freeFrames s')
    (htables : tablesNeeded s src i' k' ≤ rest.length) : Ready s' src pDir i' k' rest := by
  have hrest : ∀ ptr ∈ rest, ptr ∈ used ++ rest := fun ptr hptr => List.mem_append_right _ hptr
  constructor
  · exact hu.grown.frameNumber ▸ hr.number
  · exact hr.source
  · exact hu.pageDirectory ▸ hr.kernel
  · exact hu.current ▸ hr.current
  · exact fun ptr hptr => hr.nonnull ptr (hrest ptr hptr)
  · exact fun ptr hptr => hu.mapped hr.current (hr.mapped ptr (hrest ptr hptr))
  · exact (List.pairwise_append.mp hr.disjoint).2.1
  · intro ptr hptr j hj hp
    rw [hu.tables src hr.source]
    exact hr.apartSource ptr (hrest ptr hptr) j hj (hu.tables src hr.source ▸ hp)
  · intro ptr hptr j hj
    rw [hu.pageDirectory, hu.tables _ hr.kernel]
    exact hr.apartKernel ptr (hrest ptr hptr) j hj
  · rwa [hu.framesNeeded_eq hr.source hr.kernel hik
      fun ptr hptr => hr.apartSource ptr (List.mem_append_left _ hptr)]
  · rwa [hu.tablesNeeded_eq hr.source hr.kernel]

theorem Ready.rest {used rest : List ℕ} (hik : i + (k + 1) ≤ 1024)
    (hr : Ready s src pDir i (k + 1) (used ++ rest)) (h : SlotsDone s s' src pDir i 1 used) :
    Ready s' src pDir (i + 1) k rest := by
  have hframes := hr.frames
  have htables := hr.tables
  have hused := h.used
  have htaken := h.taken
  rw [framesNeeded_succ] at hframes
  rw [tablesNeeded_succ, List.length_append] at htables
  exact hr.of_undisturbed _ h.undisturbed (by omega) (by omega) (by omega)

theorem SlotsDone.cons {used rest used' rest' : List ℕ} (hik : i + (k + 1) ≤ 1024)
    (hr : Ready s src pDir i (k + 1) (used ++ rest)) (hrest : rest = used' ++ rest')
    (h : SlotsDone s s' src pDir i 1 used) (ht : SlotsDone s' s'' src pDir (i + 1) k used') :
    SlotsDone s s'' src pDir i (k + 1) (used ++ used') := by
  have hu := h.undisturbed
  have hu' := ht.undisturbed
  have hpriv : ∀ j, Private s' src j ↔ Private s src j :=
    fun j => hu.private_iff hr.source hr.kernel
  have hused : ∀ ptr ∈ used, ∀ j < 1024, (s.directories src).pageTables j ≠ 0 →
      Apart ptr ((s.directories src).pageTables j) :=
    fun ptr hptr => hr.apartSource ptr (List.mem_append_left _ hptr)
  have hsrc : ∀ n, entryAddress s' src n = entryAddress s src n := hu.entryAddress_eq hr.source
  have hpages : ∀ n < 1024 * 1024, Private s src (n / 1024) →
      s'.pages (entryAddress s src n) = s.pages (entryAddress s src n) :=
    fun n hn hp => hu.source_pages hused hn hp
  -- the entries made in the first slot stay where they are
  have hhead : ∀ n, 1024 * i ≤ n → n < 1024 * (i + 1) →
      entryAddress s'' pDir n = entryAddress s' pDir n := by
    intro n h₁ h₂
    rw [entryAddress, (ht.outside _ (by omega)).1, entryAddress]
  have hstay : ∀ n, 1024 * i ≤ n → n < 1024 * (i + 1) → Private s src (n / 1024) →
      s''.pages (entryAddress s' pDir n) = s'.pages (entryAddress s' pDir n) := by
    intro n h₁ h₂ hp
    have hnew := h.fresh (n / 1024) (by omega) (by omega) hp
    refine hu'.pages _ fun ptr hptr => Apart.entry_outside ?_ n
    have := (List.pairwise_append.mp hr.disjoint).2.2 _ hnew ptr
      (hrest ▸ List.mem_append_left _ hptr)
    exact Or.symm this
  constructor
  · exact (hu.mono (List.subset_append_left _ _)).trans (hu'.mono (List.subset_append_right _ _))
  · have h₁ := h.used
    have h₂ := ht.used
    rw [hu.framesNeeded_eq hr.source hr.kernel (by omega) hused] at h₂
    rw [framesNeeded_succ]
    omega
  · have h₁ := h.taken
    have h₂ := ht.taken
    rw [hu.tablesNeeded_eq hr.source hr.kernel] at h₂
    rw [tablesNeeded_succ, List.length_append]
    omega
  · intro j hj
    have h₁ := h.outside j (by omega)
    have h₂ := ht.outside j (by rw [hu.tables src hr.source]; omega)
    exact ⟨h₂.1.trans h₁.1, h₂.2.trans h₁.2⟩
  · intro j h₁ h₂ hs
    rcases h₁.eq_or_lt with rfl | hlt
    · obtain ⟨h₃, h₄⟩ := ht.outside i (by omega)
      rw [h₃, h₄]
      exact h.shared i le_rfl (by omega) hs
    · have hs' : Shared s' src j := by
        rwa [Shared, hu.pageDirectory, hu.tables src hr.source, hu.tables _ hr.kernel]
      obtain ⟨h₃, h₄⟩ := ht.shared j hlt (by omega) hs'
      exact ⟨by rw [h₃, hu.tables src hr.source], by rw [h₄, hu.physical src hr.source]⟩
  · intro j h₁ h₂ hp
    rcases h₁.eq_or_lt with rfl | hlt
    · rw [(ht.outside i (by omega)).1]
      exact List.mem_append_left _ (h.fresh i le_rfl (by omega) hp)
    · exact List.mem_append_right _ (ht.fresh j hlt (by omega) ((hpriv j).mpr hp))
  · intro n h₁ h₂ hp
    by_cases hn : n < 1024 * (i + 1)
    · rw [hhead n h₁ hn]
      exact (h.cloned n h₁ hn hp).later hu'.grown (hstay n h₁ hn hp)
    · have := ht.cloned n (by omega) (by omega) ((hpriv _).mpr hp)
      rw [hsrc] at this
      exact this.earlier hu.grown (hpages n (by omega) hp)
  · intro n n' h₁ h₂ h₃ hp hp' hf hf'
    have hentry : ∀ n < 1024 * 1024, Private s src (n / 1024) → entry s' src n = entry s src n := by
      intro n hn hp
      rw [entry, hsrc, hpages n hn hp]
      rfl
    by_cases hn' : n' < 1024 * (i + 1)
    · have := h.distinct n n' h₁ h₂ hn' hp hp' hf hf'
      rwa [entry, entry, hhead n h₁ (by omega), hhead n' (by omega) hn', hstay n h₁ (by omega) hp,
        hstay n' (by omega) hn' hp']
    · by_cases hn : n < 1024 * (i + 1)
      · -- the frame of the first entry is busy when the second one is found free
        intro heq
        have hbusy := (h.cloned n h₁ hn hp).taken hf
        have hfree := (ht.cloned n' (by omega) (by omega) ((hpriv _).mpr hp')).free (by
          rw [hsrc, hpages n' (by omega) hp']
          exact hf')
        rw [entry, entry, hhead n h₁ hn, hstay n h₁ hn hp] at heq
        rw [← heq, hbusy] at hfree
        simp at hfree
      · exact ht.distinct n n' (by omega) h₂ (by omega) ((hpriv _).mpr hp) ((hpriv _).mpr hp')
          (by rw [hentry n (by omega) hp]; exact hf) (by rw [hentry n' (by omega) hp']; exact hf')

/-- One turn of the loop. -/
theorem cloneSlot_spec (hi : i < 1024) (hr : Ready s src pDir i 1 ptrs) :
    ∃ s' used rest, ptrs = used ++ rest ∧ cloneSlot s src pDir i ptrs = some (s', rest) ∧
      SlotsDone s s' src pDir i 1 used := by
  by_cases hp : Private s src i
  · have htables := hr.tables
    rw [tablesNeeded_one, if_pos hp] at htables
    cases ptrs with
    | nil => simp at htables
    | cons ptr rest =>
      obtain ⟨s', hs', hdone⟩ := cloneSlot_private hi hr hp
      exact ⟨s', [ptr], rest, rfl, hs', hdone⟩
  · obtain ⟨s', hs', hdone⟩ := cloneSlot_not_private ptrs hp
    exact ⟨s', [], ptrs, rfl, hs', hdone⟩

theorem Ready.first (hr : Ready s src pDir i (k + 1) ptrs) : Ready s src pDir i 1 ptrs :=
  { hr with
    frames := by
      have := hr.frames
      rw [framesNeeded_succ] at this
      omega
    tables := by
      have := hr.tables
      rw [tablesNeeded_succ] at this
      omega }

/-- The whole loop. -/
theorem cloneSlots_spec (k : ℕ) (hik : i + k ≤ 1024) (hr : Ready s src pDir i k ptrs) :
    ∃ s' used rest, ptrs = used ++ rest ∧ cloneSlots s src pDir i ptrs k = some (s', rest) ∧
      SlotsDone s s' src pDir i k used := by
  induction k generalizing s i ptrs with
  | zero =>
    refine ⟨s, [], ptrs, rfl, rfl, Undisturbed.refl s _ _, rfl, rfl, fun _ _ => ⟨rfl, rfl⟩, ?_, ?_, ?_, ?_⟩
    · exact fun j h₁ h₂ => by omega
    · exact fun j h₁ h₂ => by omega
    · exact fun n h₁ h₂ => by omega
    · exact fun n n' h₁ h₂ h₃ => by omega
  | succ k ih =>
    obtain ⟨s₁, used, rest, rfl, hs₁, hdone⟩ := cloneSlot_spec (by omega) hr.first
    obtain ⟨s₂, used', rest', hrest, hs₂, hdone'⟩ := ih (by omega) (hr.rest hik hdone)
    refine ⟨s₂, used ++ used', rest', by rw [hrest, List.append_assoc], ?_,
      hdone.cons hik hr hrest hdone'⟩
    rw [cloneSlots_succ, hs₁]
    exact hs₂

end ExperimentalKernel.Paging
