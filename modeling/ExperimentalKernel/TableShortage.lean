import ExperimentalKernel.AddressSpaceIsolation
import ExperimentalKernel.PageWalks

/-!
# Making a table without memory for it

`getPage` uses what `kmalloc` returns without a test. When the heap returns null the new
table lies at address 0: its page is looked up there, cleared there, and an entry in it
is returned.
-/

namespace ExperimentalKernel.Paging
open ByteMemory Function

/-- How a call ends. It does not return if it runs into a `for(;;)`, its own or the one
of the page fault handler. `stores` are the addresses and sizes that `memset` was given. -/
structure Outcome where
  returned : Option ℕ
  state : State
  stores : List (ℕ × ℕ)

/-- The page of `v` is present, so that the kernel can write it. -/
def Accessible (s : State) (v : ℕ) : Prop :=
  s.paging = true →
    (s.directories s.currentPageDirectory).pageTables (v / 0x1000 / 1024) ≠ 0 ∧
      (entry s s.currentPageDirectory (v / 0x1000)).present = true

instance (s : State) (v : ℕ) : Decidable (Accessible s v) :=
  inferInstanceAs (Decidable (_ → _ ∧ _))

/-- `memset(table, 0, sizeof(PageTable))` with the bytes that it clears. -/
def State.memsetTable (s : State) (table : ℕ) : State :=
  { s.clearTable table with memory := fill s.memory (translate s table) 0 pageSize }

/-- `getPage(physAddress, true, directory)`; the heap answers with `ptr`. -/
def getPageOutcome (s : State) (physAddress directory ptr : ℕ) : Outcome :=
  match findPage s physAddress directory with
  | some (page, s₁) => ⟨some page, s₁, []⟩
  | none =>
    let directory := orCurrent s directory
    let n := physAddress / 0x1000
    match kmalloc s ptr with
    | none => ⟨none, s, []⟩
    | some (tmp, s₁) =>
      let s₂ := s₁.setTable directory (n / 1024) ptr tmp
      if Accessible s₂ ptr then
        ⟨some (ptr + 4 * (n % 1024)), s₂.memsetTable ptr, [(ptr, pageSize)]⟩
      else ⟨none, s₂, []⟩

/-- An entry pointer is returned where `getPage` returns it. -/
theorem getPage_of_returned {s : State} {a directory ptr page : ℕ}
    (h : (getPageOutcome s a directory ptr).returned = some page) :
    ∃ s', getPage s a true directory ptr = some (page, s') ∧
      (getPageOutcome s a directory ptr).state =
        { s' with memory := (getPageOutcome s a directory ptr).state.memory } := by
  unfold getPageOutcome at h ⊢
  unfold getPage
  cases hfind : findPage s a directory with
  | some r =>
    rw [hfind] at h
    cases h
    exact ⟨r.2, rfl, rfl⟩
  | none =>
    rw [hfind] at h
    dsimp only at h ⊢
    cases hk : kmalloc s ptr with
    | none =>
      rw [hk] at h
      cases h
    | some r =>
      rw [hk] at h
      dsimp only at h ⊢
      split at h
      · next hacc =>
        cases h
        rw [if_pos hacc]
        refine ⟨_, rfl, ?_⟩
        simp only [State.memsetTable]
      · cases h

/-- The call did not return, stored nothing and left the directory as it was. -/
structure FailsCleanly (s : State) (directory : ℕ) (o : Outcome) : Prop where
  tables : (o.state.directories (orCurrent s directory)).pageTables =
    (s.directories (orCurrent s directory)).pageTables
  physical : (o.state.directories (orCurrent s directory)).pageTablesPhysical =
    (s.directories (orCurrent s directory)).pageTablesPhysical
  stores : o.stores = []
  noEntry : o.returned = none

section Null

variable {s : State} {a directory : ℕ}

/-- What `kmalloc` stores for a null pointer: the frame of page 0, whatever it is. -/
def nullFrame (s : State) : ℕ := (entry s s.currentPageDirectory 0).frame.toNat * pageSize

/-- The state when `memset` is reached. -/
def nullTable (s : State) (a directory : ℕ) : State :=
  (s.setDirectory s.currentPageDirectory
    ((s.directories s.currentPageDirectory).orPresent 0)).setTable (orCurrent s directory)
      (a / 0x1000 / 1024) 0 (nullFrame s)

/-- The slot already holds what would be written to it. -/
structure SlotStays (s : State) (a directory : ℕ) : Prop where
  slot : BitVec.ofNat 32 (nullFrame s) ||| 7#32 =
    (s.directories (orCurrent s directory)).pageTablesPhysical (a / 0x1000 / 1024)
  first : orCurrent s directory = s.currentPageDirectory →
    (s.directories s.currentPageDirectory).pageTablesPhysical 0 ||| 7#32 =
      (s.directories s.currentPageDirectory).pageTablesPhysical 0

theorem findPage_missing
    (h : (s.directories (orCurrent s directory)).pageTables (a / 0x1000 / 1024) = 0) :
    findPage s a directory = none :=
  if_neg (not_not.mpr h)

/-- Without a table for address 0 the call hangs in `kmalloc`. -/
theorem getPageOutcome_hangs (hheap : s.heapEnabled = true)
    (h : (s.directories (orCurrent s directory)).pageTables (a / 0x1000 / 1024) = 0)
    (h0 : (s.directories s.currentPageDirectory).pageTables 0 = 0) :
    getPageOutcome s a directory 0 = ⟨none, s, []⟩ := by
  have hnone : findPage s 0 0 = none := if_neg (not_not.mpr h0)
  have hk : kmalloc s 0 = none := by
    simp only [kmalloc, hheap, ↓reduceIte, hnone, Option.map_none]
  simp only [getPageOutcome, findPage_missing h, hk]

theorem nullTable_tables
    (h : (s.directories (orCurrent s directory)).pageTables (a / 0x1000 / 1024) = 0) (x : ℕ) :
    ((nullTable s a directory).directories x).pageTables = (s.directories x).pageTables := by
  have hor := orPresent_tables s s.currentPageDirectory 0
  rw [nullTable]
  generalize s.setDirectory s.currentPageDirectory
    ((s.directories s.currentPageDirectory).orPresent 0) = s₁ at hor ⊢
  rw [State.setTable]
  rcases eq_or_ne x (orCurrent s directory) with rfl | hne
  · rw [State.setDirectory_same]
    dsimp only
    rw [hor, ← h, update_eq_self]
  · rw [State.setDirectory_of_ne s₁ _ hne, hor]

theorem nullTable_accessible
    (h : (s.directories (orCurrent s directory)).pageTables (a / 0x1000 / 1024) = 0) :
    Accessible (nullTable s a directory) 0 ↔ Accessible s 0 := by
  have htables := nullTable_tables h s.currentPageDirectory
  have hcurrent : (nullTable s a directory).currentPageDirectory = s.currentPageDirectory := rfl
  have hpages : (nullTable s a directory).pages = s.pages := rfl
  have hpaging : (nullTable s a directory).paging = s.paging := rfl
  simp only [Accessible, entry, entryAddress, hcurrent, htables, hpages, hpaging]

/-- With one the call comes as far as `memset`. -/
theorem getPageOutcome_null (hheap : s.heapEnabled = true)
    (h : (s.directories (orCurrent s directory)).pageTables (a / 0x1000 / 1024) = 0)
    (h0 : (s.directories s.currentPageDirectory).pageTables 0 ≠ 0) :
    getPageOutcome s a directory 0 =
      if Accessible s 0 then
        ⟨some (0 + 4 * (a / 0x1000 % 1024)), (nullTable s a directory).memsetTable 0, [(0, pageSize)]⟩
      else ⟨none, nullTable s a directory, []⟩ := by
  have hk := @kmalloc_enabled s 0 hheap fun _ => h0
  have hs₂ : (s.setDirectory s.currentPageDirectory
      ((s.directories s.currentPageDirectory).orPresent (0 / 0x1000 / 1024))).setTable
      (orCurrent s directory) (a / 0x1000 / 1024) 0
      ((entry s s.currentPageDirectory (0 / 0x1000)).frame.toNat * pageSize + 0 % 0x1000) =
      nullTable s a directory := by
    simp only [Nat.zero_div, Nat.zero_mod, Nat.add_zero, nullTable, nullFrame]
  simp only [getPageOutcome, findPage_missing h, hk, hs₂, nullTable_accessible h]

theorem nullTable_physical_iff
    (h : (s.directories (orCurrent s directory)).pageTables (a / 0x1000 / 1024) = 0)
    (h0 : (s.directories s.currentPageDirectory).pageTables 0 ≠ 0) :
    ((nullTable s a directory).directories (orCurrent s directory)).pageTablesPhysical =
        (s.directories (orCurrent s directory)).pageTablesPhysical ↔ SlotStays s a directory := by
  have hphysical : ((nullTable s a directory).directories (orCurrent s directory)).pageTablesPhysical =
      update ((s.setDirectory s.currentPageDirectory
        ((s.directories s.currentPageDirectory).orPresent 0)).directories
          (orCurrent s directory)).pageTablesPhysical (a / 0x1000 / 1024)
        (BitVec.ofNat 32 (nullFrame s) ||| 7#32) := by
    rw [nullTable, State.setTable, State.setDirectory_same]
  rw [hphysical]
  rcases eq_or_ne (orCurrent s directory) s.currentPageDirectory with hcur | hcur
  · have hi : a / 0x1000 / 1024 ≠ 0 := by
      intro hi
      rw [hi, hcur] at h
      exact h0 h
    rw [hcur, State.setDirectory_same, PageDirectory.orPresent]
    dsimp only
    constructor
    · intro heq
      refine ⟨?_, fun _ => ?_⟩
      · rw [hcur]
        simpa only [update_self] using congrFun heq (a / 0x1000 / 1024)
      · simpa only [update_self, update_of_ne hi.symm] using congrFun heq 0
    · intro hstays
      have hslot := hstays.slot
      rw [hcur] at hslot
      rw [hslot, hstays.first hcur, update_eq_self, update_eq_self]
  · rw [State.setDirectory_of_ne _ _ hcur, update_eq_self_iff]
    constructor
    · intro hslot
      exact ⟨hslot, fun hc => absurd hc hcur⟩
    · intro hstays
      exact hstays.slot

/-- A call that gets no memory fails cleanly in two cases: it hangs in `kmalloc`, or
clearing page 0 faults and what was stored for it was there before. Where it returns, it does
so as `getPage`. -/
theorem getPage_failsCleanly_iff (hheap : s.heapEnabled = true)
    (h : (s.directories (orCurrent s directory)).pageTables (a / 0x1000 / 1024) = 0) :
    (FailsCleanly s directory (getPageOutcome s a directory 0) ↔
      (s.directories s.currentPageDirectory).pageTables 0 = 0 ∨
        ¬ Accessible s 0 ∧ SlotStays s a directory) ∧
    ∀ page, (getPageOutcome s a directory 0).returned = some page →
      ∃ s', getPage s a true directory 0 = some (page, s') ∧
        (getPageOutcome s a directory 0).state =
          { s' with memory := (getPageOutcome s a directory 0).state.memory } := by
  refine ⟨?_, fun page hpage => getPage_of_returned hpage⟩
  rcases eq_or_ne ((s.directories s.currentPageDirectory).pageTables 0) 0 with h0 | h0
  · rw [getPageOutcome_hangs hheap h h0]
    exact iff_of_true ⟨rfl, rfl, rfl, rfl⟩ (Or.inl h0)
  rw [getPageOutcome_null hheap h h0, or_iff_right h0]
  split
  · next hacc =>
    constructor
    · intro hfails
      cases hfails.noEntry
    · intro hr
      exact absurd hacc hr.1
  · next hacc =>
    rw [and_iff_right hacc, ← nullTable_physical_iff h h0]
    constructor
    · intro hfails
      exact hfails.physical
    · intro hphysical
      exact ⟨by rw [nullTable_tables h], hphysical, rfl, rfl⟩

end Null

/-- The same two directories when page 0 is not present, and slot 2 was left with the entry
of a table at address 0. -/
def nullUnmapped : State :=
  { twoTables with
    directories := fun d => { twoTables.directories d with
      pageTablesPhysical := fun i => if i = 0 ∨ i = 2 then 7#32 else 0 }
    pages := fun _ => Page.zero }

theorem getPage_failsCleanly_iff_nullUnmapped :
    FailsCleanly nullUnmapped 0 (getPageOutcome nullUnmapped 0x800000 0 0) := by
  refine (getPage_failsCleanly_iff rfl (by decide)).1.mpr (.inr ⟨by decide, ?_⟩)
  constructor
  · decide
  · intro _
    decide

/-- Page 0 is mapped: it is cleared, and an entry in it is returned. -/
theorem getPage_fails_uncleanly :
    (twoTables.heapEnabled = true ∧
      (twoTables.directories (orCurrent twoTables 0)).pageTables (0x800000 / 0x1000 / 1024) = 0) ∧
    (getPageOutcome twoTables 0x800000 0 0).returned = some 0 ∧
    (getPageOutcome twoTables 0x800000 0 0).stores = [(0, pageSize)] ∧
    ¬ FailsCleanly twoTables 0 (getPageOutcome twoTables 0x800000 0 0) := by
  have hmissing : (twoTables.directories (orCurrent twoTables 0)).pageTables (0x800000 / 0x1000 / 1024) = 0 := by
    decide
  have houtcome := getPageOutcome_null (s := twoTables) rfl hmissing (by decide)
  rw [if_pos (by decide)] at houtcome
  rw [houtcome]
  refine ⟨⟨rfl, hmissing⟩, by decide, rfl, ?_⟩
  intro hfails
  cases hfails.noEntry

end ExperimentalKernel.Paging
