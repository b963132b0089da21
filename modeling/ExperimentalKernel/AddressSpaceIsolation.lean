import ExperimentalKernel.DirectoryCloning

/-!
# Isolation of a cloned address space

Loads and stores through a directory go where its tables send them. Tables and
directories are not in the memory that a store changes: they lie in the heap, whose
frames only shared tables map.
-/

namespace ExperimentalKernel.Paging
open ByteMemory Function

/-- The physical address of virtual address `a`. -/
def walk (s : State) (directory a : ℕ) : Option ℕ :=
  if (s.directories directory).pageTables (a / 0x1000 / 1024) ≠ 0 ∧
      (entry s directory (a / 0x1000)).present = true then
    some ((entry s directory (a / 0x1000)).frame.toNat * pageSize + a % 0x1000)
  else none

def loadByte (s : State) (directory a : ℕ) : Option UInt8 := (walk s directory a).map s.memory

def storeByte (s : State) (directory a : ℕ) (b : UInt8) : State :=
  match walk s directory a with
  | none => s
  | some x => { s with memory := write8 s.memory x b }

/-- The four bytes of a word, which may lie on two pages. -/
def loadWord (s : State) (directory a : ℕ) : List (Option UInt8) :=
  (List.range 4).map fun i => loadByte s directory (add32 a i)

def storeBytes (s : State) (directory : ℕ) (ws : List (ℕ × UInt8)) : State :=
  ws.foldl (fun s w => storeByte s directory w.1 w.2) s

/-- The virtual address lies in a private table. -/
def PrivateAddress (s : State) (directory a : ℕ) : Prop :=
  a < wordSize ∧ Private s directory (a / 0x1000 / 1024)

/-- Whatever memory holds, stores through private addresses of `d` change no word
read through `d'`. -/
def Unobservable (s : State) (d d' : ℕ) : Prop :=
  ∀ m ws, (∀ w ∈ ws, PrivateAddress s d w.1) → ∀ a < wordSize,
    loadWord (storeBytes { s with memory := m } d ws) d' a = loadWord { s with memory := m } d' a

/-- Private entries of `d` map no frame that `d'` maps. -/
def FramesApart (s : State) (d d' : ℕ) : Prop :=
  ∀ n < 1024 * 1024, ∀ n' < 1024 * 1024, Private s d (n / 1024) → (entry s d n).present = true →
    (s.directories d').pageTables (n' / 1024) ≠ 0 → (entry s d' n').present = true →
    (entry s d n).frame ≠ (entry s d' n').frame

/-- A frame that the private entries of `d` do not map. -/
def OutOfReach (s : State) (d f : ℕ) : Prop :=
  ∀ n < 1024 * 1024, Private s d (n / 1024) → (entry s d n).present = true →
    (entry s d n).frame.toNat ≠ f

theorem storeByte_outOfReach {s : State} {d a f : ℕ} {m : Mem} {b : UInt8}
    (hf : OutOfReach s d f) (ha : PrivateAddress s d a) :
    ∃ m', storeByte { s with memory := m } d a b = { s with memory := m' } ∧
      ∀ o < pageSize, m' (f * pageSize + o) = m (f * pageSize + o) := by
  obtain ⟨hlt, hp⟩ := ha
  by_cases hw : (entry s d (a / 0x1000)).present = true
  · have hwalk : walk { s with memory := m } d a =
        some ((entry s d (a / 0x1000)).frame.toNat * pageSize + a % 0x1000) := if_pos ⟨hp.1, hw⟩
    refine ⟨_, by rw [storeByte, hwalk], fun o ho => write8_of_ne m b ?_⟩
    have hne := hf (a / 0x1000) (by unfold wordSize at hlt; omega) hp hw
    unfold pageSize at *
    omega
  · have hwalk : walk { s with memory := m } d a = none := if_neg fun h => hw h.2
    exact ⟨m, by rw [storeByte, hwalk], fun _ _ => rfl⟩

theorem storeBytes_outOfReach {s : State} {d f : ℕ} (hf : OutOfReach s d f)
    (ws : List (ℕ × UInt8)) (m : Mem) (hws : ∀ w ∈ ws, PrivateAddress s d w.1) :
    ∃ m', storeBytes { s with memory := m } d ws = { s with memory := m' } ∧
      ∀ o < pageSize, m' (f * pageSize + o) = m (f * pageSize + o) := by
  induction ws generalizing m with
  | nil => exact ⟨m, rfl, fun _ _ => rfl⟩
  | cons w ws ih =>
    obtain ⟨m₁, h₁, hm₁⟩ := storeByte_outOfReach (m := m) (b := w.2) hf (hws w List.mem_cons_self)
    obtain ⟨m₂, h₂, hm₂⟩ := ih m₁ fun w' hw' => hws w' (List.mem_cons_of_mem _ hw')
    refine ⟨m₂, ?_, fun o ho => (hm₂ o ho).trans (hm₁ o ho)⟩
    rw [← h₂, ← h₁]
    rfl

theorem storeBytes_state {s : State} {d : ℕ} (ws : List (ℕ × UInt8)) (m : Mem) :
    ∃ m', storeBytes { s with memory := m } d ws = { s with memory := m' } := by
  induction ws generalizing m with
  | nil => exact ⟨m, rfl⟩
  | cons w ws ih =>
    have hstep : ∃ m₁, storeByte { s with memory := m } d w.1 w.2 = { s with memory := m₁ } := by
      unfold storeByte
      split
      · exact ⟨m, rfl⟩
      · exact ⟨_, rfl⟩
    obtain ⟨m₁, h₁⟩ := hstep
    obtain ⟨m₂, h₂⟩ := ih m₁
    exact ⟨m₂, by rw [← h₂, ← h₁]; rfl⟩

theorem FramesApart.unobservable {s : State} {d d' : ℕ} (h : FramesApart s d d') :
    Unobservable s d d' := by
  intro m ws hws a ha
  apply List.map_congr_left
  intro i _
  have hlt := add32_lt a i
  generalize add32 a i = x at hlt
  unfold wordSize at hlt
  by_cases hw : (s.directories d').pageTables (x / 0x1000 / 1024) ≠ 0 ∧
      (entry s d' (x / 0x1000)).present = true
  · have hreach : OutOfReach s d (entry s d' (x / 0x1000)).frame.toNat := by
      intro n hn hp hpres heq
      exact h n hn (x / 0x1000) (by omega) hp hpres hw.1 hw.2 (BitVec.eq_of_toNat_eq heq)
    obtain ⟨m', hs', hm'⟩ := storeBytes_outOfReach hreach ws m hws
    rw [hs']
    have hwalk : ∀ m, walk { s with memory := m } d' x =
        some ((entry s d' (x / 0x1000)).frame.toNat * pageSize + x % 0x1000) := fun _ => if_pos hw
    rw [loadByte, loadByte, hwalk, hwalk]
    exact congrArg some (hm' _ (Nat.mod_lt _ (by decide)))
  · obtain ⟨m', hs'⟩ := storeBytes_state (s := s) (d := d) ws m
    have hwalk : ∀ m, walk { s with memory := m } d' x = none := fun _ => if_neg hw
    rw [hs', loadByte, loadByte, hwalk, hwalk]
    rfl

/-- Every frame that `d` maps is busy, and no shared table maps a private one. -/
structure Isolated (s : State) (d : ℕ) : Prop where
  busy : ∀ n < 1024 * 1024, (s.directories d).pageTables (n / 1024) ≠ 0 →
    (entry s d n).present = true → busy s.frames (entry s d n).frame.toNat = true
  unshared : ∀ n < 1024 * 1024, ∀ n' < 1024 * 1024, Private s d (n / 1024) →
    (entry s d n).present = true → Shared s d (n' / 1024) → (entry s d n').present = true →
    (entry s d n).frame ≠ (entry s d n').frame

/-- A shared address, or a private one whose page has a frame. -/
def Carried (s : State) (d a : ℕ) : Prop :=
  Shared s d (a / 0x1000 / 1024) ∨
    Private s d (a / 0x1000 / 1024) ∧ (entry s d (a / 0x1000)).frame ≠ 0

/-- In `s'` the directory `d'` is an isolated copy of what `d` was in `s`. -/
structure Forked (s s' : State) (d d' : ℕ) : Prop where
  kept : ∀ a < wordSize, walk s' d a = walk s d a ∧ loadWord s' d a = loadWord s d a
  sharedTable : ∀ i < 1024, Shared s d i →
    (s'.directories d').pageTables i = (s'.directories d).pageTables i ∧ Shared s' d' i ∧
    tableFrame ((s'.directories d').pageTablesPhysical i) =
      tableFrame ((s'.directories d).pageTablesPhysical i)
  sharedWalk : ∀ a < wordSize, Shared s d (a / 0x1000 / 1024) → walk s' d' a = walk s' d a
  privateSlot : ∀ i < 1024, Private s' d' i ↔ Private s d i
  flags : ∀ n < 1024 * 1024, Private s d (n / 1024) → (entry s d n).frame ≠ 0 →
    entry s' d' n = { entry s d n with frame := (entry s' d' n).frame }
  words : ∀ a < wordSize, (∀ i < 4, Carried s d (add32 a i)) → loadWord s' d' a = loadWord s' d a
  free : ∀ n < 1024 * 1024, Private s d (n / 1024) → (entry s d n).frame ≠ 0 →
    busy s.frames (entry s' d' n).frame.toNat = false
  distinct : ∀ n n', n < n' → n' < 1024 * 1024 → Private s d (n / 1024) → Private s d (n' / 1024) →
    (entry s d n).frame ≠ 0 → (entry s d n').frame ≠ 0 →
    (entry s' d' n).frame ≠ (entry s' d' n').frame
  parentUnobservable : Unobservable s' d d'
  childUnobservable : Unobservable s' d' d

theorem private_or_shared {s : State} {d i : ℕ} (h : (s.directories d).pageTables i ≠ 0) :
    Private s d i ∨ Shared s d i := by
  by_cases hk : (s.directories d).pageTables i = (s.directories s.pageDirectory).pageTables i
  · exact .inr ⟨h, hk⟩
  · exact .inl ⟨h, hk⟩

section Conclusions

variable {s s₂ s' : State} {src pDir : ℕ} {ptrs used rest : List ℕ}

/-- What the loop leaves behind when it starts from an empty directory. -/
structure Cloned (s s' : State) (src pDir : ℕ) (ptrs : List ℕ) : Prop where
  undisturbed : Undisturbed s s' pDir ptrs
  source : src ≠ pDir
  kernel : s.pageDirectory ≠ pDir
  apart : ∀ ptr ∈ ptrs, ∀ j < 1024, (s.directories src).pageTables j ≠ 0 →
    Apart ptr ((s.directories src).pageTables j)
  null : ∀ j, (s.directories src).pageTables j = 0 → (s'.directories pDir).pageTables j = 0
  shared : ∀ j < 1024, Shared s src j →
    (s'.directories pDir).pageTables j = (s.directories src).pageTables j ∧
    tableFrame ((s'.directories pDir).pageTablesPhysical j) =
      tableFrame ((s.directories src).pageTablesPhysical j)
  fresh : ∀ j < 1024, Private s src j → (s'.directories pDir).pageTables j ≠ 0 ∧
    (s'.directories pDir).pageTables j ≠ (s.directories s.pageDirectory).pageTables j
  cloned : ∀ n < 1024 * 1024, Private s src (n / 1024) →
    EntryCloned s s' (entryAddress s src n) (entryAddress s' pDir n)
  distinct : ∀ n n', n < n' → n' < 1024 * 1024 →
    Private s src (n / 1024) → Private s src (n' / 1024) →
    (entry s src n).frame ≠ 0 → (entry s src n').frame ≠ 0 →
    (entry s' pDir n).frame ≠ (entry s' pDir n').frame

theorem Cloned.source_entry (h : Cloned s s' src pDir ptrs) {n : ℕ} (hn : n < 1024 * 1024)
    (h0 : (s.directories src).pageTables (n / 1024) ≠ 0) : entry s' src n = entry s src n := by
  rw [entry, h.undisturbed.entryAddress_eq h.source]
  exact h.undisturbed.pages _ fun ptr hptr =>
    (h.apart ptr hptr (n / 1024) (by omega) h0).entry_outside n

theorem Cloned.shared_entry (h : Cloned s s' src pDir ptrs) {n : ℕ} (hn : n < 1024 * 1024)
    (hs : Shared s src (n / 1024)) : entry s' pDir n = entry s src n := by
  rw [← h.source_entry hn hs.1, entry, entry, entryAddress, entryAddress,
    (h.shared (n / 1024) (by omega) hs).1, h.undisturbed.tables src h.source]

theorem Cloned.source_walk (h : Cloned s s' src pDir ptrs) {a : ℕ} (ha : a < wordSize) :
    walk s' src a = walk s src a := by
  unfold wordSize at ha
  rw [walk, walk, h.undisturbed.tables src h.source]
  by_cases h0 : (s.directories src).pageTables (a / 0x1000 / 1024) = 0
  · simp [h0]
  · rw [h.source_entry (by omega) h0]

theorem Cloned.shared_walk (h : Cloned s s' src pDir ptrs) {a : ℕ} (ha : a < wordSize)
    (hs : Shared s src (a / 0x1000 / 1024)) : walk s' pDir a = walk s src a := by
  unfold wordSize at ha
  rw [walk, walk, (h.shared (a / 0x1000 / 1024) (by omega) hs).1, h.shared_entry (by omega) hs]

theorem Cloned.source_byte (h : Cloned s s' src pDir ptrs) (hi : Isolated s src) {a : ℕ}
    (ha : a < wordSize) : loadByte s' src a = loadByte s src a := by
  rw [loadByte, loadByte, h.source_walk ha]
  unfold wordSize at ha
  unfold walk
  split
  · next hw =>
    have hbusy := hi.busy (a / 0x1000) (by omega) hw.1 hw.2
    have hlt : a % 0x1000 < pageSize := Nat.mod_lt _ (by decide)
    refine congrArg some (h.undisturbed.grown.memory _ (.inl ?_))
    rwa [frame_offset_div _ hlt]
  · rfl

theorem Cloned.private_iff (h : Cloned s s' src pDir ptrs) {i : ℕ} (hi : i < 1024) :
    Private s' pDir i ↔ Private s src i := by
  rw [Private, h.undisturbed.pageDirectory, h.undisturbed.tables _ h.kernel]
  constructor
  · rintro ⟨h₁, h₂⟩
    by_cases h0 : (s.directories src).pageTables i = 0
    · exact absurd (h.null i h0) h₁
    · rcases private_or_shared h0 with hp | hs
      · exact hp
      · rw [(h.shared i hi hs).1] at h₂
        exact absurd hs.2 h₂
  · exact h.fresh i hi

theorem Cloned.flags (h : Cloned s s' src pDir ptrs) {n : ℕ} (hn : n < 1024 * 1024)
    (hp : Private s src (n / 1024)) (hf : (entry s src n).frame ≠ 0) :
    entry s' pDir n = { entry s src n with frame := (entry s' pDir n).frame } :=
  (h.cloned n hn hp).flags hf

/-- The copy of a page holds the bytes of the page. -/
theorem Cloned.private_byte (h : Cloned s s' src pDir ptrs) (hi : Isolated s src) {a : ℕ}
    (ha : a < wordSize) (hp : Private s src (a / 0x1000 / 1024))
    (hf : (entry s src (a / 0x1000)).frame ≠ 0) : loadByte s' pDir a = loadByte s src a := by
  unfold wordSize at ha
  have hn : a / 0x1000 < 1024 * 1024 := by omega
  have hflags := h.flags hn hp hf
  have hpresent : (entry s' pDir (a / 0x1000)).present = (entry s src (a / 0x1000)).present := by
    rw [hflags]
  have hnew := (h.fresh (a / 0x1000 / 1024) (by omega) hp).1
  rw [loadByte, loadByte, walk, walk, hpresent]
  by_cases hpr : (entry s src (a / 0x1000)).present = true
  · rw [if_pos ⟨hnew, hpr⟩, if_pos ⟨hp.1, hpr⟩]
    exact congrArg some ((h.cloned _ hn hp).content hf (hi.busy _ hn hp.1 hpr) _
      (Nat.mod_lt _ (by decide)))
  · rw [if_neg fun h => hpr h.2, if_neg fun h => hpr h.2]
    rfl

/-- An entry of the copy is shared or has a frame that was free. -/
theorem Cloned.copy_cases (h : Cloned s s' src pDir ptrs) {n : ℕ} (hn : n < 1024 * 1024)
    (h0 : (s'.directories pDir).pageTables (n / 1024) ≠ 0) (hpr : (entry s' pDir n).present = true) :
    (Shared s src (n / 1024) ∧ entry s' pDir n = entry s src n) ∨
      (Private s src (n / 1024) ∧ busy s.frames (entry s' pDir n).frame.toNat = false) := by
  rcases private_or_shared (fun hnull => h0 (h.null _ hnull)) with hp | hs
  · refine .inr ⟨hp, (h.cloned n hn hp).free fun hf => ?_⟩
    rw [entry, (h.cloned n hn hp).skipped hf] at hpr
    simp [Page.zero] at hpr
  · exact .inl ⟨hs, h.shared_entry hn hs⟩

theorem Cloned.framesApart_parent (h : Cloned s s' src pDir ptrs) (hi : Isolated s src) :
    FramesApart s' src pDir := by
  intro n hn n' hn' hp hpr h0 hpr' heq
  have hp' := (h.undisturbed.private_iff h.source h.kernel).mp hp
  rw [h.source_entry hn hp'.1] at hpr heq
  rcases h.copy_cases hn' h0 hpr' with ⟨hs, he⟩ | ⟨-, hfree⟩
  · rw [he] at hpr' heq
    exact hi.unshared n hn n' hn' hp' hpr hs hpr' heq
  · rw [← heq, hi.busy n hn hp'.1 hpr] at hfree
    simp at hfree

theorem Cloned.framesApart_child (h : Cloned s s' src pDir ptrs) (hi : Isolated s src) :
    FramesApart s' pDir src := by
  intro n hn n' hn' hp hpr h0 hpr' heq
  have hp' := (h.private_iff (by omega)).mp hp
  rw [h.undisturbed.tables src h.source] at h0
  rw [h.source_entry hn' h0] at hpr' heq
  rcases h.copy_cases hn hp.1 hpr with ⟨hs, -⟩ | ⟨-, hfree⟩
  · exact hp'.2 hs.2
  · rw [heq, hi.busy n' hn' h0 hpr'] at hfree
    simp at hfree

theorem Cloned.forked (h : Cloned s s' src pDir ptrs) (hi : Isolated s src) :
    Forked s s' src pDir := by
  constructor
  · refine fun a ha => ⟨h.source_walk ha, List.map_congr_left fun i _ => ?_⟩
    exact h.source_byte hi (add32_lt a i)
  · intro i hlt hs
    obtain ⟨h₁, h₂⟩ := h.shared i hlt hs
    rw [h.undisturbed.tables src h.source, h.undisturbed.physical src h.source]
    refine ⟨h₁, ?_, h₂⟩
    rw [Shared, h.undisturbed.pageDirectory, h.undisturbed.tables _ h.kernel, h₁]
    exact hs
  · exact fun a ha hs => (h.shared_walk ha hs).trans (h.source_walk ha).symm
  · exact fun i hlt => h.private_iff hlt
  · exact fun n hn hp hf => h.flags hn hp hf
  · intro a ha hc
    apply List.map_congr_left
    intro i hmem
    have hlt := add32_lt a i
    rw [h.source_byte hi hlt]
    rcases hc i (List.mem_range.mp hmem) with hs | ⟨hp, hf⟩
    · rw [← h.source_byte hi hlt, loadByte, loadByte, h.shared_walk hlt hs, h.source_walk hlt]
    · exact h.private_byte hi hlt hp hf
  · exact fun n hn hp hf => (h.cloned n hn hp).free hf
  · exact h.distinct
  · exact (h.framesApart_parent hi).unobservable
  · exact (h.framesApart_child hi).unobservable

end Conclusions

/-- The loop started with `s₂`, where `pDir` is empty and the rest is as in `s`. -/
theorem Cloned.of_slotsDone {s s₂ s' : State} {src pDir : ℕ} {used rest : List ℕ}
    (hr : Ready s src pDir 0 1024 (used ++ rest)) (hu : Undisturbed s s₂ pDir [])
    (hempty : ∀ j, (s₂.directories pDir).pageTables j = 0)
    (h : SlotsDone s₂ s' src pDir 0 1024 used) : Cloned s s' src pDir used := by
  have hpriv : ∀ j, Private s₂ src j ↔ Private s src j :=
    fun j => hu.private_iff hr.source hr.kernel
  have hsrc : ∀ n, entryAddress s₂ src n = entryAddress s src n := hu.entryAddress_eq hr.source
  have hpages : ∀ x, s₂.pages x = s.pages x := fun x => hu.pages x fun ptr hptr => by simp at hptr
  have hentry : ∀ n, entry s₂ src n = entry s src n := by
    intro n
    rw [entry, hsrc, hpages]
    rfl
  have hmem : ∀ ptr ∈ used, ptr ∈ used ++ rest := fun ptr hptr => List.mem_append_left _ hptr
  constructor
  · exact (hu.mono (List.nil_subset _)).trans h.undisturbed
  · exact hr.source
  · exact hr.kernel
  · exact fun ptr hptr => hr.apartSource ptr (hmem ptr hptr)
  · intro j h0
    rw [(h.outside j (by rw [hu.tables src hr.source]; exact .inr (.inr h0))).1, hempty]
  · intro j hj hs
    have hs₂ : Shared s₂ src j := by
      rwa [Shared, hu.pageDirectory, hu.tables src hr.source, hu.tables _ hr.kernel]
    have := h.shared j (Nat.zero_le _) (by omega) hs₂
    rwa [hu.tables src hr.source, hu.physical src hr.source] at this
  · intro j hj hp
    have hnew := h.fresh j (Nat.zero_le _) (by omega) ((hpriv j).mpr hp)
    exact ⟨hr.nonnull _ (hmem _ hnew), hr.apartKernel _ (hmem _ hnew) j hj⟩
  · intro n hn hp
    have := h.cloned n (Nat.zero_le _) (by omega) ((hpriv _).mpr hp)
    rw [hsrc] at this
    exact this.earlier hu.grown (hpages _)
  · intro n n' hlt hn' hp hp' hf hf'
    exact h.distinct n n' (by omega) hlt (by omega) ((hpriv _).mpr hp) ((hpriv _).mpr hp')
      (by rwa [hentry]) (by rwa [hentry])

/-- `clonePageDirectory` returns an isolated copy. -/
theorem clonePageDirectory_forked {s : State} {src pDir : ℕ} {ptrs : List ℕ}
    (hi : Isolated s (orCurrent s src)) (hm : Mapped s pDir)
    (hr : Ready s (orCurrent s src) pDir 0 1024 ptrs) :
    ∃ s', clonePageDirectory s src (pDir :: ptrs) = some s' ∧ Forked s s' (orCurrent s src) pDir := by
  obtain ⟨phys, s₁, hkmalloc, hu₁, -, hframes, -⟩ := kmalloc_spec [] hm hr.current
  have hu : Undisturbed s
      (s₁.setDirectory pDir { PageDirectory.zero with physicalAddress := phys }) pDir [] :=
    hu₁.trans (undisturbed_setDirectory _)
  have hfree : freeFrames (s₁.setDirectory pDir { PageDirectory.zero with physicalAddress := phys }) =
      freeFrames s := freeFrames_congr hu.grown.frameNumber hframes
  have hr₂ := hr.of_undisturbed [] hu (by omega) (hfree ▸ hr.frames) hr.tables
  obtain ⟨s', used, rest, rfl, hloop, hdone⟩ := cloneSlots_spec 1024 le_rfl hr₂
  refine ⟨s', ?_, (Cloned.of_slotsDone hr hu (fun j => ?_) hdone).forked hi⟩
  · rw [clonePageDirectory_eq hkmalloc, hloop, Option.map_some]
  · rw [State.setDirectory_same]
    rfl

/-- Sixteen megabytes with eight busy frames. The kernel directory at `0x100000` has one
table, in slot 0; the current directory shares it and has a page of its own in slot 1. -/
def twoTables : State where
  frames := fun i => if i = 0 then 0xFF else 0
  frameNumber := 0x1000
  pageDirectory := 0x100000
  currentPageDirectory := 0x110000
  directories := fun d =>
    { PageDirectory.zero with
      pageTables := fun i => if i = 0 then 0x200000 else if i = 1 ∧ d = 0x110000 then 0x210000 else 0 }
  pages := fun p =>
    if p = 0x200000 then { Page.zero with present := true, rw := true, frame := 1 }
    else if p = 0x210000 then { Page.zero with present := true, rw := true, user := true, frame := 5 }
    else Page.zero
  paging := true
  heapEnabled := true
  memory := fun x => if x = 0x5000 then 7 else 0

theorem twoTables_isolated : Isolated twoTables 0x110000 := by
  have hsmall : ∀ n, (twoTables.directories 0x110000).pageTables (n / 1024) ≠ 0 →
      (entry twoTables 0x110000 n).present = true → n = 0 ∨ n = 1024 := by
    intro n h0 hpr
    simp only [twoTables, entry, entryAddress] at h0 hpr
    split_ifs at h0 hpr
    all_goals first | omega | simp [Page.zero] at hpr
  constructor
  · intro n _ h0 hpr
    rcases hsmall n h0 hpr with rfl | rfl <;> decide
  · intro n _ n' _ hp hpr hs hpr'
    rcases hsmall n hp.1 hpr with rfl | rfl
    · exact absurd hp (by decide)
    · rcases hsmall n' hs.1 hpr' with rfl | rfl
      · decide
      · exact absurd hs.2 (by decide)

section OnePage

variable {s : State} {src table i k : ℕ}

/-- A range holds a number once at most. -/
theorem countP_range'_le_one {p : ℕ → Bool} {x : ℕ} (h : ∀ j, p j = true → j = x) :
    (List.range' i k).countP p ≤ 1 := by
  have hmono : (List.range' i k).countP p ≤ (List.range' i k).countP (· == x) :=
    List.countP_mono_left fun j _ hj => beq_iff_eq.mpr (h j hj)
  exact hmono.trans (List.nodup_iff_count_le_one.mp List.nodup_range' x)

theorem tablesNeeded_le_one (h : ∀ j, Private s src j → j = 1) : tablesNeeded s src i k ≤ 1 :=
  countP_range'_le_one fun j hj => h j (of_decide_eq_true hj)

theorem tableFrames_le_one (h : ∀ j, (s.pages (table + 4 * j)).frame ≠ 0 → j = 0) :
    tableFrames s table i k ≤ 1 :=
  countP_range'_le_one fun j hj => h j (of_decide_eq_true hj)

theorem framesNeeded_le_one (h : ∀ j, Private s src j → j = 1)
    (htable : ∀ j, (s.pages ((s.directories src).pageTables 1 + 4 * j)).frame ≠ 0 → j = 0) :
    framesNeeded s src 0 1024 ≤ 1 := by
  have hrest : framesNeeded s src 2 1022 = 0 := by
    apply List.sum_eq_zero_iff_forall_eq_nat.mpr
    intro n hn
    obtain ⟨j, hj, rfl⟩ := List.mem_map.mp hn
    have hlow := (List.mem_range'_1.mp hj).1
    exact if_neg fun hp => by have := h j hp; omega
  rw [framesNeeded_succ s src 0 1023, framesNeeded_succ s src 1 1022, hrest, framesNeeded_one,
    framesNeeded_one, if_neg fun hp => Nat.zero_ne_one (h 0 hp)]
  split
  · rw [Nat.zero_add]
    exact tableFrames_le_one htable
  · exact Nat.zero_le 1

end OnePage

/-- Only slot 1 has a table of its own. -/
theorem private_twoTables (j : ℕ) (hp : Private twoTables 0x110000 j) : j = 1 := by
  have h0 := hp.1
  by_contra hne
  rcases Nat.eq_zero_or_pos j with rfl | hpos
  · exact absurd hp (by decide)
  · apply h0
    simp only [twoTables]
    rw [if_neg (by omega), if_neg (by omega)]

/-- Its first page is the only one. -/
theorem frame_twoTables (j : ℕ) (h : (twoTables.pages (0x210000 + 4 * j)).frame ≠ 0) : j = 0 := by
  by_contra hne
  apply h
  simp only [twoTables]
  rw [if_neg (by omega), if_neg (by omega)]
  rfl

theorem freeFrames_twoTables : 1 ≤ freeFrames twoTables :=
  Finset.card_pos.mpr ⟨8, Finset.mem_filter.mpr ⟨Finset.mem_range.mpr (by decide), by decide⟩⟩

theorem twoTables_forked :
    ∃ s', clonePageDirectory twoTables 0 [0x300000, 0x310000] = some s' ∧
      Forked twoTables s' 0x110000 0x300000 := by
  refine @clonePageDirectory_forked twoTables 0 0x300000 [0x310000] twoTables_isolated (fun _ => by decide) ?_
  constructor
  · decide
  · decide
  · decide
  · decide
  · decide
  · intro ptr hptr _
    obtain rfl := List.mem_singleton.mp hptr
    decide
  · exact List.pairwise_singleton Apart _
  · intro ptr hptr j hj h0
    obtain rfl := List.mem_singleton.mp hptr
    simp only [orCurrent, twoTables, Apart, pageSize] at h0 ⊢
    split_ifs at h0 ⊢ <;> omega
  · intro ptr hptr j hj
    obtain rfl := List.mem_singleton.mp hptr
    simp only [twoTables]
    split_ifs <;> omega
  · exact (framesNeeded_le_one private_twoTables frame_twoTables).trans freeFrames_twoTables
  · exact tablesNeeded_le_one private_twoTables

end ExperimentalKernel.Paging
