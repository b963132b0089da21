import ExperimentalKernel.InitrdListing
import ExperimentalKernel.LabelledRuns
import Mathlib.Logic.Function.Basic

/-!
# The directory entry that processes share

`readdir` answers with the address of `currDirent`, a static member of `InitrdFs`. A process
that `fork` makes shares the page tables of the kernel, so there is one such record for all
processes. Here any number of them call `readdir` and `finddir` in any order, each call a step.
-/

namespace ExperimentalKernel.Initrd
open ByteMemory KernelStrings LabelledRuns

inductive Call where
  | readdir (node : NodePtr) (index : ℕ)
  | finddir (node : NodePtr) (name : ℕ → UInt8)

/-- The file system, and by its pid what a process got: the entry behind the pointer from
`readdir` at its return, the node from `finddir`, and each entry as the process finds it
behind the pointer right before it calls `readdir` again. -/
structure Shared where
  fs : InitrdFs
  received : ℕ → Option Dirent
  found : ℕ → Option NodePtr
  seen : ℕ → List Dirent

/-- What lies behind the pointer that a process holds. -/
def Shared.behind (s : Shared) (pid : ℕ) : List Dirent :=
  (s.received pid).toList.map fun _ => s.fs.currDirent

def perform (s : Shared) (pid : ℕ) : Call → Option Shared
  | .readdir node index =>
    (Initrd.readdir s.fs node index).map fun r =>
      { s with
        fs := r.2
        received := Function.update s.received pid r.1
        seen := Function.update s.seen pid (s.seen pid ++ s.behind pid) }
  | .finddir node name =>
    some { s with found := Function.update s.found pid (Initrd.finddir s.fs node name) }

def Step (s : Shared) (c : ℕ × Call) (s' : Shared) : Prop := perform s c.1 c.2 = some s'

def started (fs : InitrdFs) : Shared := ⟨fs, fun _ => none, fun _ => none, fun _ => []⟩

/-- Each process still finds what it got. -/
def Undisturbed (s : Shared) : Prop := ∀ pid d, s.received pid = some d → s.fs.currDirent = d

/-- `readdir` has an entry to show. -/
def Answered (fs : InitrdFs) (node : NodePtr) (index : ℕ) : Prop :=
  (node = .root ∨ 0 < index) ∧ index ≤ fs.childNodes.length

/-- Nobody else holds an entry, unless it is the one that is shown again. -/
def Spares (s : Shared) (c : ℕ × Call) : Prop :=
  match c.2 with
  | .readdir node index =>
    Answered s.fs node index → ∀ q d, q ≠ c.1 → s.received q = some d → d.inode = index
  | .finddir _ _ => True

/-- `dev` and the files, each under its own name. -/
def rootEntries (fs : InitrdFs) : List Dirent :=
  ⟨fs.dev.name, fs.dev.inode⟩ :: fs.childNodes.map fun n => ⟨n.name, n.inode⟩

/-- The calls of `readdir` that a process makes. -/
def asked (pid : ℕ) (calls : List (ℕ × Call)) : List (NodePtr × ℕ) :=
  calls.filterMap fun c =>
    match c.2 with
    | .readdir node index => if c.1 = pid then some (node, index) else none
    | .finddir _ _ => none

theorem asked_own (pid : ℕ) (node : NodePtr) (index : ℕ) (calls : List (ℕ × Call)) :
    asked pid ((pid, .readdir node index) :: calls) = (node, index) :: asked pid calls :=
  List.filterMap_cons_some (if_pos rfl)

theorem asked_others {q pid : ℕ} (hq : q ≠ pid) (node : NodePtr) (index : ℕ)
    (calls : List (ℕ × Call)) : asked pid ((q, .readdir node index) :: calls) = asked pid calls :=
  List.filterMap_cons_none (if_neg hq)

/-- The inode of a file is one more than its place. -/
def Numbered (nodes : List FileNode) : Prop := ∀ i n, nodes[i]? = some n → n.inode = i + 1

theorem Numbered.snoc {nodes : List FileNode} (h : Numbered nodes) {n : FileNode}
    (hn : n.inode = nodes.length + 1) : Numbered (nodes ++ [n]) := by
  intro i n' hi
  rcases Nat.lt_trichotomy i nodes.length with hlt | rfl | hgt
  · rw [List.getElem?_append_left hlt] at hi
    exact h i n' hi
  · rw [List.getElem?_concat_length] at hi
    rw [← Option.some.inj hi, hn]
  · rw [List.getElem?_eq_none (by simp; omega)] at hi
    cases hi

theorem initEntries_numbered (k : ℕ) (m : Mem) (location array maxSize : ℕ)
    {children : List FileNode} (hk : children.length + k ≤ maxSize) (hc : Numbered children) :
    Numbered (initEntries m location array maxSize children children.length k).2 := by
  induction k generalizing m children with
  | zero => exact hc
  | succ k ih =>
    obtain ⟨m₁, node, -, hinode, he⟩ := initEntries_succ m location array maxSize children.length k
      (by omega : children.length ≠ maxSize)
    have hlen : (children ++ [node]).length = children.length + 1 := List.length_append
    rw [he, ← hlen]
    exact ih m₁ (by omega) (hc.snoc hinode)

theorem init_numbered (m : Mem) (location : ℕ) : Numbered (init m location).childNodes :=
  initEntries_numbered (read32 m location) m location (location + 4) (read32 m location)
    (Nat.zero_add _).le fun _ _ h => nomatch h

section Entries

variable {fs : InitrdFs} {count index : ℕ}

theorem rootEntries_length (h : Listed count fs) : (rootEntries fs).length = count + 1 := by
  rw [rootEntries, List.length_cons, List.length_map, h.length]

/-- An entry stands where its inode says. -/
theorem inode_eq (h : Listed count fs) (hn : Numbered fs.childNodes) {d : Dirent}
    (hd : (rootEntries fs)[index]? = some d) : d.inode = index := by
  cases index with
  | zero =>
    cases hd
    rw [h.dev, directoryNode]
  | succ i =>
    rw [rootEntries, List.getElem?_cons_succ, List.getElem?_map] at hd
    obtain ⟨n, hi, rfl⟩ := Option.map_eq_some_iff.mp hd
    exact hn i n hi

theorem rootEntries_inodes (h : Listed count fs) (hn : Numbered fs.childNodes) :
    (rootEntries fs).map Dirent.inode = List.range (count + 1) := by
  apply List.ext_getElem
  · rw [List.length_map, rootEntries_length h, List.length_range]
  · intro i h₁ h₂
    rw [List.length_map] at h₁
    rw [List.getElem_map, List.getElem_range, inode_eq h hn (List.getElem?_eq_getElem h₁)]

/-- Whichever node is asked about, the entry of the root at this index is shown. -/
theorem readdir_answered (h : Listed count fs) {node : NodePtr} (ha : Answered fs node index) :
    ∃ d, (rootEntries fs)[index]? = some d ∧
      readdir fs node index = some (some d, { fs with currDirent := d }) := by
  cases index with
  | zero =>
    obtain rfl := ha.1.resolve_right (lt_irrefl 0)
    exact ⟨_, rfl, readdir_zero h⟩
  | succ i =>
    obtain ⟨n, hi, hr⟩ := readdir_file h node (h.length ▸ ha.2)
    refine ⟨_, ?_, hr⟩
    rw [rootEntries, List.getElem?_cons_succ, List.getElem?_map, hi]
    rfl

/-- Without an entry to show there is no answer, or null and nothing changes. -/
theorem readdir_unanswered (h : Listed count fs) {node : NodePtr} (ha : ¬ Answered fs node index)
    {r : Option Dirent × InitrdFs} (hr : readdir fs node index = some r) : r = (none, fs) := by
  rcases Nat.lt_or_ge count index with hi | hi
  · rw [readdir_past h node hi] at hr
    exact (Option.some.inj hr).symm
  · have hout : ¬ (node = .root ∨ 0 < index) := fun ho => ha ⟨ho, h.length.symm ▸ hi⟩
    obtain ⟨hroot, hzero⟩ := not_or.mp hout
    obtain rfl := Nat.eq_zero_of_not_pos hzero
    rw [readdir_zero_outside h hroot] at hr
    cases hr

end Entries

/-- The files stay, and the processes hold entries of the root that still lie behind their
pointers. -/
structure Held (fs₀ : InitrdFs) (s : Shared) : Prop where
  same : s.fs = { fs₀ with currDirent := s.fs.currDirent }
  kept : Undisturbed s
  entry : ∀ pid d, s.received pid = some d → (rootEntries fs₀)[d.inode]? = some d

section Sharing

variable {fs₀ : InitrdFs} {count : ℕ} {s s' : Shared} {pid : ℕ}

theorem started_held (fs₀ : InitrdFs) : Held fs₀ (started fs₀) :=
  ⟨rfl, (fun _ _ h => nomatch h), fun _ _ h => nomatch h⟩

theorem Held.listed (hs : Held fs₀ s) (h : Listed count fs₀) : Listed count s.fs := by
  rw [hs.same]
  exact ⟨h.dev, h.length, h.small, h.ended⟩

theorem Held.entries (hs : Held fs₀ s) : rootEntries s.fs = rootEntries fs₀ := by
  rw [hs.same]
  rfl

/-- What a process finds is what it got. -/
theorem Held.behind_eq (hs : Held fs₀ s) (pid : ℕ) : s.behind pid = (s.received pid).toList := by
  rw [Shared.behind]
  cases hr : s.received pid with
  | none => rfl
  | some d =>
    rw [hs.kept pid d hr]
    rfl

/-- What a call of `readdir` does for others: only the record changes. -/
theorem step_others {node : NodePtr} {index : ℕ} (hstep : Step s (pid, .readdir node index) s')
    {q : ℕ} (hq : q ≠ pid) : s'.received q = s.received q ∧ s'.seen q = s.seen q := by
  obtain ⟨r, -, rfl⟩ := Option.map_eq_some_iff.mp hstep
  exact ⟨Function.update_of_ne hq _ _, Function.update_of_ne hq _ _⟩

/-- What it does for the caller: it shows an entry, or its result is null. -/
theorem step_readdir (hs : Held fs₀ s) (h : Listed count fs₀) {node : NodePtr} {index : ℕ}
    (hstep : Step s (pid, .readdir node index) s') :
    (Answered s.fs node index ∧ ∃ d, (rootEntries fs₀)[index]? = some d ∧
        s'.fs = { s.fs with currDirent := d } ∧ s'.received pid = some d) ∨
      (¬ Answered s.fs node index ∧ s'.fs = s.fs ∧ s'.received pid = none) := by
  obtain ⟨r, hr, rfl⟩ := Option.map_eq_some_iff.mp hstep
  by_cases ha : Answered s.fs node index
  · obtain ⟨d, hd, hrd⟩ := readdir_answered (hs.listed h) ha
    obtain rfl := Option.some.inj (hr.symm.trans hrd)
    exact .inl ⟨ha, d, hs.entries ▸ hd, rfl, Function.update_self _ _ _⟩
  · obtain rfl := readdir_unanswered (hs.listed h) ha hr
    exact .inr ⟨ha, rfl, Function.update_self _ _ _⟩

theorem step_seen (hs : Held fs₀ s) {node : NodePtr} {index : ℕ}
    (hstep : Step s (pid, .readdir node index) s') :
    s'.seen pid = s.seen pid ++ (s.received pid).toList := by
  obtain ⟨r, -, rfl⟩ := Option.map_eq_some_iff.mp hstep
  rw [← hs.behind_eq pid]
  exact Function.update_self _ _ _

/-- The invariant lasts as long as the processes are left undisturbed. -/
theorem Held.step (hs : Held fs₀ s) (h : Listed count fs₀) (hn : Numbered fs₀.childNodes)
    {c : ℕ × Call} (hkept : Undisturbed s') (hstep : Step s c s') : Held fs₀ s' := by
  obtain ⟨pid, call⟩ := c
  cases call with
  | readdir node index =>
    have hother : ∀ q d, q ≠ pid → s'.received q = some d → (rootEntries fs₀)[d.inode]? = some d := by
      intro q d hqp hq
      rw [(step_others hstep hqp).1] at hq
      exact hs.entry q d hq
    obtain ⟨-, d, hd, hfs, hrec⟩ | ⟨-, hfs, hrec⟩ := step_readdir hs h hstep
    · refine ⟨?_, hkept, fun q d' hq => ?_⟩
      · rw [hfs]
        exact congrArg (fun fs : InitrdFs => { fs with currDirent := d }) hs.same
      · rcases eq_or_ne q pid with rfl | hqp
        · obtain rfl := Option.some.inj (hrec.symm.trans hq)
          rw [inode_eq h hn hd, hd]
        · exact hother q d' hqp hq
    · refine ⟨hfs ▸ hs.same, hkept, fun q d' hq => ?_⟩
      rcases eq_or_ne q pid with rfl | hqp
      · cases hrec.symm.trans hq
      · exact hother q d' hqp hq
  | finddir node name =>
    obtain rfl := Option.some.inj hstep
    exact ⟨hs.same, hkept, hs.entry⟩

/-- A call disturbs nobody just when it spares the entries that others hold. -/
theorem undisturbed_iff (hs : Held fs₀ s) (h : Listed count fs₀) (hn : Numbered fs₀.childNodes)
    (c : ℕ × Call) : (∀ s', Step s c s' → Undisturbed s') ↔ Spares s c := by
  obtain ⟨pid, call⟩ := c
  cases call with
  | readdir node index =>
    constructor
    · intro hall ha q d hqp hd
      obtain ⟨e, -, hr⟩ := readdir_answered (hs.listed h) ha
      obtain ⟨s', hstep⟩ : ∃ s', Step s (pid, .readdir node index) s' :=
        ⟨_, Option.map_eq_some_iff.mpr ⟨_, hr, rfl⟩⟩
      have hkept := hall s' hstep q d ((step_others hstep hqp).1.trans hd)
      obtain ⟨-, e, he, hfs, -⟩ | ⟨hna, -⟩ := step_readdir hs h hstep
      · rw [hfs] at hkept
        rw [← hkept, inode_eq h hn he]
      · exact absurd ha hna
    · intro hspares s' hstep q d hq
      obtain ⟨ha, e, he, hfs, hrec⟩ | ⟨-, hfs, hrec⟩ := step_readdir hs h hstep
      · rw [hfs]
        rcases eq_or_ne q pid with rfl | hqp
        · exact Option.some.inj (hrec.symm.trans hq)
        · -- the entry held stands at the index that is shown
          rw [(step_others hstep hqp).1] at hq
          have hentry := hs.entry q d hq
          rw [hspares ha q d hqp hq, he] at hentry
          exact Option.some.inj hentry
      · rw [hfs]
        rcases eq_or_ne q pid with rfl | hqp
        · cases hrec.symm.trans hq
        · rw [(step_others hstep hqp).1] at hq
          exact hs.kept q d hq
  | finddir node name =>
    refine iff_of_true (fun s' hstep => ?_) trivial
    obtain rfl := Option.some.inj hstep
    exact hs.kept

/-- A process that lists alone is not disturbed, whatever others look up. -/
theorem spares_alone {calls : List (ℕ × Call)}
    (hcalls : ∀ q node index, (q, Call.readdir node index) ∈ calls → q = pid)
    (hs : ∀ q, q ≠ pid → s.received q = none) : Along Step Spares s calls := by
  induction calls generalizing s with
  | nil => trivial
  | cons c cs ih =>
    have hcs := fun q node index hc => hcalls q node index (List.mem_cons_of_mem _ hc)
    obtain ⟨p, call⟩ := c
    cases call with
    | readdir node index =>
      obtain rfl := hcalls p node index List.mem_cons_self
      refine ⟨fun _ q d hq hd => ?_, fun s' hstep => ih hcs fun q hq => ?_⟩
      · cases (hs q hq).symm.trans hd
      · rw [(step_others hstep hq).1, hs q hq]
    | finddir node name =>
      refine ⟨trivial, fun s' hstep => ih hcs ?_⟩
      obtain rfl := Option.some.inj hstep
      exact hs

/-- Of a listing of the root, `j` calls are made: so many entries are seen, the one that is
held included, and after the last entry none is held. -/
structure ListedTo (fs₀ : InitrdFs) (pid j : ℕ) (s : Shared) : Prop where
  seen : s.seen pid ++ (s.received pid).toList = (rootEntries fs₀).take j
  past : (rootEntries fs₀).length < j → s.received pid = none

theorem started_listedTo (fs₀ : InitrdFs) (pid : ℕ) : ListedTo fs₀ pid 0 (started fs₀) :=
  ⟨rfl, fun _ => rfl⟩

/-- The next call of the listing. -/
theorem ListedTo.readdir (hs : Held fs₀ s) (h : Listed count fs₀) {j : ℕ}
    (hj : ListedTo fs₀ pid j s) (hstep : Step s (pid, .readdir .root j) s') :
    ListedTo fs₀ pid (j + 1) s' := by
  have hlen := rootEntries_length h
  have hseen : s'.seen pid = (rootEntries fs₀).take j := (step_seen hs hstep).trans hj.seen
  obtain ⟨-, d, hd, -, hrec⟩ | ⟨hna, -, hrec⟩ := step_readdir hs h hstep
  · have hlt := (List.getElem?_eq_some_iff.mp hd).1
    refine ⟨?_, fun hgt => by omega⟩
    rw [hseen, hrec, List.take_add_one, hd]
  · have hge : (rootEntries fs₀).length ≤ j := by
      by_contra hlt
      refine hna ⟨.inl rfl, ?_⟩
      rw [(hs.listed h).length]
      omega
    refine ⟨?_, fun _ => hrec⟩
    rw [hseen, hrec, Option.toList_none, List.append_nil, List.take_of_length_le hge,
      List.take_of_length_le (Nat.le_succ_of_le hge)]

/-- The calls of others, and `finddir`, do not count. -/
theorem ListedTo.others {q j : ℕ} {call : Call} (hj : ListedTo fs₀ pid j s)
    (hcall : q ≠ pid ∨ ∃ node name, call = .finddir node name) (hstep : Step s (q, call) s') :
    ListedTo fs₀ pid j s' := by
  cases call with
  | readdir node index =>
    have hq : pid ≠ q := fun he => by
      obtain hne | ⟨_, _, hc⟩ := hcall
      · exact hne he.symm
      · cases hc
    obtain ⟨hrec, hseen⟩ := step_others hstep hq
    exact ⟨by rw [hrec, hseen, hj.seen], fun hlt => hrec.trans (hj.past hlt)⟩
  | finddir node name =>
    obtain rfl := Option.some.inj hstep
    exact ⟨hj.seen, hj.past⟩

/-- A process that lists the root while others run. -/
theorem listedTo_run (h : Listed count fs₀) (hn : Numbered fs₀.childNodes)
    {calls : List (ℕ × Call)} (hrun : Run Step s calls s') (hs : Held fs₀ s)
    (hspares : Along Step Spares s calls) {j k : ℕ} (hj : ListedTo fs₀ pid j s)
    (hasked : asked pid calls = (List.range' j k).map fun i => (.root, i)) :
    ListedTo fs₀ pid (j + k) s' := by
  induction hrun generalizing j k with
  | nil s =>
    have hk : k = 0 := by simpa [asked] using hasked.symm
    rw [hk]
    exact hj
  | @cons s s₁ s₂ c cs hstep hrun ih =>
    have hs₁ : Held fs₀ s₁ := hs.step h hn ((undisturbed_iff hs h hn c).mpr hspares.1 s₁ hstep) hstep
    have hspares₁ := hspares.2 s₁ hstep
    obtain ⟨q, call⟩ := c
    cases call with
    | readdir node index =>
      rcases eq_or_ne q pid with rfl | hq
      · rw [asked_own] at hasked
        cases k with
        | zero => cases hasked
        | succ k =>
          rw [List.range'_succ, List.map_cons, List.cons.injEq, Prod.mk.injEq] at hasked
          obtain ⟨⟨rfl, rfl⟩, hasked⟩ := hasked
          have hlisted := ih hs₁ hspares₁ (hj.readdir hs h hstep) hasked
          rw [Nat.add_right_comm] at hlisted
          exact hlisted
      · refine ih hs₁ hspares₁ (hj.others (.inl hq) hstep) ?_
        rw [← hasked, asked_others hq]
    | finddir node name =>
      exact ih hs₁ hspares₁ (hj.others (.inr ⟨node, name, rfl⟩) hstep) hasked

end Sharing

/-- Along every run the processes keep what they got, just when each call spares what others
hold; and then a process that lists the root sees each entry once. -/
theorem dirent_kept_iff (m : Mem) (location : ℕ) (calls : List (ℕ × Call)) :
    (Along Step (fun s c => ∀ s', Step s c s' → Undisturbed s') (started (init m location)) calls ↔
      Along Step Spares (started (init m location)) calls) ∧
    ∀ pid s, Along Step Spares (started (init m location)) calls →
      Run Step (started (init m location)) calls s →
      asked pid calls = (List.range (read32 m location + 2)).map (fun i => (.root, i)) →
      s.seen pid = rootEntries (init m location) ∧
        (s.seen pid).map Dirent.inode = List.range (read32 m location + 1) := by
  have h : Listed (read32 m location) (init m location) := init_listed m location ⟨[], 0⟩
  have hn := init_numbered m location
  refine ⟨?_, fun pid s hspares hrun hasked => ?_⟩
  · exact along_iff (I := Held (init m location)) (fun s c hs => undisturbed_iff hs h hn c)
      (fun s c s' hs hall hstep => hs.step h hn (hall s' hstep) hstep) calls (started_held _)
  · rw [List.range_eq_range'] at hasked
    have hend := listedTo_run h hn hrun (started_held _) hspares (started_listedTo _ pid) hasked
    have hlen := rootEntries_length h
    have hseen := hend.seen
    rw [hend.past (by omega), Option.toList_none, List.append_nil,
      List.take_of_length_le (by omega)] at hseen
    rw [hseen, rootEntries_inodes h hn]
    exact ⟨rfl, rfl⟩

/-- Process 1 lists the root while process 2 looks up a file. -/
def listsAlone : List (ℕ × Call) :=
  [(1, .readdir .root 0), (2, .finddir .root (chars [97])), (1, .readdir .root 1),
    (1, .readdir .root 2), (1, .readdir .root 3)]

theorem dirent_kept_iff_alone : ∃ s, Run Step (started (init twoFiles 0x1000)) listsAlone s ∧
    s.seen 1 = [⟨devName, 0⟩, ⟨[97], 1⟩, ⟨devName ++ [49], 2⟩] := by
  obtain ⟨s, hrun⟩ : ∃ s, Run Step (started (init twoFiles 0x1000)) listsAlone s :=
    ⟨_, Run.cons rfl (Run.cons rfl (Run.cons rfl (Run.cons rfl (Run.cons rfl (Run.nil _)))))⟩
  have hspares : Along Step Spares (started (init twoFiles 0x1000)) listsAlone :=
    @spares_alone _ 1 _ (by grind [listsAlone]) fun _ _ => rfl
  have hseen := (dirent_kept_iff twoFiles 0x1000 listsAlone).2 1 s hspares hrun rfl
  exact ⟨s, hrun, hseen.1.trans (by decide)⟩

/-- Process 1 asks for the first entry and finds the second, which process 2 asked for: in the
whole listing it sees the file `a` twice and `dev` never. -/
theorem dirent_disturbed :
    ¬ Along Step (fun s c => ∀ s', Step s c s' → Undisturbed s') (started (init twoFiles 0x1000))
      [(1, .readdir .root 0), (2, .readdir .root 1)] ∧
    ∃ s, Run Step (started (init twoFiles 0x1000))
      [(1, .readdir .root 0), (2, .readdir .root 0), (2, .readdir .root 1), (1, .readdir .root 1),
        (1, .readdir .root 2), (1, .readdir .root 3)] s ∧
      s.seen 1 = [⟨[97], 1⟩, ⟨[97], 1⟩, ⟨devName ++ [49], 2⟩] := by
  refine ⟨fun h => ?_, _, Run.cons rfl (Run.cons rfl (Run.cons rfl (Run.cons rfl (Run.cons rfl
    (Run.cons rfl (Run.nil _)))))), by decide⟩
  have hkept : (⟨[97], 1⟩ : Dirent) = ⟨devName, 0⟩ := (h.2 _ rfl).1 _ rfl 1 ⟨devName, 0⟩ rfl
  exact absurd hkept (by decide)

end ExperimentalKernel.Initrd
