import ExperimentalKernel.OwnMemories
import ExperimentalKernel.AddressSpaces
import ExperimentalKernel.SchedulerTurns

/-!
# Processes and their memories

The scheduler and the paging it works with. Processes run, store, are switched and fork;
whatever the order, each behaves as if it had a memory of its own beside what the tables
of the kernel show to all. The bytes in which the kernel keeps its directories, page tables
and nodes are left out: processes see them, but they are no memory of a process.
-/

namespace ExperimentalKernel.ProcessMemories
open ByteMemory LabelledRuns Function
open Scheduler (World ContextsKept Unscheduled booted nextProcess)
open Paging (AddressSpaces ClonedInto NewTo Ready Mapped walk storeByte clonePageDirectory freeFrames
  framesNeeded directorySize pageSize)
open OwnMemories (Computer Memories Op Spares)

/-- `sizeof(SNode<Process>)`. -/
def nodeSize : ℕ := 24

/-- The regions that `fork` gets from the heap. -/
def regions (pDir node : ℕ) (ptrs : List ℕ) : List (ℕ × ℕ) :=
  (pDir, directorySize) :: (ptrs.map (·, pageSize) ++ [(node, nodeSize)])

section Regions

variable {pDir node : ℕ} {ptrs : List ℕ}

theorem directory_mem_regions : (pDir, directorySize) ∈ regions pDir node ptrs := List.mem_cons_self

theorem table_mem_regions {ptr : ℕ} (h : ptr ∈ ptrs) : (ptr, pageSize) ∈ regions pDir node ptrs :=
  List.mem_cons_of_mem _ (List.mem_append_left _ (List.mem_map_of_mem h))

theorem node_mem_regions : (node, nodeSize) ∈ regions pDir node ptrs :=
  List.mem_cons_of_mem _ (List.mem_append_right _ List.mem_cons_self)

end Regions

structure Machine where
  world : World
  paging : Paging.State

inductive Action where
  | run (eip esp ebp : ℕ)
  | store (a : BitVec 32) (b : UInt8)
  | switchTask
  | fork (pDir node : ℕ) (ptrs : List ℕ)

def Action.op : Action → Op ℕ (BitVec 32) UInt8
  | .run _ _ _ => .stay
  | .store a b => .store a b
  | .switchTask => .turn
  | .fork _ node _ => .join node

namespace Machine

/-- The directory of the process in the node `p`. -/
def directory (m : Machine) (p : ℕ) : ℕ := (m.world.state.nodes p).data.pageDirectory

def directories (m : Machine) : List ℕ := m.world.order.map m.directory

/-- What the process `p` finds at `a`. -/
def loadByte (m : Machine) (p : ℕ) (a : BitVec 32) : Option UInt8 :=
  Paging.loadByte m.paging (m.directory p) a.toNat

/-- What the tables of the kernel directory map. -/
def window (m : Machine) (a : BitVec 32) : Option ℕ :=
  walk m.paging m.paging.pageDirectory a.toNat

def computer (m : Machine) : Computer ℕ (BitVec 32) ℕ UInt8 :=
  ⟨m.world.roster, m.loadByte, m.paging.memory⟩

/-- What fork and the switch do to memory beside the frames that they fill: they write into the
structures of the kernel, which lie in `reserved`. -/
def SameBeside (reserved : Set ℕ) (mem mem' : Mem) : Prop := ∀ x ∉ reserved, mem' x = mem x

/-- Processes do not store in `reserved`. -/
inductive Step (reserved : Set ℕ) : Machine → Action → Machine → Prop
  | run {m : Machine} {eip esp ebp : ℕ} {w : World} (h : m.world.Step (.run eip esp ebp) w) :
      Step reserved m (.run eip esp ebp) { m with world := w }
  | store (m : Machine) (a : BitVec 32) (b : UInt8)
      (h : ∀ x ∈ walk m.paging m.paging.currentPageDirectory a.toNat, x ∉ reserved) :
      Step reserved m (.store a b)
        { m with paging := storeByte m.paging m.paging.currentPageDirectory a.toNat b }
  | switchTask {m : Machine} {w : World} {mem : Mem} (h : m.world.Step .switchTask w)
      (hm : SameBeside reserved m.paging.memory mem) :
      Step reserved m .switchTask
        ⟨w, { m.paging with currentPageDirectory := w.state.currentPageDirectory, memory := mem }⟩
  | fork {m : Machine} {w : World} {s : Paging.State} {mem : Mem} {pDir node : ℕ} {ptrs : List ℕ}
      (hclone : clonePageDirectory m.paging m.paging.currentPageDirectory (pDir :: ptrs) = some s)
      (h : m.world.Step (.fork pDir (s.directories pDir).physicalAddress node) w)
      (hm : SameBeside reserved s.memory mem) :
      Step reserved m (.fork pDir node ptrs) ⟨w, { s with memory := mem }⟩

/-- The regions of the directories and tables that paging works with, and of the nodes. -/
inductive Holds (m : Machine) : ℕ × ℕ → Prop
  | kernel : Holds m (m.paging.pageDirectory, directorySize)
  | kernelTable {i : ℕ} (hi : i < 1024)
      (h0 : (m.paging.directories m.paging.pageDirectory).pageTables i ≠ 0) :
      Holds m ((m.paging.directories m.paging.pageDirectory).pageTables i, pageSize)
  | directory {p : ℕ} (hp : p ∈ m.world.order) : Holds m (m.directory p, directorySize)
  | table {p i : ℕ} (hp : p ∈ m.world.order) (hi : i < 1024)
      (h0 : (m.paging.directories (m.directory p)).pageTables i ≠ 0) :
      Holds m ((m.paging.directories (m.directory p)).pageTables i, pageSize)
  | node {p : ℕ} (hp : p ∈ m.world.order) : Holds m (p, nodeSize)

/-- The region lies in `reserved`, as far as the kernel's tables map it. -/
def Within (m : Machine) (reserved : Set ℕ) (r : ℕ × ℕ) : Prop :=
  ∀ a : BitVec 32, r.1 ≤ a.toNat → a.toNat < r.1 + r.2 → ∀ x ∈ m.window a, x ∈ reserved

/-- `reserved` lies in what the kernel's tables map, and the structures of the kernel in `reserved`. -/
structure Keeps (reserved : Set ℕ) (m : Machine) : Prop where
  shown : ∀ x ∈ reserved, ∃ a, m.window a = some x
  within : ∀ r, m.Holds r → m.Within reserved r

/-- The heap hands out regions that are new and lie in `reserved`, and the frames last. -/
def Granted (reserved : Set ℕ) (m : Machine) : Action → Prop
  | .run eip esp ebp => m.world.Granted (.run eip esp ebp)
  | .fork pDir node ptrs => m.world.Granted (.fork pDir 0 node) ∧ Mapped m.paging pDir ∧
      Ready m.paging m.paging.currentPageDirectory pDir 0 1024 ptrs ∧
      NewTo m.paging m.directories pDir ptrs ∧
      ∀ r ∈ regions pDir node ptrs, m.Within reserved r
  | _ => True

/-- After `init` the first process runs in the directory of `pmmu`. -/
structure Started (reserved : Set ℕ) (m : Machine) (s : Scheduler.State) (node : ℕ) : Prop where
  unscheduled : Unscheduled s node
  world : m.world = booted s node
  current : m.paging.currentPageDirectory = s.currentPageDirectory
  physical : s.physicalAddress s.currentPageDirectory =
    (m.paging.directories s.currentPageDirectory).physicalAddress
  spaces : AddressSpaces m.paging [s.currentPageDirectory]
  keeps : Keeps reserved m

/-- Scheduler and paging speak of the same directories. -/
structure Linked (m : Machine) : Prop where
  contexts : ContextsKept m.world
  current : m.paging.currentPageDirectory = m.world.state.currentPageDirectory
  physical : ∀ p ∈ m.world.order, m.world.state.physicalAddress (m.directory p) =
    (m.paging.directories (m.directory p)).physicalAddress
  spaces : AddressSpaces m.paging m.directories

end Machine

open Machine (Started Linked Keeps SameBeside)

variable {m m' : Machine} {act : Action} {reserved : Set ℕ}

theorem mem_directories {p : ℕ} (hp : p ∈ m.world.order) : m.directory p ∈ m.directories :=
  List.mem_map_of_mem hp

theorem Started.linked {s : Scheduler.State} {node : ℕ} (h : Started reserved m s node) : Linked m := by
  have hcontexts := h.world ▸ Scheduler.booted_kept h.unscheduled
  have horder : m.world.order = [node] := by rw [h.world]; rfl
  have hcur : m.world.state.currentPageDirectory = s.currentPageDirectory := by
    rw [h.world]
    simp [booted, Scheduler.init, Scheduler.newProcess, Scheduler.pushBackCurrent,
      Scheduler.pushBack, h.unscheduled.empty, Scheduler.State.setNode]
  have hphys : m.world.state.physicalAddress = s.physicalAddress := by
    rw [h.world]
    simp [booted, Scheduler.init, Scheduler.newProcess, Scheduler.pushBackCurrent,
      Scheduler.pushBack, h.unscheduled.empty, Scheduler.State.setNode]
  have hnode : m.world.state.currentProcess = node := by
    have := hcontexts.current
    rwa [horder, List.mem_singleton] at this
  have hdir : m.directory node = s.currentPageDirectory := by
    rw [← hcur, ← hcontexts.directory, hnode]
    rfl
  refine ⟨hcontexts, h.current.trans hcur.symm, fun p hp => ?_, ?_⟩
  · rw [horder, List.mem_singleton] at hp
    rw [hp, hdir, hphys]
    exact h.physical
  · rw [Machine.directories, horder, List.map_singleton, hdir]
    exact h.spaces

namespace Machine.Linked

variable (h : Linked m)
include h

theorem directory_current :
    m.directory m.world.state.currentProcess = m.paging.currentPageDirectory :=
  h.contexts.directory.trans h.current.symm

theorem current_mem : m.paging.currentPageDirectory ∈ m.directories :=
  h.directory_current ▸ mem_directories h.contexts.current

theorem cr3 : m.world.state.cpu.cr3 =
    (m.paging.directories m.paging.currentPageDirectory).physicalAddress := by
  rw [h.contexts.cr3, ← h.current, ← h.directory_current]
  exact h.physical _ h.contexts.current

/-- Different processes have different directories. -/
theorem separate {p q : ℕ} (hp : p ∈ m.world.order) (hq : q ∈ m.world.order)
    (he : m.directory p = m.directory q) : p = q :=
  h.contexts.separate p hp q hq he

end Machine.Linked

section Switching

/-- What a switch leaves to the processes: their directories. -/
theorem Machine.Linked.switched {w : World} (h : Linked m) (hs : m.world.Step .switchTask w) :
    w.order = m.world.order ∧ (∀ p, (w.state.nodes p).data.pageDirectory = m.directory p) ∧
      w.state.physicalAddress = m.world.state.physicalAddress ∧
      w.state.currentProcess = nextProcess m.world.state := by
  cases hs
  rw [h.contexts.switched.eq]
  refine ⟨rfl, fun p => ?_, rfl, rfl⟩
  exact Scheduler.saveProcess_directory m.world.state m.world.state.cpu.eip p

end Switching

section Forking

variable {pDir node : ℕ} {ptrs : List ℕ}

/-- What `fork` does to the list of processes and to the tables. -/
structure Forked (reserved : Set ℕ) (m m' : Machine) (pDir node : ℕ) (ptrs : List ℕ) : Prop where
  order : m'.world.order = m.world.order ++ [node]
  current : m'.world.state.currentProcess = m.world.state.currentProcess
  fresh : node ∉ m.world.order
  child : m'.directory node = pDir
  others : ∀ p ∈ m.world.order, m'.directory p = m.directory p
  linked : Linked m'
  cloned : ∃ mem, ClonedInto m.paging { m'.paging with memory := mem } m.directories
    m.paging.currentPageDirectory pDir ptrs ∧ SameBeside reserved mem m'.paging.memory
  frames : freeFrames m'.paging + framesNeeded m.paging m.paging.currentPageDirectory 0 1024 =
    freeFrames m.paging
  located : (Paging.kmalloc m.paging pDir).map Prod.fst =
    some (m'.paging.directories pDir).physicalAddress
  stay : ∀ d, d ≠ pDir →
    (m'.paging.directories d).physicalAddress = (m.paging.directories d).physicalAddress

/-- What `fork` leaves to the scheduler. -/
structure Joined (w w' : World) (pDir phys node : ℕ) : Prop where
  contexts : ContextsKept w'
  order : w'.order = w.order ++ [node]
  current : w'.state.currentProcess = w.state.currentProcess
  directory : w'.state.currentPageDirectory = w.state.currentPageDirectory
  physical : w'.state.physicalAddress = update w.state.physicalAddress pDir phys
  child : (w'.state.nodes node).data.pageDirectory = pDir
  others : ∀ p ∈ w.order,
    (w'.state.nodes p).data.pageDirectory = (w.state.nodes p).data.pageDirectory

theorem joined {w w' : World} {phys : ℕ} (h : ContextsKept w)
    (hg : w.Granted (.fork pDir phys node)) (hs : w.Step (.fork pDir phys node) w') :
    Joined w w' pDir phys node := by
  have hcontexts := Scheduler.contextsKept_fork h hg hs
  have hf := (h.forked hg).2
  cases hs
  refine ⟨hcontexts, rfl, hf.current, hf.directory, hf.physical, ?_, fun p hp => ?_⟩
  · dsimp only
    rw [hf.child]
  · dsimp only
    rw [hf.others p fun he => hg.2.1 (he ▸ hp)]

theorem Machine.Linked.forked (h : Linked m) (hs : m.Step reserved (.fork pDir node ptrs) m')
    (hg : m.Granted reserved (.fork pDir node ptrs)) : Forked reserved m m' pDir node ptrs := by
  obtain ⟨hgranted, hmapped, hready, hnew, -⟩ := hg
  obtain ⟨s, hsome, hcloned, hframes, hphys, hlocated⟩ :=
    Paging.clonePageDirectory_clonedInto h.spaces h.current_mem hmapped hready hnew
  cases hs with
  | @fork w _ mem _ _ _ hclone hstep hm =>
    obtain rfl := Option.some.inj (hsome.symm.trans hclone)
    have hj : Joined m.world w pDir (s.directories pDir).physicalAddress node :=
      joined h.contexts ⟨hgranted.1, hgranted.2⟩ hstep
    have hmap : Machine.directories ⟨w, { s with memory := mem }⟩ = m.directories ++ [pDir] := by
      rw [Machine.directories, hj.order, List.map_append, List.map_singleton]
      exact congrArg₂ (· ++ ·) (List.map_congr_left hj.others) (congrArg (fun d => [d]) hj.child)
    refine ⟨hj.order, hj.current, hgranted.2.1, hj.child, hj.others,
      ⟨hj.contexts, ?_, fun p hp => ?_, ?_⟩, ⟨s.memory, hcloned, hm⟩, hframes, hlocated, hphys⟩
    · exact hcloned.undisturbed.current.trans (h.current.trans hj.directory.symm)
    · dsimp only [Machine.directory] at hp ⊢
      rw [hj.physical]
      rw [hj.order] at hp
      rcases List.mem_append.mp hp with hp | hp
      · have hne : m.directory p ≠ pDir := hgranted.2.2 p hp
        rw [hj.others p hp]
        exact (update_of_ne hne _ _).trans ((h.physical p hp).trans (hphys _ hne).symm)
      · rw [List.mem_singleton.mp hp, hj.child, update_self]
    · rw [hmap]
      exact hcloned.addressSpaces.update mem s.currentPageDirectory

end Forking

section Forks

variable {pDir node : ℕ} {ptrs : List ℕ} (hf : Forked reserved m m' pDir node ptrs)
include hf

theorem Forked.window_eq : m'.window = m.window := by
  obtain ⟨mem, hcloned, -⟩ := hf.cloned
  exact funext fun a => hcloned.walk_kernel a.isLt

theorem Forked.tables {p : ℕ} (hp : p ∈ m.world.order) :
    (m'.paging.directories (m.directory p)).pageTables =
      (m.paging.directories (m.directory p)).pageTables := by
  obtain ⟨mem, hcloned, -⟩ := hf.cloned
  exact hcloned.undisturbed.tables _ (hcloned.newTo.ne (mem_directories hp))

/-- A table of the child is new or one that the caller has. -/
theorem Forked.child_table {i : ℕ} (hi : i < 1024)
    (h0 : (m'.paging.directories pDir).pageTables i ≠ 0) :
    (m'.paging.directories pDir).pageTables i ∈ ptrs ∨
      (m'.paging.directories pDir).pageTables i =
        (m.paging.directories m.paging.currentPageDirectory).pageTables i := by
  obtain ⟨mem, hcloned, -⟩ := hf.cloned
  by_cases hnull : (m.paging.directories m.paging.currentPageDirectory).pageTables i = 0
  · exact absurd (hcloned.null i hnull) h0
  · rcases Paging.private_or_shared hnull with hprivate | hshared
    · exact .inl (hcloned.regions i hi hprivate)
    · exact .inr (hcloned.shared i hi hshared).1

end Forks

section Steps

/-- Directories, tables and nodes are what they were. -/
structure SameProcesses (m m' : Machine) : Prop where
  order : m'.world.order = m.world.order
  directory : ∀ p, m'.directory p = m.directory p
  directories : m'.paging.directories = m.paging.directories
  pages : m'.paging.pages = m.paging.pages
  pageDirectory : m'.paging.pageDirectory = m.paging.pageDirectory
  frames : m'.paging.frames = m.paging.frames
  frameNumber : m'.paging.frameNumber = m.paging.frameNumber
  heapEnabled : m'.paging.heapEnabled = m.paging.heapEnabled

theorem sameProcesses (hl : Linked m) (h : m.Step reserved act m')
    (hact : ∀ pDir node ptrs, act ≠ .fork pDir node ptrs) : SameProcesses m m' := by
  cases h with
  | run h =>
    cases h
    exact ⟨rfl, fun _ => rfl, rfl, rfl, rfl, rfl, rfl, rfl⟩
  | store a b =>
    unfold storeByte
    split <;> exact ⟨rfl, fun _ => rfl, rfl, rfl, rfl, rfl, rfl, rfl⟩
  | switchTask h =>
    obtain ⟨horder, hdirectory, -⟩ := hl.switched h
    exact ⟨horder, hdirectory, rfl, rfl, rfl, rfl, rfl, rfl⟩
  | fork hclone h => exact absurd rfl (hact _ _ _)

theorem SameProcesses.window_eq (h : SameProcesses m m') : m'.window = m.window := by
  funext a
  rw [Machine.window, Machine.window, walk, walk, Paging.entry, Paging.entry, Paging.entryAddress,
    Paging.entryAddress, h.directories, h.pages, h.pageDirectory]

theorem SameProcesses.holds {r : ℕ × ℕ} (h : SameProcesses m m') (hr : m'.Holds r) : m.Holds r := by
  cases hr with
  | kernel =>
    rw [h.pageDirectory]
    exact .kernel
  | kernelTable hi h0 =>
    rw [h.directories, h.pageDirectory] at h0 ⊢
    exact .kernelTable hi h0
  | @directory p hp =>
    rw [h.directory p]
    exact .directory (h.order ▸ hp)
  | @table p i hp hi h0 =>
    rw [h.directories, h.directory p] at h0 ⊢
    exact .table (h.order ▸ hp) hi h0
  | node hp => exact .node (h.order ▸ hp)

theorem SameProcesses.keeps (h : SameProcesses m m') (hk : Keeps reserved m) : Keeps reserved m' where
  shown := by
    rw [h.window_eq]
    exact hk.shown
  within r hr := by
    rw [Machine.Within, h.window_eq]
    exact hk.within r (h.holds hr)

theorem Machine.Linked.step (h : Linked m)
    (hs : guarded (Machine.Step reserved) (Machine.Granted reserved) m act m') : Linked m' := by
  obtain ⟨hs, hg⟩ := hs
  cases act with
  | run eip esp ebp =>
    cases hs with
    | run hstep =>
      have hcontexts := Scheduler.contextsKept_step h.contexts hstep hg
      cases hstep
      exact ⟨hcontexts, h.current, h.physical, h.spaces⟩
  | store a b =>
    cases hs
    unfold storeByte
    split
    · exact h
    · exact ⟨h.contexts, h.current, h.physical, h.spaces.update _ m.paging.currentPageDirectory⟩
  | switchTask =>
    cases hs with
    | @switchTask w mem hstep hm =>
      have hcontexts := Scheduler.contextsKept_switchTask h.contexts hstep
      obtain ⟨horder, hdirectory, hphysical, -⟩ := h.switched hstep
      have hdirs : Machine.directories ⟨w, { m.paging with
          currentPageDirectory := w.state.currentPageDirectory, memory := mem }⟩ = m.directories := by
        rw [Machine.directories, Machine.directories, horder]
        exact List.map_congr_left fun p _ => hdirectory p
      refine ⟨hcontexts, rfl, fun p hp => ?_, ?_⟩
      · dsimp only [Machine.directory] at hp ⊢
        rw [hdirectory, hphysical]
        exact h.physical p (horder ▸ hp)
      · rw [hdirs]
        exact h.spaces.update _ _
  | fork pDir node ptrs => exact (h.forked hs hg).linked

/-- A step leaves the kernel's structures in `reserved`. -/
theorem Machine.Keeps.step (hk : Keeps reserved m) (h : Linked m)
    (hs : guarded (Machine.Step reserved) (Machine.Granted reserved) m act m') : Keeps reserved m' := by
  obtain ⟨hs, hg⟩ := hs
  cases act with
  | fork pDir node ptrs =>
    have hf := h.forked hs hg
    have hnew := hg.2.2.2.2
    have hwindow := hf.window_eq
    obtain ⟨mem, hcloned, -⟩ := hf.cloned
    have hkernel : m'.paging.pageDirectory = m.paging.pageDirectory := hcloned.undisturbed.pageDirectory
    have htables : (m'.paging.directories m'.paging.pageDirectory).pageTables =
        (m.paging.directories m.paging.pageDirectory).pageTables := hcloned.kernel_tables
    refine ⟨hwindow ▸ hk.shown, fun r hr => ?_⟩
    rw [Machine.Within, hwindow]
    cases hr with
    | kernel =>
      rw [hkernel]
      exact hk.within _ .kernel
    | kernelTable hi h0 =>
      rw [htables] at h0 ⊢
      exact hk.within _ (.kernelTable hi h0)
    | @directory p hp =>
      rw [hf.order] at hp
      rcases List.mem_append.mp hp with hp | hp
      · rw [hf.others p hp]
        exact hk.within _ (.directory hp)
      · rw [List.mem_singleton.mp hp, hf.child]
        exact hnew _ directory_mem_regions
    | @table p i hp hi h0 =>
      rw [hf.order] at hp
      rcases List.mem_append.mp hp with hp | hp
      · rw [hf.others p hp, hf.tables hp] at h0 ⊢
        exact hk.within _ (.table hp hi h0)
      · rw [List.mem_singleton.mp hp, hf.child] at h0 ⊢
        rcases hf.child_table hi h0 with hptr | hsame
        · exact hnew _ (table_mem_regions hptr)
        · -- The kernel's table, which the caller has too.
          rw [hsame, ← h.directory_current] at h0 ⊢
          exact hk.within _ (.table h.contexts.current hi h0)
    | @node p hp =>
      rw [hf.order] at hp
      rcases List.mem_append.mp hp with hp | hp
      · exact hk.within _ (.node hp)
      · rw [List.mem_singleton.mp hp]
        exact hnew _ node_mem_regions
  | _ => exact (sameProcesses h hs fun _ _ _ he => nomatch he).keeps hk

end Steps

section Refinement

variable {window : BitVec 32 → Option ℕ} {c : Computer ℕ (BitVec 32) ℕ UInt8}

/-- No byte of `reserved` is shown at `a`. -/
def Open (window : BitVec 32 → Option ℕ) (reserved : Set ℕ) (a : BitVec 32) : Prop :=
  ∀ x ∈ window a, x ∉ reserved

theorem open_of_none {a : BitVec 32} (h : window a = none) : Open window reserved a := by
  intro x hx
  rw [h] at hx
  cases hx

/-- The processes find in memory what the members of the computer find, beside `reserved`. -/
structure Represents (reserved : Set ℕ) (window : BitVec 32 → Option ℕ)
    (c : Computer ℕ (BitVec 32) ℕ UInt8) (m : Machine) : Prop where
  linked : Linked m
  keeps : Keeps reserved m
  shown : m.window = window
  roster : c.roster = m.world.roster
  loads : ∀ p ∈ m.world.order, ∀ a, Open window reserved a →
    c.memories.load window p a = m.loadByte p a

theorem Machine.Linked.load_shown (h : Linked m) {p x : ℕ} (hp : p ∈ m.world.order)
    {a : BitVec 32} (hx : m.window a = some x) : m.loadByte p a = some (m.paging.memory x) := by
  rw [Machine.loadByte, Paging.loadByte, h.spaces.walk_shown (mem_directories hp) a.isLt hx]
  rfl

/-- A machine is its own computer. -/
theorem Machine.Linked.represents (h : Linked m) (hk : Keeps reserved m) :
    Represents reserved m.window m.computer m where
  linked := h
  keeps := hk
  shown := rfl
  roster := rfl
  loads p hp a _ := by
    cases hx : m.window a with
    | some x => rw [Memories.load_shown hx, h.load_shown hp hx]; rfl
    | none => exact Memories.load_own hx

/-- Where a byte has another name it lies in the window. -/
theorem Machine.Linked.same_byte (h : Linked m) {p q x : ℕ} {a a' : BitVec 32}
    (hp : p ∈ m.world.order) (hq : q ∈ m.world.order) (ha : m.window a = none)
    (hx : walk m.paging (m.directory p) a.toNat = some x)
    (hx' : walk m.paging (m.directory q) a'.toNat = some x) : q = p ∧ a' = a := by
  have hprivate := h.spaces.walk_private (mem_directories hp) a.isLt ha hx
  obtain ⟨hd, he⟩ := h.spaces.walk_unique (mem_directories hp) (mem_directories hq) a.isLt a'.isLt
    hprivate hx hx'
  exact ⟨h.separate hq hp hd, BitVec.eq_of_toNat_eq he⟩

/-- At an open address no process finds a byte of `reserved`. -/
theorem Machine.Linked.open_byte (h : Linked m) (hk : Keeps reserved m) {p x : ℕ} {a : BitVec 32}
    (hp : p ∈ m.world.order) (ha : Open m.window reserved a)
    (hx : walk m.paging (m.directory p) a.toNat = some x) : x ∉ reserved := by
  cases hw : m.window a with
  | some y =>
    have hshown := h.spaces.walk_shown (mem_directories hp) a.isLt hw
    obtain rfl := Option.some.inj (hshown.symm.trans hx)
    exact ha _ hw
  | none =>
    -- A byte of `reserved` has a name in the window, a private one has no other.
    intro hmem
    obtain ⟨a', ha'⟩ := hk.shown x hmem
    have hshown := h.spaces.walk_shown (mem_directories hp) a'.isLt ha'
    obtain ⟨-, rfl⟩ := h.same_byte hp hp hw hx hshown
    rw [hw] at ha'
    cases ha'

/-- What the kernel writes into its structures is seen at no open address. -/
theorem Machine.Linked.load_beside (h : Linked m) (hk : Keeps reserved m) {mem : Mem}
    (hm : SameBeside reserved m.paging.memory mem) {p : ℕ} {a : BitVec 32}
    (hp : p ∈ m.world.order) (ha : Open m.window reserved a) :
    Paging.loadByte { m.paging with memory := mem } (m.directory p) a.toNat = m.loadByte p a := by
  rw [Machine.loadByte, Paging.loadByte, Paging.loadByte]
  change (walk m.paging (m.directory p) a.toNat).map mem = _
  cases hx : walk m.paging (m.directory p) a.toNat with
  | none => rfl
  | some x => exact congrArg some (hm x (h.open_byte hk hp ha hx))

theorem Represents.current (h : Represents reserved window c m) :
    c.roster.current = m.world.state.currentProcess := by
  rw [h.roster]
  rfl

/-- The same loads in the same order of processes. -/
theorem Represents.kept (h : Represents reserved window c m) (hl : Linked m') (hk : Keeps reserved m')
    (hw : m'.window = m.window) (ho : m'.world.order = m.world.order)
    (hm : ∀ p ∈ m.world.order, ∀ a, Open window reserved a → m'.loadByte p a = m.loadByte p a)
    {c' : Computer ℕ (BitVec 32) ℕ UInt8} (hr : c'.roster = m'.world.roster)
    (hc : c'.memories = c.memories) : Represents reserved window c' m' where
  linked := hl
  keeps := hk
  shown := hw.trans h.shown
  roster := hr
  loads p hp a ha := by
    rw [ho] at hp
    rw [hc, h.loads p hp a ha, hm p hp a ha]

theorem Represents.run (h : Represents reserved window c m) {eip esp ebp : ℕ}
    (hs : guarded (Machine.Step reserved) (Machine.Granted reserved) m (.run eip esp ebp) m') :
    Represents reserved window c m' := by
  have hl := h.linked.step hs
  have hk := h.keeps.step h.linked hs
  obtain ⟨hs, -⟩ := hs
  cases hs with
  | run hstep =>
    cases hstep
    exact h.kept hl hk rfl rfl (fun _ _ _ _ => rfl) h.roster rfl

theorem Represents.switchTask (h : Represents reserved window c m)
    (hs : guarded (Machine.Step reserved) (Machine.Granted reserved) m .switchTask m') :
    ∃ c', OwnMemories.Step window c .turn c' ∧ Represents reserved window c' m' := by
  have hl := h.linked.step hs
  have hk := h.keeps.step h.linked hs
  obtain ⟨hs, -⟩ := hs
  have hsame := sameProcesses h.linked hs fun _ _ _ he => nomatch he
  cases hs with
  | @switchTask w mem hstep hm =>
    obtain ⟨horder, hdirectory, -, hnext⟩ := h.linked.switched hstep
    have hfollows := h.linked.contexts.list.follows h.linked.contexts.current
    have hroster : w.roster = ⟨c.roster.order, nextProcess m.world.state⟩ := by
      rw [World.roster, horder, hnext, h.roster]
      rfl
    refine ⟨{ c with roster := ⟨c.roster.order, nextProcess m.world.state⟩ },
      OwnMemories.Step.turn ?_,
      h.kept hl hk hsame.window_eq horder (fun p hp a ha => ?_) hroster.symm rfl⟩
    · rw [h.roster]
      exact hfollows
    · rw [← h.linked.load_beside h.keeps hm hp (h.shown ▸ ha), Machine.loadByte, Machine.directory,
        hdirectory p]
      rfl

/-- A store through the window is one into a cell. -/
theorem Represents.store_shown (h : Represents reserved window c m) {a : BitVec 32} {x : ℕ} {b : UInt8}
    (hx : m.window a = some x) {p : ℕ} (hp : p ∈ m.world.order) {a' : BitVec 32}
    (ha' : Open window reserved a') :
    (c.memories.store window c.roster.current a b).load window p a' =
      (walk m.paging (m.directory p) a'.toNat).map (write8 m.paging.memory x b) := by
  have hload := h.loads p hp a' ha'
  rw [← h.shown] at hload ⊢
  rw [Memories.store_shown hx]
  cases hx' : m.window a' with
  | some x' =>
    rw [Memories.load_shown hx', h.linked.load_shown hp hx'] at hload
    rw [Memories.load_shown hx', h.linked.spaces.walk_shown (mem_directories hp) a'.isLt hx']
    have hcell : c.memories.cells x' = m.paging.memory x' := Option.some.inj hload
    by_cases he : x' = x
    · subst he
      simp [write8]
    · simp [write8, he, hcell]
  | none =>
    rw [Memories.load_own hx'] at hload ⊢
    dsimp only
    rw [hload, Machine.loadByte, Paging.loadByte]
    cases hy : walk m.paging (m.directory p) a'.toNat with
    | none => rfl
    | some y =>
      have hshown := h.linked.spaces.walk_shown (mem_directories h.linked.contexts.current) a.isLt hx
      have hne : y ≠ x := by
        rintro rfl
        obtain ⟨-, rfl⟩ := h.linked.same_byte hp h.linked.contexts.current hx' hy hshown
        rw [hx'] at hx
        cases hx
      exact congrArg some (write8_of_ne m.paging.memory b hne).symm

/-- Any other store is one into the memory of the running process. -/
theorem Represents.store_own (h : Represents reserved window c m) {a : BitVec 32} {x : ℕ} {b : UInt8}
    (ha : m.window a = none) (hx : walk m.paging m.paging.currentPageDirectory a.toNat = some x)
    {p : ℕ} (hp : p ∈ m.world.order) {a' : BitVec 32} (ha' : Open window reserved a') :
    (c.memories.store window c.roster.current a b).load window p a' =
      (walk m.paging (m.directory p) a'.toNat).map (write8 m.paging.memory x b) := by
  have hcur := h.linked.contexts.current
  rw [← h.linked.directory_current] at hx
  have hload := h.loads p hp a' ha'
  rw [← h.shown] at hload ⊢
  rw [Memories.store_own ha, h.current]
  cases hx' : m.window a' with
  | some x' =>
    have hwalk := h.linked.spaces.walk_shown (mem_directories hp) a'.isLt hx'
    have hne : x' ≠ x := by
      rintro rfl
      obtain ⟨-, rfl⟩ := h.linked.same_byte hcur hp ha hx hwalk
      rw [ha] at hx'
      cases hx'
    rw [Memories.load_shown hx', h.linked.load_shown hp hx'] at hload
    rw [Memories.load_shown hx', hwalk, hload]
    exact congrArg some (write8_of_ne m.paging.memory b hne).symm
  | none =>
    rw [Memories.load_own hx'] at hload ⊢
    by_cases hpa : p = m.world.state.currentProcess ∧ a' = a
    · obtain ⟨rfl, rfl⟩ := hpa
      simp only [update_self]
      rw [hload, Machine.loadByte, Paging.loadByte, hx]
      exact congrArg some (write8_same m.paging.memory x b).symm
    · have hsame : update c.memories.own m.world.state.currentProcess
          (update (c.memories.own m.world.state.currentProcess) a
            ((c.memories.own m.world.state.currentProcess a).map fun _ => b)) p a' =
          c.memories.own p a' := by
        by_cases hpc : p = m.world.state.currentProcess
        · subst hpc
          rw [update_self, update_of_ne fun he => hpa ⟨rfl, he⟩]
        · rw [update_of_ne hpc]
      dsimp only
      rw [hsame, hload, Machine.loadByte, Paging.loadByte]
      cases hy : walk m.paging (m.directory p) a'.toNat with
      | none => rfl
      | some y =>
        have hne : y ≠ x := by
          rintro rfl
          exact hpa (h.linked.same_byte hcur hp ha hx hy)
        exact congrArg some (write8_of_ne m.paging.memory b hne).symm

theorem Represents.store (h : Represents reserved window c m) {a : BitVec 32} {b : UInt8}
    (hs : guarded (Machine.Step reserved) (Machine.Granted reserved) m (.store a b) m') :
    Represents reserved window
      { c with memories := c.memories.store window c.roster.current a b } m' := by
  have hl := h.linked.step hs
  have hk := h.keeps.step h.linked hs
  have hcur := h.linked.contexts.current
  obtain ⟨hs, -⟩ := hs
  have hsame := sameProcesses h.linked hs fun _ _ _ he => nomatch he
  cases hs
  unfold storeByte at hl hk hsame ⊢
  cases hx : walk m.paging m.paging.currentPageDirectory a.toNat with
  | none =>
    -- Nothing is there to store into.
    have hwalk := hx
    rw [← h.linked.directory_current] at hwalk
    have hshown : m.window a = none := by
      cases hw : m.window a with
      | none => rfl
      | some y =>
        rw [h.linked.spaces.walk_shown (mem_directories hcur) a.isLt hw] at hwalk
        cases hwalk
    have hload := h.loads _ hcur a (open_of_none (h.shown ▸ hshown))
    rw [Machine.loadByte, Paging.loadByte, hwalk, ← h.shown, Memories.load_own hshown,
      ← h.current] at hload
    exact h.kept h.linked h.keeps rfl rfl (fun _ _ _ _ => rfl) h.roster
      (Memories.store_none (h.shown ▸ hshown) hload)
  | some x =>
    rw [hx] at hl hk hsame
    refine ⟨hl, hk, hsame.window_eq.trans h.shown, h.roster, fun p hp a' ha' => ?_⟩
    cases hw : m.window a with
    | some y =>
      have hwalk := h.linked.spaces.walk_shown (mem_directories hcur) a.isLt hw
      rw [h.linked.directory_current, hx] at hwalk
      obtain rfl := Option.some.inj hwalk
      exact h.store_shown hw hp ha'
    | none => exact h.store_own hw hx hp ha'

theorem Represents.fork (h : Represents reserved window c m) {pDir node : ℕ} {ptrs : List ℕ}
    (hs : guarded (Machine.Step reserved) (Machine.Granted reserved) m (.fork pDir node ptrs) m') :
    ∃ c', OwnMemories.Step window c (.join node) c' ∧ Represents reserved window c' m' := by
  have hk := h.keeps.step h.linked hs
  have hf := h.linked.forked hs.1 hs.2
  have hfresh : node ∉ c.roster.order := by
    rw [h.roster]
    exact hf.fresh
  have hshown : m'.window = window := hf.window_eq.trans h.shown
  refine ⟨_, OwnMemories.Step.join hfresh, hf.linked, hk, hshown, ?_, fun p hp a ha => ?_⟩
  · rw [h.roster, World.roster, World.roster, hf.order, hf.current]
  · obtain ⟨mem, hcloned, hmem⟩ := hf.cloned
    rw [← hf.linked.load_beside hk (fun x hx => (hmem x hx).symm) hp (hshown ▸ ha)]
    rw [hf.order] at hp
    rcases List.mem_append.mp hp with hp | hp
    · have hne : p ≠ node := fun he => hf.fresh (he ▸ hp)
      have hload := hcloned.load_others (mem_directories hp) a.isLt
      rw [Memories.load_copy_of_ne hne, hf.others p hp, hload]
      exact h.loads p hp a ha
    · obtain rfl := List.mem_singleton.mp hp
      have hload := h.loads _ h.linked.contexts.current a ha
      rw [Memories.load_copy, hf.child, hcloned.load_clone a.isLt, h.current, hload,
        Machine.loadByte, h.linked.directory_current]

/-- The kernel writes into its structures. -/
theorem Represents.beside (h : Represents reserved window c m) {mem : Mem}
    (hm : SameBeside reserved m.paging.memory mem) :
    Represents reserved window c { m with paging := { m.paging with memory := mem } } := by
  have hsame : SameProcesses m { m with paging := { m.paging with memory := mem } } :=
    ⟨rfl, fun _ => rfl, rfl, rfl, rfl, rfl, rfl, rfl⟩
  have hl : Linked { m with paging := { m.paging with memory := mem } } :=
    ⟨h.linked.contexts, h.linked.current, h.linked.physical,
      h.linked.spaces.update mem m.paging.currentPageDirectory⟩
  exact h.kept hl (hsame.keeps h.keeps) hsame.window_eq rfl
    (fun p hp a ha => h.linked.load_beside h.keeps hm hp (h.shown ▸ ha)) h.roster rfl

/-- Beside the window a process cannot store into what the kernel reserves. -/
theorem Represents.store_outside (h : Represents reserved window c m) {a : BitVec 32}
    (ha : window a = none) :
    ∀ x ∈ walk m.paging m.paging.currentPageDirectory a.toNat, x ∉ reserved := by
  intro x hx
  rw [← h.linked.directory_current] at hx
  exact h.linked.open_byte h.keeps h.linked.contexts.current (open_of_none (h.shown ▸ ha)) hx

/-- Every granted step is one of the computer. -/
theorem Represents.step (h : Represents reserved window c m)
    (hs : guarded (Machine.Step reserved) (Machine.Granted reserved) m act m') :
    ∃ c', OwnMemories.Step window c act.op c' ∧ Represents reserved window c' m' := by
  cases act with
  | run eip esp ebp => exact ⟨c, OwnMemories.Step.stay c, h.run hs⟩
  | store a b => exact ⟨_, OwnMemories.Step.store c a b, h.store hs⟩
  | switchTask => exact h.switchTask hs
  | fork pDir node ptrs => exact h.fork hs

end Refinement

section Privacy

variable {window : BitVec 32 → Option ℕ} {c : Computer ℕ (BitVec 32) ℕ UInt8} {p : ℕ}

/-- `p` is not the one that stores now. -/
def Machine.Rests (p : ℕ) (m : Machine) : Action → Prop
  | .store _ _ => m.world.state.currentProcess ≠ p
  | _ => True

/-- `p` does not store in `region` now. -/
def Machine.Spares (p : ℕ) (region : Set (BitVec 32)) (m : Machine) : Action → Prop
  | .store a _ => m.world.state.currentProcess = p → a ∉ region
  | _ => True

theorem Represents.sparing (h : Represents reserved window c m) {region : Set (BitVec 32)}
    (hs : guarded (guarded (Machine.Step reserved) (Machine.Granted reserved)) (Machine.Spares p region)
      m act m') :
    ∃ c', guarded (OwnMemories.Step window) (Spares p region) c act.op c' ∧
      Represents reserved window c' m' := by
  obtain ⟨c', hstep, hc'⟩ := h.step hs.1
  refine ⟨c', ⟨hstep, ?_⟩, hc'⟩
  have hspares := hs.2
  cases act with
  | store a b =>
    rw [Machine.Spares, ← h.current] at hspares
    exact hspares
  | _ => trivial

theorem Machine.Rests.spares (h : m.Rests p act) (region : Set (BitVec 32)) :
    m.Spares p region act := by
  cases act with
  | store a b => exact fun he => absurd he h
  | _ => trivial

end Privacy

section Frames

variable {need total : ℕ}

/-- Each process has as many frames as any other. -/
structure Accounted (need total : ℕ) (m : Machine) : Prop where
  needed : ∀ p ∈ m.world.order, framesNeeded m.paging (m.directory p) 0 1024 = need
  frames : freeFrames m.paging + need * m.world.order.length = total

theorem Accounted.step (h : Accounted need total m) (hl : Linked m)
    (hs : guarded (Machine.Step reserved) (Machine.Granted reserved) m act m') : Accounted need total m' := by
  obtain ⟨hs, hg⟩ := hs
  cases act with
  | run eip esp ebp =>
    cases hs with
    | run hstep =>
      cases hstep
      exact ⟨h.needed, h.frames⟩
  | store a b =>
    cases hs
    unfold storeByte
    split
    · exact h
    · exact ⟨h.needed, h.frames⟩
  | switchTask =>
    cases hs with
    | switchTask hstep =>
      obtain ⟨horder, hdirectory, -⟩ := hl.switched hstep
      constructor
      · intro p hp
        rw [Machine.directory, hdirectory p]
        exact h.needed p (horder ▸ hp)
      · dsimp only
        rw [horder]
        exact h.frames
  | fork pDir node ptrs =>
    have hf := hl.forked hs hg
    have hcur := h.needed _ hl.contexts.current
    rw [hl.directory_current] at hcur
    obtain ⟨mem, hcloned, -⟩ := hf.cloned
    have hothers {d : ℕ} (hd : d ∈ m.directories) :
        framesNeeded m'.paging d 0 1024 = framesNeeded m.paging d 0 1024 :=
      hcloned.framesNeeded_others hd
    have hclone : framesNeeded m'.paging pDir 0 1024 =
        framesNeeded m.paging m.paging.currentPageDirectory 0 1024 := hcloned.framesNeeded_clone
    constructor
    · intro p hp
      rw [hf.order] at hp
      rcases List.mem_append.mp hp with hp | hp
      · rw [hf.others p hp, hothers (mem_directories hp)]
        exact h.needed p hp
      · rw [List.mem_singleton.mp hp, hf.child, hclone, hcur]
    · have hused := hf.frames
      have hframes := h.frames
      rw [hcur] at hused
      rw [hf.order, List.length_append, List.length_singleton, Nat.mul_add, Nat.mul_one]
      omega

end Frames

section Runs

variable {s : Scheduler.State} {node : ℕ} {acts acts' : List Action} {m₁ m₂ : Machine}

theorem Machine.Started.reached (h : Started reserved m s node)
    (hr : Run (guarded (Machine.Step reserved) (Machine.Granted reserved)) m acts m') :
    ∃ c, Run (OwnMemories.Step m.window) m.computer (acts.map Action.op) c ∧
      Represents reserved m.window c m' :=
  hr.simulate (R := fun d c => Represents reserved m.window c d)
    (fun _ _ _ _ hrep hs => hrep.step hs) ((Started.linked h).represents h.keeps)

/-- Every run of the machine is one of a computer whose processes have memories of their
own, as far as they are not shown what the kernel reserves; there the structures of the kernel
stay, and paging works in the directory of the process that runs. -/
theorem memories_refine (h : Started reserved m s node)
    (hr : Run (guarded (Machine.Step reserved) (Machine.Granted reserved)) m acts m') :
    ∃ c, Run (OwnMemories.Step m.window) m.computer (acts.map Action.op) c ∧
      c.roster = m'.world.roster ∧
      (∀ p ∈ c.roster.order, ∀ a, Open m.window reserved a →
        c.memories.load m.window p a = m'.loadByte p a) ∧ Keeps reserved m' ∧
      m'.world.state.cpu.cr3 =
        (m'.paging.directories (m'.directory m'.world.state.currentProcess)).physicalAddress := by
  obtain ⟨c, hc, hrep⟩ := h.reached hr
  refine ⟨c, hc, hrep.roster, fun p hp => hrep.loads p ?_, hrep.keeps, ?_⟩
  · rwa [hrep.roster] at hp
  · rw [hrep.linked.directory_current]
    exact hrep.linked.cr3

/-- Where a process does not store, it finds beside the window what was there. -/
theorem spared_kept {p : ℕ} {region : Set (BitVec 32)} {a : BitVec 32} (h : Started reserved m s node)
    (hr : Run (guarded (Machine.Step reserved) (Machine.Granted reserved)) m acts m₁)
    (hr' : Run (guarded (guarded (Machine.Step reserved) (Machine.Granted reserved))
      (Machine.Spares p region)) m₁ acts' m₂)
    (hp : p ∈ m₁.world.order) (ha : m.window a = none) (hregion : a ∈ region) :
    m₂.loadByte p a = m₁.loadByte p a := by
  obtain ⟨c₁, -, h₁⟩ := h.reached hr
  obtain ⟨c₂, hc, h₂⟩ := hr'.simulate (R := fun d c => Represents reserved m.window c d)
    (fun _ _ _ _ hrep hs => hrep.sparing hs) h₁
  have hp₁ : p ∈ c₁.roster.order := by rwa [h₁.roster]
  obtain ⟨hp₂, hown⟩ := OwnMemories.own_kept hc hp₁
  rw [h₂.roster] at hp₂
  have hopen : Open m.window reserved a := open_of_none ha
  rw [← h₂.loads p hp₂ a hopen, ← h₁.loads p hp a hopen, Memories.load_own ha, Memories.load_own ha,
    hown a hregion]

/-- Beside the window a process finds what it has stored itself. -/
theorem private_kept {p : ℕ} {a : BitVec 32} (h : Started reserved m s node)
    (hr : Run (guarded (Machine.Step reserved) (Machine.Granted reserved)) m acts m₁)
    (hr' : Run (guarded (guarded (Machine.Step reserved) (Machine.Granted reserved)) (Machine.Rests p))
      m₁ acts' m₂)
    (hp : p ∈ m₁.world.order) (ha : m.window a = none) : m₂.loadByte p a = m₁.loadByte p a :=
  spared_kept h hr (hr'.mono fun _ _ _ hs => ⟨hs.1, hs.2.spares Set.univ⟩) hp ha (Set.mem_univ a)

/-- All processes have equally many frames of their own, and no frame gets lost. -/
theorem frames_accounted (h : Started reserved m s node)
    (hr : Run (guarded (Machine.Step reserved) (Machine.Granted reserved)) m acts m') :
    (∀ p ∈ m'.world.order, framesNeeded m'.paging (m'.directory p) 0 1024 =
      framesNeeded m.paging m.paging.currentPageDirectory 0 1024) ∧
    freeFrames m'.paging +
        framesNeeded m.paging m.paging.currentPageDirectory 0 1024 * m'.world.order.length =
      freeFrames m.paging + framesNeeded m.paging m.paging.currentPageDirectory 0 1024 := by
  have hlinked := Started.linked h
  have horder : m.world.order = [node] := by rw [h.world]; rfl
  have hnode : m.directory node = m.paging.currentPageDirectory := by
    have hcur := hlinked.contexts.current
    rw [horder, List.mem_singleton] at hcur
    rw [← hcur]
    exact hlinked.directory_current
  generalize hneed : framesNeeded m.paging m.paging.currentPageDirectory 0 1024 = need
  have hstart : Accounted need (freeFrames m.paging + need) m := by
    constructor
    · intro p hp
      rw [horder, List.mem_singleton] at hp
      rw [hp, hnode, hneed]
    · rw [horder, List.length_singleton, Nat.mul_one]
  have hinv : Linked m' ∧ Accounted need (freeFrames m.paging + need) m' :=
    hr.invariant (P := fun d => Linked d ∧ Accounted need (freeFrames m.paging + need) d)
      (fun _ _ _ hd hs => ⟨hd.1.step hs, hd.2.step hd.1 hs⟩) ⟨hlinked, hstart⟩
  exact ⟨hinv.2.needed, hinv.2.frames⟩

end Runs

section TwoProcesses
open Paging (entry entryAddress Private Page PageDirectory Apart pageSize busy)

/-- The first four megabytes lie where they are, in the table of slot 0, for the kernel and for
the directory at `0x110000`, which has a page of its own in slot 1. -/
def fourMegabytes (mem : Mem) : Paging.State where
  frames := fun i => if i < 32 then 0xFFFFFFFF else if i = 32 then 1 else 0
  frameNumber := 0x1000
  pageDirectory := 0x100000
  currentPageDirectory := 0x110000
  directories := fun d => { PageDirectory.zero with
    pageTables := fun i => if i = 0 then 0x200000 else if i = 1 ∧ d = 0x110000 then 0x210000 else 0
    physicalAddress := d }
  pages := fun p =>
    if 0x200000 ≤ p ∧ p < 0x201000 then
      { Page.zero with present := true, rw := true, frame := BitVec.ofNat 20 ((p - 0x200000) / 4) }
    else if p = 0x210000 then
      { Page.zero with present := true, rw := true, user := true, frame := 1024 }
    else Page.zero
  paging := true
  heapEnabled := true
  memory := mem

/-- All that the kernel has, directories and tables and nodes included. -/
def kernelBytes : Set ℕ := {x | 0x1000 ≤ x ∧ x < 0x400000}

variable {mem : Mem}

theorem tables_fourMegabytes (d i : ℕ) : ((fourMegabytes mem).directories d).pageTables i =
    if i = 0 then 0x200000 else if i = 1 ∧ d = 0x110000 then 0x210000 else 0 := rfl

theorem entry_shared (d : ℕ) {n : ℕ} (hn : n < 1024) : entry (fourMegabytes mem) d n =
    { Page.zero with present := true, rw := true, frame := BitVec.ofNat 20 n } := by
  have hslot : n / 1024 = 0 := by omega
  have haddress : entryAddress (fourMegabytes mem) d n = 0x200000 + 4 * n := by
    rw [entryAddress, tables_fourMegabytes, if_pos hslot, Nat.mod_eq_of_lt hn]
  have hindex : (0x200000 + 4 * n - 0x200000) / 4 = n := by omega
  rw [entry, haddress]
  simp only [fourMegabytes]
  rw [if_pos (by omega), hindex]

theorem private_fourMegabytes (j : ℕ) (hp : Private (fourMegabytes mem) 0x110000 j) : j = 1 := by
  obtain ⟨h0, hne⟩ := hp
  rw [tables_fourMegabytes] at h0 hne
  rw [tables_fourMegabytes] at hne
  by_cases hj : j = 0
  · rw [if_pos hj, if_pos hj] at hne
    exact absurd rfl hne
  · rw [if_neg hj] at h0
    by_contra hj'
    exact h0 (if_neg fun h => hj' h.1)

theorem frame_fourMegabytes (j : ℕ) (h : ((fourMegabytes mem).pages (0x210000 + 4 * j)).frame ≠ 0) :
    j = 0 := by
  by_contra hne
  apply h
  simp only [fourMegabytes]
  rw [if_neg (by omega), if_neg (by omega)]
  rfl

/-- A present page lies below four megabytes or is the private one. -/
theorem page_fourMegabytes {n : ℕ}
    (h0 : ((fourMegabytes mem).directories 0x110000).pageTables (n / 1024) ≠ 0)
    (hpr : (entry (fourMegabytes mem) 0x110000 n).present = true) :
    n < 1024 ∨ n = 1024 ∧ (entry (fourMegabytes mem) 0x110000 n).frame = 1024 := by
  by_cases hn : n / 1024 = 0
  · exact .inl (by omega)
  · have hslot : n / 1024 = 1 := by
      rw [tables_fourMegabytes, if_neg hn] at h0
      by_contra hne
      exact h0 (if_neg fun h => hne h.1)
    have haddress : entryAddress (fourMegabytes mem) 0x110000 n = 0x210000 + 4 * (n % 1024) := by
      rw [entryAddress, hslot]
      rfl
    have hfirst : n % 1024 = 0 := by
      rw [entry, haddress] at hpr
      by_contra hne
      simp only [fourMegabytes] at hpr
      rw [if_neg (by omega), if_neg (by omega)] at hpr
      cases hpr
    obtain rfl : n = 1024 := by omega
    exact .inr ⟨rfl, rfl⟩

theorem private_page {n : ℕ} (hp : Private (fourMegabytes mem) 0x110000 (n / 1024))
    (hpr : (entry (fourMegabytes mem) 0x110000 n).present = true) :
    n = 1024 ∧ (entry (fourMegabytes mem) 0x110000 n).frame = 1024 := by
  have hslot := private_fourMegabytes _ hp
  rcases page_fourMegabytes hp.1 hpr with h | h
  · omega
  · exact h

theorem busy_fourMegabytes {n : ℕ} (hn : n ≤ 1024) : busy (fourMegabytes mem).frames n = true := by
  rw [busy]
  simp only [fourMegabytes]
  by_cases h : n / 32 < 32
  · rw [if_pos h]
    exact BitVec.getLsbD_allOnes.trans (decide_eq_true (Nat.mod_lt _ (by decide)))
  · obtain rfl : n = 1024 := by omega
    rfl

theorem isolated_fourMegabytes : Paging.Isolated (fourMegabytes mem) 0x110000 where
  busy n _ h0 hpr := by
    rcases page_fourMegabytes h0 hpr with hn | ⟨-, hframe⟩
    · rw [entry_shared _ hn]
      exact busy_fourMegabytes ((Nat.mod_le _ _).trans hn.le)
    · rw [hframe]
      exact busy_fourMegabytes le_rfl
  unshared n _ n' _ hp hpr hs hpr' := by
    have hn' : n' < 1024 := by
      rcases page_fourMegabytes hs.1 hpr' with hn' | ⟨rfl, -⟩
      · exact hn'
      · exact absurd hs.2 (by decide : (0x210000 : ℕ) ≠ 0)
    rw [(private_page hp hpr).2, entry_shared _ hn']
    intro he
    have hval : 1024 = n' % 2 ^ 20 := congrArg BitVec.toNat he
    omega

theorem spaces_fourMegabytes : AddressSpaces (fourMegabytes mem) [0x110000] where
  zeroBusy := busy_fourMegabytes (Nat.zero_le _)
  kernel d hd i _ h0 := by
    rw [List.mem_singleton.mp hd]
    have hi : i = 0 := by
      by_contra hne
      apply h0
      rw [tables_fourMegabytes, if_neg hne]
      exact if_neg fun h => absurd h.2 (by decide : (0x100000 : ℕ) ≠ 0x110000)
    rw [hi]
    rfl
  isolated d hd := List.mem_singleton.mp hd ▸ isolated_fourMegabytes
  apart d hd d' hd' hne :=
    absurd ((List.mem_singleton.mp hd).trans (List.mem_singleton.mp hd').symm) hne
  distinct d hd n _ n' _ hp hp' hpr hpr' _ := by
    rw [List.mem_singleton.mp hd] at hp hp' hpr hpr'
    rw [(private_page hp hpr).1, (private_page hp' hpr').1]
  mapped d hd n _ hp hpr := by
    rw [List.mem_singleton.mp hd] at hp hpr ⊢
    rw [(private_page hp hpr).2]
    decide

theorem apart_fourMegabytes (j : ℕ) :
    Apart 0x310000 (((fourMegabytes mem).directories 0x110000).pageTables j) := by
  rw [tables_fourMegabytes]
  unfold Apart pageSize
  split_ifs <;> omega

theorem ready_fourMegabytes : Ready (fourMegabytes mem) 0x110000 0x300000 0 1024 [0x310000] where
  number := (by decide : 0x1000 ≤ 2 ^ 20)
  source := by decide
  kernel := (by decide : 0x100000 ≠ 0x300000)
  current := (by decide : 0x110000 ≠ 0x300000)
  nonnull := by decide
  mapped ptr hptr _ := by
    obtain rfl := List.mem_singleton.mp hptr
    exact (by decide : (0x200000 : ℕ) ≠ 0)
  disjoint := List.pairwise_singleton Apart _
  apartSource ptr hptr j _ _ := List.mem_singleton.mp hptr ▸ apart_fourMegabytes j
  apartKernel ptr hptr j _ := by
    obtain rfl := List.mem_singleton.mp hptr
    rw [tables_fourMegabytes]
    split_ifs <;> omega
  frames := by
    have hnumber : 1025 ∈ Finset.range (fourMegabytes mem).frameNumber :=
      Finset.mem_range.mpr (by decide : 1025 < 0x1000)
    have hclear : busy (fourMegabytes mem).frames 1025 = false := (by decide : (1#32).getLsbD 1 = false)
    have hfree : 1 ≤ freeFrames (fourMegabytes mem) :=
      Finset.card_pos.mpr ⟨1025, Finset.mem_filter.mpr ⟨hnumber, by rw [hclear]⟩⟩
    exact (Paging.framesNeeded_le_one private_fourMegabytes frame_fourMegabytes).trans hfree
  tables := Paging.tablesNeeded_le_one private_fourMegabytes

theorem newTo_fourMegabytes : NewTo (fourMegabytes mem) [0x110000] 0x300000 [0x310000] where
  directory := by decide
  tables ptr hptr d hd j _ _ := by
    obtain rfl := List.mem_singleton.mp hptr
    obtain rfl := List.mem_singleton.mp hd
    exact apart_fourMegabytes j

def firstScheduler : Scheduler.State :=
  { Scheduler.unscheduled with
    currentPageDirectory := 0x110000
    physicalAddress := id
    cpu := ⟨1, 2, 3, 0x110000⟩ }

/-- Scheduling begins in the directory at `0x110000`, with the node at `0x1000`. -/
def firstProcess (mem : Mem) : Machine := ⟨booted firstScheduler 0x1000, fourMegabytes mem⟩

theorem window_low {a : BitVec 32} (ha : a.toNat < 0x400000) :
    (firstProcess mem).window a = some a.toNat := by
  have hn : a.toNat / 0x1000 < 1024 := by omega
  have hslot : a.toNat / 0x1000 / 1024 = 0 := by omega
  refine Paging.walk_eq_some.mpr ⟨⟨?_, ?_⟩, ?_⟩
  · change ((fourMegabytes mem).directories 0x100000).pageTables _ ≠ 0
    rw [hslot]
    exact (by decide : (0x200000 : ℕ) ≠ 0)
  · exact congrArg Page.present (@entry_shared mem 0x100000 _ hn)
  · have hframe : (entry (fourMegabytes mem) 0x100000 (a.toNat / 0x1000)).frame.toNat =
        a.toNat / 0x1000 := by
      rw [entry_shared _ hn]
      exact Nat.mod_eq_of_lt (by omega)
    change (entry (fourMegabytes mem) 0x100000 (a.toNat / 0x1000)).frame.toNat * pageSize + _ = _
    rw [hframe, pageSize]
    omega

theorem window_high {a : BitVec 32} (ha : 0x400000 ≤ a.toNat) :
    (firstProcess mem).window a = none := by
  refine if_neg fun h => h.1 ?_
  change ((fourMegabytes mem).directories 0x100000).pageTables _ = 0
  rw [tables_fourMegabytes, if_neg (by omega)]
  exact if_neg fun h => absurd h.2 (by decide : (0x100000 : ℕ) ≠ 0x110000)

theorem within_firstProcess {r : ℕ × ℕ} (hl : 0x1000 ≤ r.1) :
    (firstProcess mem).Within kernelBytes r := by
  intro a ha _ x hx
  by_cases hlow : a.toNat < 0x400000
  · rw [window_low hlow, Option.mem_some_iff] at hx
    rw [← hx]
    exact ⟨by omega, hlow⟩
  · rw [window_high (by omega)] at hx
    cases hx

theorem firstProcess_started (mem : Mem) :
    Started kernelBytes (firstProcess mem) firstScheduler 0x1000 where
  unscheduled := ⟨rfl, by decide, by decide, rfl⟩
  world := rfl
  current := rfl
  physical := rfl
  spaces := spaces_fourMegabytes
  keeps := by
    refine ⟨fun x hx => ?_, fun r hr => within_firstProcess ?_⟩
    · have hlt : x < 2 ^ 32 := by
        have := hx.2
        omega
      have hval : (BitVec.ofNat 32 x).toNat = x := Nat.mod_eq_of_lt hlt
      refine ⟨BitVec.ofNat 32 x, ?_⟩
      rw [window_low (by rw [hval]; exact hx.2), hval]
    · have htable (d i : ℕ) (h0 : ((fourMegabytes mem).directories d).pageTables i ≠ 0) :
          0x1000 ≤ ((fourMegabytes mem).directories d).pageTables i := by
        rw [tables_fourMegabytes] at h0 ⊢
        split_ifs at h0 ⊢
        · decide
        · decide
        · exact absurd rfl h0
      cases hr with
      | kernel => exact (by decide : 0x1000 ≤ 0x100000)
      | kernelTable hi h0 => exact htable _ _ h0
      | directory hp =>
        obtain rfl := List.mem_singleton.mp hp
        exact (by decide : 0x1000 ≤ 0x110000)
      | table hp hi h0 => exact htable _ _ h0
      | node hp =>
        obtain rfl := List.mem_singleton.mp hp
        exact le_rfl

/-- The first process forks. -/
theorem exists_fork (mem : Mem) : ∃ (s : Paging.State) (w : World) (phys : ℕ),
    (firstProcess mem).world.Step (.fork 0x300000 phys 0x2000) w ∧
    guarded (Machine.Step kernelBytes) (Machine.Granted kernelBytes) (firstProcess mem)
      (.fork 0x300000 0x2000 [0x310000]) ⟨w, s⟩ := by
  have hmapped : Mapped (fourMegabytes mem) 0x300000 := fun _ => (by decide : (0x200000 : ℕ) ≠ 0)
  have hnode : 0x2000 ∉ (firstProcess mem).world.order := (by decide : 0x2000 ∉ [0x1000])
  have hdirectory : ∀ p ∈ (firstProcess mem).world.order,
      ((firstProcess mem).world.state.nodes p).data.pageDirectory ≠ 0x300000 := by
    intro p hp
    obtain rfl := List.mem_singleton.mp hp
    exact (by decide : (0x110000 : ℕ) ≠ 0x300000)
  obtain ⟨s, hsome, -⟩ := Paging.clonePageDirectory_clonedInto (s := fourMegabytes mem)
    spaces_fourMegabytes (List.mem_singleton_self _) hmapped ready_fourMegabytes newTo_fourMegabytes
  have hwithin : ∀ r ∈ regions 0x300000 0x2000 [0x310000],
      (firstProcess mem).Within kernelBytes r := by
    intro r hr
    refine within_firstProcess ?_
    simp only [regions, List.map_cons, List.map_nil, List.cons_append, List.nil_append,
      List.mem_cons, List.not_mem_nil, or_false] at hr
    rcases hr with rfl | rfl | rfl <;> decide
  have hstep : (firstProcess mem).world.Step
      (.fork 0x300000 (s.directories 0x300000).physicalAddress 0x2000) _ := World.Step.fork _ _ _ _
  exact ⟨s, _, _, hstep, Machine.Step.fork hsome hstep (fun _ _ => rfl),
    ⟨by decide, hnode, hdirectory⟩, hmapped, ready_fourMegabytes, newTo_fourMegabytes, hwithin⟩

/-- Its child runs. -/
theorem exists_child (mem : Mem) : ∃ m₁ : Machine,
    Run (guarded (Machine.Step kernelBytes) (Machine.Granted kernelBytes)) (firstProcess mem)
      [.fork 0x300000 0x2000 [0x310000], .switchTask] m₁ ∧
    m₁.world.order = [0x1000, 0x2000] ∧ m₁.world.state.currentProcess = 0x2000 := by
  obtain ⟨s, w, phys, hw, hfork⟩ := exists_fork mem
  cases hw
  exact ⟨_, Run.cons hfork
    (Run.single ⟨Machine.Step.switchTask (World.Step.switchTask _) (fun _ _ => rfl), trivial⟩), rfl, rfl⟩

theorem memories_refine_child : ∃ (m₁ : Machine) (c : Computer ℕ (BitVec 32) ℕ UInt8),
    m₁.world.state.currentProcess = 0x2000 ∧
    Run (OwnMemories.Step (firstProcess 0).window) (firstProcess 0).computer [.join 0x2000, .turn] c ∧
    c.roster = m₁.world.roster ∧
    ∀ p ∈ c.roster.order, ∀ a, Open (firstProcess 0).window kernelBytes a →
      c.memories.load (firstProcess 0).window p a = m₁.loadByte p a := by
  obtain ⟨m₁, hr, -, hcur⟩ := exists_child 0
  obtain ⟨c, hc, hroster, hloads, -⟩ := memories_refine (firstProcess_started 0) hr
  exact ⟨m₁, c, hcur, hc, hroster, hloads⟩

/-- The child stores into its page, which the parent does not see. -/
theorem private_kept_parent : ∃ m₁ m₂ : Machine,
    Machine.Step kernelBytes m₁ (.store 0x400000 9) m₂ ∧ m₁.world.state.currentProcess = 0x2000 ∧
    m₂.loadByte 0x1000 0x400000 = m₁.loadByte 0x1000 0x400000 := by
  obtain ⟨m₁, hr, horder, hcur⟩ := exists_child 0
  have hstarted := firstProcess_started 0
  have hprivate : (firstProcess 0).window 0x400000 = none := window_high le_rfl
  obtain ⟨c, -, hrep⟩ := hstarted.reached hr
  have hstore : Machine.Step kernelBytes m₁ (.store 0x400000 9) _ :=
    Machine.Step.store m₁ 0x400000 9 (hrep.store_outside hprivate)
  have hrests : guarded (guarded (Machine.Step kernelBytes) (Machine.Granted kernelBytes))
      (Machine.Rests 0x1000) m₁ (.store 0x400000 9) _ :=
    ⟨⟨hstore, trivial⟩, by rw [Machine.Rests, hcur]; decide⟩
  refine ⟨m₁, _, hstore, hcur, private_kept hstarted hr (Run.single hrests) ?_ hprivate⟩
  rw [horder]
  decide

theorem frames_accounted_child : ∃ m₁ : Machine, m₁.world.order = [0x1000, 0x2000] ∧
    freeFrames m₁.paging + framesNeeded (fourMegabytes 0) 0x110000 0 1024 * 2 =
      freeFrames (fourMegabytes 0) + framesNeeded (fourMegabytes 0) 0x110000 0 1024 := by
  obtain ⟨m₁, hr, horder, -⟩ := exists_child 0
  have hframes := (frames_accounted (firstProcess_started 0) hr).2
  have hpaging : (firstProcess 0).paging = fourMegabytes 0 := rfl
  have hcur : (fourMegabytes 0).currentPageDirectory = 0x110000 := rfl
  have hlen : [0x1000, 0x2000].length = 2 := rfl
  rw [horder, hlen, hpaging, hcur] at hframes
  exact ⟨m₁, horder, hframes⟩

end TwoProcesses

end ExperimentalKernel.ProcessMemories
