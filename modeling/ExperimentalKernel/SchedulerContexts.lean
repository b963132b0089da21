import ExperimentalKernel.ProcessList
import ExperimentalKernel.LabelledRuns

/-!
# Contexts of processes

Beside the state a run keeps what the processor held when each process was last
switched out, and which processes have run. Switching loads just that, and a child
that starts finds in its copy of the stack that it is not its parent.
-/

namespace ExperimentalKernel.Scheduler
open ByteMemory LabelledRuns Function

/-- What a process owns of the machine. -/
structure Context where
  eip : ℕ
  esp : ℕ
  ebp : ℕ
  pageDirectory : ℕ
  deriving DecidableEq

/-- The context that the processor works in. -/
def running (s : State) : Context := ⟨s.cpu.eip, s.cpu.esp, s.cpu.ebp, s.currentPageDirectory⟩

/-- The context stored in a node. -/
def Process.context (p : Process) : Context := ⟨p.eip, p.esp, p.ebp, p.pageDirectory⟩

/-- `saved` and `ran` record the past of the run; no code reads them. -/
structure World where
  state : State
  order : List ℕ
  saved : ℕ → Context
  ran : ℕ → Bool

inductive Event where
  | run (eip esp ebp : ℕ)
  | switchTask
  | fork (pDir phys node : ℕ)

/-- The instruction after `call get_eip` is where the running process is. -/
def getEip (s : State) : ℕ := s.cpu.eip

inductive World.Step : World → Event → World → Prop
  | run (w : World) (eip esp ebp : ℕ) :
      Step w (.run eip esp ebp)
        { w with state := { w.state with cpu := { w.state.cpu with eip := eip, esp := esp, ebp := ebp } } }
  | switchTask (w : World) :
      Step w .switchTask { w with
        state := switchTask w.state (getEip w.state)
        saved := update w.saved w.state.currentProcess (running w.state)
        ran := update w.ran (switchTask w.state (getEip w.state)).currentProcess true }
  | fork (w : World) (pDir phys node : ℕ) :
      Step w (.fork pDir phys node)
        { state := (fork w.state (getEip w.state) pDir phys node).2
          order := w.order ++ [node]
          saved := update w.saved node { running w.state with pageDirectory := pDir }
          ran := update w.ran node false }

/-- A process never is at the dummy address; `new` and `clonePageDirectory` return
what no process has. -/
def World.Granted (w : World) : Event → Prop
  | .run eip _ _ => eip ≠ dummyEip
  | .switchTask => True
  | .fork pDir _ node => node ≠ 0 ∧ node ∉ w.order ∧
      ∀ p ∈ w.order, (w.state.nodes p).data.pageDirectory ≠ pDir

/-- After `init` there is one process, and it runs. -/
def booted (s : State) (node : ℕ) : World where
  state := init s node
  order := [node]
  saved := fun _ => running s
  ran := fun _ => true

/-- No process yet, and paging works in the directory that `pmmu` has. -/
structure Unscheduled (s : State) (node : ℕ) : Prop where
  empty : s.first = 0
  node : node ≠ 0
  eip : s.cpu.eip ≠ dummyEip
  cr3 : s.cpu.cr3 = s.physicalAddress s.currentPageDirectory

/-- Every process that waits has its context in its node. -/
structure ContextsKept (w : World) : Prop where
  list : ProcessList w.state w.order
  current : w.state.currentProcess ∈ w.order
  directory : (w.state.nodes w.state.currentProcess).data.pageDirectory = w.state.currentPageDirectory
  cr3 : w.state.cpu.cr3 = w.state.physicalAddress w.state.currentPageDirectory
  eip : w.state.cpu.eip ≠ dummyEip
  waiting : ∀ p ∈ w.order, p ≠ w.state.currentProcess →
    (w.state.nodes p).data.context = w.saved p ∧ (w.saved p).eip ≠ dummyEip
  separate : ∀ p ∈ w.order, ∀ q ∈ w.order,
    (w.state.nodes p).data.pageDirectory = (w.state.nodes q).data.pageDirectory → p = q
  unborn : ∀ p ∈ w.order, w.ran p = false → p ≠ w.state.currentProcess ∧
    w.state.parentProc (w.state.nodes p).data.pageDirectory ≠ p

theorem booted_kept {s : State} {node : ℕ} (h : Unscheduled s node) :
    ContextsKept (booted s node) := by
  have hinit : init s node = { s with
      pidCounter := 2
      first := node
      last := node
      currentProcess := node
      nodes := update s.nodes node ⟨⟨1, 0, 0, 0, s.currentPageDirectory⟩, 0⟩ } := by
    simp [init, newProcess, pushBackCurrent, pushBack, h.empty, State.setNode, u32]
  refine ⟨⟨?_, ?_, ?_, ?_, ?_⟩, ?_, ?_, ?_, ?_, ?_, ?_, ?_⟩
  · exact List.nodup_singleton node
  · simpa [booted] using Ne.symm h.node
  · simp [booted, hinit]
  · simp [booted, hinit]
  · simp [booted, hinit]
  · simp [booted, hinit]
  · simp [booted, hinit]
  · simpa [booted, hinit] using h.cr3
  · simpa [booted, hinit] using h.eip
  · intro p hp hne
    simp [booted, hinit] at hp hne
    exact absurd hp hne
  · intro p hp q hq _
    rw [List.mem_singleton.mp hp, List.mem_singleton.mp hq]
  · exact fun p _ hr => absurd hr (by simp [booted])

section SwitchTask

variable {s : State}

/-- What is not part of a context is the same in every node. -/
theorem saveProcess_field {α : Type} (get : SNode → α)
    (hget : ∀ n eip esp ebp,
      get { n with data := { n.data with eip := eip, esp := esp, ebp := ebp } } = get n)
    (s : State) (eip p : ℕ) : get ((saveProcess s eip).nodes p) = get (s.nodes p) := by
  by_cases hp : p = s.currentProcess
  · subst hp
    rw [saveProcess, State.setNode]
    exact (congrArg get (update_self ..)).trans (hget _ _ _ _)
  · rw [saveProcess, State.setNode]
    exact congrArg get (update_of_ne hp ..)

theorem saveProcess_next (s : State) (eip p : ℕ) :
    ((saveProcess s eip).nodes p).next = (s.nodes p).next :=
  saveProcess_field SNode.next (fun _ _ _ _ => rfl) s eip p

theorem saveProcess_directory (s : State) (eip p : ℕ) :
    ((saveProcess s eip).nodes p).data.pageDirectory = (s.nodes p).data.pageDirectory :=
  saveProcess_field (·.data.pageDirectory) (fun _ _ _ _ => rfl) s eip p

theorem switchTask_eq (hc : s.currentProcess ≠ 0) (he : s.cpu.eip ≠ dummyEip) :
    switchTask s (getEip s) = loadProcess (saveProcess s s.cpu.eip) (nextProcess s) := by
  have hnext : nextProcess (saveProcess s s.cpu.eip) = nextProcess s := by
    simp only [nextProcess, saveProcess_next]
    rfl
  rw [switchTask, if_neg hc, getEip, if_neg he]
  exact congrArg (loadProcess (saveProcess s s.cpu.eip)) hnext

/-- After the running context is stored all nodes hold what was saved. -/
theorem ContextsKept.saved {w : World} (h : ContextsKept w) {p : ℕ} (hp : p ∈ w.order) :
    (((saveProcess w.state w.state.cpu.eip).nodes p).data.context =
      update w.saved w.state.currentProcess (running w.state) p) ∧
    (update w.saved w.state.currentProcess (running w.state) p).eip ≠ dummyEip := by
  by_cases hc : p = w.state.currentProcess
  · subst hc
    rw [update_self]
    refine ⟨?_, h.eip⟩
    simp [saveProcess, State.setNode, Process.context, running, h.directory]
  · rw [update_of_ne hc]
    obtain ⟨h₁, h₂⟩ := h.waiting p hp hc
    refine ⟨?_, h₂⟩
    simp [saveProcess, State.setNode, update_of_ne hc, h₁]

/-- What a switch leaves in the processor and in the nodes. -/
structure Switched (w : World) (s' : State) : Prop where
  eq : s' = loadProcess (saveProcess w.state w.state.cpu.eip) (nextProcess w.state)
  next : nextProcess w.state ∈ w.order
  loaded : running s' =
    update w.saved w.state.currentProcess (running w.state) (nextProcess w.state)

theorem ContextsKept.switched {w : World} (h : ContextsKept w) :
    Switched w (switchTask w.state (getEip w.state)) := by
  have hne : w.state.currentProcess ≠ 0 := fun h0 => h.list.nonnull (h0 ▸ h.current)
  have hnext := h.list.nextProcess_mem h.current
  refine ⟨switchTask_eq hne h.eip, hnext, ?_⟩
  rw [switchTask_eq hne h.eip]
  exact (h.saved hnext).1

end SwitchTask

theorem contextsKept_switchTask {w w' : World} (h : ContextsKept w) (hs : w.Step .switchTask w') :
    ContextsKept w' := by
  cases hs
  obtain ⟨heq, hnext, -⟩ := h.switched
  have hdir := saveProcess_directory w.state w.state.cpu.eip
  constructor <;> dsimp only <;> rw [heq]
  · exact h.list.congr rfl rfl (saveProcess_next w.state w.state.cpu.eip)
  · exact hnext
  · rfl
  · rfl
  · exact fun he => (h.saved hnext).2 ((congrArg Context.eip (h.saved hnext).1).symm.trans he)
  · exact fun p hp _ => h.saved hp
  · intro p hp q hq he
    exact h.separate p hp q hq ((hdir p).symm.trans (he.trans (hdir q)))
  · intro p hp hr
    have hpn : p ≠ nextProcess w.state := by
      rintro rfl
      simp [loadProcess] at hr
    have hr' : w.ran p = false := by
      simpa [loadProcess, update_of_ne hpn] using hr
    refine ⟨hpn, ?_⟩
    change w.state.parentProc ((saveProcess w.state w.state.cpu.eip).nodes p).data.pageDirectory ≠ p
    rw [hdir]
    exact (h.unborn p hp hr').2

section Fork

variable {s : State} {pDir phys node : ℕ}

/-- In the caller the process is still the one that was remembered. -/
theorem fork_eq (hne : s.currentPageDirectory ≠ pDir) (eip : ℕ) :
    fork s eip pDir phys node = (s.pidCounter, pushBack { s with
        pidCounter := u32 (s.pidCounter + 1)
        physicalAddress := update s.physicalAddress pDir phys
        parentProc := update (update s.parentProc s.currentPageDirectory s.currentProcess) pDir
          s.currentProcess }
      ⟨s.pidCounter, s.cpu.esp, s.cpu.ebp, eip, pDir⟩ node) := by
  simp [fork, forkBegin, forkEnd, cloneAddressSpace, newProcess, update_of_ne hne]

/-- In the child it is not. -/
theorem forkEnd_child (h : s.currentProcess ≠ s.parentProc s.currentPageDirectory) (eip : ℕ)
    (childProc : Process) (node : ℕ) : forkEnd s eip childProc node = (0, s) :=
  if_neg h

end Fork

/-- The state after a fork. -/
structure Forked (w : World) (s' : State) (pDir phys node : ℕ) : Prop where
  child : s'.nodes node =
    ⟨⟨w.state.pidCounter, w.state.cpu.esp, w.state.cpu.ebp, w.state.cpu.eip, pDir⟩, 0⟩
  others : ∀ p, p ≠ node → (s'.nodes p).data = (w.state.nodes p).data
  list : ProcessList s' (w.order ++ [node])
  current : s'.currentProcess = w.state.currentProcess
  directory : s'.currentPageDirectory = w.state.currentPageDirectory
  cpu : s'.cpu = w.state.cpu
  physical : s'.physicalAddress = update w.state.physicalAddress pDir phys
  stack : s'.parentProc =
    update (update w.state.parentProc w.state.currentPageDirectory w.state.currentProcess) pDir
      w.state.currentProcess

theorem ContextsKept.forked {w : World} {pDir phys node : ℕ} (h : ContextsKept w)
    (hg : w.Granted (.fork pDir phys node)) :
    (fork w.state (getEip w.state) pDir phys node).1 = w.state.pidCounter ∧
      Forked w (fork w.state (getEip w.state) pDir phys node).2 pDir phys node := by
  obtain ⟨hnode, hfresh, hdirs⟩ := hg
  have hcur : w.state.currentPageDirectory ≠ pDir := h.directory ▸ hdirs _ h.current
  have hne : w.order ≠ [] := List.ne_nil_of_mem h.current
  rw [fork_eq hcur]
  refine ⟨rfl, ?_⟩
  dsimp only
  generalize hs : ({ w.state with
    pidCounter := u32 (w.state.pidCounter + 1)
    physicalAddress := update w.state.physicalAddress pDir phys
    parentProc := update (update w.state.parentProc w.state.currentPageDirectory
      w.state.currentProcess) pDir w.state.currentProcess } : State) = s
  have hlist : ProcessList s w.order := by
    subst hs
    exact h.list.congr rfl rfl fun _ => rfl
  have hp : Pushed s (pushBack s ⟨w.state.pidCounter, w.state.cpu.esp, w.state.cpu.ebp,
      getEip w.state, pDir⟩ node)
      ⟨w.state.pidCounter, w.state.cpu.esp, w.state.cpu.ebp, getEip w.state, pDir⟩ node :=
    pushBack_pushed fun _ he => hfresh (he ▸ hlist.last_mem hne)
  have hlist' := hlist.pushed hp hnode hfresh
  obtain ⟨f, l, ns, hrest⟩ := hp.rest
  have hchild := hp.added
  have hothers := hp.others
  rw [hrest] at hlist' hchild hothers ⊢
  subst hs
  exact ⟨hchild, hothers, hlist', rfl, rfl, rfl, rfl, rfl⟩

theorem contextsKept_fork {w w' : World} {pDir phys node : ℕ} (h : ContextsKept w)
    (hg : w.Granted (.fork pDir phys node)) (hs : w.Step (.fork pDir phys node) w') :
    ContextsKept w' := by
  have hf := (h.forked hg).2
  obtain ⟨hnode, hfresh, hdirs⟩ := hg
  cases hs
  generalize (fork w.state (getEip w.state) pDir phys node).2 = s' at hf
  have hcur : w.state.currentPageDirectory ≠ pDir := h.directory ▸ hdirs _ h.current
  have hold : ∀ p ∈ w.order, p ≠ node := fun p hp he => hfresh (he ▸ hp)
  have hdata : ∀ p ∈ w.order, (s'.nodes p).data = (w.state.nodes p).data :=
    fun p hp => hf.others p (hold p hp)
  have hchild : (s'.nodes node).data.pageDirectory = pDir := by rw [hf.child]
  have hcases : ∀ p ∈ w.order ++ [node], p ∈ w.order ∨ p = node := by simp
  constructor <;> dsimp only
  · exact hf.list
  · exact hf.current ▸ List.mem_append_left _ h.current
  · rw [hf.current, hf.directory, hdata _ h.current]
    exact h.directory
  · rw [hf.cpu, hf.physical, hf.directory, update_of_ne hcur]
    exact h.cr3
  · exact hf.cpu ▸ h.eip
  · intro p hp hne
    rw [hf.current] at hne
    rcases hcases p hp with hp | rfl
    · rw [update_of_ne (hold p hp), hdata p hp]
      exact h.waiting p hp hne
    · rw [update_self, hf.child]
      exact ⟨rfl, h.eip⟩
  · intro p hp q hq he
    rcases hcases p hp with hp' | hp' <;> rcases hcases q hq with hq' | hq'
    · exact h.separate p hp' q hq' (by rw [← hdata p hp', ← hdata q hq', he])
    · rw [hq', hchild, hdata p hp'] at he
      exact absurd he (hdirs p hp')
    · rw [hp', hchild, hdata q hq'] at he
      exact absurd he.symm (hdirs q hq')
    · rw [hp', hq']
  · intro p hp hr
    rw [hf.current, hf.stack]
    rcases hcases p hp with hp | rfl
    · rw [update_of_ne (hold p hp)] at hr
      obtain ⟨hpc, hstack⟩ := h.unborn p hp hr
      refine ⟨hpc, ?_⟩
      have hown : (w.state.nodes p).data.pageDirectory ≠ w.state.currentPageDirectory :=
        fun he => hpc (h.separate p hp _ h.current (he.trans h.directory.symm))
      rw [hdata p hp, update_of_ne (hdirs p hp), update_of_ne hown]
      exact hstack
    · rw [hchild, update_self]
      exact ⟨fun he => hfresh (he ▸ h.current), fun he => hfresh (he ▸ h.current)⟩

theorem contextsKept_step {w w' : World} {e : Event} (h : ContextsKept w) (hs : w.Step e w')
    (hg : w.Granted e) : ContextsKept w' := by
  cases e with
  | run eip esp ebp =>
    cases hs
    exact ⟨h.list.congr rfl rfl fun _ => rfl, h.current, h.directory, h.cr3, hg, h.waiting,
      h.separate, h.unborn⟩
  | switchTask => exact contextsKept_switchTask h hs
  | fork pDir phys node => exact contextsKept_fork h hg hs

/-- Contexts survive switches, and `fork` tells parent and child apart. -/
theorem contexts_preserved {s : State} {node : ℕ} {es : List Event} {w : World}
    (hs : Unscheduled s node) (hr : Run (guarded World.Step World.Granted) (booted s node) es w) :
    (w.state.nodes w.state.currentProcess).data.pageDirectory = w.state.currentPageDirectory ∧
    (∀ w', w.Step .switchTask w' →
      running w'.state = w'.saved w'.state.currentProcess ∧
      w'.state.cpu.cr3 = w'.state.physicalAddress w'.state.currentPageDirectory ∧
      (w.ran w'.state.currentProcess = false → ∀ childProc child,
        forkEnd w'.state dummyEip childProc child = (0, w'.state))) ∧
    (∀ w' pDir phys child, w.Granted (.fork pDir phys child) →
      w.Step (.fork pDir phys child) w' →
      (fork w.state (getEip w.state) pDir phys child).1 = (w'.state.nodes child).data.pid) := by
  have hkept : ContextsKept w := hr.invariant (P := ContextsKept)
    (fun _ _ _ h hstep => contextsKept_step h hstep.1 hstep.2) (booted_kept hs)
  refine ⟨hkept.directory, fun w' hstep => ?_, fun w' pDir phys child hg hstep => ?_⟩
  · have hkept' := contextsKept_switchTask hkept hstep
    refine ⟨?_, hkept'.cr3, fun hran childProc child => forkEnd_child ?_ dummyEip childProc child⟩
    · cases hstep
      obtain ⟨heq, -, hloaded⟩ := hkept.switched
      have hcur : (switchTask w.state (getEip w.state)).currentProcess = nextProcess w.state := by
        rw [heq]
        rfl
      dsimp only
      rw [hcur]
      exact hloaded
    · cases hstep
      obtain ⟨heq, hnext, -⟩ := hkept.switched
      have hdir := saveProcess_directory w.state w.state.cpu.eip
      rw [heq] at hran ⊢
      have := (hkept.unborn _ hnext hran).2
      rw [← hdir] at this
      exact Ne.symm this
  · obtain ⟨hpid, hf⟩ := hkept.forked hg
    cases hstep
    rw [hpid, hf.child]

/-- Before `init`, in the directory at `0x100`. -/
def unscheduled : State where
  first := 0
  last := 0
  currentProcess := 0
  pidCounter := 0
  nodes := fun _ => ⟨⟨0, 0, 0, 0, 0⟩, 0⟩
  currentPageDirectory := 0x100
  physicalAddress := fun d => d
  parentProc := fun _ => 0
  cpu := ⟨1, 2, 3, 0x100⟩

/-- The first process forks, moves on and is switched out; its child starts. -/
def childStarts : List Event := [.fork 0x200 0x200 0x2000, .run 4 5 6, .switchTask]

theorem contexts_preserved_child :
    ∃ w, Run (guarded World.Step World.Granted) (booted unscheduled 0x1000) childStarts w ∧
      w.state.currentProcess = 0x2000 ∧ w.saved 0x1000 = ⟨4, 5, 6, 0x100⟩ ∧
      (w.state.nodes w.state.currentProcess).data.pageDirectory = w.state.currentPageDirectory := by
  have hrun : Run (guarded World.Step World.Granted) (booted unscheduled 0x1000) childStarts _ :=
    Run.cons ⟨World.Step.fork (booted unscheduled 0x1000) 0x200 0x200 0x2000, by decide, by decide, by decide⟩
    (Run.cons ⟨World.Step.run _ 4 5 6, fun h => by cases h⟩ (Run.single ⟨World.Step.switchTask _, trivial⟩))
  exact ⟨_, hrun, by decide, by decide,
    (contexts_preserved ⟨rfl, by decide, by decide, rfl⟩ hrun).1⟩

end ExperimentalKernel.Scheduler
