import ExperimentalKernel.RoundRobin
import ExperimentalKernel.SchedulerContexts

/-!
# Turns of processes

The list of processes is a roster that `switchTask` walks and `fork` lengthens, so
processes take turns in the order in which they were forked.
-/

namespace ExperimentalKernel.Scheduler
open ByteMemory LabelledRuns RoundRobin Function

/-- The nodes that `fork` adds, in this order. -/
def forked : List Event → List ℕ
  | [] => []
  | .fork _ _ node :: es => node :: forked es
  | _ :: es => forked es

/-- The process that an event has made the current one. -/
def Event.activated (w : World) : Event → List ℕ
  | .switchTask => [w.state.currentProcess]
  | _ => []

/-- A step and the process that it activates. -/
def World.Shown (w : World) (l : Event × List ℕ) (w' : World) : Prop :=
  guarded World.Step World.Granted w l.1 w' ∧ l.2 = l.1.activated w'

def World.roster (w : World) : Roster ℕ := ⟨w.order, w.state.currentProcess⟩

section ProcessList

variable {s : State} {order : List ℕ}

theorem ProcessList.follows (h : ProcessList s order) (hc : s.currentProcess ∈ order) :
    Follows order s.currentProcess (nextProcess s) := by
  obtain ⟨l, r, ho⟩ := List.append_of_mem hc
  have hlen : l.length < order.length := by simp [ho]
  have hcur : s.currentProcess = order.getD l.length 0 := by
    rw [ho, List.getD_append_right _ _ _ _ le_rfl]
    simp
  rw [h.nextProcess_eq hlen hcur]
  cases r with
  | nil =>
    have hl : order.length = l.length + 1 := by simp [ho]
    rw [← hl, Nat.mod_self]
    cases hb : order with
    | nil => simp [hb] at hlen
    | cons b r =>
      rw [List.getD_cons_zero, ← hb, ho]
      exact Follows.wrap (ho ▸ hb)
  | cons b r =>
    have hl : l.length + 1 < order.length := by simp [ho]
    rw [Nat.mod_eq_of_lt hl]
    have hb : order.getD (l.length + 1) 0 = b := by
      rw [ho, List.getD_append_right _ _ _ _ (by omega)]
      simp
    rw [hb]
    nth_rewrite 1 [ho]
    exact Follows.next l r _ b

theorem ProcessList.getLast? (h : ProcessList s order) (hne : order ≠ []) :
    order.getLast? = some s.last := by
  have hlen := List.length_pos_of_ne_nil hne
  rw [List.getLast?_eq_getElem?, h.last, List.getD_eq_getElem?_getD]
  rw [List.getElem?_eq_getElem (by omega)]
  rfl

/-- Only the last node has no next one. -/
theorem ProcessList.next_eq_zero (h : ProcessList s order) {p : ℕ} (hp : p ∈ order) :
    (s.nodes p).next = 0 ↔ p = s.last := by
  obtain ⟨i, hi, rfl⟩ := exists_getD hp
  rw [h.next i hi, h.last]
  by_cases hlast : i + 1 = order.length
  · rw [List.getD_eq_default order 0 (by omega), ← hlast, Nat.add_sub_cancel]
    simp
  · refine ⟨fun h0 => ?_, fun he => ?_⟩
    · exact absurd (h0 ▸ getD_mem (by omega)) h.nonnull
    · exact absurd he (h.getD_ne hi (by omega) (by omega))

end ProcessList

/-- Every granted step is one of the roster. -/
theorem ContextsKept.turn {w w' : World} {e : Event} (h : ContextsKept w)
    (hs : guarded World.Step World.Granted w e w') :
    RoundRobin.Step w.roster (e.activated w') w'.roster := by
  obtain ⟨hs, hg⟩ := hs
  cases e with
  | run eip esp ebp =>
    cases hs
    exact Step.stay w.roster
  | switchTask =>
    have hcur : w'.state.currentProcess = nextProcess w.state := by
      cases hs
      dsimp only
      rw [h.switched.eq]
      rfl
    have hroster : w'.roster = ⟨w.order, nextProcess w.state⟩ := by
      cases hs
      exact congrArg (Roster.mk w.order) hcur
    rw [hroster, Event.activated, hcur]
    exact Step.turn (h.list.follows h.current)
  | fork pDir phys node =>
    have hf := (h.forked hg).2
    cases hs
    change RoundRobin.Step w.roster [] ⟨w.order ++ [node], _⟩
    rw [hf.current]
    exact Step.join w.state.currentProcess hg.2.1

/-- Processes are numbered from one on. -/
structure Numbered (w : World) : Prop where
  pid : ∀ i < w.order.length, (w.state.nodes (w.order.getD i 0)).data.pid = u32 (i + 1)
  counter : w.state.pidCounter = u32 (w.order.length + 1)

theorem booted_numbered {s : State} {node : ℕ} (h : Unscheduled s node) :
    Numbered (booted s node) := by
  constructor
  · intro i hi
    obtain rfl : i = 0 := by simpa [booted] using hi
    simp [booted, init, newProcess, pushBackCurrent, pushBack, h.empty, State.setNode, u32]
  · simp [booted, init, newProcess, pushBackCurrent, pushBack, h.empty, State.setNode, u32]

theorem saveProcess_pid (s : State) (eip p : ℕ) :
    ((saveProcess s eip).nodes p).data.pid = (s.nodes p).data.pid :=
  saveProcess_field (·.data.pid) (fun _ _ _ _ => rfl) s eip p

theorem pushBack_pidCounter (s : State) (data : Process) (node : ℕ) :
    (pushBack s data node).pidCounter = s.pidCounter := by
  unfold pushBack
  split <;> rfl

theorem u32_succ (n : ℕ) : u32 (u32 n + 1) = u32 (n + 1) := by
  simp [u32]

theorem numbered_step {w w' : World} {e : Event} (hk : ContextsKept w) (h : Numbered w)
    (hs : w.Step e w') (hg : w.Granted e) : Numbered w' := by
  cases e with
  | run eip esp ebp =>
    cases hs
    exact ⟨h.pid, h.counter⟩
  | switchTask =>
    cases hs
    constructor <;> dsimp only <;> rw [hk.switched.eq]
    · exact fun i hi => (saveProcess_pid _ _ _).trans (h.pid i hi)
    · exact h.counter
  | fork pDir phys node =>
    have hf := (hk.forked hg).2
    have hcur : w.state.currentPageDirectory ≠ pDir := hk.directory ▸ hg.2.2 _ hk.current
    cases hs
    constructor
    · intro i hi
      rw [List.length_append, List.length_singleton] at hi
      dsimp only
      rcases Nat.lt_succ_iff_lt_or_eq.mp hi with hi | rfl
      · have hne : w.order.getD i 0 ≠ node := fun he => hg.2.1 (he ▸ getD_mem hi)
        rw [List.getD_append _ _ _ _ hi, hf.others _ hne]
        exact h.pid i hi
      · rw [List.getD_append_right _ _ _ _ le_rfl, Nat.sub_self, List.getD_cons_zero, hf.child]
        exact h.counter
    · dsimp only
      rw [fork_eq hcur, pushBack_pidCounter, List.length_append, List.length_singleton, h.counter,
        u32_succ]

theorem order_forked {w w' : World} {es : List Event}
    (hr : Run (guarded World.Step World.Granted) w es w') : w'.order = w.order ++ forked es := by
  induction hr with
  | nil => simp [forked]
  | @cons w w₁ w' e es hs _ ih =>
    rw [ih]
    cases hs.1 with
    | run => rfl
    | switchTask => rfl
    | fork => simp [forked]

theorem kept_numbered {s : State} {node : ℕ} {es : List Event} {w : World}
    (hs : Unscheduled s node) (hr : Run (guarded World.Step World.Granted) (booted s node) es w) :
    ContextsKept w ∧ Numbered w :=
  hr.invariant (P := fun w => ContextsKept w ∧ Numbered w)
    (fun _ _ _ h hstep => ⟨contextsKept_step h.1 hstep.1 hstep.2,
      numbered_step h.1 h.2 hstep.1 hstep.2⟩) ⟨booted_kept hs, booted_numbered hs⟩

/-- A run of the scheduler is one of the roster. -/
theorem ContextsKept.turns {w w' : World} {ls : List (Event × List ℕ)} (h : ContextsKept w)
    (hr : Run World.Shown w ls w') :
    Run RoundRobin.Step w.roster (ls.map Prod.snd) w'.roster ∧ ContextsKept w' := by
  have hstep : ∀ w (l : Event × List ℕ) w' r, ContextsKept w ∧ r = w.roster → World.Shown w l w' →
      ∃ r', RoundRobin.Step r l.2 r' ∧ ContextsKept w' ∧ r' = w'.roster := by
    rintro w l w' _ ⟨hkept, rfl⟩ hs
    refine ⟨w'.roster, ?_, contextsKept_step hkept hs.1.1 hs.1.2, rfl⟩
    rw [hs.2]
    exact hkept.turn hs.1
  obtain ⟨r, hrun, hkept, rfl⟩ := hr.simulate hstep ⟨h, rfl⟩
  exact ⟨hrun, hkept⟩

/-- The list in the order of the forks, and fairness between two activations of the
current process. -/
theorem round_robin_exact {s : State} {node : ℕ} {es : List Event} {w : World}
    (hs : Unscheduled s node) (hr : Run (guarded World.Step World.Granted) (booted s node) es w)
    (hforks : (forked es).length < 2 ^ 31) :
    w.order = node :: forked es ∧
    ProcessList w.state w.order ∧
    (∀ i < w.order.length, (w.state.nodes (w.order.getD i 0)).data.pid = i + 1) ∧
    w.order.getLast? = some w.state.last ∧
    (∀ p ∈ w.order, (w.state.nodes p).next = 0 ↔ p = w.state.last) ∧
    w.state.currentProcess ∈ w.order ∧
    ∀ ls w' w'', Run World.Shown w ls w' →
      guarded World.Step World.Granted w' .switchTask w'' →
      w''.state.currentProcess = w.state.currentProcess →
      w.state.currentProcess ∉ (ls.map Prod.snd).flatten →
      ∀ q ≠ w.state.currentProcess,
        (q ∈ w.order → (ls.map Prod.snd).flatten.count q = 1) ∧
        (q ∈ w'.order → q ∉ w.order → (ls.map Prod.snd).flatten.count q ≤ 1) := by
  obtain ⟨hkept, hnum⟩ := kept_numbered hs hr
  have ho : w.order = node :: forked es := order_forked hr
  have hne : w.order ≠ [] := List.ne_nil_of_mem hkept.current
  refine ⟨ho, hkept.list, fun i hi => ?_, hkept.list.getLast? hne,
    fun p hp => hkept.list.next_eq_zero hp, hkept.current, ?_⟩
  · rw [hnum.pid i hi]
    rw [ho, List.length_cons] at hi
    have hlt : i + 1 < wordSize := by
      change i + 1 < 4294967296
      omega
    exact u32_eq hlt
  · intro ls w' w'' hrun hstep hback hnone q hq
    obtain ⟨hroster, hkept'⟩ := hkept.turns hrun
    have hturn := hkept'.turn hstep
    rw [Event.activated, hback] at hturn
    obtain ⟨h₁, h₂⟩ := fair hkept.list.nodup hkept.current hroster hnone hturn hq
    exact ⟨h₁, fun _ _ => h₂⟩

/-- The first process forks; its child has a turn before it runs again. -/
theorem round_robin_exact_child :
    ∃ w w' w'', Run (guarded World.Step World.Granted) (booted unscheduled 0x1000)
        [.fork 0x200 0x200 0x2000] w ∧
      Run World.Shown w [(.switchTask, [0x2000])] w' ∧
      guarded World.Step World.Granted w' .switchTask w'' ∧
      w''.state.currentProcess = w.state.currentProcess ∧
      w.order = [0x1000, 0x2000] ∧ [0x2000].count 0x2000 = 1 := by
  have hrun : Run (guarded World.Step World.Granted) (booted unscheduled 0x1000)
      [.fork 0x200 0x200 0x2000] _ :=
    Run.single ⟨World.Step.fork _ 0x200 0x200 0x2000, by decide, by decide, by decide⟩
  obtain ⟨ho, -, -, -, -, -, hfair⟩ :=
    round_robin_exact ⟨rfl, by decide, by decide, rfl⟩ hrun (by decide)
  have hswitch (w : World) : guarded World.Step World.Granted w .switchTask _ :=
    ⟨World.Step.switchTask w, trivial⟩
  have hturn (w : World) (p : ℕ) (hp : p = (switchTask w.state (getEip w.state)).currentProcess) :
      Run World.Shown w [(.switchTask, [p])] _ := Run.single ⟨hswitch w, congrArg List.singleton hp⟩
  have hback := hfair _ _ _ (hturn _ 0x2000 (by decide)) (hswitch _) (by decide) (by decide)
  exact ⟨_, _, _, hrun, hturn _ 0x2000 (by decide), hswitch _, by decide, ho,
    (hback 0x2000 (by decide)).1 (by decide)⟩

end ExperimentalKernel.Scheduler
