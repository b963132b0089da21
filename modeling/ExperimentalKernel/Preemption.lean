import ExperimentalKernel.InterruptFrames
import ExperimentalKernel.ProcessMemories

/-!
# Preemption

A process that is interrupted in the kernel leaves its registers in a frame on its stack,
which is private. Whatever the others do until it is switched back, the scheduler returns
to where it called `switchTask`, and the stub resumes the interrupted state.
-/

namespace ExperimentalKernel.ProcessMemories
open LabelledRuns Function
open Scheduler (Context ContextsKept running nextProcess)
open Interrupts (Processor Instruction Handler SameRegisters toCall toIret interrupt idt
  pushesErrorCode)
open Machine (Started Linked)

/-- Memory as the process `p` finds it, with zero where nothing is mapped. -/
def Machine.view (m : Machine) (p : ℕ) : WordStack.Memory :=
  fun a => ((m.loadByte p a).getD 0).toBitVec

/-- The bytes of `struct registers` at `esp`. -/
def frame (esp : BitVec 32) : Set (BitVec 32) := {a | (a - esp).toNat < 76}

/-- Another process than `p` is running. -/
def Machine.Away (p : ℕ) (m : Machine) (_ : Action) : Prop := m.world.state.currentProcess ≠ p

variable {m m' m₁ m₂ : Machine} {act : Action} {acts acts' : List Action} {reserved : Set ℕ}
variable {p : ℕ} {ctx : Context}

theorem Machine.Away.spares (h : m.Away p act) (region : Set (BitVec 32)) :
    m.Spares p region act := by
  cases act with
  | store a b => exact fun he => absurd he h
  | _ => trivial

section Contexts

/-- What is known of a process that was switched out with the context `ctx`. -/
structure Waits (p : ℕ) (ctx : Context) (m : Machine) : Prop where
  linked : Linked m
  mem : p ∈ m.world.order
  saved : m.world.saved p = ctx
  resumed : m.world.state.currentProcess = p → running m.world.state = ctx

/-- A switch loads what was saved. -/
theorem Waits.switched (hl : Linked m) (hp : p ∈ m.world.order)
    (hsaved : update m.world.saved m.world.state.currentProcess (running m.world.state) p = ctx)
    (hs : guarded (Machine.Step reserved) (Machine.Granted reserved) m .switchTask m') : Waits p ctx m' := by
  have hl' := hl.step hs
  obtain ⟨hs, -⟩ := hs
  cases hs with
  | switchTask hstep hm =>
    obtain ⟨heq, -, hloaded⟩ := hl.contexts.switched
    refine ⟨hl', ?_, ?_, ?_⟩
    · cases hstep
      exact hp
    · cases hstep
      exact hsaved
    · intro hcur
      cases hstep
      dsimp only at hcur ⊢
      rw [heq] at hcur
      obtain rfl : nextProcess m.world.state = p := hcur
      rw [hloaded, hsaved]

/-- While others run the saved context stays. -/
theorem Waits.step (h : Waits p ctx m)
    (hs : guarded (guarded (Machine.Step reserved) (Machine.Granted reserved)) (Machine.Away p) m act m') :
    Waits p ctx m' := by
  obtain ⟨hs, haway⟩ := hs
  have hl' := h.linked.step hs
  cases act with
  | run eip esp ebp =>
    obtain ⟨hs, -⟩ := hs
    cases hs with
    | run hstep =>
      cases hstep
      exact ⟨hl', h.mem, h.saved, fun hcur => absurd hcur haway⟩
  | store a b =>
    obtain ⟨hs, -⟩ := hs
    cases hs
    exact ⟨hl', h.mem, h.saved, fun hcur => absurd hcur haway⟩
  | switchTask =>
    refine Waits.switched h.linked h.mem ?_ hs
    rw [update_of_ne (Ne.symm haway)]
    exact h.saved
  | fork pDir node ptrs =>
    obtain ⟨hs, hg⟩ := hs
    have hf := h.linked.forked hs hg
    have hne : p ≠ node := fun he => hf.fresh (he ▸ h.mem)
    refine ⟨hl', hf.order ▸ List.mem_append_left _ h.mem, ?_, fun hcur => ?_⟩
    · cases hs with
      | fork hclone hstep hm =>
        cases hstep
        exact (update_of_ne hne _ _).trans h.saved
    · rw [hf.current] at hcur
      exact absurd hcur haway

/-- The scheduler takes a process up again in the context in which it was switched out. -/
theorem context_resumed (hl : Linked m) (hcur : m.world.state.currentProcess = p)
    (hs : guarded (Machine.Step reserved) (Machine.Granted reserved) m .switchTask m₁)
    (hr : Run (guarded (guarded (Machine.Step reserved) (Machine.Granted reserved)) (Machine.Away p))
      m₁ acts m₂) (hback : m₂.world.state.currentProcess = p) :
    running m₂.world.state = running m.world.state := by
  have hp : p ∈ m.world.order := hcur ▸ hl.contexts.current
  have hsaved : update m.world.saved m.world.state.currentProcess (running m.world.state) p =
      running m.world.state := by
    rw [hcur, update_self]
  have hwaits := hr.invariant (P := Waits p (running m.world.state))
    (fun _ _ _ h hstep => h.step hstep) (Waits.switched hl hp hsaved hs)
  exact hwaits.resumed hback

end Contexts

section Frames

variable {s₀ : Scheduler.State} {node vector : ℕ} {errorCode : BitVec 32} {cpu : Processor}
variable {code exit : List Instruction} {handler : Handler} {s t : Interrupts.Machine}

theorem frame_mem (esp : BitVec 32) {i : ℕ} (hi : i < 76) : esp + BitVec.ofNat 32 i ∈ frame esp := by
  change (esp + BitVec.ofNat 32 i - esp).toNat < 76
  bv_omega

/-- A frame on a private stack stays as long as its process does not store there. -/
theorem frame_kept (h : Started reserved m s₀ node)
    (hr : Run (guarded (Machine.Step reserved) (Machine.Granted reserved)) m acts m₁)
    (hp : p ∈ m₁.world.order) {esp : BitVec 32} (hprivate : ∀ a ∈ frame esp, m.window a = none)
    (hr' : Run (guarded (guarded (Machine.Step reserved) (Machine.Granted reserved))
      (Machine.Spares p (frame esp))) m₁ acts' m₂) {a : BitVec 32} (ha : a ∈ frame esp) :
    m₂.view p a = m₁.view p a := by
  rw [Machine.view, Machine.view, spared_kept h hr hr' hp (hprivate a ha) ha]

/-- The interrupted process `p` runs its handler, which calls `switchTask` in `m₂`; others run
until `p` is switched back in `m₄`; the handler returns in `m₅`. Then `switchTask` has returned
in the context in which it was called, and the stub leads back to the interrupted state. -/
theorem preempted_resumes {m₃ m₄ m₅ : Machine} {acts₁ acts₃ acts₄ : List Action}
    (h : Started reserved m s₀ node)
    (hr : Run (guarded (Machine.Step reserved) (Machine.Granted reserved)) m acts m₁)
    (hp : p ∈ m₁.world.order) (hcode : idt vector = some code)
    (herr : pushesErrorCode vector = false)
    (hcall : toCall cpu 15 code (interrupt cpu vector errorCode s) = some (handler, exit, t))
    (hview : ∀ a ∈ frame t.esp, m₁.view p a = t.memory a)
    (hprivate : ∀ a ∈ frame t.esp, m.window a = none)
    (hhandler : Run (guarded (guarded (Machine.Step reserved) (Machine.Granted reserved))
      (Machine.Spares p (frame t.esp))) m₁ acts₁ m₂)
    (hcur : m₂.world.state.currentProcess = p)
    (hswitch : guarded (Machine.Step reserved) (Machine.Granted reserved) m₂ .switchTask m₃)
    (hothers : Run (guarded (guarded (Machine.Step reserved) (Machine.Granted reserved)) (Machine.Away p))
      m₃ acts₃ m₄) (hback : m₄.world.state.currentProcess = p)
    (hreturn : Run (guarded (guarded (Machine.Step reserved) (Machine.Granted reserved))
      (Machine.Spares p (frame t.esp))) m₄ acts₄ m₅) :
    running m₄.world.state = running m₂.world.state ∧
    ∀ u : Interrupts.Machine, u.esp = t.esp → u.cs = t.cs → u.ss = t.ss →
      (∀ a ∈ frame t.esp, u.memory a = m₅.view p a) →
      ∃ v, toIret cpu exit u = some v ∧ SameRegisters s v := by
  have hspared : Run (guarded (guarded (Machine.Step reserved) (Machine.Granted reserved))
      (Machine.Spares p (frame t.esp))) m₃ acts₃ m₄ :=
    hothers.mono fun _ _ _ hs => ⟨hs.1, hs.2.spares _⟩
  have hall := hhandler.append (Run.cons ⟨hswitch, trivial⟩ (hspared.append hreturn))
  refine ⟨?_, fun u hesp hcs hss hmemory => ?_⟩
  · obtain ⟨c, -, hc⟩ := h.reached (hr.append (hhandler.mono fun _ _ _ hs => hs.1))
    exact context_resumed hc.linked hcur hswitch hothers hback
  · obtain ⟨target, rfl⟩ := Interrupts.idt_eq hcode
    obtain ⟨k, handler', exit', t', hcall', -, hresume⟩ :=
      Interrupts.transparent_of_not_pushesErrorCode cpu target herr errorCode s
    obtain ⟨rfl, rfl, rfl⟩ : handler' = handler ∧ exit' = exit ∧ t' = t := by
      have hunique := Interrupts.toCall_unique cpu hcall' hcall
      simp only [Prod.mk.injEq] at hunique
      exact hunique
    refine hresume u ⟨hesp, hcs, hss, fun i hi => ?_⟩
    have hmem := frame_mem t'.esp hi
    rw [hmemory _ hmem, frame_kept h hr hp hprivate hall hmem, hview _ hmem]

end Frames

section TwoProcesses
open Paging (walk entry)
open Scheduler (World booted)

/-- In the kernel, with a stack in the private page of the first process. -/
def inKernel : Interrupts.Machine := { Interrupts.atEntry with esp := 0x400800 }

/-- The frame of an interrupt lies in that page. -/
theorem frame_page {esp a : BitVec 32} (hesp : esp + 56 = inKernel.esp - 12) (ha : a ∈ frame esp) :
    a.toNat / 0x1000 = 1024 := by
  have ha' : (a - esp).toNat < 76 := ha
  have hk : inKernel.esp = 0x400800 := rfl
  rw [hk] at hesp
  bv_omega

/-- The bytes of `mem`, where they lie in memory. -/
def bytesOf (mem : WordStack.Memory) : ByteMemory.Mem := fun x => UInt8.ofBitVec (mem (BitVec.ofNat 32 x))

theorem view_private (mem : WordStack.Memory) {a : BitVec 32} (ha : a.toNat / 0x1000 = 1024) :
    (firstProcess (bytesOf mem)).view 0x1000 a = mem a := by
  have hframe : (entry (fourMegabytes (bytesOf mem)) 0x110000 1024).frame = 1024 := rfl
  have hwalk : walk (fourMegabytes (bytesOf mem)) 0x110000 a.toNat = some a.toNat := by
    rw [Paging.walk_eq_some, ha, hframe]
    refine ⟨⟨(by decide : (0x210000 : ℕ) ≠ 0), rfl⟩, ?_⟩
    change 1024 * 0x1000 + a.toNat % 0x1000 = a.toNat
    omega
  have hload : (firstProcess (bytesOf mem)).loadByte 0x1000 a = some (bytesOf mem a.toNat) := by
    change (walk (fourMegabytes (bytesOf mem)) 0x110000 a.toNat).map (bytesOf mem) = _
    rw [hwalk]
    rfl
  rw [Machine.view, hload, bytesOf, BitVec.ofNat_toNat, BitVec.setWidth_eq]
  rfl

/-- The parent is switched, and so is its child. -/
theorem exists_turns {phys : ℕ} {w : World}
    (hw : (booted firstScheduler 0x1000).Step (.fork 0x300000 phys 0x2000) w) :
    ∃ w₂ w₃ w₄ w₅ : World, w.order = [0x1000, 0x2000] ∧ w.Step (.run 5 6 7) w₂ ∧
      w₂.state.currentProcess = 0x1000 ∧ w₂.Step .switchTask w₃ ∧ w₃.state.currentProcess = 0x2000 ∧
      w₃.Step (.run 8 9 10) w₄ ∧ w₄.state.currentProcess = 0x2000 ∧ w₄.Step .switchTask w₅ ∧
      w₅.state.currentProcess = 0x1000 := by
  cases hw
  exact ⟨_, _, _, _, rfl, .run _ 5 6 7, rfl, .switchTask _, rfl, .run _ 8 9 10, rfl, .switchTask _, rfl⟩

/-- The timer interrupts the first process after it has forked. Its child runs, stores into its
own copy of the frame and is switched as well. -/
theorem preempted_resumes_beside : ∃ (m₁ m₂ m₃ m₄ : Machine) (t v : Interrupts.Machine),
    m₁.world.order = [0x1000, 0x2000] ∧ Machine.Step kernelBytes m₁ (.run 5 6 7) m₂ ∧
    Machine.Step kernelBytes m₂ .switchTask m₃ ∧ m₃.world.state.currentProcess = 0x2000 ∧
    Run (Machine.Step kernelBytes) m₃ [.run 8 9 10, .store t.esp 9, .switchTask] m₄ ∧
    running m₄.world.state = running m₂.world.state ∧
    toIret ⟨true, 0x10, 0⟩ Interrupts.exitSequence { t with memory := m₄.view 0x1000 } = some v ∧
    SameRegisters inKernel v := by
  obtain ⟨handler, t, hcall, ht⟩ := Interrupts.toCall_delivered ⟨true, 0x10, 0⟩ 32 0 32 .irqStub inKernel
  have hesp : t.esp + 56 = inKernel.esp - 12 := (ht.ring0 rfl).2
  have hstarted := firstProcess_started (bytesOf t.memory)
  have hprivate (a : BitVec 32) (ha : a ∈ frame t.esp) :
      (firstProcess (bytesOf t.memory)).window a = none := by
    have hpage := frame_page hesp ha
    exact window_high (by omega)
  have htop : t.esp ∈ frame t.esp := by
    have hmem := frame_mem t.esp (i := 0) (by decide)
    rwa [BitVec.add_zero] at hmem
  obtain ⟨s, w, phys, hw, hfork⟩ := exists_fork (bytesOf t.memory)
  obtain ⟨w₂, w₃, w₄, w₅, horder, h₂, hcur₂, h₃, hcur₃, h₄, hcur₄, h₅, hcur₅⟩ := exists_turns hw
  -- What the parent finds in the frame after the fork is what the processor has pushed.
  have hview (a : BitVec 32) (ha : a ∈ frame t.esp) :
      Machine.view ⟨w, s⟩ 0x1000 a = t.memory a := by
    rw [frame_kept hstarted (Run.nil _) (List.mem_singleton_self _) hprivate
      (Run.single ⟨hfork, trivial⟩) ha]
    exact view_private _ (frame_page hesp ha)
  have hcalled : guarded (Machine.Step kernelBytes) (Machine.Granted kernelBytes) ⟨w, s⟩
      (.run 5 6 7) ⟨w₂, s⟩ := ⟨Machine.Step.run h₂, (by decide : 5 ≠ Scheduler.dummyEip)⟩
  obtain ⟨s₃, hswitch⟩ : ∃ s₃, guarded (Machine.Step kernelBytes) (Machine.Granted kernelBytes)
      ⟨w₂, s⟩ .switchTask ⟨w₃, s₃⟩ := ⟨_, Machine.Step.switchTask h₃ (fun _ _ => rfl), trivial⟩
  have hchild : guarded (Machine.Step kernelBytes) (Machine.Granted kernelBytes) ⟨w₃, s₃⟩
      (.run 8 9 10) ⟨w₄, s₃⟩ := ⟨Machine.Step.run h₄, (by decide : 8 ≠ Scheduler.dummyEip)⟩
  obtain ⟨c, -, hrep⟩ := hstarted.reached
    (Run.cons hfork (.cons hcalled (.cons hswitch (.single hchild))))
  obtain ⟨s₄, hstore⟩ : ∃ s₄, guarded (Machine.Step kernelBytes) (Machine.Granted kernelBytes)
      ⟨w₄, s₃⟩ (.store t.esp 9) ⟨w₄, s₄⟩ :=
    ⟨_, Machine.Step.store _ t.esp 9 (hrep.store_outside (hprivate _ htop)), trivial⟩
  obtain ⟨s₅, hback⟩ : ∃ s₅, guarded (Machine.Step kernelBytes) (Machine.Granted kernelBytes)
      ⟨w₄, s₄⟩ .switchTask ⟨w₅, s₅⟩ := ⟨_, Machine.Step.switchTask h₅ (fun _ _ => rfl), trivial⟩
  have haway {x : ℕ} (hx : x = 0x2000) : x ≠ 0x1000 := by omega
  have hothers : Run (guarded (guarded (Machine.Step kernelBytes) (Machine.Granted kernelBytes))
      (Machine.Away 0x1000)) _ [.run 8 9 10, .store t.esp 9, .switchTask] _ :=
    .cons ⟨hchild, haway hcur₃⟩ (.cons ⟨hstore, haway hcur₄⟩ (.single ⟨hback, haway hcur₄⟩))
  obtain ⟨hrunning, hexit⟩ := preempted_resumes hstarted (Run.single hfork)
    (horder ▸ List.mem_cons_self) (show Interrupts.idt 32 = some _ from rfl) rfl hcall hview hprivate
    (Run.single ⟨hcalled, trivial⟩) hcur₂ hswitch hothers hcur₅ (Run.nil _)
  obtain ⟨v, hv, hsame⟩ := hexit { t with memory := Machine.view _ 0x1000 } rfl rfl rfl fun _ _ => rfl
  exact ⟨_, _, _, _, t, v, horder, hcalled.1, hswitch.1, hcur₃, hothers.mono fun _ _ _ hs => hs.1.1,
    hrunning, hv, hsame⟩

end TwoProcesses

end ExperimentalKernel.ProcessMemories
