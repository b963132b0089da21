import ExperimentalKernel.DescriptorTables
import ExperimentalKernel.FaultReports

/-!
# User mode

`switchToUserMode` builds the frame with which `iret` leaves ring 0. There is one task
state for all, and every call moves the stack it names by 2048 bytes. From ring 3 an
instruction gets back through vector 128 only.
-/

namespace ExperimentalKernel.UserMode
open ByteMemory Segments WordStack
open Interrupts (Processor rpl)
open TextScreen (State Console Displays)
open Faults (StopsWith)

/-- `TssEntry::setKernelStack`. -/
def setKernelStack (m : Mem) (tssEntry kernelEsp : ℕ) : Mem :=
  storeField m tssEntry .esp0 kernelEsp

/-- What `switchToUserMode` does first; what it prints is left out. -/
def moveKernelStack (tssEntry : ℕ) (m : Mem) : Mem :=
  setKernelStack m tssEntry (add32 (read32 m (tssEntry + TssField.esp0.offset)) 2048)

/-- The instructions of `switchToUserMode`; `label` is where the label 1 stands. -/
def switchToUserMode (label : BitVec 32) (s : Interrupts.Machine) : Interrupts.Machine :=
  let s := { s with eflags := s.eflags &&& ~~~0x200 }
  let s := { s with eax := s.eax.extractLsb' 16 16 ++ (0x23 : BitVec 16) }
  let s := s.setSegment .ds (s.eax.setWidth 16)
  let s := s.setSegment .es (s.eax.setWidth 16)
  let s := s.setSegment .fs (s.eax.setWidth 16)
  let s := s.setSegment .gs (s.eax.setWidth 16)
  let s := { s with eax := s.esp }
  let s := s.push 0x23
  let s := s.push s.eax
  let s := s.push s.eflags
  let s := { s with eax := s.top, esp := s.esp + 4 }
  let s := { s with eax := s.eax ||| 0x200 }
  let s := s.push s.eax
  let s := s.push 0x1B
  let s := s.push label
  s.iret

section Switch

variable {label : BitVec 32} {s : Interrupts.Machine}

theorem enable_interrupts (f : BitVec 32) : f &&& ~~~0x200 ||| 0x200 = f ||| 0x200 := by
  apply BitVec.eq_of_getLsbD_eq
  intro i hi
  simp only [BitVec.getLsbD_or, BitVec.getLsbD_and, BitVec.getLsbD_not]
  grind

theorem low_selector (w : BitVec 32) (sel : BitVec 16) :
    (w.extractLsb' 16 16 ++ sel : BitVec 32).setWidth 16 = sel := by
  rw [BitVec.setWidth_append, dif_pos (by decide)]
  exact BitVec.setWidth_eq sel

/-- The program goes on behind the instructions, in ring 3 and on the same stack. -/
theorem switchToUserMode_eq (label : BitVec 32) (hs : rpl s.cs = 0) :
    ∃ memory, switchToUserMode label s = { s with
        eax := s.eflags ||| 0x200
        eip := label
        cs := 0x1B
        ss := 0x23
        eflags := s.eflags ||| 0x200
        segment := fun _ => 0x23
        memory := memory } := by
  have hsegment : ∀ f : Interrupts.Segment → BitVec 16, Function.update (Function.update
      (Function.update (Function.update f .ds 0x23) .es 0x23) .fs 0x23) .gs 0x23 = fun _ => 0x23 := by
    intro f
    funext r
    cases r <;> rfl
  have hroom : ∀ {ws : List (BitVec 32)}, ws.length ≤ 4 → 4 * (ws.length + 1) ≤ 2 ^ 32 :=
    fun h => by omega
  have h₁ := (stacked_nil s.memory s.esp).push (hroom (by simp)) 0x23
  have h₂ := h₁.push (hroom (by simp)) s.esp
  have h₃ := h₂.push (hroom (by simp)) (s.eflags &&& ~~~0x200)
  have htop := h₃.head
  have hback : s.esp - 4 - 4 - 4 + 4 = s.esp - 4 - 4 := BitVec.sub_add_cancel _ _
  have h₄ := h₃.tail
  rw [hback] at h₄
  have h₅ := ((h₄.push (hroom (by simp)) (s.eflags ||| 0x200)).push (hroom (by simp)) 0x1B).push
    (hroom (by simp)) label
  obtain ⟨memory, hframe, hrun⟩ : ∃ memory,
      Stacked memory (s.esp - 4 - 4 - 4 - 4 - 4) [label, 0x1B, s.eflags ||| 0x200, s.esp, 0x23] ∧
      switchToUserMode label s = Interrupts.Machine.iret { s with
        eax := s.eflags ||| 0x200
        esp := s.esp - 4 - 4 - 4 - 4 - 4
        eflags := s.eflags &&& ~~~0x200
        segment := fun _ => 0x23
        memory := memory } := by
    refine ⟨_, h₅, ?_⟩
    simp only [switchToUserMode, Interrupts.Machine.setSegment, Interrupts.Machine.push,
      Interrupts.Machine.top, low_selector, hsegment, htop, enable_interrupts, hback]
  have hcs : (0x1B : BitVec 32).setWidth 16 = (0x1B : BitVec 16) := by decide
  have hss : (0x23 : BitVec 32).setWidth 16 = (0x23 : BitVec 16) := by decide
  have hrpl : rpl s.cs < rpl ((0x1B : BitVec 32).setWidth 16) := by
    rw [hs, hcs]
    decide
  have hiret := Interrupts.iret_outer (s := { s with
    eax := s.eflags ||| 0x200
    esp := s.esp - 4 - 4 - 4 - 4 - 4
    eflags := s.eflags &&& ~~~0x200
    segment := fun _ => 0x23
    memory := memory }) hframe hrpl
  rw [hcs, hss] at hiret
  exact ⟨memory, hrun.trans hiret⟩

end Switch

section KernelStack

variable {m : Mem} {gdt idt : ℕ} {tssEntry : BitVec 32} {stub : ℕ → BitVec 32}

theorem moveKernelStack_agreeOff (a : ℕ) (m : Mem) :
    AgreeOff m (moveKernelStack a m) a (a + sizeofTssEntry) :=
  agreeOff_write32 m _ (Nat.le_add_right _ _) (by have := TssField.esp0.offset_lt; omega)

/-- Every call moves the stack of the kernel by 2048 bytes. -/
theorem moveKernelStack_esp0 (a : ℕ) (m : Mem) (k : ℕ) :
    read32 ((moveKernelStack a)^[k] m) (a + TssField.esp0.offset) =
      (read32 m (a + TssField.esp0.offset) + 2048 * k) % wordSize := by
  induction k with
  | zero => exact (Nat.mod_eq_of_lt (read32_lt _ _)).symm
  | succ k ih =>
    rw [Function.iterate_succ_apply', moveKernelStack, setKernelStack,
      read_storeField _ _ _ _ (add32_lt _ _), if_pos rfl, ih, add32, Nat.mod_add_mod, Nat.add_assoc,
      Nat.mul_succ]

/-- The other fields stay. -/
theorem moveKernelStack_field (a : ℕ) (m : Mem) (k : ℕ) {f : TssField} (hf : f ≠ .esp0) :
    read32 ((moveKernelStack a)^[k] m) (a + f.offset) = read32 m (a + f.offset) := by
  induction k with
  | zero => rfl
  | succ k ih =>
    rw [Function.iterate_succ_apply', moveKernelStack, setKernelStack,
      read_storeField _ _ _ _ (add32_lt _ _), if_neg hf, ih]

theorem moveKernelStack_iterate_agreeOff (a : ℕ) (m : Mem) (k : ℕ) :
    AgreeOff m ((moveKernelStack a)^[k] m) a (a + sizeofTssEntry) := by
  induction k with
  | zero => exact AgreeOff.refl _ _ _
  | succ k ih =>
    rw [Function.iterate_succ_apply']
    exact ih.trans (moveKernelStack_agreeOff a _)

/-- Memory after the tables were installed and `switchToUserMode` was called `k` times. -/
def switched (m : Mem) (gdt idt : ℕ) (tssEntry : BitVec 32) (stub : ℕ → BitVec 32) (k : ℕ) : Mem :=
  (moveKernelStack tssEntry.toNat)^[k] (install m gdt idt tssEntry stub)

theorem switched_tablesAt (m : Mem) (h : TablesApart gdt idt tssEntry) (k : ℕ) :
    TablesAt (switched m gdt idt tssEntry stub k) gdt idt tssEntry stub := by
  have hgdt := h.gdt_tss
  have hidt := h.idt_tss
  have hkept := moveKernelStack_iterate_agreeOff tssEntry.toNat
    (install m gdt idt tssEntry stub) k
  exact (install_tablesAt m h).congr (hkept.agreeOn (by omega)) (hkept.agreeOn (by omega))

/-- The tables were placed apart from the task state. -/
theorem install_field (m : Mem) (h : TablesApart gdt idt tssEntry) (f : TssField) :
    read32 (install m gdt idt tssEntry stub) (tssEntry.toNat + f.offset) = tssValue 0x10 0 f := by
  have hgdt := h.gdt_tss
  have hidt := h.idt_tss
  have hlt := f.offset_lt
  have htables : ∀ m' base n table, (base + 8 * n ≤ tssEntry.toNat ∨
      tssEntry.toNat + sizeofTssEntry ≤ base) →
      read32 (placeTable m' base n table) (tssEntry.toNat + f.offset) =
        read32 m' (tssEntry.toNat + f.offset) := fun m' base n table hapart =>
    read32_congr ((placeTable_agreeOff m' base n table).agreeOn (by omega))
  rw [install, htables _ _ _ _ hidt, htables _ _ _ _ hgdt]
  exact setTss_field m tssEntry 0x10 0 f

/-- The stack on which the processor enters ring 0, as long as the limit of the task state
covers its place. -/
theorem ringZeroStack_switched (m : Mem) (h : TablesApart gdt idt tssEntry) (k : ℕ)
    (hlimit : 11 ≤ (tssEntry.toNat + 104) % 0x100000) :
    ringZeroStack (switched m gdt idt tssEntry stub k) (asked tssEntry (tssEntry + 104) 0xE9 0x00) =
      some (0x10, BitVec.ofNat 32 (2048 * k)) := by
  have hcovers : ¬ (asked tssEntry (tssEntry + 104) 0xE9 0x00).limit.toNat < 11 := by
    change ¬ ((tssEntry + 104).setWidth 20).toNat < 11
    rw [BitVec.toNat_setWidth, BitVec.toNat_add]
    change ¬ (tssEntry.toNat + 104) % 4294967296 % 1048576 < 11
    omega
  have hss : read32 (switched m gdt idt tssEntry stub k) (tssEntry.toNat + TssField.ss0.offset) =
      0x10 := by
    rw [switched, moveKernelStack_field _ _ _ (by decide), install_field m h]
    rfl
  have hesp : read32 (switched m gdt idt tssEntry stub k) (tssEntry.toNat + TssField.esp0.offset) =
      2048 * k % wordSize := by
    have hzero : tssValue 0x10 0 .esp0 = 0 := rfl
    rw [switched, moveKernelStack_esp0, install_field m h, hzero, Nat.zero_add]
  have hbase : (asked tssEntry (tssEntry + 104) 0xE9 0x00).base = tssEntry := rfl
  have hwrap : BitVec.ofNat 32 (2048 * k % wordSize) = BitVec.ofNat 32 (2048 * k) := by
    apply BitVec.eq_of_toNat_eq
    rw [BitVec.toNat_ofNat, BitVec.toNat_ofNat]
    exact Nat.mod_mod _ _
  rw [ringZeroStack, if_neg hcovers, hbase, hss, hesp, hwrap]
  rfl

end KernelStack

section Gates

variable {gdt idt : ℕ} {tssEntry : BitVec 32} {stub : ℕ → BitVec 32}

theorem idt_isSome {v : ℕ} (hv : v < idtSize) : (Interrupts.idt v).isSome = true ↔ Installed v := by
  have hall : ∀ v : Fin 256, (Interrupts.idt v).isSome = decide (Installed v) := by decide +kernel
  rw [hall ⟨v, hv⟩, decide_eq_true_iff]

/-- What the processor does with vector `v` once the kernel has installed its tables and moved
its stack `k` times. -/
def delivered (m : Mem) (gdt idt : ℕ) (tssEntry : BitVec 32) (stub : ℕ → BitVec 32) (k : ℕ)
    (cpl : BitVec 2) (software : Bool) (v : ℕ) : Option Delivery :=
  deliver (switched m gdt idt tssEntry stub k) (tablePointer gdtSize gdt) (tablePointer idtSize idt)
    (asked tssEntry (tssEntry + 104) 0xE9 0x00) cpl software v

theorem delivered_eq (m : Mem) (h : TablesApart gdt idt tssEntry) (k : ℕ)
    (hlimit : 11 ≤ (tssEntry.toNat + 104) % 0x100000) (cpl : BitVec 2) (software : Bool) {v : ℕ}
    (hv : v < idtSize) : delivered m gdt idt tssEntry stub k cpl software v =
      some (if (Interrupts.idt v).isSome = true ∧ (software = true → cpl = 0 ∨ v = 128) then
        .enters (stub v) (if cpl = 0 then none else some (0x10, BitVec.ofNat 32 (2048 * k)))
      else .fault 13) := by
  rw [delivered, deliver_eq (switched_tablesAt m h k)
    (fun _ => ringZeroStack_switched m h k hlimit) software hv]
  exact congrArg some (if_congr (and_congr_left' (idt_isSome hv).symm) rfl rfl)

/-- An instruction `int n` in ring 3. -/
theorem delivered_user (m : Mem) (h : TablesApart gdt idt tssEntry) (k : ℕ)
    (hlimit : 11 ≤ (tssEntry.toNat + 104) % 0x100000) {n : ℕ} (hn : n < idtSize) :
    delivered m gdt idt tssEntry stub k 3 true n =
      some (if n = 128 then .enters (stub 128) (some (0x10, BitVec.ofNat 32 (2048 * k)))
        else .fault 13) := by
  rw [delivered_eq m h k hlimit 3 true hn, if_neg (by decide : (3 : BitVec 2) ≠ 0)]
  by_cases h128 : n = 128
  · subst h128
    rw [if_pos rfl, if_pos ⟨rfl, fun _ => Or.inr rfl⟩]
  · rw [if_neg h128, if_neg fun hg => (hg.2 rfl).elim (by decide) h128]

/-- What the processor makes of the installed bytes, for every vector in every ring. -/
theorem gates_enter (m : Mem) (h : TablesApart gdt idt tssEntry) (k : ℕ)
    (hlimit : 11 ≤ (tssEntry.toNat + 104) % 0x100000) (cpl : BitVec 2) (software : Bool) {v : ℕ}
    (hv : v < idtSize) :
    segmentAt (switched m gdt idt tssEntry stub k) (tablePointer gdtSize gdt) 0x2B =
      some (asked tssEntry (tssEntry + 104) 0xE9 0x00) ∧
    delivered m gdt idt tssEntry stub k cpl software v =
      some (if (Interrupts.idt v).isSome = true ∧ (software = true → cpl = 0 ∨ v = 128) then
        .enters (stub v) (if cpl = 0 then none else some (0x10, BitVec.ofNat 32 (2048 * k)))
      else .fault 13) := by
  have htables : TablesAt (switched m gdt idt tssEntry stub k) gdt idt tssEntry stub :=
    switched_tablesAt m h k
  exact ⟨htables.taskState, delivered_eq m h k hlimit cpl software hv⟩

/-- `switchToUserMode` leads to ring 3, with segments that ring 3 may use, on the same stack and
with interrupts on; from there an instruction gets back through vector 128 only. -/
theorem user_mode_guarded (m : Mem) (h : TablesApart gdt idt tssEntry) (k : ℕ)
    (hlimit : 11 ≤ (tssEntry.toNat + 104) % 0x100000) (label : BitVec 32)
    {s : Interrupts.Machine} (hs : rpl s.cs = 0) :
    (∃ memory, switchToUserMode label s = { s with
        eax := s.eflags ||| 0x200
        eip := label
        cs := 0x1B
        ss := 0x23
        eflags := s.eflags ||| 0x200
        segment := fun _ => 0x23
        memory := memory }) ∧
    segmentAt (switched m gdt idt tssEntry stub k) (tablePointer gdtSize gdt) 0x1B =
      some (asked 0 0xFFFFFFFF 0xFA 0xCF) ∧
    segmentAt (switched m gdt idt tssEntry stub k) (tablePointer gdtSize gdt) 0x23 =
      some (asked 0 0xFFFFFFFF 0xF2 0xCF) ∧
    ∀ n < idtSize, delivered m gdt idt tssEntry stub k (rpl (switchToUserMode label s).cs) true n =
      some (if n = 128 then .enters (stub 128) (some (0x10, BitVec.ofNat 32 (2048 * k)))
        else .fault 13) := by
  have htables : TablesAt (switched m gdt idt tssEntry stub k) gdt idt tssEntry stub :=
    switched_tablesAt m h k
  obtain ⟨memory, hrun⟩ := switchToUserMode_eq label hs
  refine ⟨⟨memory, hrun⟩, htables.userCode, htables.userData, fun n hn => ?_⟩
  have hring : rpl (switchToUserMode label s).cs = 3 := by
    have hselector : rpl 0x1B = 3 := by decide
    rw [hrun]
    exact hselector
  rw [hring]
  exact delivered_user m h k hlimit hn

end Gates

section Stopping

/-- `DEFN_SYSCALL1`: the registers at its `int $0x80`. -/
def syscall1 (num p1 : BitVec 32) (s : Interrupts.Machine) : Interrupts.Machine :=
  { s with eax := num, ebx := p1 }

def syscallPrintString (p1 : BitVec 32) : Interrupts.Machine → Interrupts.Machine := syscall1 0 p1

def syscallPrintHex (p1 : BitVec 32) : Interrupts.Machine → Interrupts.Machine := syscall1 1 p1

def syscallPrintBinary (p1 : BitVec 32) : Interrupts.Machine → Interrupts.Machine := syscall1 2 p1

/-- What the screen shows after a general protection fault. -/
def protectionReport (c : Console) : Console :=
  Console.type { c with
      attribute_ := TextScreen.textAttribute TextScreen.colorBlack Faults.colorLightRed }
    (Faults.exceptionText 13 "General Protection Fault Exception")

variable {gdt idt : ℕ} {tssEntry : BitVec 32} {stub : ℕ → BitVec 32}
variable {mem : Mem} {S : State} {c : Console} {u : Interrupts.Machine}

/-- In ring 3 an instruction `int n` with another `n` than 128 ends with the report of a general
protection fault. -/
theorem user_interrupt_stops (m : Mem) (h : TablesApart gdt idt tssEntry) (k : ℕ)
    (hlimit : 11 ≤ (tssEntry.toNat + 104) % 0x100000) (hu : rpl u.cs = 3) {n : ℕ}
    (hn : n < idtSize) (h128 : n ≠ 128) (zeroExtends : Bool) (errorCode cr2 : BitVec 32)
    (hS : Displays mem S c) :
    delivered m gdt idt tssEntry stub k (rpl u.cs) true n = some (.fault 13) ∧
    delivered m gdt idt tssEntry stub k (rpl u.cs) false 13 =
      some (.enters (stub 13) (some (0x10, BitVec.ofNat 32 (2048 * k)))) ∧
    StopsWith ⟨zeroExtends, 0x10, BitVec.ofNat 32 (2048 * k)⟩ 13 errorCode cr2 mem S u
      (protectionReport c) := by
  refine ⟨?_, ?_, ?_⟩
  · rw [hu, delivered_user m h k hlimit hn, if_neg h128]
  · rw [hu, delivered_eq m h k hlimit 3 false (by decide), if_pos ⟨rfl, fun hf => by cases hf⟩]
    rfl
  · have hreport : Faults.report mem c 13 cr2 u.eax u.ebx = protectionReport c := by
      rw [Faults.report, if_neg (by decide), if_neg (by decide)]
      rfl
    rw [← hreport]
    exact Faults.stopsWith_report _ errorCode cr2 u
      (show 13 < 32 ∨ 13 = 128 from Or.inl (by decide)) hS fun he => absurd he (by decide)

theorem syscall1_stops (cpu : Processor) (errorCode cr2 num p1 : BitVec 32) (hS : Displays mem S c)
    (hfit : num.toNat < 3 → c.Fits mem (.printString p1.toNat)) :
    StopsWith cpu 128 errorCode cr2 mem S (syscall1 num p1 u)
      (if num.toNat < 3 then c.type (TextScreen.text mem (.printString p1.toNat)) else c) := by
  have hstops := Faults.stopsWith_report cpu errorCode cr2 (syscall1 num p1 u)
    (show 128 < 32 ∨ 128 = 128 from Or.inr rfl) hS fun _ => hfit
  rwa [Faults.report, if_neg (by decide), if_pos rfl] at hstops

/-- The three system calls enter the kernel, print the string they were given and stay there;
with any other number the kernel stays there too. -/
theorem user_system_call (m : Mem) (h : TablesApart gdt idt tssEntry) (k : ℕ)
    (hlimit : 11 ≤ (tssEntry.toNat + 104) % 0x100000) (hu : rpl u.cs = 3) (p1 : BitVec 32)
    (zeroExtends : Bool) (errorCode cr2 : BitVec 32) (hS : Displays mem S c) :
    (∀ num, delivered m gdt idt tssEntry stub k (rpl (syscall1 num p1 u).cs) true 128 =
      some (.enters (stub 128) (some (0x10, BitVec.ofNat 32 (2048 * k))))) ∧
    (c.Fits mem (.printString p1.toNat) →
      ∀ call ∈ [syscallPrintString, syscallPrintHex, syscallPrintBinary],
      StopsWith ⟨zeroExtends, 0x10, BitVec.ofNat 32 (2048 * k)⟩ 128 errorCode cr2 mem S (call p1 u)
        (c.type (TextScreen.text mem (.printString p1.toNat)))) ∧
    ∀ num : BitVec 32, 3 ≤ num.toNat →
      StopsWith ⟨zeroExtends, 0x10, BitVec.ofNat 32 (2048 * k)⟩ 128 errorCode cr2 mem S
        (syscall1 num p1 u) c := by
  have hstops (num : BitVec 32) := @syscall1_stops mem S c u
    ⟨zeroExtends, 0x10, BitVec.ofNat 32 (2048 * k)⟩ errorCode cr2 num p1 hS
  refine ⟨fun num => ?_, fun hfit => ?_, fun num hnum => ?_⟩
  · have hring : rpl (syscall1 num p1 u).cs = 3 := hu
    rw [hring, delivered_user m h k hlimit (by decide), if_pos rfl]
  · rw [List.forall_mem_cons, List.forall_mem_cons, List.forall_mem_singleton]
    exact ⟨hstops 0 fun _ => hfit, hstops 1 fun _ => hfit, hstops 2 fun _ => hfit⟩
  · have hstop := hstops num fun hlt => absurd hlt (not_lt.mpr hnum)
    rwa [if_neg (not_lt.mpr hnum)] at hstop

end Stopping

section Placed

/-- The arrays behind each other, the task state at `0x102000`. -/
theorem placed_apart : TablesApart 0x100000 0x101000 0x102000 :=
  ⟨by decide, by decide, by decide⟩

theorem gates_enter_timer : ∃ d, delivered (fun _ => 0) 0x100000 0x101000 0x102000
    (fun n => BitVec.ofNat 32 (16 * n)) 1 3 false 32 = some d ∧
    d = .enters 0x200 (some (0x10, 0x800)) :=
  ⟨_, (gates_enter (fun _ => 0) placed_apart 1 (by decide) 3 false (v := 32) (by decide)).2, rfl⟩

theorem user_mode_guarded_atEntry : delivered (fun _ => 0) 0x100000 0x101000 0x102000
    (fun n => BitVec.ofNat 32 (16 * n)) 1 (rpl (switchToUserMode 0x100200 Interrupts.atEntry).cs)
    true 3 = some (.fault 13) :=
  (user_mode_guarded (fun _ => 0) placed_apart 1 (by decide) 0x100200 rfl).2.2.2 3 (by decide)

/-- A breakpoint set by a program in ring 3, in a kernel that has printed nothing. -/
theorem user_interrupt_stops_breakpoint : StopsWith ⟨true, 0x10, BitVec.ofNat 32 2048⟩ 13 26 0
    (fun _ => 0) (TextScreen.construct fun _ => 0) { Interrupts.atEntry with cs := 0x1B }
    (protectionReport (Console.start fun _ => 0)) :=
  (@user_interrupt_stops 0x100000 0x101000 0x102000 (fun n => BitVec.ofNat 32 (16 * n)) (fun _ => 0)
    _ _ _ (fun _ => 0) placed_apart 1 (by decide) rfl 3 (by decide) (by decide) true 26 0
    (TextScreen.construct_displays fun _ => 0)).2.2

/-- `syscall_print_hex` with a pointer to a zero byte. -/
theorem user_system_call_hex : StopsWith ⟨true, 0x10, BitVec.ofNat 32 2048⟩ 128 26 0 (fun _ => 0)
    (TextScreen.construct fun _ => 0)
    (syscallPrintHex 0x200000 { Interrupts.atEntry with cs := 0x1B }) ((Console.start fun _ => 0).type
      (TextScreen.text (fun _ => 0) (.printString 0x200000))) := by
  have hfits : (Console.start fun _ => 0).Fits (fun _ => 0) (.printString 0x200000) :=
    ⟨[], ⟨List.not_mem_nil, fun _ _ => rfl⟩, by decide, Or.inr (by decide)⟩
  exact (@user_system_call 0x100000 0x101000 0x102000 (fun n => BitVec.ofNat 32 (16 * n))
    (fun _ => 0) _ _ { Interrupts.atEntry with cs := 0x1B } (fun _ => 0) placed_apart 1 (by decide)
    rfl 0x200000 true 26 0 (TextScreen.construct_displays fun _ => 0)).2.1 hfits _ (by simp)

end Placed

end ExperimentalKernel.UserMode
