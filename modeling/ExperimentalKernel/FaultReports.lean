import ExperimentalKernel.InterruptFrames
import ExperimentalKernel.ScreenTerminal

/-!
# Reports of faults

`fault_handler` with what the kernel registers for it: the page fault handler and the one
of the system calls. All end in a loop, so what they leave is the text on the screen. The
stubs hand over zero for every error code, and the report of a page fault shows it.
-/

namespace ExperimentalKernel.Faults
open ByteMemory TextScreen Function
open Interrupts (Registers Processor registersAt toCall interrupt idt Saved Delivered)

def exceptionMessages : List String :=
  ["Division By Zero", "Debug", "Non Maskable Interrupt", "Breakpoint Exception",
    "Into Detected Overflow Exception", "Out of Bounds Exception", "Invalid Opcode Exception",
    "No Coprocessor Exception", "Double Fault Exception", "Coprocessor Segment Overrun Exception",
    "Bad TSS Exception", "Segment Not Present Exception", "Stack Fault Exception",
    "General Protection Fault Exception", "Page Fault Exception", "Unknown Interrupt Exception",
    "Coprocessor Fault Exception", "Alignment Check Exception (486+)",
    "Machine Check Exception (Pentium/586+)", "Reserved", "Reserved", "Reserved", "Reserved",
    "Reserved", "Reserved", "Reserved", "Reserved", "Reserved", "Reserved", "Reserved", "Reserved",
    "Reserved", "System Call Exception"]

def colorLightRed : UInt8 := 12

/-- The characters of a literal. -/
def literal (t : String) : List UInt8 := t.toList.map charByte

def printText (s : State) (t : String) : State := printLiteral s (literal t)

/-- The bit `i` of the error code. -/
def errorBit (errCode : BitVec 32) (i : ℕ) : Bool := errCode.getLsbD i

/-- `cr2` holds the address; the loop at the end is left to the caller. -/
def pageFaultHandler (cr2 : BitVec 32) (s : State) (regs : Registers) : State :=
  let s₁ := printText s "Page fault: ( "
  let s₂ := printText s₁ (if errorBit regs.errCode 0 then "present, " else "non-present, ")
  let s₃ := printText s₂ (if errorBit regs.errCode 1 then "write, " else "read, ")
  let s₄ := printText s₃ (if errorBit regs.errCode 2 then "user mode, " else "supervisor mode, ")
  let s₅ := printText s₄ (if errorBit regs.errCode 3 then "rsvd - 1 " else "rsvd - 0 ")
  printEndl (printHex (printText s₅ ") at ") cr2.toInt)

def monitorWrite (s : State) (str : ℕ) : State := printString s str

def monitorWriteHex (s : State) (str : ℕ) : State := printString s str

def monitorWriteDec (s : State) (str : ℕ) : State := printString s str

/-- `systemCalls_`, with `NUMBER` entries. -/
def systemCalls : List (State → ℕ → State) := [monitorWrite, monitorWriteHex, monitorWriteDec]

/-- The first argument of the call is `ebx`, which is pushed last. -/
def systemCallHandler (s : State) (regs : Registers) : State :=
  match systemCalls[regs.eax.toNat]? with
  | none => s
  | some location => location s regs.ebx.toNat

inductive IsrHandler where
  | pageFault
  | systemCall

def registerIsrHandler (isrHandlers : ℕ → Option IsrHandler) (num : ℕ) (handler : IsrHandler) :
    ℕ → Option IsrHandler :=
  update isrHandlers num (some handler)

/-- After `initialisePaging` and `SystemCallManagement::init`. -/
def isrHandlers : ℕ → Option IsrHandler :=
  registerIsrHandler (registerIsrHandler (fun _ => none) 14 .pageFault) 128 .systemCall

inductive Outcome where
  | returned (s : State)
  /-- In a `for(;;)`. -/
  | stopped (s : State)
  /-- Behind the end of `exception_messages`. -/
  | outOfBounds (s : State)

def faultHandler (isrHandlers : ℕ → Option IsrHandler) (cr2 : BitVec 32) (s : State)
    (r : Registers) : Outcome :=
  let number := r.intNumber.toNat
  if number < 33 ∨ number = 128 then
    match isrHandlers number with
    | some .pageFault => .stopped (pageFaultHandler cr2 s r)
    | some .systemCall => .stopped (systemCallHandler s r)
    | none =>
      let s₁ := printEndl (setTextColor s colorBlack colorLightRed)
      let s₂ := printEndl (printInt (printText s₁ "EXCEPTION  ") number)
      match exceptionMessages[number]? with
      | some message => .stopped (printEndl (printText s₂ message))
      | none => .outOfBounds s₂
  else .returned s

section Texts

def pageFaultText (errCode cr2 : BitVec 32) : List UInt8 :=
  literal "Page fault: ( " ++
    ((if errorBit errCode 0 then literal "present, " else literal "non-present, ") ++
    ((if errorBit errCode 1 then literal "write, " else literal "read, ") ++
    ((if errorBit errCode 2 then literal "user mode, " else literal "supervisor mode, ") ++
    ((if errorBit errCode 3 then literal "rsvd - 1 " else literal "rsvd - 0 ") ++
    (literal ") at " ++ (hexText cr2.toInt ++ [10]))))))

/-- The number of the exception and its message. -/
def exceptionText (number : ℕ) (message : String) : List UInt8 :=
  10 :: (literal "EXCEPTION  " ++ (digitChars number (countDigits number 0) ++
    10 :: (literal message ++ [10])))

theorem choice_inj {x y l l' : List UInt8} {b b' : Bool} (hxy : ¬ x <+: y) (hyx : ¬ y <+: x)
    (h : (if b then x else y) ++ l = (if b' then x else y) ++ l') : b = b' ∧ l = l' := by
  have hbegins : ∀ {u v w w' : List UInt8}, u ++ w = v ++ w' → u <+: v ∨ v <+: u := by
    intro u v w w' he
    exact List.prefix_or_prefix_of_prefix (List.prefix_append u w) (he ▸ List.prefix_append v w')
  cases b <;> cases b'
  · exact ⟨rfl, List.append_cancel_left h⟩
  · exact ((hbegins h).elim hyx hxy).elim
  · exact ((hbegins h).elim hxy hyx).elim
  · exact ⟨rfl, List.append_cancel_left h⟩

theorem hexText_inj {a a' : BitVec 32} (h : hexText a.toInt = hexText a'.toInt) : a = a' := by
  have hnibbles : nibbles a.toInt 8 = nibbles a'.toInt 8 :=
    (List.cons.inj (List.cons.inj h).2).2
  have hvalue := nibbles_value a.toInt 8
  rw [hnibbles, nibbles_value] at hvalue
  apply BitVec.eq_of_toInt_eq
  have hlo := BitVec.le_toInt a
  have hhi : a.toInt < 2 ^ (32 - 1) := BitVec.toInt_lt
  have hlo' := BitVec.le_toInt a'
  have hhi' : a'.toInt < 2 ^ (32 - 1) := BitVec.toInt_lt
  omega

/-- The text of a page fault tells four bits of the error code and the address. -/
theorem pageFaultText_inj {e e' a a' : BitVec 32} (h : pageFaultText e a = pageFaultText e' a') :
    (∀ i < 4, errorBit e i = errorBit e' i) ∧ a = a' := by
  obtain ⟨h₀, h⟩ := choice_inj (by decide) (by decide) (List.append_cancel_left h)
  obtain ⟨h₁, h⟩ := choice_inj (by decide) (by decide) h
  obtain ⟨h₂, h⟩ := choice_inj (by decide) (by decide) h
  obtain ⟨h₃, h⟩ := choice_inj (by decide) (by decide) h
  refine ⟨fun i hi => ?_, hexText_inj (List.append_cancel_right (List.append_cancel_left h))⟩
  interval_cases i <;> assumption

theorem takeWhile_line {l : List UInt8} (h : 10 ∉ l) (rest : List UInt8) :
    (l ++ 10 :: rest).takeWhile (· ≠ 10) = l := by
  have hkeep : ∀ c ∈ l, decide (c ≠ 10) = true := fun c hc => decide_eq_true fun he => h (he ▸ hc)
  rw [List.takeWhile_append_of_pos hkeep, List.takeWhile_cons_of_neg (by decide), List.append_nil]

/-- That of another exception tells its number. -/
theorem exceptionText_inj {n n' : ℕ} {message message' : String}
    (h : exceptionText n message = exceptionText n' message') : n = n' := by
  have hlines := List.append_cancel_left (List.cons.inj h).2
  have hdigits := congrArg (List.takeWhile (· ≠ 10)) hlines
  rw [takeWhile_line (newLine_notMem_digitChars _ _),
    takeWhile_line (newLine_notMem_digitChars _ _)] at hdigits
  have hvalue := signedValue_digitChars n
  rw [hdigits, signedValue_digitChars] at hvalue
  exact_mod_cast hvalue.symm

/-- The first character tells a page fault from another exception. -/
theorem pageFaultText_ne_exceptionText (e a : BitVec 32) (n : ℕ) (message : String) :
    pageFaultText e a ≠ exceptionText n message :=
  fun h => absurd (List.cons.inj h).1 (by decide)

/-- The text on the screen tells which exception it was; for a page fault it tells the low
bits of the error code it was given and the address. -/
theorem reports_identify :
    (∀ e e' a a', pageFaultText e a = pageFaultText e' a' ↔
      (∀ i < 4, errorBit e i = errorBit e' i) ∧ a = a') ∧
    (∀ n n' message message', exceptionText n message = exceptionText n' message' → n = n') ∧
    ∀ e a n message, pageFaultText e a ≠ exceptionText n message := by
  refine ⟨fun e e' a a' => ⟨pageFaultText_inj, fun ⟨hbits, ha⟩ => ?_⟩,
    fun n n' message message' => exceptionText_inj, pageFaultText_ne_exceptionText⟩
  rw [pageFaultText, pageFaultText, hbits 0 (by decide), hbits 1 (by decide), hbits 2 (by decide),
    hbits 3 (by decide), ha]

end Texts

section Delivery

variable {cpu : Processor} {vector : ℕ} {errorCode number cr2 : BitVec 32}
  {s t : Interrupts.Machine} {m : Mem} {S : State} {c : Console}

/-- The stubs hand on the number, the registers and zero for the error code. -/
theorem delivered_fields (h : Delivered s vector errorCode number t) :
    (registersAt t.memory t.esp).intNumber = number ∧ (registersAt t.memory t.esp).errCode = 0 ∧
      (registersAt t.memory t.esp).eax = s.eax ∧ (registersAt t.memory t.esp).ebx = s.ebx := by
  obtain ⟨gs, fs, es, ds, esp, -, -, -, -, hstacked⟩ := h.saved
  exact ⟨hstacked.get 12 rfl, hstacked.get 13 rfl, hstacked.get 11 rfl, hstacked.get 8 rfl⟩

/-- The vectors of the exceptions and of the system calls lead to `fault_handler`. -/
theorem idt_isrStub (h : vector < 32 ∨ vector = 128) :
    idt vector = some (Interrupts.entry (BitVec.ofNat 32 vector) .isrStub) := by
  rcases h with h | rfl
  · interval_cases vector <;> rfl
  · rfl

theorem toCall_isrStub (number : BitVec 32) (s : Interrupts.Machine)
    {r : Interrupts.Handler × List Interrupts.Instruction × Interrupts.Machine}
    (h : toCall cpu 15 (Interrupts.entry number .isrStub) s = some r) : r.1 = .faultHandler := by
  cases h
  rfl

theorem displays_printText (h : Displays m S c) (t : String) :
    Displays m (printText S t) (c.type (literal t)) :=
  h.printLiteral (literal t)

theorem displays_pageFault (cr2 : BitVec 32) (h : Displays m S c) (r : Registers) :
    Displays m (pageFaultHandler cr2 S r) (c.type (pageFaultText r.errCode cr2)) := by
  have hif : ∀ (b : Bool) (x y : String), literal (if b then x else y) =
      if b then literal x else literal y := fun b x y => by cases b <;> rfl
  have h₅ := displays_printText (displays_printText (displays_printText (displays_printText
    (displays_printText h "Page fault: ( ")
    (if errorBit r.errCode 0 then "present, " else "non-present, "))
    (if errorBit r.errCode 1 then "write, " else "read, "))
    (if errorBit r.errCode 2 then "user mode, " else "supervisor mode, "))
    (if errorBit r.errCode 3 then "rsvd - 1 " else "rsvd - 0 ")
  have hend := ((displays_printText h₅ ") at ").printHex cr2.toInt).printLiteral [10]
  simp only [hif, ← Console.type_append, List.append_assoc] at hend
  rw [pageFaultText, pageFaultHandler, printEndl]
  exact hend

/-- In a fresh line the number of an exception has room. -/
theorem fits_exception {n : ℕ} (hn : n < 33) :
    ((c.typeChar 10).type (literal "EXCEPTION  ")).Fits m (.printInt n) := by
  have hstart : (c.typeChar 10).terminal.column = 0 := rfl
  have hroom : 0 + (literal "EXCEPTION  ").length < columns := by decide
  have hcolumn : ((c.typeChar 10).type (literal "EXCEPTION  ")).terminal.column = 0 + 11 :=
    Console.type_column (by decide) (hstart ▸ hroom)
  have hall : ∀ k : Fin 33, (Nat.toDigits 10 k).length ≤ 2 := by decide
  have hdigits : (Nat.toDigits 10 n).length ≤ 2 := hall ⟨n, hn⟩
  rw [Console.Fits, hcolumn, Int.natAbs_natCast]
  unfold columns
  omega

/-- What an exception without a handler of its own prints. -/
theorem displays_exception (cr2 : BitVec 32) (h : Displays m S c) {r : Registers}
    (hr : isrHandlers r.intNumber.toNat = none) (hn : r.intNumber.toNat < 33) :
    ∃ S', faultHandler isrHandlers cr2 S r = .stopped S' ∧
      Displays m S' (Console.type { c with attribute_ := textAttribute colorBlack colorLightRed }
        (exceptionText r.intNumber.toNat (exceptionMessages.getD r.intNumber.toNat ""))) := by
  generalize hnumber : r.intNumber.toNat = n at hr hn
  have hmessage : exceptionMessages[n]? = some (exceptionMessages.getD n "") := by
    rw [List.getD_eq_getElem?_getD]
    have hlen : n < exceptionMessages.length := hn
    rw [List.getElem?_eq_getElem hlen]
    rfl
  have hcolor : Displays m (setTextColor S colorBlack colorLightRed)
      { c with attribute_ := textAttribute colorBlack colorLightRed } :=
    ⟨h.base, h.column, h.line, rfl, h.cells, h.rest⟩
  have hline := displays_printText (hcolor.printChar 10) "EXCEPTION  "
  have hnumbered := (hline.printInt (fits_exception hn)).printChar 10
  have hend := (displays_printText hnumbered (exceptionMessages.getD n "")).printLiteral [10]
  rw [text] at hend
  simp only [← Console.type_cons, ← Console.type_append, List.append_assoc, List.cons_append] at hend
  refine ⟨_, ?_, hend⟩
  simp only [faultHandler, hnumber, hn, true_or, if_true, hr, hmessage]
  rfl

/-- What stands on the screen when the kernel has stopped. -/
def report (m : Mem) (c : Console) (vector : ℕ) (cr2 eax ebx : BitVec 32) : Console :=
  if vector = 14 then c.type (pageFaultText 0 cr2)
  else if vector = 128 then
    if eax.toNat < 3 then c.type (text m (.printString ebx.toNat)) else c
  else Console.type { c with attribute_ := textAttribute colorBlack colorLightRed }
    (exceptionText vector (exceptionMessages.getD vector ""))

/-- The report is what `fault_handler` prints, given what the stubs hand over. -/
theorem displays_report (cr2 : BitVec 32) (hv : vector < 32 ∨ vector = 128) (hS : Displays m S c) {r : Registers}
    (hnumber : r.intNumber.toNat = vector) (herr : r.errCode = 0)
    (hfit : vector = 128 → r.eax.toNat < 3 → c.Fits m (.printString r.ebx.toNat)) :
    ∃ S', faultHandler isrHandlers cr2 S r = .stopped S' ∧
      Displays m S' (report m c vector cr2 r.eax r.ebx) := by
  by_cases h14 : vector = 14
  · subst h14
    have hpage := displays_pageFault cr2 hS r
    rw [herr] at hpage
    rw [report, if_pos rfl]
    refine ⟨_, ?_, hpage⟩
    rw [faultHandler, hnumber]
    rfl
  by_cases h128 : vector = 128
  · subst h128
    rw [report, if_neg h14, if_pos rfl]
    refine ⟨systemCallHandler S r, ?_, ?_⟩
    · rw [faultHandler, hnumber]
      rfl
    · by_cases heax : r.eax.toNat < 3
      · rw [if_pos heax]
        have hcall : systemCallHandler S r = printString S r.ebx.toNat := by
          rw [systemCallHandler]
          generalize r.eax.toNat = i at heax
          interval_cases i <;> rfl
        rw [hcall]
        exact hS.printString (hfit rfl heax)
      · rw [if_neg heax, systemCallHandler, List.getElem?_eq_none (not_lt.mp heax)]
        exact hS
  · have hnone : isrHandlers r.intNumber.toNat = none := by
      rw [hnumber, isrHandlers, registerIsrHandler, registerIsrHandler, update_of_ne h128,
        update_of_ne h14]
    rw [report, if_neg h14, if_neg h128, ← hnumber]
    exact displays_exception cr2 hS hnone (by omega)

/-- The stubs call their handler with interrupts off. -/
theorem toCall_masked {number : BitVec 32} {target : Interrupts.Label} {s t : Interrupts.Machine}
    {handler : Interrupts.Handler} {exit : List Interrupts.Instruction}
    (h : toCall cpu 15 (Interrupts.entry number target) s = some (handler, exit, t)) :
    t.eflags.getLsbD 9 = false := by
  have hflags : t.eflags = s.eflags &&& ~~~0x200 := by
    cases target with
    | isrStub =>
      cases h
      rfl
    | irqStub =>
      cases h
      rfl
  rw [hflags, BitVec.getLsbD_and]
  exact Bool.and_false _

/-- From the state `s` the vector leads into a `for(;;)` of the kernel with interrupts off, where
the screen shows `c`. -/
def StopsWith (cpu : Processor) (vector : ℕ) (errorCode cr2 : BitVec 32) (m : Mem) (S : State)
    (s : Interrupts.Machine) (c : Console) : Prop :=
  ∃ code exit t S', idt vector = some code ∧
    toCall cpu 15 code (interrupt cpu vector errorCode s) = some (.faultHandler, exit, t) ∧
    t.eflags.getLsbD 9 = false ∧
    faultHandler isrHandlers cr2 S (registersAt t.memory t.esp) = .stopped S' ∧
    Displays m S' c

theorem stopsWith_report (cpu : Processor) (errorCode cr2 : BitVec 32) (s : Interrupts.Machine)
    (hv : vector < 32 ∨ vector = 128) (hS : Displays m S c)
    (hfit : vector = 128 → s.eax.toNat < 3 → c.Fits m (.printString s.ebx.toNat)) :
    StopsWith cpu vector errorCode cr2 m S s (report m c vector cr2 s.eax s.ebx) := by
  obtain ⟨handler, t, hcall, hdelivered⟩ := Interrupts.toCall_delivered cpu vector errorCode
    (BitVec.ofNat 32 vector) .isrStub s
  obtain rfl : handler = .faultHandler := toCall_isrStub _ _ hcall
  obtain ⟨hnumber, herr, heax, hebx⟩ := delivered_fields hdelivered
  have hn : (registersAt t.memory t.esp).intNumber.toNat = vector := by
    rw [hnumber, BitVec.toNat_ofNat]
    omega
  obtain ⟨S', hstopped, hS'⟩ := displays_report cr2 hv hS hn herr (by rwa [heax, hebx])
  rw [heax, hebx] at hS'
  exact ⟨_, _, t, S', idt_isrStub hv, hcall, toCall_masked hcall, hstopped, hS'⟩

/-- Whatever was interrupted, an exception or a system call ends with its report. The error
code is none of it. -/
theorem fault_reported (cpu : Processor) (errorCode cr2 : BitVec 32) (s : Interrupts.Machine)
    (hv : vector < 32 ∨ vector = 128) (hS : Displays m S c)
    (hfit : vector = 128 → s.eax.toNat < 3 → c.Fits m (.printString s.ebx.toNat)) :
    ∃ code exit t S', idt vector = some code ∧
      toCall cpu 15 code (interrupt cpu vector errorCode s) = some (.faultHandler, exit, t) ∧
      faultHandler isrHandlers cr2 S (registersAt t.memory t.esp) = .stopped S' ∧
      Displays m S' (report m c vector cr2 s.eax s.ebx) := by
  obtain ⟨code, exit, t, S', hcode, hcall, -, hstopped, hS'⟩ :=
    stopsWith_report cpu errorCode cr2 s hv hS hfit
  exact ⟨code, exit, t, S', hcode, hcall, hstopped, hS'⟩

/-- A write to a page that is not present, in a kernel that has printed nothing. -/
theorem fault_reported_write : ∃ code exit t S', idt 14 = some code ∧
    toCall ⟨true, 0x10, 0⟩ 15 code (interrupt ⟨true, 0x10, 0⟩ 14 2 Interrupts.atEntry) =
      some (.faultHandler, exit, t) ∧
    faultHandler isrHandlers 0xFFFFFFFF (construct fun _ => 0) (registersAt t.memory t.esp) =
      .stopped S' ∧
    Displays (fun _ => 0) S' (report (fun _ => 0) (Console.start fun _ => 0) 14 0xFFFFFFFF
      Interrupts.atEntry.eax Interrupts.atEntry.ebx) :=
  fault_reported ⟨true, 0x10, 0⟩ 2 0xFFFFFFFF Interrupts.atEntry (.inl (by decide))
    (construct_displays fun _ => 0) (fun h => absurd h (by decide))

end Delivery

end ExperimentalKernel.Faults
