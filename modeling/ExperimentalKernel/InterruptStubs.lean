import ExperimentalKernel.WordStack

/-!
# The interrupt stubs

`interrupt.S`, the gates of `idt_install` and `registers.h`, on a processor that does
what the stubs need. Segments are flat and loads of segment registers succeed. Flags
that an instruction computes are left out, as `iret` loads all of them.
-/

namespace ExperimentalKernel.Interrupts
open WordStack

inductive Segment where
  | ds
  | es
  | fs
  | gs
  deriving DecidableEq

structure Machine where
  eax : BitVec 32
  ecx : BitVec 32
  edx : BitVec 32
  ebx : BitVec 32
  esp : BitVec 32
  ebp : BitVec 32
  esi : BitVec 32
  edi : BitVec 32
  eip : BitVec 32
  eflags : BitVec 32
  cs : BitVec 16
  ss : BitVec 16
  segment : Segment → BitVec 16
  memory : Memory

/-- What differs between processors and tasks: whether a pushed selector is extended with
zeros or leaves the upper half of its word as it was, and the stack of ring 0. -/
structure Processor where
  zeroExtends : Bool
  ss0 : BitVec 16
  esp0 : BitVec 32

def Machine.push (s : Machine) (w : BitVec 32) : Machine :=
  { s with esp := s.esp - 4, memory := write s.memory (s.esp - 4) w }

def Machine.top (s : Machine) : BitVec 32 := read s.memory s.esp

def Machine.setSegment (s : Machine) (r : Segment) (sel : BitVec 16) : Machine :=
  { s with segment := Function.update s.segment r sel }

/-- The privilege level that a selector names. -/
def rpl (sel : BitVec 16) : BitVec 2 := sel.extractLsb' 0 2

/-- The word that a push of the selector leaves where `old` stood. -/
def selectorWord (cpu : Processor) (old : BitVec 32) (sel : BitVec 16) : BitVec 32 :=
  if cpu.zeroExtends then sel.setWidth 32 else old.extractLsb' 16 16 ++ sel

def Machine.pushSegment (cpu : Processor) (s : Machine) (r : Segment) : Machine :=
  s.push (selectorWord cpu (read s.memory (s.esp - 4)) (s.segment r))

def Machine.popSegment (s : Machine) (r : Segment) : Machine :=
  { s.setSegment r (s.top.setWidth 16) with esp := s.esp + 4 }

def Machine.pusha (s : Machine) : Machine :=
  (((((((s.push s.eax).push s.ecx).push s.edx).push s.ebx).push s.esp).push s.ebp).push s.esi).push
    s.edi

def Machine.popa (s : Machine) : Machine :=
  { s with
    edi := read s.memory s.esp
    esi := read s.memory (s.esp + 4)
    ebp := read s.memory (s.esp + 8)
    ebx := read s.memory (s.esp + 16)
    edx := read s.memory (s.esp + 20)
    ecx := read s.memory (s.esp + 24)
    eax := read s.memory (s.esp + 28)
    esp := s.esp + 32 }

/-- A return to an outer ring also takes the stack from the frame. -/
def Machine.iret (s : Machine) : Machine :=
  let t := { s with
    eip := read s.memory s.esp
    cs := (read s.memory (s.esp + 4)).setWidth 16
    eflags := read s.memory (s.esp + 8)
    esp := s.esp + 12 }
  if rpl s.cs < rpl t.cs then
    { t with
      esp := read s.memory (s.esp + 12)
      ss := (read s.memory (s.esp + 16)).setWidth 16 }
  else t

/-- The vectors with an error code. -/
def pushesErrorCode (vector : ℕ) : Bool := vector ∈ [8, 10, 11, 12, 13, 14, 17]

/-- The stack on which the frame is built. -/
def Machine.enterRing0 (cpu : Processor) (s : Machine) : Machine :=
  if rpl s.cs = 0 then s
  else ({ s with ss := cpu.ss0, esp := cpu.esp0 }.push (s.ss.setWidth 32)).push s.esp

/-- What the processor does through a gate of `idt_install`. -/
def interrupt (cpu : Processor) (vector : ℕ) (errorCode : BitVec 32) (s : Machine) : Machine :=
  let t := (((s.enterRing0 cpu).push s.eflags).push (s.cs.setWidth 32)).push s.eip
  let t := if pushesErrorCode vector then t.push errorCode else t
  { t with cs := 0x08, eflags := s.eflags &&& ~~~0x200 }

inductive Handler where
  | faultHandler
  | irqHandler
  deriving DecidableEq

inductive Label where
  | isrStub
  | irqStub
  deriving DecidableEq

inductive Instruction where
  | cli
  | sti
  | push (imm : BitVec 32)
  | pushSegment (r : Segment)
  | popSegment (r : Segment)
  | pusha
  | popa
  | movAx (imm : BitVec 16)
  | loadSegment (r : Segment)
  | addEsp (imm : BitVec 32)
  | jmp (target : Label)
  | call (handler : Handler)
  | iret
  deriving DecidableEq

/-- An instruction after which the next one follows. -/
def exec (cpu : Processor) (s : Machine) : Instruction → Machine
  | .cli => { s with eflags := s.eflags &&& ~~~0x200 }
  | .sti => { s with eflags := s.eflags ||| 0x200 }
  | .push imm => s.push imm
  | .pushSegment r => s.pushSegment cpu r
  | .popSegment r => s.popSegment r
  | .pusha => s.pusha
  | .popa => s.popa
  | .movAx imm => { s with eax := s.eax.extractLsb' 16 16 ++ imm }
  | .loadSegment r => s.setSegment r (s.eax.setWidth 16)
  | .addEsp imm => { s with esp := s.esp + imm }
  | .jmp _ | .call _ | .iret => s

/-- `isr_stub` and `irq_stub` differ in the handler only. -/
def commonStub (handler : Handler) : List Instruction :=
  [.pusha, .pushSegment .ds, .pushSegment .es, .pushSegment .fs, .pushSegment .gs,
    .movAx 0x10, .loadSegment .ds, .loadSegment .es, .loadSegment .fs, .loadSegment .gs,
    .call handler,
    .popSegment .gs, .popSegment .fs, .popSegment .es, .popSegment .ds, .popa, .addEsp 8, .sti,
    .iret]

def isrStub : List Instruction := commonStub .faultHandler

def irqStub : List Instruction := commonStub .irqHandler

def body : Label → List Instruction
  | .isrStub => isrStub
  | .irqStub => irqStub

def entry (number : BitVec 32) (target : Label) : List Instruction :=
  [.cli, .push 0, .push number, .jmp target]

def isr0 : List Instruction := entry 0 .isrStub

def isr1 : List Instruction := entry 1 .isrStub

def isr2 : List Instruction := entry 2 .isrStub

def isr3 : List Instruction := entry 3 .isrStub

def isr4 : List Instruction := entry 4 .isrStub

def isr5 : List Instruction := entry 5 .isrStub

def isr6 : List Instruction := entry 6 .isrStub

def isr7 : List Instruction := entry 7 .isrStub

def isr8 : List Instruction := entry 8 .isrStub

def isr9 : List Instruction := entry 9 .isrStub

def isr10 : List Instruction := entry 10 .isrStub

def isr11 : List Instruction := entry 11 .isrStub

def isr12 : List Instruction := entry 12 .isrStub

def isr13 : List Instruction := entry 13 .isrStub

def isr14 : List Instruction := entry 14 .isrStub

def isr15 : List Instruction := entry 15 .isrStub

def isr16 : List Instruction := entry 16 .isrStub

def isr17 : List Instruction := entry 17 .isrStub

def isr18 : List Instruction := entry 18 .isrStub

def isr19 : List Instruction := entry 19 .isrStub

def isr20 : List Instruction := entry 20 .isrStub

def isr21 : List Instruction := entry 21 .isrStub

def isr22 : List Instruction := entry 22 .isrStub

def isr23 : List Instruction := entry 23 .isrStub

def isr24 : List Instruction := entry 24 .isrStub

def isr25 : List Instruction := entry 25 .isrStub

def isr26 : List Instruction := entry 26 .isrStub

def isr27 : List Instruction := entry 27 .isrStub

def isr28 : List Instruction := entry 28 .isrStub

def isr29 : List Instruction := entry 29 .isrStub

def isr30 : List Instruction := entry 30 .isrStub

def isr31 : List Instruction := entry 31 .isrStub

def isr128 : List Instruction := entry 128 .isrStub

def irq0 : List Instruction := entry 32 .irqStub

def irq1 : List Instruction := entry 33 .irqStub

def irq2 : List Instruction := entry 34 .irqStub

def irq3 : List Instruction := entry 35 .irqStub

def irq4 : List Instruction := entry 36 .irqStub

def irq5 : List Instruction := entry 37 .irqStub

def irq6 : List Instruction := entry 38 .irqStub

def irq7 : List Instruction := entry 39 .irqStub

def irq8 : List Instruction := entry 40 .irqStub

def irq9 : List Instruction := entry 41 .irqStub

def irq10 : List Instruction := entry 42 .irqStub

def irq11 : List Instruction := entry 43 .irqStub

def irq12 : List Instruction := entry 44 .irqStub

def irq13 : List Instruction := entry 45 .irqStub

def irq14 : List Instruction := entry 46 .irqStub

def irq15 : List Instruction := entry 47 .irqStub

/-- The gates that `idt_install` sets. -/
def idt : ℕ → Option (List Instruction)
  | 0 => some isr0
  | 1 => some isr1
  | 2 => some isr2
  | 3 => some isr3
  | 4 => some isr4
  | 5 => some isr5
  | 6 => some isr6
  | 7 => some isr7
  | 8 => some isr8
  | 9 => some isr9
  | 10 => some isr10
  | 11 => some isr11
  | 12 => some isr12
  | 13 => some isr13
  | 14 => some isr14
  | 15 => some isr15
  | 16 => some isr16
  | 17 => some isr17
  | 18 => some isr18
  | 19 => some isr19
  | 20 => some isr20
  | 21 => some isr21
  | 22 => some isr22
  | 23 => some isr23
  | 24 => some isr24
  | 25 => some isr25
  | 26 => some isr26
  | 27 => some isr27
  | 28 => some isr28
  | 29 => some isr29
  | 30 => some isr30
  | 31 => some isr31
  | 32 => some irq0
  | 33 => some irq1
  | 34 => some irq2
  | 35 => some irq3
  | 36 => some irq4
  | 37 => some irq5
  | 38 => some irq6
  | 39 => some irq7
  | 40 => some irq8
  | 41 => some irq9
  | 42 => some irq10
  | 43 => some irq11
  | 44 => some irq12
  | 45 => some irq13
  | 46 => some irq14
  | 47 => some irq15
  | 128 => some isr128
  | _ => none

/-- `struct registers`. -/
structure Registers where
  gs : BitVec 32
  fs : BitVec 32
  es : BitVec 32
  ds : BitVec 32
  edi : BitVec 32
  esi : BitVec 32
  ebp : BitVec 32
  esp : BitVec 32
  ebx : BitVec 32
  edx : BitVec 32
  ecx : BitVec 32
  eax : BitVec 32
  intNumber : BitVec 32
  errCode : BitVec 32
  eip : BitVec 32
  cs : BitVec 32
  eflags : BitVec 32
  useresp : BitVec 32
  ss : BitVec 32

/-- The structure at `a`; the handler gets it by value, as the words on the stack. -/
def registersAt (m : Memory) (a : BitVec 32) : Registers where
  gs := read m a
  fs := read m (a + 4)
  es := read m (a + 8)
  ds := read m (a + 12)
  edi := read m (a + 16)
  esi := read m (a + 20)
  ebp := read m (a + 24)
  esp := read m (a + 28)
  ebx := read m (a + 32)
  edx := read m (a + 36)
  ecx := read m (a + 40)
  eax := read m (a + 44)
  intNumber := read m (a + 48)
  errCode := read m (a + 52)
  eip := read m (a + 56)
  cs := read m (a + 60)
  eflags := read m (a + 64)
  useresp := read m (a + 68)
  ss := read m (a + 72)

/-- Execution up to the call of a handler: the handler, what follows the call, and the
machine whose stack top is the argument. -/
def toCall (cpu : Processor) : ℕ → List Instruction → Machine →
    Option (Handler × List Instruction × Machine)
  | 0, _, _ => none
  | _ + 1, [], _ => none
  | k + 1, i :: is, s =>
    match i with
    | .jmp target => toCall cpu k (body target) s
    | .call handler => some (handler, is, s)
    | .iret => none
    | i => toCall cpu k is (exec cpu s i)

/-- Execution from behind the call through `iret`. -/
def toIret (cpu : Processor) : List Instruction → Machine → Option Machine
  | [], _ => none
  | i :: is, s =>
    match i with
    | .jmp _ => none
    | .call _ => none
    | .iret => some s.iret
    | i => toIret cpu is (exec cpu s i)

end ExperimentalKernel.Interrupts
