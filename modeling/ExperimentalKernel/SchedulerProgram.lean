import ExperimentalKernel.ByteMemory
import Mathlib.Logic.Function.Basic

/-!
# The scheduler

`process.cpp` and the list it keeps. Nodes are keyed by their address, which is
also that of the `Process` they begin with. What `new` and `clonePageDirectory`
return are arguments. The local `parentProc` of `fork` lies on the stack, so every
address space has its own.
-/

namespace ExperimentalKernel.Scheduler
open ByteMemory Function

structure Process where
  pid : ℕ
  esp : ℕ
  ebp : ℕ
  eip : ℕ
  pageDirectory : ℕ
  deriving DecidableEq

structure SNode where
  data : Process
  next : ℕ
  deriving DecidableEq

/-- The registers that the scheduler moves. -/
structure Cpu where
  eip : ℕ
  esp : ℕ
  ebp : ℕ
  cr3 : ℕ
  deriving DecidableEq

/-- `DUMMY_EIP`, what `get_eip` returns after the jump of `switchTask`. -/
def dummyEip : ℕ := 0xABC123

/-- `currentPageDirectory` belongs to `pmmu`, `physicalAddress` to the directories. -/
structure State where
  first : ℕ
  last : ℕ
  currentProcess : ℕ
  pidCounter : ℕ
  nodes : ℕ → SNode
  currentPageDirectory : ℕ
  physicalAddress : ℕ → ℕ
  parentProc : ℕ → ℕ
  cpu : Cpu

def State.setNode (s : State) (node : ℕ) (n : SNode) : State :=
  { s with nodes := update s.nodes node n }

/-- `Process(pidCounter, pageDirectory)` and the counter after it. -/
def newProcess (pidCounter pageDirectory : ℕ) : Process × ℕ :=
  (⟨pidCounter, 0, 0, 0, pageDirectory⟩, u32 (pidCounter + 1))

/-- `pushBack`; `node` is what `new` returns. -/
def pushBack (s : State) (data : Process) (node : ℕ) : State :=
  if s.first = 0 then { s.setNode node ⟨data, 0⟩ with first := node, last := node }
  else
    let s₁ := s.setNode node ⟨data, 0⟩
    let s₂ := s₁.setNode s₁.last { s₁.nodes s₁.last with next := node }
    let s₃ := { s₂ with last := (s₂.nodes s₂.last).next }
    s₃.setNode s₃.last { s₃.nodes s₃.last with next := 0 }

def pushBackCurrent (s : State) (data : Process) (node : ℕ) : State :=
  let s₁ := pushBack s data node
  { s₁ with currentProcess := s₁.last }

/-- `init` without `changeStack`, which moves `esp` and `ebp`. -/
def init (s : State) (node : ℕ) : State :=
  let (process, pidCounter) := newProcess 1 s.currentPageDirectory
  pushBackCurrent { s with pidCounter := pidCounter } process node

/-- The process after the current one, the first one after the last. -/
def nextProcess (s : State) : ℕ :=
  let next := (s.nodes s.currentProcess).next
  if next = 0 then s.first else next

def saveProcess (s : State) (eip : ℕ) : State :=
  let n := s.nodes s.currentProcess
  s.setNode s.currentProcess
    { n with data := { n.data with eip := eip, esp := s.cpu.esp, ebp := s.cpu.ebp } }

def loadProcess (s : State) (process : ℕ) : State :=
  let p := (s.nodes process).data
  { s with
    currentProcess := process
    currentPageDirectory := p.pageDirectory
    cpu := ⟨p.eip, p.esp, p.ebp, s.physicalAddress p.pageDirectory⟩ }

/-- `switchTask`; `eip` is what `get_eip` returns in it. -/
def switchTask (s : State) (eip : ℕ) : State :=
  if s.currentProcess = 0 then s
  else if eip = dummyEip then s
  else
    let s₁ := saveProcess s eip
    loadProcess s₁ (nextProcess s₁)

/-- What `clonePageDirectory` does here: the new address space begins with the stack
of the current one. -/
def cloneAddressSpace (s : State) (pDir phys : ℕ) : State :=
  { s with
    physicalAddress := update s.physicalAddress pDir phys
    parentProc := update s.parentProc pDir (s.parentProc s.currentPageDirectory) }

/-- `fork` up to `get_eip`: the state and `childProc`. -/
def forkBegin (s : State) (pDir phys : ℕ) : State × Process :=
  let s₁ := { s with parentProc := update s.parentProc s.currentPageDirectory s.currentProcess }
  let s₂ := cloneAddressSpace s₁ pDir phys
  let (childProc, pidCounter) := newProcess s₂.pidCounter pDir
  ({ s₂ with pidCounter := pidCounter }, childProc)

/-- `fork` from `get_eip` on, which returned `eip`: the result and the state. -/
def forkEnd (s : State) (eip : ℕ) (childProc : Process) (node : ℕ) : ℕ × State :=
  if s.currentProcess = s.parentProc s.currentPageDirectory then
    let childProc := { childProc with esp := s.cpu.esp, ebp := s.cpu.ebp, eip := eip }
    (childProc.pid, pushBack s childProc node)
  else (0, s)

/-- `fork` as its caller sees it. -/
def fork (s : State) (eip pDir phys node : ℕ) : ℕ × State :=
  let (s₁, childProc) := forkBegin s pDir phys
  forkEnd s₁ eip childProc node

end ExperimentalKernel.Scheduler
