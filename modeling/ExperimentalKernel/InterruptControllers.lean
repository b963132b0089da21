import ExperimentalKernel.LabelledRuns
import Mathlib.Algebra.Group.Fin.Basic
import Mathlib.Data.List.FinRange
import Mathlib.Logic.Function.Basic

/-!
# The interrupt controllers

`irq_handler` of `isr.cpp` and the remapping of `idt_install`, with the two controllers
they program. A controller keeps the lines in service; a command byte that ends an
interrupt clears one of them. `irq_handler` means to acknowledge an interrupt of the slave
at the slave, but its byte `0xA0`, the port of the slave, goes to port `0x20`, that of the
master.
-/

namespace ExperimentalKernel.InterruptControllers
open LabelledRuns

inductive Action where
  | outb (port value : ℕ)
  | call (irq : ℕ)
  | setTextColor (backcolor forecolor : ℕ)
  deriving DecidableEq

/-- What `irq_handler` does, where `irqHandlers` says which handlers are registered. -/
def irqHandler (irqHandlers : ℕ → Bool) (intNumber : ℕ) : List Action :=
  (if intNumber ≥ 40 then [.outb 0x20 0xA0] else []) ++ [.outb 0x20 0x20] ++
    (if intNumber = 32 ∧ irqHandlers (intNumber - 32) = true then [.call (intNumber - 32)] else []) ++
      [.setTextColor 0 15]

/-- The remapping in `idt_install`. -/
def remap : List Action :=
  [.outb 0x20 0x11, .outb 0xA0 0x11, .outb 0x21 0x20, .outb 0xA1 0x28, .outb 0x21 0x04,
    .outb 0xA1 0x02, .outb 0x21 0x01, .outb 0xA1 0x01, .outb 0x21 0x00, .outb 0xA1 0x00]

/-- A controller: how many words of its initialisation are missing, the vector of its line 0,
the word that names the cascade, the mask, the lines in service and the line of the highest
priority. -/
structure Pic where
  expects : ℕ
  base : ℕ
  cascade : ℕ
  mask : ℕ
  inService : Fin 8 → Bool
  top : Fin 8

namespace Pic

/-- The first line in service, in the order of priority. -/
def highest (p : Pic) : Option (Fin 8) :=
  ((List.finRange 8).map fun k => p.top + k).find? p.inService

/-- The end of an interrupt: bit 6 names the line, else it is the highest in service; bit 7
gives that line the lowest priority from now on. -/
def endOfInterrupt (p : Pic) (value : ℕ) : Pic :=
  let line := if value &&& 0x40 ≠ 0 then some (Fin.ofNat 8 value) else p.highest
  match line with
  | none => p
  | some l =>
    { p with
      inService := Function.update p.inService l false
      top := if value &&& 0x80 ≠ 0 then l + 1 else p.top }

/-- A byte for the command port: bit 4 starts the initialisation, in which three words
follow. -/
def command (p : Pic) (value : ℕ) : Pic :=
  if value &&& 0x10 ≠ 0 then
    { p with expects := 3, mask := 0, inService := fun _ => false, top := 0 }
  else if value &&& 0x08 = 0 ∧ value &&& 0x20 ≠ 0 then p.endOfInterrupt value
  else p

/-- A byte for the data port: the words of the initialisation, later the mask. -/
def data (p : Pic) (value : ℕ) : Pic :=
  match p.expects with
  | 3 => { p with expects := 2, base := value &&& 0xF8 }
  | 2 => { p with expects := 1, cascade := value }
  | 1 => { p with expects := 0 }
  | _ => { p with mask := value }

/-- The processor takes an interrupt on these lines. -/
def serve (p : Pic) (lines : Fin 8 → Bool) : Pic :=
  { p with inService := fun l => p.inService l || lines l }

end Pic

structure Pics where
  master : Pic
  slave : Pic

def perform (c : Pics) : Action → Pics
  | .outb 0x20 value => { c with master := c.master.command value }
  | .outb 0x21 value => { c with master := c.master.data value }
  | .outb 0xA0 value => { c with slave := c.slave.command value }
  | .outb 0xA1 value => { c with slave := c.slave.data value }
  | _ => c

/-- An interrupt with this vector: one of the slave is in service at the line of the cascade
as well. -/
def raise (c : Pics) (vector : ℕ) : Pics :=
  if c.master.base ≤ vector ∧ vector < c.master.base + 8 then
    { c with master := c.master.serve fun l => l.val = vector - c.master.base }
  else if c.slave.base ≤ vector ∧ vector < c.slave.base + 8 then
    { master := c.master.serve fun l => c.master.cascade.testBit l
      slave := c.slave.serve fun l => l.val = vector - c.slave.base }
  else c

/-- The controllers when `irq_handler` returns. -/
def handled (irqHandlers : ℕ → Bool) (c : Pics) (vector : ℕ) : Pics :=
  (irqHandler irqHandlers vector).foldl perform (raise c vector)

def Step (irqHandlers : ℕ → Bool) (c : Pics) (vector : ℕ) (c' : Pics) : Prop :=
  c' = handled irqHandlers c vector

/-- No line is in service. -/
def Idle (c : Pics) : Prop := ∀ l, c.master.inService l = false ∧ c.slave.inService l = false

/-- Idle, and programmed as `idt_install` does it. -/
structure Ready (c : Pics) : Prop where
  idle : Idle c
  masterBase : c.master.base = 32
  slaveBase : c.slave.base = 40

/-- Whatever the controllers were. -/
theorem remap_eq (c : Pics) : remap.foldl perform c =
    ⟨⟨0, 32, 4, 0, fun _ => false, 0⟩, ⟨0, 40, 2, 0, fun _ => false, 0⟩⟩ := by
  simp [remap, perform, Pic.command, Pic.data]

theorem remap_ready (c : Pics) : Ready (remap.foldl perform c) := by
  rw [remap_eq]
  exact ⟨fun _ => ⟨rfl, rfl⟩, rfl, rfl⟩

/-- A single line in service is the highest, whatever the priorities. -/
theorem find_single (top line : Fin 8) :
    ((List.finRange 8).map fun k => top + k).find? (fun l => decide (l = line)) = some line := by
  have hmem : line ∈ (List.finRange 8).map fun k => top + k :=
    List.mem_map.mpr ⟨line - top, List.mem_finRange _, add_sub_cancel top line⟩
  cases h : ((List.finRange 8).map fun k => top + k).find? fun l => decide (l = line) with
  | none => exact absurd (decide_eq_true rfl) (List.find?_eq_none.mp h line hmem)
  | some l =>
    have hl : l = line := by simpa using List.find?_some h
    rw [hl]

namespace Pic
variable {p : Pic} {value : ℕ}

theorem endOfInterrupt_base : (p.endOfInterrupt value).base = p.base := by
  simp only [endOfInterrupt]
  split <;> rfl

/-- Without a line in service there is nothing to end. -/
theorem endOfInterrupt_idle (hp : ∀ l, p.inService l = false) (hvalue : value &&& 0x40 = 0) :
    p.endOfInterrupt value = p := by
  have hnone : p.highest = none := by
    rw [highest, List.find?_eq_none]
    exact fun l _ => by simp [hp l]
  simp only [endOfInterrupt, hvalue, ne_eq, not_true_eq_false, ↓reduceIte, hnone]

/-- The only line in service is the one that is cleared. -/
theorem endOfInterrupt_single {line : Fin 8} (hp : ∀ l, p.inService l = decide (l = line))
    (hvalue : value &&& 0x40 = 0) (l : Fin 8) : (p.endOfInterrupt value).inService l = false := by
  have hline : p.highest = some line := by
    rw [highest, funext hp, find_single]
  simp only [endOfInterrupt, hvalue, ne_eq, not_true_eq_false, ↓reduceIte, hline]
  by_cases hl : l = line
  · rw [hl, Function.update_self]
  · rw [Function.update_of_ne hl, hp l, decide_eq_false hl]

end Pic

section Handled

variable {irqHandlers : ℕ → Bool} {c : Pics} {vector : ℕ}

/-- Nothing that `irq_handler` does reaches the slave. -/
theorem handled_slave : (handled irqHandlers c vector).slave = (raise c vector).slave := by
  rw [handled, irqHandler]
  split <;> split <;> rfl

/-- The master gets one command for its own interrupts, two for those of the slave. -/
theorem handled_master : (handled irqHandlers c vector).master =
    if vector ≥ 40 then ((raise c vector).master.endOfInterrupt 0xA0).endOfInterrupt 0x20
    else (raise c vector).master.endOfInterrupt 0x20 := by
  rw [handled, irqHandler]
  split <;> split <;> rfl

theorem raise_master (h : Ready c) (hl : 32 ≤ vector) (hv : vector < 40) :
    raise c vector = { c with master := c.master.serve fun l => l.val = vector - 32 } := by
  rw [raise, h.masterBase, if_pos ⟨hl, hv⟩]

theorem raise_slave (h : Ready c) (hl : 40 ≤ vector) (hv : vector < 48) : raise c vector =
    { master := c.master.serve fun l => c.master.cascade.testBit l
      slave := c.slave.serve fun l => l.val = vector - 40 } := by
  rw [raise, h.masterBase, h.slaveBase, if_neg (by omega), if_pos ⟨hl, hv⟩]

theorem raise_other (h : Ready c) (hv : vector < 32 ∨ 48 ≤ vector) : raise c vector = c := by
  rw [raise, h.masterBase, h.slaveBase, if_neg (by omega), if_neg (by omega)]

/-- An interrupt of the master is ended. -/
theorem handled_idle_master (h : Ready c) (hl : 32 ≤ vector) (hv : vector < 40) :
    Idle (handled irqHandlers c vector) := by
  intro l
  have hline : ∀ x : Fin 8, (raise c vector).master.inService x =
      decide (x = ⟨vector - 32, by omega⟩) := by
    intro x
    rw [raise_master h hl hv]
    simp [Pic.serve, (h.idle x).1, Fin.ext_iff]
  rw [handled_master, handled_slave, if_neg (not_le.mpr hv)]
  refine ⟨Pic.endOfInterrupt_single hline (by decide) l, ?_⟩
  rw [raise_master h hl hv]
  exact (h.idle l).2

/-- One of the slave stays in service there. -/
theorem handled_busy_slave (h : Ready c) (hl : 40 ≤ vector) (hv : vector < 48) :
    ¬ Idle (handled irqHandlers c vector) := by
  intro hidle
  have hline := (hidle ⟨vector - 40, by omega⟩).2
  rw [handled_slave, raise_slave h hl hv] at hline
  simp [Pic.serve] at hline

theorem handled_idle_other (h : Ready c) (hv : vector < 32 ∨ 48 ≤ vector) :
    Idle (handled irqHandlers c vector) := by
  intro l
  have hidle := fun x => (h.idle x).1
  rw [handled_master, handled_slave, raise_other h hv, Pic.endOfInterrupt_idle hidle (by decide),
    Pic.endOfInterrupt_idle hidle (by decide), ite_self]
  exact h.idle l

theorem handled_idle_iff (h : Ready c) (vector : ℕ) :
    Idle (handled irqHandlers c vector) ↔ ¬ (40 ≤ vector ∧ vector < 48) := by
  refine ⟨fun hidle hv => handled_busy_slave h hv.1 hv.2 hidle, fun hv => ?_⟩
  by_cases hm : 32 ≤ vector ∧ vector < 40
  · exact handled_idle_master h hm.1 hm.2
  · exact handled_idle_other h (by omega)

theorem handled_ready (h : Ready c) (hidle : Idle (handled irqHandlers c vector)) :
    Ready (handled irqHandlers c vector) := by
  have hraise : (raise c vector).master.base = 32 ∧ (raise c vector).slave.base = 40 := by
    rw [← h.masterBase, ← h.slaveBase, raise]
    split
    · exact ⟨rfl, rfl⟩
    · split <;> exact ⟨rfl, rfl⟩
  refine ⟨hidle, ?_, ?_⟩
  · rw [handled_master]
    split
    · rw [Pic.endOfInterrupt_base, Pic.endOfInterrupt_base, hraise.1]
    · rw [Pic.endOfInterrupt_base, hraise.1]
  · rw [handled_slave, hraise.2]

end Handled

/-- In a run from `idt_install` no line is left in service after each interrupt, just when all
interrupts are of the master. -/
theorem acknowledged_iff (irqHandlers : ℕ → Bool) (c : Pics) {vectors : List ℕ}
    (hv : ∀ v ∈ vectors, 32 ≤ v ∧ v ≤ 47) :
    Along (Step irqHandlers) (fun c v => Idle (handled irqHandlers c v)) (remap.foldl perform c)
      vectors ↔ ∀ v ∈ vectors, v < 40 := by
  have hready : Along (Step irqHandlers) (fun c v => Idle (handled irqHandlers c v))
      (remap.foldl perform c) vectors ↔
        Along (Step irqHandlers) (fun _ v => ¬ (40 ≤ v ∧ v < 48)) (remap.foldl perform c) vectors := by
    refine along_iff (I := Ready) (fun c v h => handled_idle_iff h v) (fun c v c' h hidle hstep => ?_)
      vectors (remap_ready c)
    rw [hstep]
    exact handled_ready h hidle
  have htotal : ∀ c v, ∃ c', Step irqHandlers c v c' := fun c v => ⟨handled irqHandlers c v, rfl⟩
  rw [hready, along_labels htotal]
  refine forall₂_congr fun v hmem => ?_
  have := hv v hmem
  omega

theorem acknowledged_iff_timer :
    Along (Step fun _ => false) (fun c v => Idle (handled (fun _ => false) c v))
      (remap.foldl perform ⟨⟨0, 0, 0, 0, fun _ => true, 0⟩, ⟨0, 0, 0, 0, fun _ => true, 0⟩⟩)
      [32, 33, 32] :=
  (@acknowledged_iff (fun _ => false) ⟨⟨0, 0, 0, 0, fun _ => true, 0⟩, ⟨0, 0, 0, 0, fun _ => true, 0⟩⟩
    [32, 33, 32] (by decide)).mpr (by decide)

/-- The real-time clock, line 0 of the slave, stays in service. -/
theorem not_acknowledged :
    ¬ Along (Step fun _ => false) (fun c v => Idle (handled (fun _ => false) c v))
      (remap.foldl perform ⟨⟨0, 0, 0, 0, fun _ => false, 0⟩, ⟨0, 0, 0, 0, fun _ => false, 0⟩⟩) [40] :=
  fun h => handled_busy_slave (remap_ready _) le_rfl (by decide) h.1

end ExperimentalKernel.InterruptControllers
