import Mathlib.Data.BitVec
import Mathlib.Tactic.Ring

/-!
# Words on a stack

Memory with 32-bit addresses, in which words are little-endian, and a stack of words
that grows downward in it. Addresses wrap around. Nothing here belongs to a
particular program.
-/

namespace ExperimentalKernel.WordStack

abbrev Memory := BitVec 32 → BitVec 8

def read (m : Memory) (a : BitVec 32) : BitVec 32 := m (a + 3) ++ m (a + 2) ++ m (a + 1) ++ m a

def write (m : Memory) (a w : BitVec 32) : Memory := fun x =>
  if x = a then w.extractLsb' 0 8
  else if x = a + 1 then w.extractLsb' 8 8
  else if x = a + 2 then w.extractLsb' 16 8
  else if x = a + 3 then w.extractLsb' 24 8
  else m x

/-- From `sp` upward stand the words `ws`. -/
def Stacked (m : Memory) (sp : BitVec 32) (ws : List (BitVec 32)) : Prop :=
  ∀ i (hi : i < ws.length), read m (sp + BitVec.ofNat 32 (4 * i)) = ws[i]

variable {m m' : Memory} {sp a w : BitVec 32} {ws : List (BitVec 32)}

theorem write_of_far {x : BitVec 32} (h : 4 ≤ (x - a).toNat) : write m a w x = m x := by
  have h₀ : x ≠ a := by bv_omega
  have h₁ : x ≠ a + 1 := by bv_omega
  have h₂ : x ≠ a + 2 := by bv_omega
  have h₃ : x ≠ a + 3 := by bv_omega
  simp only [write, h₀, h₁, h₂, h₃, if_false]

theorem read_congr (h : ∀ i < 4, m' (a + BitVec.ofNat 32 i) = m (a + BitVec.ofNat 32 i)) :
    read m' a = read m a := by
  have h₀ := h 0 (by decide)
  rw [BitVec.add_zero] at h₀
  have h₁ : m' (a + 1) = m (a + 1) := h 1 (by decide)
  have h₂ : m' (a + 2) = m (a + 2) := h 2 (by decide)
  have h₃ : m' (a + 3) = m (a + 3) := h 3 (by decide)
  rw [read, read, h₀, h₁, h₂, h₃]

theorem bytes_append (w : BitVec 32) :
    w.extractLsb' 24 8 ++ w.extractLsb' 16 8 ++ w.extractLsb' 8 8 ++ w.extractLsb' 0 8 = w := by
  apply BitVec.eq_of_getLsbD_eq
  intro i hi
  simp only [BitVec.getLsbD_append, BitVec.getLsbD_extractLsb']
  grind

theorem read_write (m : Memory) (a w : BitVec 32) : read (write m a w) a = w := by
  have h₁ : a + 1 ≠ a := by bv_omega
  have h₂ : a + 2 ≠ a := by bv_omega
  have h₂₁ : a + 2 ≠ a + 1 := by bv_omega
  have h₃ : a + 3 ≠ a := by bv_omega
  have h₃₁ : a + 3 ≠ a + 1 := by bv_omega
  have h₃₂ : a + 3 ≠ a + 2 := by bv_omega
  simp only [read, write, h₁, h₂, h₂₁, h₃, h₃₁, h₃₂, if_true, if_false]
  exact bytes_append w

theorem stacked_nil (m : Memory) (sp : BitVec 32) : Stacked m sp [] :=
  fun i hi => absurd hi (Nat.not_lt_zero i)

/-- A push puts its word in front. -/
theorem Stacked.push (h : Stacked m sp ws) (hl : 4 * (ws.length + 1) ≤ 2 ^ 32) (w : BitVec 32) :
    Stacked (write m (sp - 4) w) (sp - 4) (w :: ws) := by
  intro i hi
  cases i with
  | zero =>
    rw [Nat.mul_zero, BitVec.add_zero]
    exact read_write m (sp - 4) w
  | succ i =>
    have hi' : i < ws.length := Nat.lt_of_succ_lt_succ hi
    have hadd : sp - 4 + BitVec.ofNat 32 (4 * (i + 1)) = sp + BitVec.ofNat 32 (4 * i) := by
      bv_omega
    rw [hadd, List.getElem_cons_succ, ← h i hi']
    refine read_congr fun j hj => write_of_far ?_
    bv_omega

theorem Stacked.get (h : Stacked m sp ws) (k : ℕ) (hk : ws[k]? = some w) :
    read m (sp + BitVec.ofNat 32 (4 * k)) = w := by
  obtain ⟨hlt, rfl⟩ := List.getElem?_eq_some_iff.mp hk
  exact h k hlt

theorem Stacked.head (h : Stacked m sp (w :: ws)) : read m sp = w := by
  have h₀ := h.get 0 rfl
  rw [Nat.mul_zero, BitVec.add_zero] at h₀
  exact h₀

theorem Stacked.tail (h : Stacked m sp (w :: ws)) : Stacked m (sp + 4) ws := by
  intro i hi
  have hadd : sp + 4 + BitVec.ofNat 32 (4 * i) = sp + BitVec.ofNat 32 (4 * (i + 1)) := by bv_omega
  rw [hadd]
  exact h (i + 1) (Nat.succ_lt_succ hi)

theorem Stacked.drop (h : Stacked m sp ws) (k : ℕ) :
    Stacked m (sp + BitVec.ofNat 32 (4 * k)) (ws.drop k) := by
  induction k generalizing sp ws with
  | zero => simpa using h
  | succ k ih =>
    cases ws with
    | nil => exact stacked_nil m _
    | cons w ws =>
      have hadd : sp + BitVec.ofNat 32 (4 * (k + 1)) = sp + 4 + BitVec.ofNat 32 (4 * k) := by bv_omega
      rw [hadd, List.drop_succ_cons]
      exact ih h.tail

/-- The words stay if their bytes do. -/
theorem Stacked.congr (h : Stacked m sp ws)
    (he : ∀ i < 4 * ws.length, m' (sp + BitVec.ofNat 32 i) = m (sp + BitVec.ofNat 32 i)) :
    Stacked m' sp ws := by
  intro i hi
  rw [← h i hi]
  refine read_congr fun j hj => ?_
  have hadd : sp + BitVec.ofNat 32 (4 * i) + BitVec.ofNat 32 j = sp + BitVec.ofNat 32 (4 * i + j) := by
    bv_omega
  rw [hadd]
  exact he _ (by omega)

end ExperimentalKernel.WordStack
