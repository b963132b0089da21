import ExperimentalKernel.ByteMemory

/-!
# Traced memory accesses

A computation over byte memory together with the ranges of bytes it reads and writes.
The accesses stay within a set of addresses if those of each step do. Nothing here
belongs to a particular program.
-/

namespace ExperimentalKernel.TracedMemory
open ByteMemory

variable {α β : Type}

/-- A value and the accesses made on the way to it: address and number of bytes. -/
structure Traced (α : Type) where
  value : α
  accesses : List (ℕ × ℕ)

instance : Monad Traced where
  pure a := ⟨a, []⟩
  bind x f := ⟨(f x.value).value, x.accesses ++ (f x.value).accesses⟩

@[simp] theorem value_pure (a : α) : (pure a : Traced α).value = a := rfl

@[simp] theorem value_bind (x : Traced α) (f : α → Traced β) :
    (x >>= f).value = (f x.value).value := rfl

@[simp] theorem value_ite {c : Prop} {_ : Decidable c} (x y : Traced α) :
    (if c then x else y).value = if c then x.value else y.value := by
  split <;> rfl

def get8 (m : Mem) (a : ℕ) : Traced UInt8 := ⟨m a, [(a, 1)]⟩

def get32 (m : Mem) (a : ℕ) : Traced ℕ := ⟨read32 m a, [(a, 4)]⟩

def put8 (m : Mem) (a : ℕ) (b : UInt8) : Traced Mem := ⟨write8 m a b, [(a, 1)]⟩

def put32 (m : Mem) (a v : ℕ) : Traced Mem := ⟨write32 m a v, [(a, 4)]⟩

@[simp] theorem value_get8 (m : Mem) (a : ℕ) : (get8 m a).value = m a := rfl

@[simp] theorem value_get32 (m : Mem) (a : ℕ) : (get32 m a).value = read32 m a := rfl

@[simp] theorem value_put8 (m : Mem) (a : ℕ) (b : UInt8) : (put8 m a b).value = write8 m a b := rfl

@[simp] theorem value_put32 (m : Mem) (a v : ℕ) : (put32 m a v).value = write32 m a v := rfl

/-- Every byte that is read or written has an address in `P`. -/
def Within (P : ℕ → Prop) (x : Traced α) : Prop := ∀ r ∈ x.accesses, ∀ i < r.2, P (r.1 + i)

section Within
variable {P : ℕ → Prop}

@[simp] theorem within_pure (a : α) : Within P (pure a : Traced α) := fun _ h => by cases h

@[simp] theorem within_bind (x : Traced α) (f : α → Traced β) :
    Within P (x >>= f) ↔ Within P x ∧ Within P (f x.value) := by
  constructor
  · exact fun h => ⟨fun r hr => h r (List.mem_append_left _ hr), fun r hr =>
      h r (List.mem_append_right _ hr)⟩
  · rintro ⟨hx, hf⟩ r hr
    rcases List.mem_append.mp hr with hr | hr
    · exact hx r hr
    · exact hf r hr

@[simp] theorem within_ite {c : Prop} {_ : Decidable c} (x y : Traced α) :
    Within P (if c then x else y) ↔ (c → Within P x) ∧ (¬ c → Within P y) := by
  by_cases hc : c <;> simp [hc]

theorem within_single (v : α) (a n : ℕ) :
    Within P (⟨v, [(a, n)]⟩ : Traced α) ↔ ∀ i < n, P (a + i) := by
  simp [Within]

@[simp] theorem within_get8 (m : Mem) (a : ℕ) : Within P (get8 m a) ↔ P a := by
  simp [get8, within_single]

@[simp] theorem within_put8 (m : Mem) (a : ℕ) (b : UInt8) : Within P (put8 m a b) ↔ P a := by
  simp [put8, within_single]

@[simp] theorem within_get32 (m : Mem) (a : ℕ) : Within P (get32 m a) ↔ ∀ i < 4, P (a + i) :=
  within_single _ _ _

@[simp] theorem within_put32 (m : Mem) (a v : ℕ) : Within P (put32 m a v) ↔ ∀ i < 4, P (a + i) :=
  within_single _ _ _

end Within

end ExperimentalKernel.TracedMemory
