import ExperimentalKernel.PointerArray
import Mathlib.Logic.Function.Basic

/-!
# Erasing from an array

`Array::erase` of one position and of a range, for elements of any type. Both loops move
elements down; the one of the range moves them by `last + 1`, which is the length of the
range only if it starts at zero.
-/

namespace ExperimentalKernel.RangeErase
open ByteMemory PointerArray

variable {T : Type}

/-- The storage with what lies behind the elements, the size and the capacity. -/
structure ArrayOf (T : Type) where
  array : ℕ → T
  size : ℕ
  maxSize : ℕ

def ArrayOf.elems (a : ArrayOf T) : List T := (List.range a.size).map a.array

/-- `k` turns of `array_[i] = array_[i + d]; i++`. -/
def moveDown (array : ℕ → T) (d i : ℕ) : ℕ → ℕ → T
  | 0 => array
  | k + 1 => moveDown (Function.update array i (array (i + d))) d (i + 1) k

/-- `erase(position)`: the loop runs while `i < size_ - 1`. -/
def ArrayOf.erase (a : ArrayOf T) (position : ℕ) : ArrayOf T :=
  { a with
    array := moveDown a.array 1 position (a.size - 1 - position)
    size := a.size - 1 }

/-- `erase(first, last)`: the loop runs while `i + last + 1 < size_`, and the size is the `i`
it ends with. -/
def ArrayOf.eraseRange (a : ArrayOf T) (first last : ℕ) : ArrayOf T :=
  let turns := a.size - (last + 1) - first
  { a with
    array := moveDown a.array (last + 1) first turns
    size := first + turns }

@[simp] theorem ArrayOf.elems_length (a : ArrayOf T) : a.elems.length = a.size := by
  simp [ArrayOf.elems]

@[simp] theorem ArrayOf.elems_getElem (a : ArrayOf T) (i : ℕ) (h : i < a.elems.length) :
    a.elems[i] = a.array i := by
  simp [ArrayOf.elems]

/-- No turn reads what an earlier one has written. -/
theorem moveDown_apply (k : ℕ) (array : ℕ → T) {d : ℕ} (hd : 0 < d) (i j : ℕ) :
    moveDown array d i k j = if i ≤ j ∧ j < i + k then array (j + d) else array j := by
  induction k generalizing array i with
  | zero =>
    rw [if_neg (by omega)]
    rfl
  | succ k ih =>
    rw [moveDown, ih]
    by_cases hij : j = i
    · subst hij
      rw [if_neg (by omega), if_pos (by omega), Function.update_self]
    · by_cases hr : i + 1 ≤ j ∧ j < i + 1 + k
      · rw [if_pos hr, if_pos (by omega), Function.update_of_ne (by omega)]
      · rw [if_neg hr, if_neg (by omega), Function.update_of_ne hij]

section Words

/-- An array of pointers in memory, by its words. -/
def wordsOf (a : PtrArray) (m : Mem) : ArrayOf ℕ where
  array := fun i => read32 m (a.array + 4 * i)
  size := a.size
  maxSize := a.maxSize

/-- On pointers in memory, `erase` is the one above. -/
theorem wordsOf_erase {a : PtrArray} (m : Mem) {p : ℕ} (hp : p < a.size) :
    wordsOf (PointerArray.erase a m p).1 (PointerArray.erase a m p).2 = (wordsOf a m).erase p := by
  have hsub : sub32 a.size 1 = a.size - 1 := sub32_eq (by omega)
  simp only [wordsOf, ArrayOf.erase, PointerArray.erase, hsub, ArrayOf.mk.injEq, and_true]
  funext j
  rw [read32_eraseLoop, moveDown_apply _ _ Nat.one_pos]

end Words

/-- The elements before and behind the range stay, and one position is erased as `erase(p)`
does it. -/
structure ErasesRange (a : ArrayOf T) (first last : ℕ) : Prop where
  elems : (a.eraseRange first last).elems = a.elems.take first ++ a.elems.drop (last + 1)
  size : (a.eraseRange first last).size = a.size - (last - first + 1)
  single : first = last → a.eraseRange first last = a.erase first

section Range

variable {a : ArrayOf T} {first last : ℕ}

/-- The size comes out right only at one of the ends. -/
theorem eraseRange_size (hle : first ≤ last) (hlast : last < a.size) :
    (a.eraseRange first last).size = a.size - (last - first + 1) ↔
      first = 0 ∨ last + 1 = a.size := by
  simp only [ArrayOf.eraseRange]
  omega

theorem eraseRange_elems (hle : first ≤ last) (hlast : last < a.size)
    (hend : first = 0 ∨ last + 1 = a.size) :
    (a.eraseRange first last).elems = a.elems.take first ++ a.elems.drop (last + 1) := by
  have hsize := (eraseRange_size hle hlast).mpr hend
  apply List.ext_getElem
  · rw [ArrayOf.elems_length, hsize, List.length_append, List.length_take, List.length_drop,
      ArrayOf.elems_length]
    omega
  · intro j h₁ h₂
    rw [ArrayOf.elems_length, hsize] at h₁
    have htake : (a.elems.take first).length = first := by
      rw [List.length_take, ArrayOf.elems_length]
      omega
    simp only [ArrayOf.elems_getElem, List.getElem_append, htake, List.getElem_take,
      List.getElem_drop, ArrayOf.eraseRange]
    rw [moveDown_apply _ _ (Nat.succ_pos last)]
    by_cases hj : j < first
    · rw [if_neg (by omega), dif_pos hj]
    · rw [if_pos (by omega), dif_neg hj]
      congr 1
      omega

theorem eraseRange_single {p : ℕ} (hend : p = 0 ∨ p + 1 = a.size) : a.eraseRange p p = a.erase p := by
  simp only [ArrayOf.eraseRange, ArrayOf.erase, ArrayOf.mk.injEq, and_true]
  rcases hend with rfl | hend
  · exact ⟨rfl, Nat.zero_add _⟩
  · have hturns : a.size - (p + 1) - p = 0 := by omega
    have hturns' : a.size - 1 - p = 0 := by omega
    rw [hturns, hturns']
    exact ⟨rfl, by omega⟩

/-- Range erase is right for the ranges that start at zero or end with the array. The `erase` it
is compared with is that of the pointers in memory. -/
theorem erasesRange_iff (hle : first ≤ last) (hlast : last < a.size) :
    (ErasesRange a first last ↔ first = 0 ∨ last + 1 = a.size) ∧
      ∀ (b : PtrArray) (m : Mem), ∀ p < b.size,
        wordsOf (PointerArray.erase b m p).1 (PointerArray.erase b m p).2 = (wordsOf b m).erase p := by
  refine ⟨⟨fun h => (eraseRange_size hle hlast).mp h.size, ?_⟩, fun b m p hp => wordsOf_erase m hp⟩
  intro hend
  refine ⟨eraseRange_elems hle hlast hend, (eraseRange_size hle hlast).mpr hend, ?_⟩
  rintro rfl
  exact eraseRange_single hend

theorem erasesRange_iff_firstTwo : ErasesRange ⟨fun i => i + 10, 5, 8⟩ 0 1 :=
  (@erasesRange_iff _ ⟨fun i => i + 10, 5, 8⟩ 0 1 (by decide)
    (by decide)).1.mpr (.inl rfl)

/-- Of `10, 11, 12, 13, 14` the second and third are erased, and `13` with them. -/
theorem not_erasesRange :
    (ArrayOf.eraseRange ⟨fun i => i + 10, 5, 8⟩ 1 2).elems = [10, 14] ∧
    ¬ ErasesRange ⟨fun i => i + 10, 5, 8⟩ 1 2 := by
  refine ⟨by decide, fun h => ?_⟩
  exact absurd h.size (by decide)

end Range

end ExperimentalKernel.RangeErase
