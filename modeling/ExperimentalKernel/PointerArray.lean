import ExperimentalKernel.ByteMemory
import Mathlib.Data.List.Sort

/-!
# Arrays of pointers and the ordered array

`Array<void*>` and `OrderedArray<void*>` of `utils/array.cpp`. The object holds
an address, a size and a capacity; the elements are words of memory. Each member
function is followed by the list of elements it leaves behind and by the bytes
it may change.
-/

namespace ExperimentalKernel.PointerArray
open ByteMemory

structure PtrArray where
  array : ℕ
  size : ℕ
  maxSize : ℕ
  deriving DecidableEq, Repr

/-- The `n` words from `base` on. -/
def words (m : Mem) (base n : ℕ) : List ℕ := (List.range n).map (fun i => read32 m (base + 4 * i))

@[simp] theorem words_length (m : Mem) (base n : ℕ) : (words m base n).length = n := by simp [words]

@[simp] theorem words_getElem (m : Mem) (base n i : ℕ) (h : i < (words m base n).length) :
    (words m base n)[i] = read32 m (base + 4 * i) := by simp [words]

theorem words_congr {m m' : Mem} {base n : ℕ} (h : AgreeOn m m' base (base + 4 * n)) :
    words m' base n = words m base n := by
  refine List.map_congr_left (fun i hi => read32_congr (h.mono (by omega) ?_))
  have := List.mem_range.mp hi
  omega

def PtrArray.elems (a : PtrArray) (m : Mem) : List ℕ := words m a.array a.size

@[simp] theorem PtrArray.elems_length (a : PtrArray) (m : Mem) : (a.elems m).length = a.size := by
  simp [PtrArray.elems]

theorem PtrArray.elems_congr (a : PtrArray) {m m' : Mem}
    (h : AgreeOn m m' a.array (a.array + 4 * a.size)) : a.elems m' = a.elems m :=
  words_congr h

/-- `Array(placeAddress, maxSize)`: the whole capacity is zeroed. -/
def construct (m : Mem) (placeAddress maxSize : ℕ) : PtrArray × Mem :=
  (⟨placeAddress, 0, maxSize⟩, fill m placeAddress 0 (u32 (4 * maxSize)))

/-- `OrderedArray::operator[]`: out of range it answers null. -/
def subscript (a : PtrArray) (m : Mem) (i : ℕ) : ℕ :=
  if i < a.size then read32 m (a.array + 4 * i) else 0

/-- `Array::add` refuses to grow past the capacity. -/
def arrayAdd (a : PtrArray) (m : Mem) (item : ℕ) : PtrArray × Mem :=
  if a.size ≠ a.maxSize then
    ({ a with size := add32 a.size 1 }, write32 m (a.array + 4 * a.size) item)
  else (a, m)

/-- The loop of `Array::erase`, `k` steps from position `i` on. -/
def eraseLoop (m : Mem) (base i : ℕ) : ℕ → Mem
  | 0 => m
  | k + 1 => eraseLoop (write32 m (base + 4 * i) (read32 m (base + 4 * (i + 1)))) base (i + 1) k

def erase (a : PtrArray) (m : Mem) (position : ℕ) : PtrArray × Mem :=
  ({ a with size := sub32 a.size 1 },
    eraseLoop m a.array position (sub32 a.size 1 - position))

/-- The search loop of `OrderedArray::add`: the first of the `k` positions from
`i` on that does not hold a smaller element. -/
def findSlot (m : Mem) (base item i : ℕ) : ℕ → ℕ
  | 0 => i
  | k + 1 => if read32 m (base + 4 * i) < item then findSlot m base item (i + 1) k else i

/-- The shifting loop of `OrderedArray::add`; `tmp` is the element displaced last. -/
def shiftLoop (m : Mem) (base tmp i : ℕ) : ℕ → Mem
  | 0 => m
  | k + 1 => shiftLoop (write32 m (base + 4 * (i + 1)) tmp) base
      (read32 m (base + 4 * (i + 1))) (i + 1) k

/-- `OrderedArray::add` looks neither at the capacity nor returns a value. -/
def orderedAdd (a : PtrArray) (m : Mem) (item : ℕ) : PtrArray × Mem :=
  let i := findSlot m a.array item 0 a.size
  if i = a.size then
    ({ a with size := add32 a.size 1 }, write32 m (a.array + 4 * i) item)
  else
    ({ a with size := add32 a.size 1 },
      shiftLoop (write32 m (a.array + 4 * i) item) a.array (read32 m (a.array + 4 * i)) i
        (a.size - i))

theorem eraseLoop_agreeOff (k : ℕ) (m : Mem) (base i : ℕ) :
    AgreeOff m (eraseLoop m base i k) (base + 4 * i) (base + 4 * (i + k)) := by
  induction k generalizing m i with
  | zero => exact AgreeOff.refl m _ _
  | succ k ih =>
    refine AgreeOff.trans (agreeOff_write32 m _ ?_ ?_) ((ih _ (i + 1)).mono ?_ ?_)
    all_goals omega

theorem read32_eraseLoop (k : ℕ) (m : Mem) (base i j : ℕ) :
    read32 (eraseLoop m base i k) (base + 4 * j) =
      if i ≤ j ∧ j < i + k then read32 m (base + 4 * (j + 1)) else read32 m (base + 4 * j) := by
  induction k generalizing m i with
  | zero =>
    rw [if_neg (by omega)]
    rfl
  | succ k ih =>
    rw [eraseLoop, ih]
    by_cases hij : i = j
    · subst hij
      rw [if_neg (by omega), if_pos (by omega)]
      exact read32_write32 m _ (read32_lt m _)
    · by_cases hr : i + 1 ≤ j ∧ j < i + 1 + k
      · rw [if_pos hr, if_pos (by omega), read32_write32_of_disjoint m _ (by omega)]
      · rw [if_neg hr, if_neg (by omega), read32_write32_of_disjoint m _ (by omega)]

theorem shiftLoop_agreeOff (k : ℕ) (m : Mem) (base tmp i : ℕ) :
    AgreeOff m (shiftLoop m base tmp i k) (base + 4 * (i + 1)) (base + 4 * (i + k + 1)) := by
  induction k generalizing m tmp i with
  | zero => exact AgreeOff.refl m _ _
  | succ k ih =>
    refine AgreeOff.trans (agreeOff_write32 m tmp ?_ ?_) ((ih _ _ (i + 1)).mono ?_ ?_)
    all_goals omega

theorem read32_shiftLoop (k : ℕ) (m : Mem) (base tmp i j : ℕ) (ht : tmp < wordSize) :
    read32 (shiftLoop m base tmp i k) (base + 4 * j) =
      if j = i + 1 ∧ 0 < k then tmp
      else if i + 1 < j ∧ j ≤ i + k then read32 m (base + 4 * (j - 1))
      else read32 m (base + 4 * j) := by
  induction k generalizing m tmp i with
  | zero =>
    rw [if_neg (by omega), if_neg (by omega)]
    rfl
  | succ k ih =>
    rw [shiftLoop, ih _ _ _ (read32_lt m _)]
    by_cases h₁ : j = i + 1
    · subst h₁
      rw [if_neg (by omega), if_neg (by omega), if_pos (by omega)]
      exact read32_write32 m _ ht
    · by_cases h₂ : j = i + 2
      · subst h₂
        rw [if_neg (by omega : ¬ (i + 2 = i + 1 ∧ 0 < k + 1))]
        by_cases hk : 0 < k
        · rw [if_pos (by omega), if_pos (by omega)]
          rfl
        · rw [if_neg (by omega), if_neg (by omega), if_neg (by omega),
            read32_write32_of_disjoint m _ (by omega)]
      · rw [if_neg (by omega), if_neg (by omega : ¬ (j = i + 1 ∧ 0 < k + 1))]
        by_cases hr : i + 1 < j ∧ j ≤ i + (k + 1)
        · rw [if_pos (by omega), if_pos hr, read32_write32_of_disjoint m _ (by omega)]
        · rw [if_neg (by omega), if_neg hr, read32_write32_of_disjoint m _ (by omega)]

/-- The search stops after the leading elements that are smaller. -/
theorem findSlot_eq (k : ℕ) (m : Mem) (base item i : ℕ) :
    findSlot m base item i k =
      i + ((words m (base + 4 * i) k).takeWhile (fun w => decide (w < item))).length := by
  induction k generalizing i with
  | zero => simp [findSlot, words]
  | succ k ih =>
    have hw : words m (base + 4 * i) (k + 1) =
        read32 m (base + 4 * i) :: words m (base + 4 * (i + 1)) k := by
      unfold words
      rw [List.range_succ_eq_map, List.map_cons, List.map_map]
      congr 1
      refine List.map_congr_left (fun j _ => ?_)
      simp only [Function.comp_apply]
      congr 1
      omega
    rw [findSlot, hw, ih]
    by_cases h : read32 m (base + 4 * i) < item
    · simp [h]
      omega
    · simp [h]

theorem erase_size {a : PtrArray} (m : Mem) {p : ℕ} (hp : p < a.size) :
    (erase a m p).1.size = a.size - 1 := sub32_eq (by omega)

/-- Erasing an element in range removes exactly that element from the list. -/
theorem erase_elems {a : PtrArray} (m : Mem) {p : ℕ} (hp : p < a.size) :
    (erase a m p).1.elems (erase a m p).2 = (a.elems m).eraseIdx p := by
  have hsub : sub32 a.size 1 = a.size - 1 := sub32_eq (by omega)
  apply List.ext_getElem
  · simp [PtrArray.elems, erase, hsub, List.length_eraseIdx, hp]
  · intro j h₁ h₂
    simp only [PtrArray.elems, erase, hsub, words_length] at h₁
    simp only [PtrArray.elems, erase, words_getElem, List.getElem_eraseIdx, hsub]
    rw [read32_eraseLoop]
    by_cases hj : j < p
    · rw [if_neg (by omega), dif_pos hj]
    · rw [if_pos (by omega), dif_neg hj]

theorem erase_agreeOff {a : PtrArray} (m : Mem) {p : ℕ} (hp : p < a.size) :
    AgreeOff m (erase a m p).2 a.array (a.array + 4 * a.size) := by
  have hsub : sub32 a.size 1 = a.size - 1 := sub32_eq (by omega)
  exact (eraseLoop_agreeOff _ m a.array p).mono (by omega) (by omega)

@[simp] theorem orderedAdd_array (a : PtrArray) (m : Mem) (item : ℕ) :
    (orderedAdd a m item).1.array = a.array := by
  simp only [orderedAdd]
  split <;> rfl

@[simp] theorem orderedAdd_maxSize (a : PtrArray) (m : Mem) (item : ℕ) :
    (orderedAdd a m item).1.maxSize = a.maxSize := by
  simp only [orderedAdd]
  split <;> rfl

theorem orderedAdd_size {a : PtrArray} (m : Mem) (item : ℕ) (hs : a.size + 1 < wordSize) :
    (orderedAdd a m item).1.size = a.size + 1 := by
  simp only [orderedAdd]
  split <;> exact add32_eq hs

private theorem findSlot_le (a : PtrArray) (m : Mem) (item : ℕ) :
    findSlot m a.array item 0 a.size ≤ a.size := by
  have h := findSlot_eq a.size m a.array item 0
  have hl := (List.takeWhile_sublist (l := words m (a.array + 4 * 0) a.size)
    (p := fun w => decide (w < item))).length_le
  rw [words_length] at hl
  omega

theorem orderedAdd_agreeOff (a : PtrArray) (m : Mem) (item : ℕ) :
    AgreeOff m (orderedAdd a m item).2 a.array (a.array + 4 * (a.size + 1)) := by
  have hle := findSlot_le a m item
  simp only [orderedAdd]
  split
  · exact agreeOff_write32 m item (by omega) (by omega)
  · exact (agreeOff_write32 m item (by omega) (by omega)).trans
      ((shiftLoop_agreeOff _ _ _ _ _).mono (by omega) (by omega))

/-- Word by word: the elements before the slot stay, the item takes the slot and
the later elements move up by one. -/
theorem read32_orderedAdd (a : PtrArray) (m : Mem) {item : ℕ} (hi : item < wordSize) (j : ℕ) :
    read32 (orderedAdd a m item).2 (a.array + 4 * j) =
      if j = findSlot m a.array item 0 a.size then item
      else if findSlot m a.array item 0 a.size < j ∧ j ≤ a.size then read32 m (a.array + 4 * (j - 1))
      else read32 m (a.array + 4 * j) := by
  have hle := findSlot_le a m item
  simp only [orderedAdd]
  generalize findSlot m a.array item 0 a.size = i at hle ⊢
  split
  · next he =>
    subst he
    by_cases hj : j = a.size
    · subst hj
      rw [if_pos rfl, read32_write32 m _ hi]
    · rw [if_neg hj, if_neg (by omega), read32_write32_of_disjoint m _ (by omega)]
  · next he =>
    rw [read32_shiftLoop _ _ _ _ _ _ (read32_lt m _)]
    by_cases hj : j = i
    · subst hj
      rw [if_neg (by omega), if_neg (by omega), if_pos rfl, read32_write32 m _ hi]
    · by_cases h₁ : j = i + 1
      · subst h₁
        rw [if_pos (by omega), if_neg hj, if_pos (by omega)]
        rfl
      · rw [if_neg (by omega), if_neg hj]
        by_cases hr : i + 1 < j ∧ j ≤ i + (a.size - i)
        · rw [if_pos hr, if_pos (by omega), read32_write32_of_disjoint m _ (by omega)]
        · rw [if_neg hr, if_neg (by omega), read32_write32_of_disjoint m _ (by omega)]

private theorem insertIdx_takeWhile (p : ℕ → Bool) (x : ℕ) (l : List ℕ) :
    l.insertIdx (l.takeWhile p).length x = l.takeWhile p ++ x :: l.dropWhile p := by
  induction l with
  | nil => rfl
  | cons b l ih =>
    cases hb : p b <;> simp [hb, ih]

/-- `OrderedArray::add` is insertion into the list of elements. -/
theorem orderedAdd_elems {a : PtrArray} (m : Mem) {item : ℕ} (hi : item < wordSize)
    (hs : a.size + 1 < wordSize) :
    (orderedAdd a m item).1.elems (orderedAdd a m item).2 =
      (a.elems m).orderedInsert (· ≤ ·) item := by
  have hslot : findSlot m a.array item 0 a.size =
      ((a.elems m).takeWhile (fun w => decide (w < item))).length := by
    simpa [PtrArray.elems] using findSlot_eq a.size m a.array item 0
  have hsplit : (a.elems m).orderedInsert (· ≤ ·) item =
      (a.elems m).insertIdx (findSlot m a.array item 0 a.size) item := by
    rw [List.orderedInsert_eq_take_drop, hslot]
    have hp : (fun b : ℕ => decide ¬ item ≤ b) = fun w => decide (w < item) := by
      funext w
      simp
    rw [hp]
    exact (insertIdx_takeWhile (fun w => decide (w < item)) item (a.elems m)).symm
  rw [hsplit]
  have hle := findSlot_le a m item
  apply List.ext_getElem
  · rw [PtrArray.elems_length, orderedAdd_size m item hs, List.length_insertIdx]
    simp [hle]
  · intro j h₁ h₂
    rw [PtrArray.elems_length, orderedAdd_size m item hs] at h₁
    simp only [PtrArray.elems, words_getElem, List.getElem_insertIdx, orderedAdd_array]
    rw [read32_orderedAdd a m hi j]
    by_cases hj : j < findSlot m a.array item 0 a.size
    · rw [if_neg (by omega), if_neg (by omega), dif_pos hj]
    · rw [dif_neg hj]
      by_cases he : j = findSlot m a.array item 0 a.size
      · rw [if_pos he, dif_pos he]
      · rw [if_neg he, if_pos (by omega), dif_neg he]

/-- Each of the `n` words from `base` on is one of these words before, or at least `lo`. -/
def WordsFrom (base n lo : ℕ) (m m' : Mem) : Prop :=
  ∀ i < n, (∃ j < n, read32 m' (base + 4 * i) = read32 m (base + 4 * j)) ∨
    lo ≤ read32 m' (base + 4 * i)

theorem wordsFrom_of_agreeOn {base n lo : ℕ} {m m' : Mem} (h : AgreeOn m m' base (base + 4 * n)) :
    WordsFrom base n lo m m' :=
  fun i hi => Or.inl ⟨i, hi, read32_congr (h.mono (by omega) (by omega))⟩

theorem WordsFrom.trans {base n lo : ℕ} {m m' m'' : Mem} (h : WordsFrom base n lo m m')
    (h' : WordsFrom base n lo m' m'') : WordsFrom base n lo m m'' := by
  intro i hi
  rcases h' i hi with ⟨j, hj, he⟩ | hlo
  · rw [he]
    exact h j hj
  · exact Or.inr hlo

theorem erase_wordsFrom {a : PtrArray} (m : Mem) {p n lo : ℕ} (hp : p < a.size) (hn : a.size ≤ n) :
    WordsFrom a.array n lo m (erase a m p).2 := by
  have hsub : sub32 a.size 1 = a.size - 1 := sub32_eq (by omega)
  intro i hi
  left
  simp only [erase, hsub]
  rw [read32_eraseLoop]
  split
  · exact ⟨i + 1, by omega, rfl⟩
  · exact ⟨i, hi, rfl⟩

theorem orderedAdd_wordsFrom (a : PtrArray) (m : Mem) {item n lo : ℕ} (hi : item < wordSize)
    (hlo : lo ≤ item) : WordsFrom a.array n lo m (orderedAdd a m item).2 := by
  intro i hin
  rw [read32_orderedAdd a m hi]
  split
  · exact Or.inr hlo
  · split
    · exact Or.inl ⟨i - 1, by omega, rfl⟩
    · exact Or.inl ⟨i, hin, rfl⟩

end ExperimentalKernel.PointerArray
