import ExperimentalKernel.ByteMemory
import Mathlib.Data.List.GetD

/-!
# Strings

`strlen`, `strncmp` and `strncpy` of `common.cpp`. A pointer to characters is the
function that indexes it; characters are signed. `strncpy` works in memory, where
source and destination may overlap, and always writes a terminator.
-/

namespace ExperimentalKernel.KernelStrings
open ByteMemory

/-- The loop of `strlen` from position `len` on. -/
def strlenFrom (s : ℕ → UInt8) (len : ℕ) : ℕ → ℕ
  | 0 => len
  | k + 1 => if s len = 0 then len else strlenFrom s (len + 1) k

/-- The length is an `int`. -/
def strlen (s : ℕ → UInt8) : ℕ := strlenFrom s 0 0x7FFFFFFF

/-- Where the loop of `strncmp` stops. -/
def firstDifference (s1 s2 : ℕ → UInt8) (i : ℕ) : ℕ → ℕ
  | 0 => i
  | k + 1 => if s1 i ≠ s2 i then i else firstDifference s1 s2 (i + 1) k

def strncmp (s1 s2 : ℕ → UInt8) (num : ℕ) : ℤ :=
  let i := firstDifference s1 s2 0 num
  if (s1 i).toInt8 < (s2 i).toInt8 then -((i : ℤ) + 1)
  else if (s1 i).toInt8 > (s2 i).toInt8 then (i : ℤ) + 1
  else 0

def strncpy (m : Mem) (dest src : ℕ) : ℕ → Mem
  | 0 => write8 m dest 0
  | num + 1 =>
    if m src = 0 then write8 m dest 0
    else strncpy (write8 m dest (m src)) (dest + 1) (src + 1) num

/-- An `unsigned int` passed for the `int num`: a negative one copies nothing. -/
def toCount (size : ℕ) : ℕ := if size < 0x80000000 then size else 0

/-- The characters that `strncpy` copies before its terminator. -/
def copied (s : ℕ → UInt8) : ℕ → List UInt8
  | 0 => []
  | num + 1 => if s 0 = 0 then [] else s 0 :: copied (fun i => s (i + 1)) num

/-- A terminated string with the characters `l`. -/
def chars (l : List UInt8) : ℕ → UInt8 := fun i => l.getD i 0

/-- At `s` stands the string `l`. -/
structure HoldsString (s : ℕ → UInt8) (l : List UInt8) : Prop where
  nonzero : 0 ∉ l
  same : ∀ i ≤ l.length, s i = chars l i

theorem chars_length (l : List UInt8) : chars l l.length = 0 := List.getD_eq_default l 0 le_rfl

theorem chars_ne_zero {l : List UInt8} (h : 0 ∉ l) {i : ℕ} (hi : i < l.length) : chars l i ≠ 0 := by
  rw [chars, List.getD_eq_getElem l 0 hi]
  exact fun h0 => h (h0 ▸ List.getElem_mem hi)

theorem holdsString_chars {l : List UInt8} (h : 0 ∉ l) : HoldsString (chars l) l :=
  ⟨h, fun _ _ => rfl⟩

theorem HoldsString.congr {s s' : ℕ → UInt8} {l : List UInt8} (h : HoldsString s l)
    (he : ∀ k ≤ l.length, s' k = s k) : HoldsString s' l :=
  ⟨h.nonzero, fun k hk => (he k hk).trans (h.same k hk)⟩

theorem HoldsString.ne_zero {s : ℕ → UInt8} {l : List UInt8} (h : HoldsString s l) {i : ℕ}
    (hi : i < l.length) : s i ≠ 0 := by
  rw [h.same i hi.le]
  exact chars_ne_zero h.nonzero hi

theorem HoldsString.end_zero {s : ℕ → UInt8} {l : List UInt8} (h : HoldsString s l) :
    s l.length = 0 := by
  rw [h.same _ le_rfl, chars_length]

theorem strlenFrom_eq {s : ℕ → UInt8} {n : ℕ} (hz : s n = 0) (k len : ℕ) (hlen : len ≤ n)
    (hk : n ≤ len + k) (hne : ∀ i, len ≤ i → i < n → s i ≠ 0) : strlenFrom s len k = n := by
  induction k generalizing len with
  | zero =>
    rw [strlenFrom]
    omega
  | succ k ih =>
    rw [strlenFrom]
    by_cases h : len = n
    · rw [h, if_pos hz]
    · rw [if_neg (hne len le_rfl (by omega))]
      exact ih (len + 1) (by omega) (by omega) fun i h₁ h₂ => hne i (by omega) h₂

theorem HoldsString.strlen_eq {s : ℕ → UInt8} {l : List UInt8} (h : HoldsString s l)
    (hl : l.length < 0x80000000) : strlen s = l.length :=
  strlenFrom_eq h.end_zero _ 0 (Nat.zero_le _) (by omega) fun _ _ hi => h.ne_zero hi

theorem HoldsString.copied_eq {s : ℕ → UInt8} {l : List UInt8} (h : HoldsString s l) {num : ℕ}
    (hn : l.length ≤ num) : copied s num = l := by
  induction l generalizing s num with
  | nil =>
    have h0 : s 0 = 0 := h.end_zero
    cases num with
    | zero => rfl
    | succ num => rw [copied, if_pos h0]
  | cons c l ih =>
    cases num with
    | zero => simp at hn
    | succ num =>
      have hc : s 0 = c := h.same 0 (Nat.zero_le _)
      have h0 : s 0 ≠ 0 := h.ne_zero (by simp)
      have htail : HoldsString (fun i => s (i + 1)) l :=
        ⟨fun hm => h.nonzero (List.mem_cons_of_mem _ hm),
          fun i hi => h.same (i + 1) (by simp only [List.length_cons]; omega)⟩
      rw [copied, if_neg h0, hc, ih htail (by simpa using hn)]

theorem firstDifference_spec (s1 s2 : ℕ → UInt8) (k i : ℕ) :
    (firstDifference s1 s2 i k = i + k ∨
      s1 (firstDifference s1 s2 i k) ≠ s2 (firstDifference s1 s2 i k)) ∧
    i ≤ firstDifference s1 s2 i k ∧ firstDifference s1 s2 i k ≤ i + k ∧
    ∀ j, i ≤ j → j < firstDifference s1 s2 i k → s1 j = s2 j := by
  induction k generalizing i with
  | zero => exact ⟨.inl rfl, le_rfl, le_rfl, fun j h₁ h₂ => by simp only [firstDifference] at h₂; omega⟩
  | succ k ih =>
    rw [firstDifference]
    by_cases h : s1 i ≠ s2 i
    · rw [if_pos h]
      exact ⟨.inr h, le_rfl, by omega, fun j h₁ h₂ => by omega⟩
    · rw [if_neg h]
      obtain ⟨h₁, h₂, h₃, h₄⟩ := ih (i + 1)
      refine ⟨h₁.imp (fun he => by omega) id, by omega, by omega, fun j hj hlt => ?_⟩
      by_cases hji : j = i
      · rw [hji]
        simpa using h
      · exact h₄ j (by omega) hlt

/-- `strncmp` looks one character past its bound. -/
theorem strncmp_eq_zero_iff (s1 s2 : ℕ → UInt8) (num : ℕ) :
    strncmp s1 s2 num = 0 ↔ ∀ i ≤ num, s1 i = s2 i := by
  obtain ⟨h₁, -, h₂, h₃⟩ := firstDifference_spec s1 s2 num 0
  have hzero : strncmp s1 s2 num = 0 ↔
      s1 (firstDifference s1 s2 0 num) = s2 (firstDifference s1 s2 0 num) := by
    simp only [strncmp]
    generalize firstDifference s1 s2 0 num = i
    constructor
    · intro h
      split_ifs at h with hlt hgt
      · omega
      · omega
      · have heq := Int8.le_antisymm (Int8.not_lt.mp hgt) (Int8.not_lt.mp hlt)
        rw [← UInt8.toUInt8_toInt8 (s1 i), heq, UInt8.toUInt8_toInt8]
    · intro h
      rw [h, if_neg Int8.lt_irrefl, if_neg Int8.lt_irrefl]
  rw [hzero]
  constructor
  · intro he i hi
    by_cases hlt : i < firstDifference s1 s2 0 num
    · exact h₃ i (Nat.zero_le _) hlt
    · rcases h₁ with h₁ | h₁
      · have hieq : i = firstDifference s1 s2 0 num := by omega
        rw [hieq, he]
      · exact absurd he h₁
  · exact fun h => h _ (by omega)

/-- Bounded by the length of either, `strncmp` tests two strings for equality. -/
theorem HoldsString.strncmp_iff {s1 s2 : ℕ → UInt8} {l1 l2 : List UInt8} (h1 : HoldsString s1 l1)
    (h2 : HoldsString s2 l2) {num : ℕ} (hn : num = l1.length ∨ num = l2.length) :
    strncmp s1 s2 num = 0 ↔ l1 = l2 := by
  rw [strncmp_eq_zero_iff]
  constructor
  · intro h
    have hlen : l1.length = l2.length := by
      rcases hn with rfl | rfl
      · by_contra hne
        rcases Nat.lt_or_gt_of_ne hne with hlt | hgt
        · exact h2.ne_zero hlt (by rw [← h _ le_rfl, h1.end_zero])
        · exact h1.ne_zero hgt (by rw [h _ hgt.le, h2.end_zero])
      · by_contra hne
        rcases Nat.lt_or_gt_of_ne hne with hlt | hgt
        · exact h2.ne_zero hlt (by rw [← h _ hlt.le, h1.end_zero])
        · exact h1.ne_zero hgt (by rw [h _ le_rfl, h2.end_zero])
    have hnum : num = l1.length := by omega
    apply List.ext_getElem hlen
    intro i hi₁ hi₂
    have := h i (by omega)
    rw [h1.same i hi₁.le, h2.same i hi₂.le, chars, chars, List.getD_eq_getElem l1 0 hi₁,
      List.getD_eq_getElem l2 0 hi₂] at this
    exact this
  · rintro rfl i hi
    rw [h1.same i (by omega), h2.same i (by omega)]

section Copy

variable {m : Mem} {dest src num : ℕ}

theorem strncpy_agreeOff (num : ℕ) (m : Mem) (dest src : ℕ) :
    AgreeOff m (strncpy m dest src num) dest (dest + num + 1) := by
  induction num generalizing m dest src with
  | zero => exact agreeOff_write8 m 0 le_rfl (by omega)
  | succ num ih =>
    rw [strncpy]
    split
    · exact agreeOff_write8 m 0 le_rfl (by omega)
    · exact (agreeOff_write8 m _ le_rfl (by omega)).trans ((ih _ _ _).mono (by omega) (by omega))

/-- Characters before the first zero are copied. -/
theorem strncpy_apply (num : ℕ) (m : Mem) {dest src : ℕ}
    (hd : src + num ≤ dest ∨ dest + num + 1 ≤ src) {i : ℕ} (hi : i < num)
    (hne : ∀ j ≤ i, m (src + j) ≠ 0) : strncpy m dest src num (dest + i) = m (src + i) := by
  induction num generalizing m dest src i with
  | zero => omega
  | succ num ih =>
    have h0 : m src ≠ 0 := hne 0 (Nat.zero_le _)
    rw [strncpy, if_neg h0]
    cases i with
    | zero =>
      rw [strncpy_agreeOff num _ _ _ (dest + 0) (by omega)]
      exact write8_same m dest _
    | succ i =>
      have hshift : ∀ j, src + 1 + j = src + (j + 1) := fun j => by omega
      have hkeep : ∀ j ≤ i, write8 m dest (m src) (src + (j + 1)) = m (src + (j + 1)) :=
        fun j hj => write8_of_ne m _ (by omega)
      have htail : strncpy (write8 m dest (m src)) (dest + 1) (src + 1) num (dest + 1 + i) =
          write8 m dest (m src) (src + 1 + i) := by
        refine ih _ (by omega) (by omega) fun j hj => ?_
        rw [hshift, hkeep j hj]
        exact hne (j + 1) (by omega)
      rw [hshift, hkeep i le_rfl] at htail
      rw [← htail]
      congr 1
      omega

/-- At the first zero the copy ends; what lies behind in the buffer stays. -/
theorem strncpy_zero (num : ℕ) (m : Mem) {dest src : ℕ}
    (hd : src + num ≤ dest ∨ dest + num + 1 ≤ src) {k : ℕ} (hk : k < num)
    (hz : m (src + k) = 0) (hne : ∀ j < k, m (src + j) ≠ 0) :
    strncpy m dest src num (dest + k) = 0 ∧
      ∀ i, k < i → strncpy m dest src num (dest + i) = m (dest + i) := by
  induction num generalizing m dest src k with
  | zero => omega
  | succ num ih =>
    cases k with
    | zero =>
      have h0 : m src = 0 := hz
      rw [strncpy, if_pos h0]
      exact ⟨write8_same m dest 0, fun i hi => write8_of_ne m 0 (by omega)⟩
    | succ k =>
      have hshift : ∀ j, src + 1 + j = src + (j + 1) := fun j => by omega
      have hkeep : ∀ j ≤ k, write8 m dest (m src) (src + (j + 1)) = m (src + (j + 1)) :=
        fun j hj => write8_of_ne m _ (by omega)
      have h0 : m src ≠ 0 := hne 0 (by omega)
      rw [strncpy, if_neg h0]
      obtain ⟨h₁, h₂⟩ : strncpy (write8 m dest (m src)) (dest + 1) (src + 1) num (dest + 1 + k) = 0 ∧
          ∀ i, k < i → strncpy (write8 m dest (m src)) (dest + 1) (src + 1) num (dest + 1 + i) =
            write8 m dest (m src) (dest + 1 + i) := by
        refine ih _ (by omega) (by omega) (by rw [hshift, hkeep k le_rfl, hz]) fun j hj => ?_
        rw [hshift, hkeep j hj.le]
        exact hne (j + 1) (by omega)
      refine ⟨by rw [← h₁]; congr 1; omega, fun i hi => ?_⟩
      have h₃ := h₂ (i - 1) (by omega)
      have hdest : dest + 1 + (i - 1) = dest + i := by omega
      rw [hdest, write8_of_ne m _ (by omega)] at h₃
      exact h₃

end Copy

end ExperimentalKernel.KernelStrings
