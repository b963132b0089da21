import ExperimentalKernel.KernelStrings

/-!
# `strncmp` against the C definition

The loop of `strncmp` stops at the first difference or at the bound, and never at a
terminator; the comparison after it looks at the position where it stopped, also when
that is the bound.
-/

namespace ExperimentalKernel.KernelStrings
open ByteMemory

/-- The result that C asks for: behind the end of a string stands its terminator. -/
structure SignOfFirstDifference (l1 l2 : List UInt8) (num : ℕ) (r : ℤ) : Prop where
  zero : r = 0 ↔ ∀ i < num, chars l1 i = chars l2 i
  sign : ∀ i < num, chars l1 i ≠ chars l2 i → (∀ j < i, chars l1 j = chars l2 j) →
    (r < 0 ↔ chars l1 i < chars l2 i) ∧ (0 < r ↔ chars l2 i < chars l1 i)

/-- No character at the bound or behind it, or behind a terminator, influences the result. -/
def LooksNoFurther (s1 s2 : ℕ → UInt8) (l1 l2 : List UInt8) (num : ℕ) : Prop :=
  ∀ s1' s2' : ℕ → UInt8, (∀ i < num, i ≤ l1.length → s1' i = s1 i) →
    (∀ i < num, i ≤ l2.length → s2' i = s2 i) → strncmp s1' s2' num = strncmp s1 s2 num

structure ComparesAsC (s1 s2 : ℕ → UInt8) (l1 l2 : List UInt8) (num : ℕ) : Prop where
  result : SignOfFirstDifference l1 l2 num (strncmp s1 s2 num)
  bounded : LooksNoFurther s1 s2 l1 l2 num

theorem chars_past (l : List UInt8) {i : ℕ} (hi : l.length ≤ i) : chars l i = 0 :=
  List.getD_eq_default l 0 hi

theorem toInt8_lt_iff {b c : UInt8} (hb : b < 128) (hc : c < 128) : b.toInt8 < c.toInt8 ↔ b < c := by
  have hsmall : ∀ x : UInt8, x < 128 → x.toInt8.toInt = x.toNat := fun x hx => by
    have hlt : x.toNat < 128 := UInt8.lt_iff_toNat_lt.mp hx
    exact BitVec.toInt_eq_toNat_of_lt (by simpa using (by omega : 2 * x.toNat < 256))
  rw [Int8.lt_iff_toInt_lt, hsmall b hb, hsmall c hc, UInt8.lt_iff_toNat_lt]
  exact Int.ofNat_lt

theorem chars_small {l : List UInt8} (h : ∀ c ∈ l, c < 128) (i : ℕ) : chars l i < 128 := by
  rcases Nat.lt_or_ge i l.length with hi | hi
  · rw [chars, List.getD_eq_getElem l 0 hi]
    exact h _ (List.getElem_mem hi)
  · rw [chars_past l hi]
    decide

/-- A difference inside the bound is where the loop stops. -/
theorem firstDifference_eq {s1 s2 : ℕ → UInt8} {num i : ℕ} (hi : i < num) (hne : s1 i ≠ s2 i)
    (heq : ∀ j < i, s1 j = s2 j) : firstDifference s1 s2 0 num = i := by
  obtain ⟨hstop, -, hle, hbefore⟩ := firstDifference_spec s1 s2 num 0
  have hnot : ¬ i < firstDifference s1 s2 0 num := fun hlt => hne (hbefore i (Nat.zero_le _) hlt)
  rcases hstop with hstop | hstop
  · omega
  · by_contra hother
    exact hstop (heq _ (by omega))

/-- The first difference of two terminated strings is at a terminator at the latest. -/
theorem first_within {l1 l2 : List UInt8} (h2 : 0 ∉ l2) {i : ℕ} (hne : chars l1 i ≠ chars l2 i)
    (heq : ∀ j < i, chars l1 j = chars l2 j) : i ≤ l1.length := by
  by_contra hlt
  have hend : chars l2 l1.length = 0 := by
    rw [← heq _ (not_le.mp hlt), chars_length]
  have hlen : l2.length ≤ l1.length := by
    by_contra hlong
    exact chars_ne_zero h2 (not_le.mp hlong) hend
  exact hne (by rw [chars_past l1 (by omega), chars_past l2 (by omega)])

section Strings

variable {s1 s2 : ℕ → UInt8} {l1 l2 : List UInt8} {num i : ℕ}

/-- With a first difference at `i`, only the characters up to there count. -/
theorem strncmp_of_first (h1 : HoldsString s1 l1) (h2 : HoldsString s2 l2) (hi : i < num)
    (hne : chars l1 i ≠ chars l2 i) (heq : ∀ j < i, chars l1 j = chars l2 j) {s1' s2' : ℕ → UInt8}
    (ha1 : ∀ j < num, j ≤ l1.length → s1' j = s1 j) (ha2 : ∀ j < num, j ≤ l2.length → s2' j = s2 j) :
    strncmp s1' s2' num =
      if (chars l1 i).toInt8 < (chars l2 i).toInt8 then -((i : ℤ) + 1) else (i : ℤ) + 1 := by
  have hl1 := first_within h2.nonzero hne heq
  have hl2 := first_within h1.nonzero hne.symm fun j hj => (heq j hj).symm
  have hc1 : ∀ j ≤ i, s1' j = chars l1 j := fun j hj => by
    rw [ha1 j (by omega) (by omega), h1.same j (by omega)]
  have hc2 : ∀ j ≤ i, s2' j = chars l2 j := fun j hj => by
    rw [ha2 j (by omega) (by omega), h2.same j (by omega)]
  have hstop : firstDifference s1' s2' 0 num = i := by
    refine firstDifference_eq hi ?_ fun j hj => ?_
    · rwa [hc1 i le_rfl, hc2 i le_rfl]
    · rw [hc1 j hj.le, hc2 j hj.le, heq j hj]
  simp only [strncmp, hstop, hc1 i le_rfl, hc2 i le_rfl]
  split
  · rfl
  · next hlt =>
    rw [if_pos]
    refine Int8.lt_of_le_of_ne (Int8.not_lt.mp hlt) fun he => hne ?_
    rw [← UInt8.toUInt8_toInt8 (chars l1 i), ← he, UInt8.toUInt8_toInt8]

theorem comparesAsC_of_difference (h1 : HoldsString s1 l1) (h2 : HoldsString s2 l2)
    (hb1 : ∀ c ∈ l1, c < 128) (hb2 : ∀ c ∈ l2, c < 128) (hd : ∃ i < num, chars l1 i ≠ chars l2 i) :
    ComparesAsC s1 s2 l1 l2 num := by
  obtain ⟨i, ⟨hi, hne⟩, hfirst⟩ : ∃ i, (i < num ∧ chars l1 i ≠ chars l2 i) ∧
      ∀ j < i, ¬ (j < num ∧ chars l1 j ≠ chars l2 j) :=
    ⟨Nat.find hd, Nat.find_spec hd, fun j hj => Nat.find_min hd hj⟩
  have heq : ∀ j < i, chars l1 j = chars l2 j := fun j hj => by
    by_contra hj'
    exact hfirst j hj ⟨by omega, hj'⟩
  have hvalue : strncmp s1 s2 num = if chars l1 i < chars l2 i then -((i : ℤ) + 1) else (i : ℤ) + 1 := by
    rw [strncmp_of_first h1 h2 hi hne heq (fun _ _ _ => rfl) fun _ _ _ => rfl]
    simp only [toInt8_lt_iff (chars_small hb1 i) (chars_small hb2 i)]
  refine ⟨⟨?_, fun j hj hnej heqj => ?_⟩, fun s1' s2' ha1 ha2 => ?_⟩
  · rw [hvalue]
    refine iff_of_false ?_ fun h => hne (h i hi)
    split <;> omega
  · obtain rfl : j = i := by
      rcases Nat.lt_trichotomy j i with hlt | rfl | hgt
      · exact absurd (heq j hlt) hnej
      · rfl
      · exact absurd (heqj i hgt) hne
    rw [hvalue]
    rcases UInt8.lt_or_lt_of_ne hne with hlt | hgt
    · rw [if_pos hlt]
      exact ⟨iff_of_true (by omega) hlt, iff_of_false (by omega) (UInt8.lt_asymm hlt)⟩
    · rw [if_neg (UInt8.lt_asymm hgt)]
      exact ⟨iff_of_false (by omega) (UInt8.lt_asymm hgt), iff_of_true (by omega) hgt⟩
  · rw [strncmp_of_first h1 h2 hi hne heq ha1 ha2,
      strncmp_of_first h1 h2 hi hne heq (fun _ _ _ => rfl) fun _ _ _ => rfl]

/-- Without a difference inside the bound the character at the bound decides. -/
theorem not_looksNoFurther (h1 : HoldsString s1 l1) (h2 : HoldsString s2 l2)
    (heq : ∀ i < num, chars l1 i = chars l2 i) : ¬ LooksNoFurther s1 s2 l1 l2 num := by
  intro h
  have hagree : ∀ (s : ℕ → UInt8) (l : List UInt8) (b : UInt8), HoldsString s l →
      ∀ i < num, i ≤ l.length → (if i < num then chars l i else b) = s i := fun s l b hs i hi hl => by
    rw [if_pos hi, hs.same i hl]
  have hsame := h _ _ (hagree s1 l1 0 h1) (hagree s2 l2 0 h2)
  have hother := h _ _ (hagree s1 l1 1 h1) (hagree s2 l2 0 h2)
  have hzero := (strncmp_eq_zero_iff (fun i => if i < num then chars l1 i else 0)
    (fun i => if i < num then chars l2 i else 0) num).mpr fun i _ => by
      split
      · next hi => exact heq i hi
      · rfl
  rw [hsame, ← hother, strncmp_eq_zero_iff] at hzero
  have hbound := hzero num le_rfl
  rw [if_neg (lt_irrefl num), if_neg (lt_irrefl num)] at hbound
  exact absurd hbound (by decide)

/-- `strncmp` does what C asks for just when the strings differ inside the bound. -/
theorem strncmp_asC_iff (h1 : HoldsString s1 l1) (h2 : HoldsString s2 l2)
    (hb1 : ∀ c ∈ l1, c < 128) (hb2 : ∀ c ∈ l2, c < 128) (num : ℕ) :
    ComparesAsC s1 s2 l1 l2 num ↔ ∃ i < num, chars l1 i ≠ chars l2 i := by
  refine ⟨fun h => ?_, comparesAsC_of_difference h1 h2 hb1 hb2⟩
  by_contra hd
  refine not_looksNoFurther h1 h2 (fun i hi => ?_) h.bounded
  by_contra hne
  exact hd ⟨i, hi, hne⟩

theorem strncmp_asC_iff_ab :
    ComparesAsC (chars [97, 98]) (chars [97, 99]) [97, 98] [97, 99] 2 :=
  (strncmp_asC_iff (holdsString_chars (by decide)) (holdsString_chars (by decide)) (by simp)
    (by simp) 2).mpr ⟨1, by decide, by decide⟩

/-- Bounded by one, `ab` and `ac` are found different. -/
theorem strncmp_not_asC :
    strncmp (chars [97, 98]) (chars [97, 99]) 1 = -2 ∧
    ¬ ComparesAsC (chars [97, 98]) (chars [97, 99]) [97, 98] [97, 99] 1 := by
  have hvalue : strncmp (chars [97, 98]) (chars [97, 99]) 1 = -2 := by decide
  refine ⟨hvalue, fun h => ?_⟩
  have hzero := h.result.zero.mpr (by decide)
  rw [hvalue] at hzero
  exact absurd hzero (by decide)

end Strings

end ExperimentalKernel.KernelStrings
