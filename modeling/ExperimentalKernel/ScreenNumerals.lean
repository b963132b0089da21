import ExperimentalKernel.ScreenProgram
import Mathlib.Tactic.IntervalCases

/-!
# What `printInt` prints

The first loop counts the decimal digits of the number, the second prints them, the
highest first. Division and remainder truncate towards zero, so a negative number
gives no sign and characters below `0`.
-/

namespace ExperimentalKernel.TextScreen
open ByteMemory

/-- The characters `l` stand in the cells from the cursor on, in the text colour, the cursor
is behind them, and nothing else changed. -/
structure Emits (s s' : State) (l : List UInt8) : Prop where
  column : s'.screen.x = s.screen.x + l.length
  line : s'.screen.y = s.screen.y
  cells : ∀ i (h : i < l.length), s'.mem (s.cell + 2 * i) = l[i] ∧
    s'.mem (s.cell + 2 * i + 1) = s.screen.attribute_
  rest : AgreeOff s.mem s'.mem s.cell (s.cell + 2 * l.length)

def charByte (c : Char) : UInt8 := UInt8.ofNat c.toNat

/-- The decimal representation. -/
def numeral (k : ℤ) : List UInt8 :=
  ((if k < 0 then ['-'] else []) ++ Nat.toDigits 10 k.natAbs).map charByte

/-- `printInt` prints the numeral of `k`, and no other number is printed in the same way. -/
def PrintsNumeral (s : State) (k : ℤ) : Prop :=
  Emits s (printInt s k) (numeral k) ∧
  ∀ k' l, Emits s (printInt s k) l → Emits s (printInt s k') l → k' = k

/-- The characters that the second loop puts on the screen. -/
def digitChars (k : ℤ) : ℕ → List UInt8
  | 0 => []
  | num + 1 => digitChar k num :: digitChars k num

@[simp] theorem digitChars_length (k : ℤ) (num : ℕ) : (digitChars k num).length = num := by
  induction num with
  | zero => rfl
  | succ num ih => rw [digitChars, List.length_cons, ih]

theorem printDigits_eq (s : State) (k : ℤ) (num : ℕ) :
    printDigits s k num = (digitChars k num).foldl put s := by
  induction num generalizing s with
  | zero => rfl
  | succ num ih => rw [printDigits, ih, digitChars, List.foldl_cons]

theorem cell_put (s : State) (c : UInt8) : (put s c).cell = s.cell + 2 := by
  simp only [State.cell, put, store]
  omega

theorem emits_put (s : State) (c : UInt8) : Emits s (put s c) [c] := by
  refine ⟨rfl, rfl, fun i h => ?_, ?_⟩
  · obtain rfl : i = 0 := by simpa using h
    refine ⟨?_, write8_same _ _ _⟩
    exact (write8_of_ne _ _ (Nat.ne_of_lt (Nat.lt_succ_self _))).trans (write8_same _ _ _)
  · exact (agreeOff_write8 s.mem c le_rfl (by simp)).trans (agreeOff_write8 _ _ (by omega) (by simp))

theorem Emits.nil (s : State) : Emits s s [] :=
  ⟨rfl, rfl, fun i h => absurd h (Nat.not_lt_zero i), AgreeOff.refl _ _ _⟩

/-- One character more in front. -/
theorem Emits.cons {s s' : State} {c : UInt8} {l : List UInt8} (h : Emits (put s c) s' l) :
    Emits s s' (c :: l) := by
  have hput := emits_put s c
  have hcell := cell_put s c
  have hkeep : ∀ x, x < s.cell + 2 → s'.mem x = (put s c).mem x :=
    fun x hx => h.rest x (.inl (hcell ▸ hx))
  refine ⟨?_, h.line, fun i hi => ?_, ?_⟩
  · rw [h.column, List.length_cons, hput.column]
    exact Nat.add_right_comm _ _ _
  · cases i with
    | zero =>
      obtain ⟨h₁, h₂⟩ := hput.cells 0 Nat.one_pos
      exact ⟨(hkeep _ (by omega)).trans h₁, (hkeep _ (by omega)).trans h₂⟩
    | succ i =>
      have hi' : i < l.length := Nat.lt_of_succ_lt_succ hi
      have hshift : s.cell + 2 * (i + 1) = (put s c).cell + 2 * i := by omega
      rw [hshift]
      exact h.cells i hi'
  · refine AgreeOff.trans (hput.rest.mono le_rfl ?_) (h.rest.mono (by omega) ?_)
    all_goals simp only [List.length_cons, List.length_nil]; omega

theorem emits_foldl_put (s : State) (l : List UInt8) : Emits s (l.foldl put s) l := by
  induction l generalizing s with
  | nil => exact Emits.nil s
  | cons c l ih => exact (ih (put s c)).cons

/-- What was printed can be read off the screen. -/
theorem Emits.unique {s s' : State} {l l' : List UInt8} (h : Emits s s' l) (h' : Emits s s' l') :
    l = l' := by
  have hlen : l.length = l'.length := Nat.add_left_cancel (h.column.symm.trans h'.column)
  apply List.ext_getElem hlen
  intro i hi hi'
  exact (h.cells i hi).1.symm.trans (h'.cells i hi').1

theorem printInt_emits (s : State) (k : ℤ) :
    Emits s (printInt s k) (digitChars k (countDigits k 0)) := by
  rw [printInt, printDigits_eq]
  exact emits_foldl_put s _

theorem natAbs_tdiv_ten (k : ℤ) : (k.tdiv 10).natAbs = k.natAbs / 10 := Int.natAbs_tdiv k 10

/-- The first loop counts the decimal digits. -/
theorem countDigits_eq (k : ℤ) (num : ℕ) :
    countDigits k num = num + (Nat.toDigits 10 k.natAbs).length := by
  induction k, num using countDigits.induct with
  | case1 k num h ih =>
    have hbase : 10 ≤ k.natAbs := by
      by_contra hlt
      refine h (Int.natAbs_eq_zero.mp ?_)
      rw [natAbs_tdiv_ten]
      exact Nat.div_eq_of_lt (not_le.mp hlt)
    rw [countDigits, if_pos h, ih, natAbs_tdiv_ten, Nat.toDigits_of_base_le (by decide) hbase,
      List.length_append, List.length_singleton]
    omega
  | case2 k num h =>
    have hlt : k.natAbs < 10 := by
      have hzero : (k.tdiv 10).natAbs = 0 := Int.natAbs_eq_zero.mpr (not_not.mp h)
      rw [natAbs_tdiv_ten] at hzero
      omega
    rw [countDigits, if_neg h, Nat.toDigits_of_lt_base hlt, List.length_singleton]

/-- The number of digits of a number that has more than one. -/
theorem countDigits_step {k : ℤ} (h : 10 ≤ k.natAbs) :
    countDigits k 0 = countDigits (k.tdiv 10) 0 + 1 := by
  rw [countDigits_eq, countDigits_eq, natAbs_tdiv_ten, Nat.toDigits_of_base_le (by decide) h,
    List.length_append, List.length_singleton]
  omega

theorem countDigits_one {k : ℤ} (h : k.natAbs < 10) : countDigits k 0 = 1 := by
  rw [countDigits_eq, Nat.toDigits_of_lt_base h, List.length_singleton]

/-- The last character comes from the last digit, those before from the rest. -/
theorem digitChars_succ (k : ℤ) (num : ℕ) :
    digitChars k (num + 1) = digitChars (k.tdiv 10) num ++ [digitChar k 0] := by
  induction num with
  | zero => rfl
  | succ num ih =>
    have hfirst : digitChar k (num + 1) = digitChar (k.tdiv 10) num := rfl
    rw [digitChars, ih, digitChars, List.cons_append, hfirst]

/-- The characters of a natural number are those of its decimal representation. -/
theorem digitChars_natural (n : ℕ) :
    digitChars n (countDigits n 0) = (Nat.toDigits 10 n).map charByte := by
  have hdigit : ∀ d : ℕ, d < 10 → UInt8.ofInt ((d : ℤ) + 48) = charByte (Nat.digitChar d) := by
    intro d hd
    interval_cases d <;> rfl
  induction n using Nat.strong_induction_on with
  | _ n ih =>
    rcases Nat.lt_or_ge n 10 with hlt | hge
    · rw [countDigits_one (k := n) hlt, Nat.toDigits_of_lt_base hlt, List.map_singleton, ← hdigit n hlt]
      have hmod : (n : ℤ).tmod 10 = n := congrArg Int.ofNat (Nat.mod_eq_of_lt hlt)
      rw [digitChars, digitChars, digitChar, divide, hmod]
    · have hdiv : (n : ℤ).tdiv 10 = (n / 10 : ℕ) := rfl
      have hmod : (n : ℤ).tmod 10 = (n % 10 : ℕ) := rfl
      rw [countDigits_step (k := n) hge, digitChars_succ, hdiv, ih (n / 10) (by omega),
        Nat.toDigits_of_base_le (by decide) hge, List.map_append, List.map_singleton, digitChar,
        divide, hmod, hdigit _ (Nat.mod_lt n (by decide))]

/-- The number that characters stand for, with those below `0` as negative digits. -/
def signedValue (l : List UInt8) : ℤ := l.foldl (fun v c => 10 * v + ((c.toNat : ℤ) - 48)) 0

theorem signedValue_append (l : List UInt8) (c : UInt8) :
    signedValue (l ++ [c]) = 10 * signedValue l + ((c.toNat : ℤ) - 48) := by
  simp [signedValue]

theorem digitChar_value (k : ℤ) : ((digitChar k 0).toNat : ℤ) - 48 = k.tmod 10 := by
  have habs : (k.tmod 10).natAbs < 10 := by
    rw [Int.natAbs_tmod]
    exact Nat.mod_lt _ (by decide)
  rw [digitChar, divide]
  generalize k.tmod 10 = r at habs
  rw [UInt8.ofInt, UInt8.toNat_ofNat']
  omega

/-- The printed characters determine the number, whatever its sign. -/
theorem signedValue_digitChars (k : ℤ) : signedValue (digitChars k (countDigits k 0)) = k := by
  induction hn : k.natAbs using Nat.strong_induction_on generalizing k with
  | _ n ih =>
    subst hn
    have hlast := digitChar_value k
    have hsplit := Int.mul_tdiv_add_tmod k 10
    rcases Nat.lt_or_ge k.natAbs 10 with hlt | hge
    · have hzero : k.tdiv 10 = 0 := by
        rw [← Int.natAbs_eq_zero, natAbs_tdiv_ten]
        exact Nat.div_eq_of_lt hlt
      have hval : signedValue [digitChar k 0] = ((digitChar k 0).toNat : ℤ) - 48 := by
        simp [signedValue]
      rw [countDigits_one hlt, digitChars, digitChars, hval, hlast]
      omega
    · have hsmall : (k.tdiv 10).natAbs < k.natAbs := by
        rw [natAbs_tdiv_ten]
        omega
      rw [countDigits_step hge, digitChars_succ, signedValue_append, ih _ hsmall _ rfl, hlast]
      exact hsplit

theorem printInt_determines (s : State) {k k' : ℤ} {l : List UInt8} (h : Emits s (printInt s k) l)
    (h' : Emits s (printInt s k') l) : k' = k := by
  have hl := h.unique (printInt_emits s k)
  have hl' := h'.unique (printInt_emits s k')
  rw [← signedValue_digitChars k', ← hl', hl, signedValue_digitChars]

/-- The sign is missing, so the numeral of a negative number is one character longer. -/
theorem not_emits_of_neg (s : State) {k : ℤ} (hk : k < 0) : ¬ Emits s (printInt s k) (numeral k) := by
  intro h
  have hlen := congrArg List.length (h.unique (printInt_emits s k))
  rw [digitChars_length, countDigits_eq, numeral, if_pos hk, List.length_map, List.length_append,
    List.length_singleton] at hlen
  omega

/-- `printInt` prints the decimal numeral of just the numbers that are not negative. -/
theorem printsNumeral_iff (s : State) (k : ℤ) : PrintsNumeral s k ↔ 0 ≤ k := by
  refine ⟨fun h => ?_, fun hk => ⟨?_, fun k' l => printInt_determines s⟩⟩
  · by_contra hneg
    exact not_emits_of_neg s (not_le.mp hneg) h.1
  · obtain ⟨n, rfl⟩ := Int.eq_ofNat_of_zero_le hk
    have hnum : numeral (n : ℤ) = digitChars n (countDigits n 0) := by
      rw [digitChars_natural, numeral, if_neg (not_lt.mpr hk), List.nil_append, Int.natAbs_natCast]
    rw [hnum]
    exact printInt_emits s n

/-- For `-5` the character `+` is printed. -/
theorem not_printsNumeral :
    Emits (construct fun _ => 0) (printInt (construct fun _ => 0) (-5)) [charByte '+'] ∧
    ¬ PrintsNumeral (construct fun _ => 0) (-5) := by
  have hchars : digitChars (-5) (countDigits (-5) 0) = [charByte '+'] := by
    rw [countDigits_one (by decide)]
    rfl
  exact ⟨hchars ▸ printInt_emits _ (-5), fun h => not_emits_of_neg _ (by decide) h.1⟩

end ExperimentalKernel.TextScreen
