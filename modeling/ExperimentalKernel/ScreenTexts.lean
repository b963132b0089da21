import ExperimentalKernel.KernelStrings
import ExperimentalKernel.ScreenNumerals
import Mathlib.Tactic.Ring

/-!
# Texts

The characters that each operation of the screen prints, as a function of what it is
given. Those of `printHex` and of both `printBinary` can be read back.
-/

namespace ExperimentalKernel.TextScreen
open ByteMemory KernelStrings

/-- The digits of `printHex`, from the nibble `i - 1` down. -/
def nibbles (k : ℤ) : ℕ → List UInt8
  | 0 => []
  | i + 1 => hexDigits.getD (k >>> (4 * i) % 16).toNat 0 :: nibbles k i

/-- `0x` and eight digits. -/
def hexText (k : ℤ) : List UInt8 := 48 :: 120 :: nibbles k 8

def bitChar (b : Bool) : UInt8 := if b then 49 else 48

theorem bitChar_decide (p : Prop) [Decidable p] : bitChar (decide p) = if p then 49 else 48 := by
  simp [bitChar]

/-- The bits of a byte that `printBinary(void*, unsigned)` tests with `k` masks. -/
def maskBits (b mask : UInt8) : ℕ → List UInt8
  | 0 => []
  | k + 1 => bitChar (mask &&& b ≠ 0) :: maskBits b (mask >>> 1) k

def bytesText (m : Mem) (mem i : ℕ) : ℕ → List UInt8
  | 0 => []
  | k + 1 => maskBits (m (mem + i)) 0x80 8 ++ 32 :: bytesText m mem (i + 1) k

/-- The eight bits above `8 * i`. -/
def byteBits (num : ℤ) (i : ℕ) : List UInt8 :=
  (List.range 8).map fun j => bitChar (num >>> ((i + 1) * 8 - (j + 1)) % 2 = 1)

def numBytesText (num : ℤ) : ℕ → List UInt8
  | 0 => []
  | i + 1 => byteBits num i ++ 32 :: numBytesText num i

/-- What is printed, where strings and bytes are those of the memory `m`. -/
def text (m : Mem) : Op → List UInt8
  | .printChar c => [c]
  | .printString str => copied (fun i => m (str + i)) 0x7FFFFFFF
  | .printInt k => digitChars k (countDigits k 0)
  | .printHex k => hexText k
  | .printBinaryMem mem length => bytesText m mem 0 length ++ [10]
  | .printBinary num => numBytesText num 4 ++ [10]
  | .printEndl => [10]
  | .setTextColor _ _ => []
  | .clean => []

/-- No digit is a line feed, not even one below `0`. -/
theorem newLine_notMem_digitChars (k : ℤ) (num : ℕ) : 10 ∉ digitChars k num := by
  induction num with
  | zero => exact List.not_mem_nil
  | succ num ih =>
    have hdigit : 10 ≠ digitChar k num := by
      have habs : ((divide k num).tmod 10).natAbs < 10 := by
        rw [Int.natAbs_tmod]
        exact Nat.mod_lt _ (by decide)
      rw [digitChar]
      generalize (divide k num).tmod 10 = r at habs
      intro he
      have hval := congrArg UInt8.toNat he
      rw [UInt8.ofInt, UInt8.toNat_ofNat'] at hval
      change 10 = _ at hval
      omega
    rw [digitChars, List.mem_cons]
    exact not_or.mpr ⟨hdigit, ih⟩

section ReadingBack

/-- The value of a character as a hexadecimal digit. -/
def hexValue (c : UInt8) : ℕ := hexDigits.idxOf c

/-- Digits that stand for a number, the highest first. -/
def valueOf (base : ℕ) (digit : UInt8 → ℕ) (l : List UInt8) : ℕ :=
  l.foldl (fun v c => base * v + digit c) 0

theorem valueOf_cons (base : ℕ) (digit : UInt8 → ℕ) (c : UInt8) (l : List UInt8) :
    valueOf base digit (c :: l) = digit c * base ^ l.length + valueOf base digit l := by
  have hstart : ∀ l v, List.foldl (fun v c => base * v + digit c) v l =
      v * base ^ l.length + valueOf base digit l := by
    intro l
    induction l with
    | nil => simp [valueOf]
    | cons c l ih =>
      intro v
      rw [valueOf, List.foldl_cons, List.foldl_cons, ih, ih, List.length_cons]
      ring
  rw [valueOf, List.foldl_cons, hstart]
  ring

@[simp] theorem nibbles_length (k : ℤ) (i : ℕ) : (nibbles k i).length = i := by
  induction i with
  | zero => rfl
  | succ i ih => rw [nibbles, List.length_cons, ih]

/-- One digit more in front of the lower ones. -/
theorem emod_mul_eq (k : ℤ) {d b : ℤ} (hd : 0 < d) (hb : 0 < b) :
    k % (d * b) = k / d % b * d + k % d := by
  have hsplit := Int.emod_add_mul_ediv k d
  have hdigit := Int.emod_add_mul_ediv (k / d) b
  have hlow := Int.emod_nonneg k hd.ne'
  have hlow' := Int.emod_lt_of_pos k hd
  have hhigh := Int.emod_nonneg (k / d) hb.ne'
  have hhigh' := Int.emod_lt_of_pos (k / d) hb
  have hsum : k / d % b * d + k % d + d * b * (k / d / b) = k := by
    calc k / d % b * d + k % d + d * b * (k / d / b)
        = k % d + d * (k / d % b + b * (k / d / b)) := by ring
      _ = k := by rw [hdigit, hsplit]
  have hbound : (k / d % b + 1) * d ≤ b * d := Int.mul_le_mul_of_nonneg_right (by omega) hd.le
  have hnonneg : 0 ≤ k / d % b * d := Int.mul_nonneg hhigh hd.le
  refine ((Int.ediv_emod_unique (Int.mul_pos hd hb)).mpr ⟨hsum, by omega, ?_⟩).2
  rw [Int.add_mul, Int.one_mul, Int.mul_comm b] at hbound
  omega

theorem hexValue_digit {n : ℕ} (h : n < 16) : hexValue (hexDigits.getD n 0) = n := by
  revert n
  decide

theorem nibbles_value (k : ℤ) (i : ℕ) : (valueOf 16 hexValue (nibbles k i) : ℤ) = k % 16 ^ i := by
  induction i with
  | zero => simp [nibbles, valueOf]
  | succ i ih =>
    have hnonneg : 0 ≤ k >>> (4 * i) % 16 := Int.emod_nonneg _ (by decide)
    have hlt : k >>> (4 * i) % 16 < 16 := Int.emod_lt_of_pos _ (by decide)
    have hpow : (2 : ℤ) ^ (4 * i) = 16 ^ i := by rw [Int.pow_mul]; rfl
    rw [nibbles, valueOf_cons, hexValue_digit (by omega), nibbles_length, Int.pow_succ,
      emod_mul_eq k (Int.pow_pos (by decide)) (by decide), ← ih]
    push_cast
    rw [Int.toNat_of_nonneg hnonneg, Int.shiftRight_eq_div_pow]
    push_cast
    rw [hpow]

def bitValue (c : UInt8) : ℕ := if c = 49 then 1 else 0

@[simp] theorem bitValue_bitChar (b : Bool) : bitValue (bitChar b) = b.toNat := by
  cases b <;> rfl

theorem bitChar_ne_blank (b : Bool) : bitChar b ≠ 32 := by
  cases b <;> decide

/-- The lowest `n` bits, the highest first. -/
def bitsDown (num : ℤ) : ℕ → List UInt8
  | 0 => []
  | n + 1 => bitChar (num >>> n % 2 = 1) :: bitsDown num n

@[simp] theorem bitsDown_length (num : ℤ) (n : ℕ) : (bitsDown num n).length = n := by
  induction n with
  | zero => rfl
  | succ n ih => rw [bitsDown, List.length_cons, ih]

theorem bitsDown_value (num : ℤ) (n : ℕ) :
    (valueOf 2 bitValue (bitsDown num n) : ℤ) = num % 2 ^ n := by
  induction n with
  | zero => simp [bitsDown, valueOf]
  | succ n ih =>
    have hbit : ((decide (num >>> n % 2 = 1)).toNat : ℤ) = num >>> n % 2 := by
      rcases Int.emod_two_eq (num >>> n) with h | h <;> rw [h] <;> rfl
    have hshift : num >>> n = num / 2 ^ n := by
      rw [Int.shiftRight_eq_div_pow]
      push_cast
      rfl
    rw [bitsDown, valueOf_cons, bitValue_bitChar, bitsDown_length, Int.pow_succ,
      emod_mul_eq num (Int.pow_pos (by decide)) (by decide), ← ih]
    push_cast
    rw [hbit, hshift]

theorem bitsDown_add (num : ℤ) (n k : ℕ) :
    ((List.range k).map fun j => bitChar (num >>> (n + k - (j + 1)) % 2 = 1)) ++ bitsDown num n =
      bitsDown num (n + k) := by
  induction k with
  | zero => rfl
  | succ k ih =>
    have hshift : ∀ j, n + (k + 1) - (j + 1 + 1) = n + k - (j + 1) := fun j => by omega
    rw [List.range_succ_eq_map, List.map_cons, List.map_map, List.cons_append]
    simp only [Function.comp_def, Nat.succ_eq_add_one, hshift]
    rw [ih]
    rfl

theorem byteBits_append (num : ℤ) (i : ℕ) :
    byteBits num i ++ bitsDown num (8 * i) = bitsDown num (8 * (i + 1)) := by
  have hnext : (i + 1) * 8 = 8 * i + 8 := by omega
  rw [byteBits, hnext, bitsDown_add]
  rfl

/-- Without its blanks the text of `printBinary` is a row of bits. -/
theorem numBytesText_bits (num : ℤ) (i : ℕ) :
    (numBytesText num i).filter (· ≠ 32) = bitsDown num (8 * i) := by
  induction i with
  | zero => rfl
  | succ i ih =>
    have hkeep : (byteBits num i).filter (· ≠ 32) = byteBits num i := by
      refine List.filter_eq_self.mpr fun c hc => ?_
      obtain ⟨j, -, rfl⟩ := List.mem_map.mp hc
      exact decide_eq_true (bitChar_ne_blank _)
    rw [numBytesText, List.filter_append, hkeep, List.filter_cons_of_neg (by decide), ih,
      byteBits_append]

/-- The bytes that stand in groups of nine characters. -/
def readBytes (l : List UInt8) : ℕ → List ℕ
  | 0 => []
  | k + 1 => valueOf 2 bitValue (l.take 8) :: readBytes (l.drop 9) k

@[simp] theorem maskBits_length (b mask : UInt8) (k : ℕ) : (maskBits b mask k).length = k := by
  induction k generalizing mask with
  | zero => rfl
  | succ k ih => rw [maskBits, List.length_cons, ih]

theorem maskBits_value (b : UInt8) : valueOf 2 bitValue (maskBits b 0x80 8) = b.toNat := by
  have hall : ∀ n : Fin 256, valueOf 2 bitValue (maskBits (UInt8.ofNat n) 0x80 8) = n := by
    decide +kernel
  have hb := hall ⟨b.toNat, b.toNat_lt⟩
  rwa [UInt8.ofNat_toNat] at hb

theorem bytesText_read (m : Mem) (mem : ℕ) (rest : List UInt8) (k i : ℕ) :
    readBytes (bytesText m mem i k ++ rest) k =
      (List.range' i k).map fun j => (m (mem + j)).toNat := by
  induction k generalizing i with
  | zero => rfl
  | succ k ih =>
    have hlen := maskBits_length (m (mem + i)) 0x80 8
    rw [bytesText, List.append_assoc, List.cons_append, readBytes,
      List.take_left' hlen, maskBits_value, List.range'_succ, List.map_cons, ← ih (i + 1),
      List.drop_append, hlen, List.drop_of_length_le (by omega)]
    rfl

/-- What `printHex` and both `printBinary` print is the number modulo `2 ^ 32`, or the bytes. -/
theorem numerals_read_back :
    (∀ k, ∃ l, hexText k = 48 :: 120 :: l ∧ l.length = 8 ∧
      (valueOf 16 hexValue l : ℤ) = k % 2 ^ 32) ∧
    (∀ num, (valueOf 2 bitValue ((numBytesText num 4).filter (· ≠ 32)) : ℤ) = num % 2 ^ 32) ∧
    ∀ m mem length, readBytes (bytesText m mem 0 length) length =
      (List.range length).map fun j => (m (mem + j)).toNat := by
  refine ⟨fun k => ⟨nibbles k 8, rfl, nibbles_length k 8, nibbles_value k 8⟩, fun num => ?_,
    fun m mem length => ?_⟩
  · rw [numBytesText_bits]
    exact bitsDown_value num 32
  · have hread := bytesText_read m mem [] length 0
    rwa [List.append_nil, ← List.range_eq_range'] at hread

end ReadingBack

end ExperimentalKernel.TextScreen
