import Mathlib.Data.List.GetD
import Mathlib.Data.List.Range
import Mathlib.Data.UInt
import Mathlib.Tactic.Linarith

/-!
# Byte-addressed memory and 32-bit arithmetic

Memory is a total function from addresses to bytes. Words are little-endian and
need no alignment, so two words overlap whenever their four bytes do. Addresses
are naturals; the arithmetic of `unsigned int` is written out as `add32` and
`sub32`. Nothing here belongs to a particular program.
-/

namespace ExperimentalKernel.ByteMemory

abbrev Mem := ℕ → UInt8

/-- Two to the power 32, the number of values of an `unsigned int`. -/
abbrev wordSize : ℕ := 4294967296

def u32 (x : ℕ) : ℕ := x % wordSize

def add32 (x y : ℕ) : ℕ := (x + y) % wordSize

def sub32 (x y : ℕ) : ℕ := if y ≤ x then x - y else x + wordSize - y

theorem add32_eq {x y : ℕ} (h : x + y < wordSize) : add32 x y = x + y := Nat.mod_eq_of_lt h

theorem add32_lt (x y : ℕ) : add32 x y < wordSize := Nat.mod_lt _ (by decide)

theorem add32_ne {x y : ℕ} (hy : 0 < y) (hw : y < wordSize) : add32 x y ≠ x := by
  unfold add32 wordSize at *
  omega

theorem sub32_eq {x y : ℕ} (hy : y ≤ x) : sub32 x y = x - y := if_pos hy

theorem u32_eq {x : ℕ} (h : x < wordSize) : u32 x = x := Nat.mod_eq_of_lt h

/-- Storing the byte `b` at `a`. -/
def write8 (m : Mem) (a : ℕ) (b : UInt8) : Mem := fun x => if x = a then b else m x

def read32 (m : Mem) (a : ℕ) : ℕ :=
  (m a).toNat + 256 * (m (a + 1)).toNat + 65536 * (m (a + 2)).toNat + 16777216 * (m (a + 3)).toNat

def write32 (m : Mem) (a v : ℕ) : Mem := fun x =>
  if x = a then UInt8.ofNat v
  else if x = a + 1 then UInt8.ofNat (v / 256)
  else if x = a + 2 then UInt8.ofNat (v / 65536)
  else if x = a + 3 then UInt8.ofNat (v / 16777216)
  else m x

/-- The memories agree on the addresses from `lo` up to but not including `hi`. -/
def AgreeOn (m m' : Mem) (lo hi : ℕ) : Prop := ∀ x, lo ≤ x → x < hi → m' x = m x

theorem AgreeOn.refl (m : Mem) (lo hi : ℕ) : AgreeOn m m lo hi := fun _ _ _ => rfl

theorem AgreeOn.trans {m m' m'' : Mem} {lo hi : ℕ} (h : AgreeOn m m' lo hi)
    (h' : AgreeOn m' m'' lo hi) : AgreeOn m m'' lo hi :=
  fun x hl hh => (h' x hl hh).trans (h x hl hh)

theorem AgreeOn.mono {m m' : Mem} {lo hi lo' hi' : ℕ} (h : AgreeOn m m' lo hi)
    (hl : lo ≤ lo') (hh : hi' ≤ hi) : AgreeOn m m' lo' hi' :=
  fun x h₁ h₂ => h x (hl.trans h₁) (h₂.trans_le hh)

/-- The memories agree everywhere outside the addresses from `lo` up to `hi`. -/
def AgreeOff (m m' : Mem) (lo hi : ℕ) : Prop := ∀ x, x < lo ∨ hi ≤ x → m' x = m x

theorem AgreeOff.refl (m : Mem) (lo hi : ℕ) : AgreeOff m m lo hi := fun _ _ => rfl

theorem AgreeOff.trans {m m' m'' : Mem} {lo hi : ℕ} (h : AgreeOff m m' lo hi)
    (h' : AgreeOff m' m'' lo hi) : AgreeOff m m'' lo hi :=
  fun x hx => (h' x hx).trans (h x hx)

theorem AgreeOff.mono {m m' : Mem} {lo hi lo' hi' : ℕ} (h : AgreeOff m m' lo hi)
    (hl : lo' ≤ lo) (hh : hi ≤ hi') : AgreeOff m m' lo' hi' :=
  fun x hx => h x (by omega)

theorem AgreeOff.agreeOn {m m' : Mem} {lo hi lo' hi' : ℕ} (h : AgreeOff m m' lo hi)
    (hd : hi ≤ lo' ∨ hi' ≤ lo) : AgreeOn m m' lo' hi' :=
  fun x hl hh => h x (by omega)

theorem write8_same (m : Mem) (a : ℕ) (b : UInt8) : write8 m a b a = b := by simp [write8]

theorem write8_of_ne (m : Mem) (b : UInt8) {a x : ℕ} (h : x ≠ a) : write8 m a b x = m x := by
  simp [write8, h]

theorem write32_of_disjoint (m : Mem) (v : ℕ) {a x : ℕ} (h : x < a ∨ a + 4 ≤ x) :
    write32 m a v x = m x := by
  have h₀ : x ≠ a := by omega
  have h₁ : x ≠ a + 1 := by omega
  have h₂ : x ≠ a + 2 := by omega
  have h₃ : x ≠ a + 3 := by omega
  simp [write32, h₀, h₁, h₂, h₃]

theorem read32_lt (m : Mem) (a : ℕ) : read32 m a < wordSize := by
  have h₀ := (m a).toNat_lt
  have h₁ := (m (a + 1)).toNat_lt
  have h₂ := (m (a + 2)).toNat_lt
  have h₃ := (m (a + 3)).toNat_lt
  unfold read32 wordSize
  omega

theorem read32_congr {m m' : Mem} {a : ℕ} (h : AgreeOn m m' a (a + 4)) :
    read32 m' a = read32 m a := by
  unfold read32
  rw [h a (by omega) (by omega), h (a + 1) (by omega) (by omega),
    h (a + 2) (by omega) (by omega), h (a + 3) (by omega) (by omega)]

theorem read32_write32 (m : Mem) (a : ℕ) {v : ℕ} (hv : v < wordSize) :
    read32 (write32 m a v) a = v := by
  unfold wordSize at hv
  simp [read32, write32, UInt8.toNat_ofNat']
  omega

theorem agreeOn_write8 (m : Mem) (b : UInt8) {a lo hi : ℕ} (h : a < lo ∨ hi ≤ a) :
    AgreeOn m (write8 m a b) lo hi :=
  fun x hl hh => write8_of_ne m b (by omega)

theorem agreeOn_write32 (m : Mem) (v : ℕ) {a lo hi : ℕ} (h : a + 4 ≤ lo ∨ hi ≤ a) :
    AgreeOn m (write32 m a v) lo hi :=
  fun x hl hh => write32_of_disjoint m v (by omega)

theorem agreeOff_write8 (m : Mem) (b : UInt8) {a lo hi : ℕ} (hl : lo ≤ a) (hh : a < hi) :
    AgreeOff m (write8 m a b) lo hi :=
  fun x hx => write8_of_ne m b (by omega)

theorem agreeOff_write32 (m : Mem) (v : ℕ) {a lo hi : ℕ} (hl : lo ≤ a) (hh : a + 4 ≤ hi) :
    AgreeOff m (write32 m a v) lo hi :=
  fun x hx => write32_of_disjoint m v (by omega)

theorem read32_write32_of_disjoint (m : Mem) (v : ℕ) {a b : ℕ} (h : a + 4 ≤ b ∨ b + 4 ≤ a) :
    read32 (write32 m a v) b = read32 m b :=
  read32_congr (agreeOn_write32 m v h)

theorem read32_write8_of_disjoint (m : Mem) (v : UInt8) {a b : ℕ} (h : a < b ∨ b + 4 ≤ a) :
    read32 (write8 m a v) b = read32 m b :=
  read32_congr (agreeOn_write8 m v h)

/-- Copying a word copies its four bytes. -/
theorem write32_read32 (m : Mem) (src dest : ℕ) {i : ℕ} (hi : i < 4) :
    write32 m dest (read32 m src) (dest + i) = m (src + i) := by
  have h₀ := (m src).toNat_lt
  have h₁ := (m (src + 1)).toNat_lt
  have h₂ := (m (src + 2)).toNat_lt
  have h₃ := (m (src + 3)).toNat_lt
  apply UInt8.toNat_inj.mp
  have hcases : i = 0 ∨ i = 1 ∨ i = 2 ∨ i = 3 := by omega
  rcases hcases with rfl | rfl | rfl | rfl
  all_goals
    simp only [write32, read32, Nat.add_zero, ↓reduceIte, Nat.add_eq_left, OfNat.ofNat_ne_zero,
      one_ne_zero, Nat.add_left_cancel_iff, OfNat.ofNat_ne_one, Nat.reduceEqDiff,
      UInt8.toNat_ofNat']
    omega

theorem byte_ne_add_one (b : UInt8) : b ≠ b + 1 := by
  intro h
  have hnat := congrArg UInt8.toNat h
  rw [UInt8.toNat_add] at hnat
  have := b.toNat_lt
  simp at hnat
  omega

/-- Filling `n` bytes from `a` with `b`, one after another. -/
def fill (m : Mem) (a : ℕ) (b : UInt8) : ℕ → Mem
  | 0 => m
  | n + 1 => fill (write8 m a b) (a + 1) b n

theorem fill_apply (n : ℕ) (m : Mem) (a : ℕ) (b : UInt8) (x : ℕ) :
    fill m a b n x = if a ≤ x ∧ x < a + n then b else m x := by
  induction n generalizing m a with
  | zero => simp [fill]
  | succ n ih =>
    rw [fill, ih]
    by_cases hx : x = a
    · subst hx
      simp [write8]
    · have hiff : (a + 1 ≤ x ∧ x < a + 1 + n) ↔ (a ≤ x ∧ x < a + (n + 1)) := by omega
      simp only [hiff, write8_of_ne m b hx]

theorem read32_fill_zero (m : Mem) {a n b : ℕ} (hl : a ≤ b) (hh : b + 4 ≤ a + n) :
    read32 (fill m a 0 n) b = 0 := by
  unfold read32
  rw [fill_apply, fill_apply, fill_apply, fill_apply, if_pos (by omega), if_pos (by omega),
    if_pos (by omega), if_pos (by omega)]
  rfl

/-- The bytes of `n` cells from `a` on. -/
def bytes (m : Mem) (a n : ℕ) : List UInt8 := (List.range n).map (fun i => m (a + i))

@[simp] theorem bytes_length (m : Mem) (a n : ℕ) : (bytes m a n).length = n := by simp [bytes]

theorem bytes_append (m : Mem) (a n k : ℕ) : bytes m a (n + k) = bytes m a n ++ bytes m (a + n) k := by
  simp only [bytes, List.range_add, List.map_append, List.map_map]
  congr 1
  exact List.map_congr_left fun i _ => congrArg m (Nat.add_assoc a n i).symm

/-- The bytes of a word. -/
def le32 (v : ℕ) : List UInt8 :=
  [UInt8.ofNat v, UInt8.ofNat (v / 256), UInt8.ofNat (v / 65536), UInt8.ofNat (v / 16777216)]

/-- At `a` stand the bytes `bs`. -/
def Stored (m : Mem) (a : ℕ) (bs : List UInt8) : Prop := ∀ i < bs.length, m (a + i) = bs.getD i 0

theorem Stored.bytes_eq {m : Mem} {a : ℕ} {bs : List UInt8} (h : Stored m a bs) :
    bytes m a bs.length = bs := by
  apply List.ext_getElem (by simp)
  intro i h₁ h₂
  simp [bytes, h i h₂, h₂]

theorem Stored.bytes_slice {m : Mem} {a o n : ℕ} {bs : List UInt8} (h : Stored m a bs)
    (hn : o + n ≤ bs.length) : bytes m (a + o) n = (bs.drop o).take n := by
  apply List.ext_getElem
  · rw [bytes_length, List.length_take, List.length_drop]
    omega
  · intro i h₁ h₂
    rw [bytes_length] at h₁
    have hi := h (o + i) (by omega)
    rw [List.getD_eq_getElem _ _ (by omega)] at hi
    simp only [bytes, List.getElem_map, List.getElem_range, List.getElem_take, List.getElem_drop,
      Nat.add_assoc, hi]

theorem stored_append {m : Mem} {a : ℕ} {xs ys : List UInt8} :
    Stored m a (xs ++ ys) ↔ Stored m a xs ∧ Stored m (a + xs.length) ys := by
  constructor
  · refine fun h => ⟨fun i hi => ?_, fun i hi => ?_⟩
    · rw [h i (by rw [List.length_append]; omega), List.getD_append _ _ _ _ hi]
    · have := h (xs.length + i) (by rw [List.length_append]; omega)
      rw [← Nat.add_assoc] at this
      rw [this, List.getD_append_right _ _ _ _ (by omega), Nat.add_sub_cancel_left]
  · rintro ⟨h₁, h₂⟩ i hi
    by_cases hx : i < xs.length
    · rw [h₁ i hx, List.getD_append _ _ _ _ hx]
    · have := h₂ (i - xs.length) (by rw [List.length_append] at hi; omega)
      rw [List.getD_append_right _ _ _ _ (by omega), ← this]
      congr 1
      omega

theorem Stored.congr {m m' : Mem} {a : ℕ} {bs : List UInt8} (h : Stored m a bs)
    (he : AgreeOn m m' a (a + bs.length)) : Stored m' a bs :=
  fun i hi => (he _ (by omega) (by omega)).trans (h i hi)

theorem stored_write32 (m : Mem) (a v : ℕ) : Stored (write32 m a v) a (le32 v) := by
  intro i hi
  have hcases : i = 0 ∨ i = 1 ∨ i = 2 ∨ i = 3 := by
    simp only [le32, List.length_cons, List.length_nil] at hi
    omega
  rcases hcases with rfl | rfl | rfl | rfl <;> simp [write32, le32]

theorem Stored.read32_eq {m : Mem} {a v : ℕ} (h : Stored m a (le32 v)) (hv : v < wordSize) :
    read32 m a = v := by
  rw [← read32_write32 m a hv]
  refine read32_congr fun x h₁ h₂ => ?_
  obtain ⟨i, rfl⟩ := Nat.exists_eq_add_of_le h₁
  have hi : i < (le32 v).length := by
    simp only [le32, List.length_cons, List.length_nil]
    omega
  rw [h i hi, stored_write32 m a v i hi]

end ExperimentalKernel.ByteMemory
