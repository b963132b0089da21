import ExperimentalKernel.InitrdProgram

/-!
# What `read` writes and reports

`strncpy` puts a terminator behind the last byte it copies. The sum of offset and size
is one of 32 bits, and only it decides whether the size is cut to what is left.
-/

namespace ExperimentalKernel.Initrd
open ByteMemory KernelStrings

/-- A zero among the first `num` bytes from `src` on, read before the copy to `dest`
overwrites it. -/
def StopsEarly (m : Mem) (dest src num : ℕ) : Prop :=
  ∃ i < num, m (src + i) = 0 ∧ (dest ≤ src ∨ src + i < dest)

theorem stopsEarly_of_zero {m : Mem} {dest src : ℕ} (num : ℕ) (h : m src = 0) :
    StopsEarly m dest src (num + 1) :=
  ⟨0, num.succ_pos, h, Nat.lt_or_ge src dest |>.symm⟩

/-- After a byte that is not zero the search goes on behind it. -/
theorem stopsEarly_succ {m : Mem} {dest src num : ℕ} (h : m src ≠ 0) :
    StopsEarly m dest src (num + 1) ↔
      StopsEarly (write8 m dest (m src)) (dest + 1) (src + 1) num := by
  have hbyte : ∀ i, (dest ≤ src ∨ src + i < dest) → src + 1 + i ≠ dest →
      write8 m dest (m src) (src + 1 + i) = m (src + (i + 1)) := by
    intro i _ hne
    rw [write8_of_ne m _ hne, Nat.add_assoc, Nat.add_comm 1 i]
  constructor
  · rintro ⟨i, hi, hz, hread⟩
    cases i with
    | zero => exact absurd hz h
    | succ i =>
      refine ⟨i, by omega, ?_, by omega⟩
      rw [hbyte i (by omega) (by omega), hz]
  · rintro ⟨i, hi, hz, hread⟩
    -- the byte just copied is not zero, so it is not where the copy stops
    have hne : src + 1 + i ≠ dest := by
      intro heq
      rw [heq, write8_same] at hz
      exact h hz
    refine ⟨i + 1, by omega, ?_, by omega⟩
    rw [← hbyte i (by omega) hne, hz]

/-- The terminator stays among the `num` bytes exactly if the copy stops early or the
byte behind them is zero as it is. -/
theorem strncpy_agreeOff_iff (num : ℕ) (m : Mem) (dest src : ℕ) :
    AgreeOff m (strncpy m dest src num) dest (dest + num) ↔
      StopsEarly m dest src num ∨ m (dest + num) = 0 := by
  induction num generalizing m dest src with
  | zero =>
    have hno : ¬ StopsEarly m dest src 0 := fun ⟨i, hi, _⟩ => absurd hi i.not_lt_zero
    rw [strncpy, or_iff_right hno, Nat.add_zero]
    constructor
    · intro h
      rw [← h dest (.inr le_rfl), write8_same]
    · intro h x _
      by_cases hx : x = dest
      · rw [hx, write8_same, h]
      · exact write8_of_ne m 0 hx
  | succ num ih =>
    rw [strncpy]
    by_cases h0 : m src = 0
    · rw [if_pos h0]
      refine iff_of_true ?_ (.inl (stopsEarly_of_zero num h0))
      exact agreeOff_write8 m 0 le_rfl (by omega)
    · rw [if_neg h0, stopsEarly_succ h0]
      have hend : write8 m dest (m src) (dest + 1 + num) = m (dest + (num + 1)) := by
        rw [write8_of_ne m _ (by omega), Nat.add_assoc, Nat.add_comm 1 num]
      rw [← hend, ← ih]
      have hcopy := strncpy_agreeOff num (write8 m dest (m src)) (dest + 1) (src + 1)
      generalize strncpy (write8 m dest (m src)) (dest + 1) (src + 1) num = m' at hcopy
      constructor
      · intro h x hx
        by_cases hxd : x = dest
        · exact hcopy x (by omega)
        · rw [h x (by omega), write8_of_ne m _ hxd]
      · intro h x hx
        rw [h x (by omega), write8_of_ne m _ (by omega)]

section Read

variable {fs : InitrdFs} {inode offset size buffer : ℕ}

/-- `length_` of the file. -/
def headerLength (fs : InitrdFs) (inode : ℕ) : ℕ :=
  (fileHeader fs.memory fs.fileHeaders (inode - 1)).length

/-- `offset_` of the file; `init` makes an address of it. -/
def headerOffset (fs : InitrdFs) (inode : ℕ) : ℕ :=
  (fileHeader fs.memory fs.fileHeaders (inode - 1)).offset

theorem headerLength_lt (fs : InitrdFs) (inode : ℕ) : headerLength fs inode < wordSize := read32_lt _ _

theorem read_def (fs : InitrdFs) (inode offset size buffer : ℕ) :
    read fs inode offset size buffer =
      let n := if add32 offset size > headerLength fs inode then sub32 (headerLength fs inode) offset
        else size
      if offset > headerLength fs inode then (0, fs.memory)
      else (n, strncpy fs.memory buffer (add32 (headerOffset fs inode) offset) (toCount n)) := rfl

theorem read_beyond (h : headerLength fs inode < offset) (size buffer : ℕ) :
    read fs inode offset size buffer = (0, fs.memory) := if_pos h

/-- Inside the file, as long as the sum does not wrap around. -/
theorem read_inside (h : offset ≤ headerLength fs inode) (hsum : offset + size < wordSize)
    (buffer : ℕ) :
    read fs inode offset size buffer = (min size (headerLength fs inode - offset),
      strncpy fs.memory buffer (add32 (headerOffset fs inode) offset)
        (toCount (min size (headerLength fs inode - offset)))) := by
  have hsize : (if add32 offset size > headerLength fs inode then sub32 (headerLength fs inode) offset
      else size) = min size (headerLength fs inode - offset) := by
    rw [add32_eq hsum, sub32_eq h]
    split <;> omega
  simp only [read_def, hsize, if_neg (Nat.not_lt.mpr h)]

/-- The size comes back as it was asked for if the sum wraps around. -/
theorem read_inside_wrapped (h : offset ≤ headerLength fs inode) (hsize : size < wordSize)
    (hwrap : wordSize ≤ offset + size) (buffer : ℕ) :
    (read fs inode offset size buffer).1 = size := by
  have hlen := headerLength_lt fs inode
  have hsum : add32 offset size = offset + size - wordSize := by
    rw [add32, Nat.mod_eq_sub_mod hwrap, Nat.mod_eq_of_lt (by omega)]
  have hcut : ¬ add32 offset size > headerLength fs inode := by omega
  simp only [read_def, if_neg hcut, if_neg (Nat.not_lt.mpr h)]

/-- `read` changes memory outside the bytes it reports, unless a zero byte ends the copy
before, or the byte behind them is zero already. -/
theorem read_writes_reported_iff (hfile : headerOffset fs inode + headerLength fs inode < wordSize)
    (hsum : offset + size < 0x80000000) :
    AgreeOff fs.memory (read fs inode offset size buffer).2 buffer
        (buffer + (read fs inode offset size buffer).1) ↔
      headerLength fs inode < offset ∨
      StopsEarly fs.memory buffer (headerOffset fs inode + offset)
        (min size (headerLength fs inode - offset)) ∨
      fs.memory (buffer + min size (headerLength fs inode - offset)) = 0 := by
  rcases Nat.lt_or_ge (headerLength fs inode) offset with h | h
  · rw [read_beyond h]
    exact iff_of_true (AgreeOff.refl _ _ _) (.inl h)
  · have hcount : toCount (min size (headerLength fs inode - offset)) =
        min size (headerLength fs inode - offset) := if_pos (by omega)
    rw [read_inside h (by unfold wordSize; omega), hcount, add32_eq (by omega)]
    rw [strncpy_agreeOff_iff, or_iff_right (Nat.not_lt.mpr h)]

/-- The header of a file with one byte, which stands behind it; the rest of memory is
not zero. -/
def oneByte : InitrdFs where
  memory := fun x => if x = 65 then 73 else if x < 69 then 0 else if x = 69 then 1
    else if x < 73 then 0 else 1
  fileHeaders := 0
  size := 1
  root := directoryNode initrdName
  dev := directoryNode devName
  childNodes := []
  currDirent := ⟨[], 0⟩

theorem read_writes_reported_iff_oneByte :
    AgreeOff oneByte.memory (read oneByte 1 0 1 100).2 100 (100 + (read oneByte 1 0 1 100).1) ↔
      headerLength oneByte 1 < 0 ∨
      StopsEarly oneByte.memory 100 (headerOffset oneByte 1 + 0) (min 1 (headerLength oneByte 1 - 0)) ∨
      oneByte.memory (100 + min 1 (headerLength oneByte 1 - 0)) = 0 :=
  read_writes_reported_iff (by decide) (by decide)

/-- A buffer of the size asked for is overrun. -/
theorem read_overruns :
    ¬ ∀ (fs : InitrdFs) (inode offset size buffer : ℕ),
      headerOffset fs inode + headerLength fs inode < wordSize → offset + size < 0x80000000 →
      AgreeOff fs.memory (read fs inode offset size buffer).2 buffer
        (buffer + (read fs inode offset size buffer).1) := by
  intro h
  have hsame := h oneByte 1 0 1 100 (by decide) (by decide)
  exact absurd (hsame 101 (.inr (by decide))) (by decide)

/-- The number of bytes that `read` should report. -/
def available (length offset size : ℕ) : ℕ := if offset ≤ length then min size (length - offset) else 0

/-- The count is right unless the sum wraps around inside the file. -/
theorem read_count_iff (fs : InitrdFs) (inode offset buffer : ℕ) (hsize : size < wordSize) :
    (read fs inode offset size buffer).1 = available (headerLength fs inode) offset size ↔
      headerLength fs inode < offset ∨ offset + size < wordSize := by
  rw [available]
  rcases Nat.lt_or_ge (headerLength fs inode) offset with h | h
  · rw [read_beyond h, if_neg (Nat.not_le.mpr h)]
    exact iff_of_true rfl (.inl h)
  · rw [if_pos h]
    by_cases hsum : offset + size < wordSize
    · rw [read_inside h hsum]
      exact iff_of_true rfl (.inr hsum)
    · have hlen := headerLength_lt fs inode
      rw [read_inside_wrapped h hsize (Nat.not_lt.mp hsum)]
      refine iff_of_false ?_ (by omega)
      intro hmin
      omega

theorem read_count_iff_oneByte :
    (read oneByte 1 1 5 100).1 = available (headerLength oneByte 1) 1 5 ↔
      headerLength oneByte 1 < 1 ∨ 1 + 5 < wordSize :=
  read_count_iff oneByte 1 1 100 (by decide)

/-- At the end of the file of one byte, `2 ^ 32 - 1` bytes are reported. -/
theorem read_count_wraps :
    ¬ ∀ (fs : InitrdFs) (inode offset size buffer : ℕ), offset < wordSize → size < wordSize →
      (read fs inode offset size buffer).1 = available (headerLength fs inode) offset size := by
  intro h
  have hcount := h oneByte 1 1 0xFFFFFFFF 100 (by decide) (by decide)
  rw [read_inside_wrapped (by decide) (by decide) (by decide)] at hcount
  exact absurd hcount (by decide)

end Read

end ExperimentalKernel.Initrd
