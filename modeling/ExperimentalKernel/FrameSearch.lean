import ExperimentalKernel.FrameAllocation
import ExperimentalKernel.TracedMemory

/-!
# What the frame search reads

`getFreeFrame` with each read of the bitmap traced. The outer loop counts frames where
the bitmap has words, so a search that no bit of the bitmap stops goes on past it.
-/

namespace ExperimentalKernel.Paging
open ByteMemory TracedMemory Function

section Traced

/-- `frames_[i].getBitset()`; addresses count from `frames_` on. -/
def getBitset (frames : ℕ → BitVec 32) (i : ℕ) : Traced (BitVec 32) := ⟨frames i, [(4 * i, 4)]⟩

def firstClearT (frames : ℕ → BitVec 32) (i j : ℕ) : ℕ → Traced (Option ℕ)
  | 0 => pure none
  | k + 1 => do
    let w ← getBitset frames i
    if w &&& (1#32 <<< j) = 0 then pure (some j) else firstClearT frames i (j + 1) k

def freeFrameFromT (frames : ℕ → BitVec 32) (i : ℕ) : ℕ → Traced (Option ℕ)
  | 0 => pure none
  | k + 1 => do
    let w ← getBitset frames i
    if w ≠ 0xFFFFFFFF then do
      let bit ← firstClearT frames i 0 32
      match bit with
      | some j => pure (some (i * 32 + j))
      | none => freeFrameFromT frames (i + 1) k
    else freeFrameFromT frames (i + 1) k

def getFreeFrameT (s : State) : Traced (Option ℕ) := freeFrameFromT s.frames 0 s.frameNumber

@[simp] theorem value_getBitset (frames : ℕ → BitVec 32) (i : ℕ) :
    (getBitset frames i).value = frames i := rfl

@[simp] theorem value_firstClearT (frames : ℕ → BitVec 32) (i j k : ℕ) :
    (firstClearT frames i j k).value = firstClear (frames i) j k := by
  induction k generalizing j with
  | zero => rfl
  | succ k ih =>
    simp only [firstClearT, value_bind, value_ite, value_pure, ih]
    rfl

@[simp] theorem value_freeFrameFromT (frames : ℕ → BitVec 32) (i k : ℕ) :
    (freeFrameFromT frames i k).value = freeFrameFrom frames i k := by
  induction k generalizing i with
  | zero => rfl
  | succ k ih =>
    simp only [freeFrameFromT, value_bind, value_ite, value_firstClearT]
    rw [freeFrameFrom, ← ih]
    cases firstClear (frames i) 0 32 with
    | none => rfl
    | some j => rfl

theorem value_getFreeFrameT (s : State) : (getFreeFrameT s).value = getFreeFrame s :=
  value_freeFrameFromT s.frames 0 s.frameNumber

end Traced

/-- The bytes of `n` words from `frames_` on. -/
def InWords (n x : ℕ) : Prop := x < n * 4

theorem within_getBitset (frames : ℕ → BitVec 32) (i n : ℕ) :
    Within (InWords n) (getBitset frames i) ↔ i < n := by
  rw [getBitset, within_single]
  constructor
  · intro h
    have := h 0 (by decide)
    simp only [InWords] at this
    omega
  · intro h b hb
    simp only [InWords]
    omega

theorem within_firstClearT {frames : ℕ → BitVec 32} {i n : ℕ} (h : i < n) (j k : ℕ) :
    Within (InWords n) (firstClearT frames i j k) := by
  induction k generalizing j with
  | zero => exact within_pure _
  | succ k ih =>
    rw [firstClearT, within_bind, within_ite]
    exact ⟨(within_getBitset frames i n).mpr h, fun _ => within_pure _, fun _ => ih (j + 1)⟩

/-- The words that a turn reads, and those of the turns after it. -/
theorem within_freeFrameFromT_succ (frames : ℕ → BitVec 32) (i k n : ℕ) :
    Within (InWords n) (freeFrameFromT frames i (k + 1)) ↔
      i < n ∧ (firstClear (frames i) 0 32 = none → Within (InWords n) (freeFrameFromT frames (i + 1) k)) := by
  rw [freeFrameFromT, within_bind, within_getBitset, within_ite, within_bind, value_getBitset,
    value_firstClearT]
  apply and_congr_right
  intro hi
  cases hbit : firstClear (frames i) 0 32 with
  | none =>
    constructor
    · rintro ⟨hne, hones⟩ -
      by_cases h : frames i = 0xFFFFFFFF
      · exact hones (not_not.mpr h)
      · exact (hne h).2
    · intro h
      exact ⟨fun _ => ⟨within_firstClearT hi 0 32, h rfl⟩, fun _ => h rfl⟩
  | some j =>
    have hne : frames i ≠ 0xFFFFFFFF := by
      intro hones
      rw [hones, firstClear_ones] at hbit
      cases hbit
    constructor
    · intro _ h
      cases h
    · intro _
      exact ⟨fun _ => ⟨within_firstClearT hi 0 32, within_pure _⟩, fun h => absurd hne h⟩

/-- A free frame in the first `n` words stops the search there. -/
theorem within_of_free {frames : ℕ → BitVec 32} {n b : ℕ} (hb : b < n * 32)
    (hfree : busy frames b = false) (k : ℕ) {i : ℕ} (hi : i * 32 ≤ b) :
    Within (InWords n) (freeFrameFromT frames i k) := by
  induction k generalizing i with
  | zero => exact within_pure _
  | succ k ih =>
    rw [within_freeFrameFromT_succ]
    refine ⟨by omega, fun hnone => ih ?_⟩
    have hne : b / 32 ≠ i := by
      intro h
      rw [busy_of_word hnone h] at hfree
      cases hfree
    omega

theorem firstClear_of_full {frames : ℕ → BitVec 32} {i : ℕ}
    (h : ∀ b, i * 32 ≤ b → b < (i + 1) * 32 → busy frames b = true) :
    firstClear (frames i) 0 32 = none := by
  cases hbit : firstClear (frames i) 0 32 with
  | none => rfl
  | some j =>
    obtain ⟨hj, hclear, -⟩ := firstClear_some (by decide) hbit
    have := h (i * 32 + j) (by omega) (by omega)
    have hdiv : (i * 32 + j) / 32 = i := by omega
    have hmod : (i * 32 + j) % 32 = j := by omega
    rw [busy, hdiv, hmod, hclear] at this
    cases this

/-- Without one it reads word `n`, if it has the turns for it. -/
theorem not_within_of_full {frames : ℕ → BitVec 32} {n : ℕ}
    (hfull : ∀ b < n * 32, busy frames b = true) (k : ℕ) {i : ℕ} (hi : i ≤ n) (hk : n < i + k) :
    ¬ Within (InWords n) (freeFrameFromT frames i k) := by
  induction k generalizing i with
  | zero => exact absurd hk (Nat.not_lt.mpr hi)
  | succ k ih =>
    rw [within_freeFrameFromT_succ]
    rintro ⟨hlt, hrest⟩
    have hnone : firstClear (frames i) 0 32 = none :=
      firstClear_of_full fun b _ hb => hfull b (by omega)
    exact ih hlt (by omega) (hrest hnone)

/-- The search reads the bitmap only, finds its least clear bit, and -1 means that there
is none. -/
structure SearchExact (s : State) : Prop where
  reads : Within (InWords (s.frameNumber / 32)) (getFreeFrameT s)
  least : ∀ n, getFreeFrame s = some n ↔
    n < s.frameNumber ∧ busy s.frames n = false ∧ ∀ b < n, busy s.frames b = true
  full : getFreeFrame s = none ↔ ∀ n < s.frameNumber, busy s.frames n = true

theorem searchExact_of_hasFreeFrame {s : State} (hdvd : s.frameNumber % 32 = 0)
    (h : HasFreeFrame s) : SearchExact s := by
  obtain ⟨n, hn, hfind, hfree⟩ := getFreeFrame_of_hasFreeFrame h
  obtain ⟨-, hleast⟩ := getFreeFrame_some hfind
  refine ⟨within_of_free (b := n) (by omega) hfree _ (by omega), fun b => ?_, ?_⟩
  · rw [hfind, Option.some.injEq]
    constructor
    · rintro rfl
      exact ⟨hn, hfree, hleast⟩
    · rintro ⟨-, hb, hbelow⟩
      rcases Nat.lt_trichotomy n b with hlt | heq | hgt
      · exact absurd (hbelow n hlt) (by simp [hfree])
      · exact heq
      · exact absurd (hleast b hgt) (by simp [hb])
  · rw [hfind]
    constructor
    · intro hnone
      cases hnone
    · intro hfull
      exact absurd (hfull n hn) (by simp [hfree])

/-- The search is exact while the bitmap has a clear bit; its trace is one of `getFreeFrame`. -/
theorem getFreeFrame_exact_iff (s : State) (hdvd : s.frameNumber % 32 = 0) :
    (SearchExact s ↔ s.frameNumber = 0 ∨ HasFreeFrame s) ∧
      (getFreeFrameT s).value = getFreeFrame s := by
  refine ⟨?_, value_getFreeFrameT s⟩
  constructor
  · intro h
    by_cases h0 : s.frameNumber = 0
    · exact .inl h0
    · refine .inr ?_
      by_contra hno
      have hfull : ∀ n < s.frameNumber, busy s.frames n = true := by
        intro n hn
        by_contra hb
        exact hno ⟨n, hn, by simpa using hb⟩
      exact not_within_of_full (fun b hb => hfull b (by omega)) _ (Nat.zero_le _) (by omega) h.reads
  · rintro (h0 | h)
    · have hfind : getFreeFrame s = none := by rw [getFreeFrame, h0]; rfl
      refine ⟨?_, fun n => ?_, ?_⟩
      · rw [getFreeFrameT, h0]
        exact within_pure _
      · rw [hfind, h0]
        simp
      · rw [hfind, h0]
        simp
    · exact searchExact_of_hasFreeFrame hdvd h

/-- The sixteen megabytes are handed out; the word after the bitmap is zero. -/
def allBusy : State := { blank with frames := fun i => if i < 128 then 0xFFFFFFFF else 0 }

theorem getFreeFrame_exact_iff_blank :
    SearchExact blank ↔ blank.frameNumber = 0 ∨ HasFreeFrame blank :=
  (getFreeFrame_exact_iff blank (by decide)).1

theorem busy_allBusy {n : ℕ} (h : n < allBusy.frameNumber) : busy allBusy.frames n = true := by
  have hword : allBusy.frames (n / 32) = 0xFFFFFFFF := if_pos (by
    have hnum : allBusy.frameNumber = 4096 := rfl
    omega)
  rw [busy, hword]
  have hones : ∀ j < 32, (0xFFFFFFFF#32).getLsbD j = true := by decide
  exact hones _ (Nat.mod_lt _ (by decide))

/-- Instead of -1 the search returns a frame that the machine does not have. -/
theorem getFreeFrame_not_exact :
    ¬ ∀ s : State, s.frameNumber % 32 = 0 → SearchExact s := by
  intro h
  have hfind : getFreeFrame allBusy = none :=
    (h allBusy (by decide)).full.mpr fun _ hn => busy_allBusy hn
  have := freeFrameFrom_none hfind 4096 (by decide) (by decide)
  exact absurd this (by decide)

end ExperimentalKernel.Paging
