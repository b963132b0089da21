import ExperimentalKernel.PagingProgram
import ExperimentalKernel.LabelledRuns

/-!
# Frames and their owners

The bitmap search returns the least clear bit. While it finds one below
`frameNumber_` whenever it is asked, no two page entries ever hold the same
nonzero frame, and the bit of a frame that is held stays set.
-/

namespace ExperimentalKernel.Paging
open ByteMemory LabelledRuns Function

/-- The bit of frame `n` is set. -/
def busy (frames : ℕ → BitVec 32) (n : ℕ) : Bool := (frames (n / 32)).getLsbD (n % 32)

def markBusy (frames : ℕ → BitVec 32) (n : ℕ) : ℕ → BitVec 32 :=
  update frames (n / 32) (bitsetSet (frames (n / 32)) (n % 32))

theorem and_shift_eq_zero (w : BitVec 32) (j : ℕ) (hj : j < 32) :
    w &&& (1#32 <<< j) = 0 ↔ w.getLsbD j = false := by
  rw [← BitVec.twoPow_eq, BitVec.and_twoPow]
  cases w.getLsbD j with
  | false => simp
  | true =>
    simp only [↓reduceIte, Bool.true_eq_false, iff_false]
    intro h
    have := congrArg (fun x : BitVec 32 => x.getLsbD j) h
    simp [hj] at this

theorem bitsetSet_getLsbD (w : BitVec 32) {i j : ℕ} (hj : j < 32) :
    (bitsetSet w j).getLsbD i = (w.getLsbD i || decide (i = j)) := by
  rw [bitsetSet, BitVec.getLsbD_or, ← BitVec.twoPow_eq, BitVec.getLsbD_twoPow]
  congr 1
  by_cases h : i = j
  · simp [h, hj]
  · simp [h, Ne.symm h]

theorem busy_markBusy (frames : ℕ → BitVec 32) (n b : ℕ) :
    busy (markBusy frames n) b = (busy frames b || decide (b = n)) := by
  unfold busy markBusy
  by_cases hw : b / 32 = n / 32
  · rw [hw, update_self, bitsetSet_getLsbD _ (Nat.mod_lt _ (by decide))]
    congr 2
    rw [eq_iff_iff]
    constructor <;> intro h <;> omega
  · rw [update_of_ne hw]
    have hne : b ≠ n := fun h => hw (h ▸ rfl)
    simp [hne]

theorem firstClear_some {w : BitVec 32} {j k n : ℕ} (hk : j + k ≤ 32)
    (h : firstClear w j k = some n) :
    n < j + k ∧ w.getLsbD n = false ∧ ∀ b, j ≤ b → b < n → w.getLsbD b = true := by
  induction k generalizing j with
  | zero => simp [firstClear] at h
  | succ k ih =>
    rw [firstClear] at h
    by_cases hc : w &&& (1#32 <<< j) = 0
    · rw [if_pos hc, Option.some.injEq] at h
      subst h
      exact ⟨by omega, (and_shift_eq_zero w j (by omega)).mp hc, fun b h₁ h₂ => by omega⟩
    · rw [if_neg hc] at h
      obtain ⟨h₁, h₂, h₃⟩ := ih (by omega) h
      refine ⟨by omega, h₂, fun b hb hn => ?_⟩
      by_cases hbj : b = j
      · rw [hbj]
        simpa using mt (and_shift_eq_zero w j (by omega)).mpr hc
      · exact h₃ b (by omega) hn

theorem firstClear_none {w : BitVec 32} {j k : ℕ} (hk : j + k ≤ 32) (h : firstClear w j k = none) :
    ∀ b, j ≤ b → b < j + k → w.getLsbD b = true := by
  induction k generalizing j with
  | zero => exact fun b h₁ h₂ => by omega
  | succ k ih =>
    rw [firstClear] at h
    by_cases hc : w &&& (1#32 <<< j) = 0
    · simp [hc] at h
    · rw [if_neg hc] at h
      intro b hb hn
      by_cases hbj : b = j
      · rw [hbj]
        simpa using mt (and_shift_eq_zero w j (by omega)).mpr hc
      · exact ih (by omega) h b (by omega) (by omega)

theorem firstClear_ones : firstClear 0xFFFFFFFF 0 32 = none := by decide

/-- The test for a full word does not change what the search finds. -/
theorem freeFrameFrom_succ (frames : ℕ → BitVec 32) (i k : ℕ) :
    freeFrameFrom frames i (k + 1) = match firstClear (frames i) 0 32 with
      | some j => some (i * 32 + j)
      | none => freeFrameFrom frames (i + 1) k := by
  rw [freeFrameFrom]
  split
  · rfl
  · next hones =>
    rw [ne_eq, not_not] at hones
    rw [hones, firstClear_ones]

theorem busy_of_word {frames : ℕ → BitVec 32} {i b : ℕ} (h : firstClear (frames i) 0 32 = none)
    (hb : b / 32 = i) : busy frames b = true := by
  rw [busy, hb]
  exact firstClear_none (by omega) h _ (Nat.zero_le _) (by omega)

theorem freeFrameFrom_some {frames : ℕ → BitVec 32} {i k n : ℕ}
    (h : freeFrameFrom frames i k = some n) :
    n < (i + k) * 32 ∧ busy frames n = false ∧
      ∀ b, i * 32 ≤ b → b < n → busy frames b = true := by
  induction k generalizing i with
  | zero => simp [freeFrameFrom] at h
  | succ k ih =>
    rw [freeFrameFrom_succ] at h
    cases hbit : firstClear (frames i) 0 32 with
    | none =>
      rw [hbit] at h
      obtain ⟨h₁, h₂, h₃⟩ := ih h
      refine ⟨by omega, h₂, fun b hb hn => ?_⟩
      by_cases hbi : b / 32 = i
      · exact busy_of_word hbit hbi
      · exact h₃ b (by omega) hn
    | some j =>
      rw [hbit] at h
      simp only [Option.some.injEq] at h
      obtain ⟨h₁, h₂, h₃⟩ := firstClear_some (by omega) hbit
      have hdiv : n / 32 = i := by omega
      have hmod : n % 32 = j := by omega
      refine ⟨by omega, by rw [busy, hdiv, hmod, h₂], fun b hb hn => ?_⟩
      have hbdiv : b / 32 = i := by omega
      rw [busy, hbdiv]
      exact h₃ _ (Nat.zero_le _) (by omega)

theorem freeFrameFrom_none {frames : ℕ → BitVec 32} {i k : ℕ}
    (h : freeFrameFrom frames i k = none) :
    ∀ b, i * 32 ≤ b → b < (i + k) * 32 → busy frames b = true := by
  induction k generalizing i with
  | zero => exact fun b h₁ h₂ => by omega
  | succ k ih =>
    rw [freeFrameFrom_succ] at h
    cases hbit : firstClear (frames i) 0 32 with
    | none =>
      rw [hbit] at h
      intro b hb hn
      by_cases hbi : b / 32 = i
      · exact busy_of_word hbit hbi
      · exact ih h b (by omega) (by omega)
    | some j =>
      rw [hbit] at h
      simp at h

/-- The frame found is the least free one. -/
theorem getFreeFrame_some {s : State} {n : ℕ} (h : getFreeFrame s = some n) :
    busy s.frames n = false ∧ ∀ b < n, busy s.frames b = true := by
  obtain ⟨-, h₁, h₂⟩ := freeFrameFrom_some h
  exact ⟨h₁, fun b hb => h₂ b (by omega) hb⟩

/-- One of the `frameNumber_` frames is free. -/
def HasFreeFrame (s : State) : Prop := ∃ n < s.frameNumber, busy s.frames n = false

theorem getFreeFrame_of_hasFreeFrame {s : State} (h : HasFreeFrame s) :
    ∃ n < s.frameNumber, getFreeFrame s = some n ∧ busy s.frames n = false := by
  obtain ⟨b, hb, hfree⟩ := h
  cases hfind : getFreeFrame s with
  | none =>
    have := freeFrameFrom_none hfind b (by omega) (by omega)
    simp [hfree] at this
  | some n =>
    obtain ⟨h₁, h₂⟩ := getFreeFrame_some hfind
    refine ⟨n, ?_, rfl, h₁⟩
    by_contra hn
    have := h₂ b (by omega)
    simp [hfree] at this

/-- The entry that `allocFrame` writes. -/
def allocated (e : Page) (isKernel isWriteable : Bool) (index : ℕ) : Page :=
  { e with present := true, rw := isWriteable, user := !isKernel, frame := BitVec.ofNat 20 index }

theorem allocFrame_of_ne {s : State} {page : ℕ} (h : (s.pages page).frame ≠ 0)
    (isKernel isWriteable : Bool) : allocFrame s page isKernel isWriteable = (true, s) := by
  simp only [allocFrame, h, ↓reduceIte]

/-- What `allocFrame` does to an entry without a frame. -/
theorem allocFrame_eq {s : State} {page : ℕ} (h : (s.pages page).frame = 0) (hf : HasFreeFrame s)
    (isKernel isWriteable : Bool) :
    ∃ index < s.frameNumber, busy s.frames index = false ∧
      allocFrame s page isKernel isWriteable = (true, { s with
        frames := markBusy s.frames index
        pages := update s.pages page (allocated (s.pages page) isKernel isWriteable index) }) := by
  obtain ⟨n, hn, hfind, hfree⟩ := getFreeFrame_of_hasFreeFrame hf
  refine ⟨n, hn, hfree, ?_⟩
  simp only [allocFrame, h, ↓reduceIte, hfind]
  rfl

/-- No step of the allocator clears a bit. -/
def BitsKept (s s' : State) : Prop := ∀ n, busy s.frames n = true → busy s'.frames n = true

theorem BitsKept.refl (s : State) : BitsKept s s := fun _ h => h

theorem BitsKept.trans {s s' s'' : State} (h : BitsKept s s') (h' : BitsKept s' s'') :
    BitsKept s s'' :=
  fun n hn => h' n (h n hn)

theorem allocFrame_bitsKept (s : State) (page : ℕ) (isKernel isWriteable : Bool) :
    BitsKept s (allocFrame s page isKernel isWriteable).2 := by
  intro n hn
  by_cases h : (s.pages page).frame = 0
  · simp only [allocFrame, h, ↓reduceIte]
    cases getFreeFrame s with
    | none => exact hn
    | some index =>
      change busy (markBusy s.frames index) n = true
      rw [busy_markBusy, hn, Bool.true_or]
  · rw [allocFrame_of_ne h]
    exact hn

theorem cloneEntry_bitsKept (s : State) (src pTbl i : ℕ) : BitsKept s (cloneEntry s src pTbl i) := by
  unfold cloneEntry cloneEntryWith allocUser
  split
  · exact BitsKept.refl s
  · exact allocFrame_bitsKept s _ _ _

theorem cloneEntries_bitsKept (k : ℕ) (s : State) (src pTbl i : ℕ) :
    BitsKept s (cloneEntries s src pTbl i k) := by
  induction k generalizing s i with
  | zero => exact BitsKept.refl s
  | succ k ih => exact (cloneEntry_bitsKept s src pTbl i).trans (ih _ (i + 1))

/-- Every nonzero frame that an entry holds is in range, is busy and has no other
holder. -/
structure FramesOwned (s : State) : Prop where
  number : s.frameNumber ≤ 2 ^ 20
  held : ∀ p, (s.pages p).frame ≠ 0 →
    (s.pages p).frame.toNat < s.frameNumber ∧ busy s.frames (s.pages p).frame.toNat = true
  exclusive : ∀ p q, (s.pages p).frame ≠ 0 → (s.pages p).frame = (s.pages q).frame → p = q

theorem framesOwned_allocFrame {s : State} (h : FramesOwned s) {page : ℕ}
    (hf : (s.pages page).frame = 0 → HasFreeFrame s) (isKernel isWriteable : Bool) :
    FramesOwned (allocFrame s page isKernel isWriteable).2 := by
  by_cases h0 : (s.pages page).frame = 0
  · obtain ⟨n, hn, hfree, he⟩ := allocFrame_eq h0 (hf h0) isKernel isWriteable
    rw [he]
    have hnum := h.number
    have hnat : (BitVec.ofNat 20 n).toNat = n := by
      rw [BitVec.toNat_ofNat]
      exact Nat.mod_eq_of_lt (by omega)
    -- the new frame was free, so no other entry holds it
    have hother : ∀ q, (s.pages q).frame ≠ 0 → (s.pages q).frame ≠ BitVec.ofNat 20 n := by
      intro q hq heq
      have := (h.held q hq).2
      rw [heq, hnat, hfree] at this
      simp at this
    refine ⟨hnum, fun p hp => ?_, fun p q hp hpq => ?_⟩
    · by_cases hpp : p = page
      · subst hpp
        simp only [update_self, allocated, hnat, busy_markBusy]
        simpa using hn
      · simp only [update_of_ne hpp, busy_markBusy] at hp ⊢
        obtain ⟨h₁, h₂⟩ := h.held p hp
        exact ⟨h₁, by rw [h₂, Bool.true_or]⟩
    · by_cases hpp : p = page <;> by_cases hqp : q = page
      · rw [hpp, hqp]
      · subst hpp
        simp only [update_self, allocated, update_of_ne hqp] at hp hpq
        exact absurd hpq.symm (hother q (hpq ▸ hp))
      · subst hqp
        simp only [update_self, allocated, update_of_ne hpp] at hp hpq
        exact absurd hpq (hother p hp)
      · simp only [update_of_ne hpp, update_of_ne hqp] at hp hpq
        exact h.exclusive p q hp hpq
  · rw [allocFrame_of_ne h0]
    exact h

/-- Entries may lose their frame or keep it. -/
theorem FramesOwned.of_sub {s s' : State} (h : FramesOwned s) (hn : s'.frameNumber = s.frameNumber)
    (hb : BitsKept s s')
    (hp : ∀ p, (s'.pages p).frame ≠ 0 → (s'.pages p).frame = (s.pages p).frame) :
    FramesOwned s' where
  number := hn ▸ h.number
  held p hp' := by
    have he := hp p hp'
    obtain ⟨h₁, h₂⟩ := h.held p (he ▸ hp')
    rw [he, hn]
    exact ⟨h₁, hb _ h₂⟩
  exclusive p q hp' hpq := by
    have he := hp p hp'
    have he' := hp q (hpq ▸ hp')
    exact h.exclusive p q (he ▸ hp') (by rw [← he, ← he', hpq])

theorem framesOwned_freeFrame {s : State} (h : FramesOwned s) (page : ℕ) :
    FramesOwned (freeFrame s page) := by
  simp only [freeFrame]
  split
  · refine h.of_sub rfl (BitsKept.refl s) fun p hp => ?_
    by_cases hpp : p = page
    · subst hpp
      simp [State.setPage] at hp
    · simp [State.setPage, update_of_ne hpp]
  · exact h

theorem framesOwned_clearTable {s : State} (h : FramesOwned s) (table : ℕ) :
    FramesOwned (s.clearTable table) := by
  refine h.of_sub rfl (BitsKept.refl s) fun p hp => ?_
  simp only [State.clearTable] at hp ⊢
  split
  · next hc =>
    simp [hc, Page.zero] at hp
  · rfl

theorem framesOwned_cloneEntry {s : State} (h : FramesOwned s) {src pTbl i : ℕ}
    (hf : (s.pages (src + 4 * i)).frame ≠ 0 → (s.pages (pTbl + 4 * i)).frame = 0 → HasFreeFrame s) :
    FramesOwned (cloneEntry s src pTbl i) := by
  unfold cloneEntry cloneEntryWith allocUser
  split
  · exact h
  · next hsrc =>
    refine (framesOwned_allocFrame h (hf hsrc) false true).of_sub rfl (BitsKept.refl _) fun p hp => ?_
    by_cases hpp : p = pTbl + 4 * i
    · subst hpp
      simp [State.setPage]
    · simp [State.setPage, update_of_ne hpp]

/-- Each `allocFrame` of the loop that needs a frame finds one of the `frameNumber_`
frames free. -/
def EnoughFrames (s : State) (src pTbl i : ℕ) : ℕ → Prop
  | 0 => True
  | k + 1 => ((s.pages (src + 4 * i)).frame ≠ 0 → (s.pages (pTbl + 4 * i)).frame = 0 →
      HasFreeFrame s) ∧ EnoughFrames (cloneEntry s src pTbl i) src pTbl (i + 1) k

theorem framesOwned_cloneEntries (k : ℕ) {s : State} (h : FramesOwned s) {src pTbl i : ℕ}
    (hf : EnoughFrames s src pTbl i k) : FramesOwned (cloneEntries s src pTbl i k) := by
  induction k generalizing s i with
  | zero => exact h
  | succ k ih => exact ih (framesOwned_cloneEntry h hf.1) hf.2

inductive Action where
  | allocFrame (page : ℕ) (isKernel isWriteable : Bool)
  | freeFrame (page : ℕ)
  | clonePageTable (src pTbl : ℕ)

inductive Step : State → Action → State → Prop
  | allocFrame (s : State) (page : ℕ) (isKernel isWriteable : Bool) :
      Step s (.allocFrame page isKernel isWriteable) (allocFrame s page isKernel isWriteable).2
  | freeFrame (s : State) (page : ℕ) : Step s (.freeFrame page) (freeFrame s page)
  | clonePageTable (s : State) (src pTbl : ℕ) :
      Step s (.clonePageTable src pTbl) (clonePageTable s src pTbl)

/-- At each allocation one of the frames is free. -/
def Supplied (s : State) : Action → Prop
  | .allocFrame page _ _ => (s.pages page).frame = 0 → HasFreeFrame s
  | .freeFrame _ => True
  | .clonePageTable src pTbl => EnoughFrames (s.clearTable pTbl) src pTbl 0 1024

theorem step_bitsKept {s s' : State} {a : Action} (h : Step s a s') : BitsKept s s' := by
  cases h with
  | allocFrame page isKernel isWriteable => exact allocFrame_bitsKept s _ _ _
  | freeFrame page =>
    simp only [freeFrame]
    split <;> exact BitsKept.refl s
  | clonePageTable src pTbl => exact cloneEntries_bitsKept 1024 (s.clearTable pTbl) src pTbl 0

theorem framesOwned_step {s s' : State} {a : Action} (hs : FramesOwned s) (h : Step s a s')
    (hf : Supplied s a) : FramesOwned s' := by
  cases h with
  | allocFrame page isKernel isWriteable => exact framesOwned_allocFrame hs hf _ _
  | freeFrame page => exact framesOwned_freeFrame hs page
  | clonePageTable src pTbl =>
    exact framesOwned_cloneEntries 1024 (framesOwned_clearTable hs pTbl) hf

/-- The bitmap and the page entries are zero; `frameNumber_` comes from a memory size. -/
structure Cleared (s : State) : Prop where
  number : ∃ memSize < wordSize, s.frameNumber = memSize / pageSize
  bitmap : ∀ i < s.frameNumber / 32, s.frames i = 0
  entries : ∀ p, s.pages p = Page.zero

theorem framesOwned_cleared {s : State} (h : Cleared s) : FramesOwned s := by
  obtain ⟨memSize, hlt, hnum⟩ := h.number
  refine ⟨?_, fun p hp => ?_, fun p q hp _ => ?_⟩
  · rw [hnum]
    unfold wordSize at hlt
    unfold pageSize
    omega
  · simp [h.entries p, Page.zero] at hp
  · simp [h.entries p, Page.zero] at hp

/-- Frames are owned exclusively in every state of a run, and no step clears the bit
of a frame that is held. -/
theorem frames_exclusive {s s' : State} {as : List Action} (hs : Cleared s)
    (h : Run (guarded Step Supplied) s as s') :
    FramesOwned s' ∧ ∀ a s'', Step s' a s'' → ∀ p, (s''.pages p).frame ≠ 0 →
      busy s'.frames (s''.pages p).frame.toNat = true →
      busy s''.frames (s''.pages p).frame.toNat = true :=
  ⟨h.invariant (P := FramesOwned) (fun _ _ _ hs hstep => framesOwned_step hs hstep.1 hstep.2)
    (framesOwned_cleared hs), fun _ _ hstep _ _ hbusy => step_bitsKept hstep _ hbusy⟩

/-- Sixteen megabytes, no directories and no frame in use. -/
def blank : State where
  frames := fun _ => 0
  frameNumber := 0x1000000 / pageSize
  pageDirectory := 0
  currentPageDirectory := 0
  directories := fun _ => PageDirectory.zero
  pages := fun _ => Page.zero
  paging := false
  heapEnabled := false
  memory := fun _ => 0

/-- Two allocations, then the first entry gives its frame up. -/
def blankRun : State :=
  freeFrame (allocFrame (allocFrame blank 0x1000 true true).2 0x1004 false true).2 0x1000

theorem frames_exclusive_blank :
    FramesOwned blankRun ∧ ∀ a s'', Step blankRun a s'' → ∀ p, (s''.pages p).frame ≠ 0 →
      busy blankRun.frames (s''.pages p).frame.toNat = true →
      busy s''.frames (s''.pages p).frame.toNat = true :=
  frames_exclusive
    ⟨⟨0x1000000, by decide, rfl⟩, fun _ _ => rfl, fun _ => rfl⟩
    (Run.cons ⟨Step.allocFrame blank 0x1000 true true, fun _ => ⟨0, by decide, by decide⟩⟩
      (Run.cons ⟨Step.allocFrame _ 0x1004 false true, fun _ => ⟨5, by decide, by decide⟩⟩
        (Run.single ⟨Step.freeFrame _ 0x1000, trivial⟩)))

end ExperimentalKernel.Paging
