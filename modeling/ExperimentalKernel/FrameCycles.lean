import ExperimentalKernel.PageTableCloning

/-!
# Repeating and undoing `allocFrame`

`freeFrame` clears the frame number of an entry; the bit of the frame and the present
flag stay set. Whether an entry has a frame is read off its frame number, so frame 0
does not count as one.
-/

namespace ExperimentalKernel.Paging
open ByteMemory Function

section Cycles

/-- `allocFrame` and then `freeFrame` on one entry. -/
def cycle (s : State) (page : ℕ) (isKernel isWriteable : Bool) : State :=
  freeFrame (allocFrame s page isKernel isWriteable).2 page

def cycles (s : State) : List (ℕ × Bool × Bool) → State
  | [] => s
  | (page, isKernel, isWriteable) :: cs => cycles (cycle s page isKernel isWriteable) cs

/-- The entry and the bitmap are as if nothing had been allocated. -/
structure Undone (s s' : State) (page : ℕ) : Prop where
  bitmap : ∀ n < s.frameNumber, busy s'.frames n = busy s.frames n
  absent : (s'.pages page).present = false

/-- No frame is lost, and the present pages are those there were, with their frames. -/
structure Balanced (s s' : State) : Prop where
  free : freeFrames s' = freeFrames s
  owned : ∀ p, (s'.pages p).present = true → s'.pages p = s.pages p

/-- The entry that a cycle leaves behind. -/
def stale (e : Page) (isKernel isWriteable : Bool) : Page :=
  { e with present := true, rw := isWriteable, user := !isKernel, frame := 0 }

theorem freeFrame_eq (s : State) (page : ℕ) :
    freeFrame s page = s.setPage page { s.pages page with frame := 0 } := by
  rw [freeFrame]
  split
  · rfl
  · next h =>
    rw [ne_eq, not_not] at h
    rw [← h, State.setPage, update_eq_self]

/-- A cycle marks a frame and leaves the entry present. -/
theorem cycle_eq {s : State} {page : ℕ} (h : (s.pages page).frame = 0) (hf : HasFreeFrame s)
    (isKernel isWriteable : Bool) :
    ∃ n < s.frameNumber, busy s.frames n = false ∧
      cycle s page isKernel isWriteable = { s with
        frames := markBusy s.frames n
        pages := update s.pages page (stale (s.pages page) isKernel isWriteable) } := by
  obtain ⟨n, hn, hfree, he⟩ := allocFrame_eq h hf isKernel isWriteable
  refine ⟨n, hn, hfree, ?_⟩
  rw [cycle, he, freeFrame_eq]
  simp only [State.setPage, update_self, update_idem, allocated, stale]

/-- Bits, present flags and entries without a frame only accumulate. -/
structure Later (s s' : State) : Prop where
  number : s'.frameNumber = s.frameNumber
  bits : BitsKept s s'
  present : ∀ p, (s.pages p).present = true → (s'.pages p).present = true
  frameless : ∀ p, (s.pages p).frame = 0 → (s'.pages p).frame = 0

theorem Later.refl (s : State) : Later s s := ⟨rfl, BitsKept.refl s, fun _ h => h, fun _ h => h⟩

theorem Later.trans {s s' s'' : State} (h : Later s s') (h' : Later s' s'') : Later s s'' where
  number := h'.number.trans h.number
  bits := h.bits.trans h'.bits
  present p hp := h'.present p (h.present p hp)
  frameless p hp := h'.frameless p (h.frameless p hp)

/-- What a cycle can do. -/
theorem cycle_cases (s : State) (page : ℕ) (isKernel isWriteable : Bool) :
    cycle s page isKernel isWriteable = s.setPage page { s.pages page with frame := 0 } ∨
    ∃ n, cycle s page isKernel isWriteable = { s with
      frames := markBusy s.frames n
      pages := update s.pages page (stale (s.pages page) isKernel isWriteable) } := by
  by_cases h : (s.pages page).frame = 0
  · cases hfind : getFreeFrame s with
    | none =>
      refine .inl ?_
      rw [cycle, freeFrame_eq]
      simp only [allocFrame, h, ↓reduceIte, hfind]
    | some n =>
      refine .inr ⟨n, ?_⟩
      rw [cycle, freeFrame_eq]
      simp only [allocFrame, h, ↓reduceIte, hfind, State.setPage, update_self, update_idem, stale,
        markBusy]
  · refine .inl ?_
    rw [cycle, allocFrame_of_ne h, freeFrame_eq]

theorem Later.of_update {s : State} {frames : ℕ → BitVec 32} {page : ℕ} {e : Page}
    (hbits : ∀ n, busy s.frames n = true → busy frames n = true)
    (hpresent : (s.pages page).present = true → e.present = true) (hframe : e.frame = 0) :
    Later s { s with frames := frames, pages := update s.pages page e } := by
  refine ⟨rfl, hbits, fun p hp => ?_, fun p hp => ?_⟩
  · rcases eq_or_ne p page with rfl | hne
    · simpa using hpresent hp
    · simpa [update_of_ne hne] using hp
  · rcases eq_or_ne p page with rfl | hne
    · simpa using hframe
    · simpa [update_of_ne hne] using hp

theorem cycle_later (s : State) (page : ℕ) (isKernel isWriteable : Bool) :
    Later s (cycle s page isKernel isWriteable) := by
  rcases cycle_cases s page isKernel isWriteable with he | ⟨n, he⟩
  · rw [he]
    exact Later.of_update (fun _ h => h) id rfl
  · rw [he]
    refine Later.of_update (fun b hb => ?_) (fun _ => rfl) rfl
    rw [busy_markBusy, hb, Bool.true_or]

theorem cycles_later (cs : List (ℕ × Bool × Bool)) (s : State) : Later s (cycles s cs) := by
  induction cs generalizing s with
  | nil => exact Later.refl s
  | cons c cs ih => exact (cycle_later s c.1 c.2.1 c.2.2).trans (ih _)

/-- Every cycle costs a frame, as long as there are any. -/
theorem cycles_freeFrames (cs : List (ℕ × Bool × Bool)) {s : State}
    (hframe : ∀ c ∈ cs, (s.pages c.1).frame = 0) (hf : cs.length ≤ freeFrames s) :
    freeFrames (cycles s cs) + cs.length = freeFrames s := by
  induction cs generalizing s with
  | nil => rfl
  | cons c cs ih =>
    obtain ⟨page, isKernel, isWriteable⟩ := c
    rw [List.length_cons] at hf ⊢
    obtain ⟨n, hn, hfree, he⟩ := cycle_eq (hframe _ List.mem_cons_self)
      (hasFreeFrame_of_pos (Nat.zero_lt_of_lt hf)) isKernel isWriteable
    have hlost : freeFrames (cycle s page isKernel isWriteable) + 1 = freeFrames s := by
      rw [he]
      exact freeFrames_markBusy hn hfree rfl rfl
    have hlater := cycle_later s page isKernel isWriteable
    have hrest := ih (s := cycle s page isKernel isWriteable)
      (fun c hc => hlater.frameless c.1 (hframe c (List.mem_cons_of_mem _ hc))) (by omega)
    rw [cycles]
    omega

/-- The frame stays marked and the entry stays present. -/
theorem cycle_leaks {s : State} {page : ℕ} (hframe : (s.pages page).frame = 0)
    (hf : HasFreeFrame s) (isKernel isWriteable : Bool) :
    (∃ n < s.frameNumber, busy s.frames n = false ∧
      busy (cycle s page isKernel isWriteable).frames n = true) ∧
    ((cycle s page isKernel isWriteable).pages page).present = true := by
  obtain ⟨n, hn, hfree, he⟩ := cycle_eq hframe hf isKernel isWriteable
  rw [he]
  refine ⟨⟨n, hn, hfree, ?_⟩, ?_⟩
  · simp [busy_markBusy]
  · simp [stale]

/-- A pair of calls never restores what was there before, and no run of pairs does: every pair
costs a frame. -/
theorem freeFrame_never_undoes {s : State} {page : ℕ}
    (hf : ∃ n, 0 < n ∧ n < s.frameNumber ∧ busy s.frames n = false)
    (hframe : (s.pages page).frame = 0) (hpresent : (s.pages page).present = false)
    (isKernel isWriteable : Bool) :
    ¬ Undone s (cycle s page isKernel isWriteable) page ∧
      (∀ cs, ¬ Balanced s (cycles s ((page, isKernel, isWriteable) :: cs))) ∧
      ∀ cs, (∀ c ∈ cs, (s.pages c.1).frame = 0) → cs.length ≤ freeFrames s →
        freeFrames (cycles s cs) + cs.length = freeFrames s := by
  obtain ⟨b, -, hb, hfreeb⟩ := hf
  obtain ⟨⟨n, hn, hfree, hbusy⟩, hstale⟩ :=
    cycle_leaks hframe ⟨b, hb, hfreeb⟩ isKernel isWriteable
  refine ⟨?_, ?_, fun cs hcs hlen => cycles_freeFrames cs hcs hlen⟩
  · intro h
    rw [h.bitmap n hn, hfree] at hbusy
    cases hbusy
  · intro cs h
    -- later cycles do not take the flag back
    have hp := (cycles_later cs (cycle s page isKernel isWriteable)).present page hstale
    have howned := congrArg Page.present (h.owned page hp)
    rw [hpresent] at howned
    exact Bool.false_ne_true (howned.symm.trans hp)

theorem freeFrame_never_undoes_blank :
    ¬ Undone blank (cycle blank 0x1000 false true) 0x1000 ∧
      ∀ cs, ¬ Balanced blank (cycles blank ((0x1000, false, true) :: cs)) :=
  have h := freeFrame_never_undoes ⟨1, by decide, by decide, by decide⟩ rfl rfl false true
  ⟨h.1, h.2.1⟩

/-- The state of the first call at boot. -/
theorem freeFrame_does_not_undo :
    ¬ ∀ (s : State) (page : ℕ), (∃ n, 0 < n ∧ n < s.frameNumber ∧ busy s.frames n = false) →
      (s.pages page).frame = 0 → (s.pages page).present = false →
      Undone s (cycle s page false true) page := by
  intro h
  have hundone := h blank 0x1000 ⟨1, by decide, by decide, by decide⟩ rfl rfl
  exact absurd (hundone.bitmap 0 (by decide)) (by decide)

end Cycles

section Repeating

/-- A second call changes neither the entry nor a word of the bitmap. -/
def Settled (s : State) (page : ℕ) (isKernel isWriteable : Bool) : Prop :=
  ∀ isKernel' isWriteable',
    let s₁ := (allocFrame s page isKernel isWriteable).2
    let s₂ := (allocFrame s₁ page isKernel' isWriteable').2
    s₂.pages page = s₁.pages page ∧ s₂.frames = s₁.frames

/-- The search goes through as many words as there are frames. -/
def searched (s : State) : ℕ := s.frameNumber * 32

theorem getFreeFrame_eq_none_iff (s : State) :
    getFreeFrame s = none ↔ ∀ b < searched s, busy s.frames b = true := by
  constructor
  · intro h b hb
    exact freeFrameFrom_none h b (by omega) (by rw [Nat.zero_add]; exact hb)
  · intro h
    cases hfind : getFreeFrame s with
    | none => rfl
    | some n =>
      obtain ⟨hn, hfree, -⟩ := freeFrameFrom_some hfind
      rw [Nat.zero_add] at hn
      have hbusy := h n hn
      rw [hfree] at hbusy
      cases hbusy

theorem settled_of_ne {s : State} {page : ℕ} {isKernel isWriteable : Bool}
    (h : ((allocFrame s page isKernel isWriteable).2.pages page).frame ≠ 0) :
    Settled s page isKernel isWriteable := by
  intro isKernel' isWriteable'
  dsimp only
  rw [allocFrame_of_ne h]
  exact ⟨rfl, rfl⟩

/-- An entry that still has no frame is given another one, if there is one. -/
theorem settled_iff_none {s : State} {page : ℕ} {isKernel isWriteable : Bool}
    (h : ((allocFrame s page isKernel isWriteable).2.pages page).frame = 0) :
    Settled s page isKernel isWriteable ↔
      getFreeFrame (allocFrame s page isKernel isWriteable).2 = none := by
  rw [Settled]
  generalize (allocFrame s page isKernel isWriteable).2 = s₁ at h
  dsimp only
  cases hfind : getFreeFrame s₁ with
  | none =>
    refine iff_of_true (fun isKernel' isWriteable' => ?_) rfl
    have he : (allocFrame s₁ page isKernel' isWriteable').2 = s₁ := by
      simp only [allocFrame, h, ↓reduceIte, hfind]
    rw [he]
    exact ⟨rfl, rfl⟩
  | some n =>
    refine iff_of_false (fun hsettled => ?_) (Option.some_ne_none n)
    have hbits := (hsettled false true).2
    have hbusy := (getFreeFrame_some hfind).1
    have hmarked : (allocFrame s₁ page false true).2.frames = markBusy s₁.frames n := by
      simp only [allocFrame, h, ↓reduceIte, hfind]
      rfl
    rw [hmarked] at hbits
    have hset : busy (markBusy s₁.frames n) n = true := by simp [busy_markBusy]
    rw [hbits, hbusy] at hset
    cases hset

/-- `frameNumber_` comes from a memory size of 32 bits. -/
def Sized (s : State) : Prop := ∃ memSize < wordSize, s.frameNumber = memSize / pageSize

theorem Sized.le {s : State} (h : Sized s) : s.frameNumber ≤ 2 ^ 20 := by
  obtain ⟨memSize, hlt, he⟩ := h
  rw [he]
  exact (Nat.div_lt_of_lt_mul hlt).le

theorem ofNat_eq_zero_iff {n : ℕ} (h : n < 2 ^ 20) : BitVec.ofNat 20 n = 0 ↔ n = 0 := by
  constructor
  · intro h0
    have hnat := congrArg BitVec.toNat h0
    rw [BitVec.toNat_ofNat, Nat.mod_eq_of_lt h] at hnat
    exact hnat
  · rintro rfl
    rfl

/-- Once frame 0 is marked the search fails if no other frame is free. -/
theorem none_after_zero {s s' : State} (hnum : s'.frameNumber = s.frameNumber)
    (hmarked : s'.frames = markBusy s.frames 0) :
    getFreeFrame s' = none ↔ ∀ b, 0 < b → b < searched s → busy s.frames b = true := by
  rw [getFreeFrame_eq_none_iff, searched, hnum, hmarked]
  constructor
  · intro h b hpos hb
    have hbusy := h b hb
    rw [busy_markBusy] at hbusy
    simpa [hpos.ne'] using hbusy
  · intro h b hb
    rw [busy_markBusy]
    cases b with
    | zero => simp
    | succ b => rw [h _ b.succ_pos hb, Bool.true_or]

/-- `allocFrame` can be repeated unless the first call hands out frame 0 and a further
frame is there for the second one. -/
theorem allocFrame_settled_iff {s : State} (hnum : Sized s) (hf : HasFreeFrame s) (page : ℕ)
    (isKernel isWriteable : Bool) :
    Settled s page isKernel isWriteable ↔
      (s.pages page).frame ≠ 0 ∨ busy s.frames 0 = true ∨
        ∀ b, 0 < b → b < searched s → busy s.frames b = true := by
  by_cases hframe : (s.pages page).frame = 0
  · obtain ⟨n, hn, hfind, hfree⟩ := getFreeFrame_of_hasFreeFrame hf
    have he : (allocFrame s page isKernel isWriteable).2 = { s with
        frames := markBusy s.frames n
        pages := update s.pages page (allocated (s.pages page) isKernel isWriteable n) } := by
      simp only [allocFrame, hframe, ↓reduceIte, hfind]
      rfl
    have hentry : ((allocFrame s page isKernel isWriteable).2.pages page).frame = 0 ↔ n = 0 := by
      rw [he]
      simp only [update_self, allocated]
      exact ofNat_eq_zero_iff (hn.trans_le hnum.le)
    rcases Nat.eq_zero_or_pos n with rfl | hpos
    · rw [settled_iff_none (hentry.mpr rfl), none_after_zero (s := s) (by rw [he]) (by rw [he])]
      simp [hframe, hfree]
    · have hzero : busy s.frames 0 = true := (getFreeFrame_some hfind).2 0 hpos
      exact iff_of_true (settled_of_ne fun h0 => hpos.ne' (hentry.mp h0)) (.inr (.inl hzero))
  · refine iff_of_true (settled_of_ne ?_) (.inl hframe)
    rw [allocFrame_of_ne hframe]
    exact hframe

/-- Only frame 0 is in use. -/
def zeroBusy : State := { blank with frames := markBusy blank.frames 0 }

theorem allocFrame_settled_iff_zeroBusy :
    Settled zeroBusy 0x1000 false true ↔
      (zeroBusy.pages 0x1000).frame ≠ 0 ∨ busy zeroBusy.frames 0 = true ∨
        ∀ b, 0 < b → b < searched zeroBusy → busy zeroBusy.frames b = true :=
  allocFrame_settled_iff ⟨0x1000000, by decide, rfl⟩ ⟨1, by decide, by decide⟩ 0x1000 false true

/-- The first page at boot gets frame 0, and a second call moves it to frame 1. -/
theorem allocFrame_not_settled :
    ¬ ∀ (s : State) (page : ℕ), Sized s → HasFreeFrame s → Settled s page false true := by
  intro h
  have hsettled := h blank 0x1000 ⟨0x1000000, by decide, rfl⟩ ⟨0, by decide, by decide⟩
  have hframe := congrArg Page.frame (hsettled false true).1
  exact absurd hframe (by decide)

end Repeating

end ExperimentalKernel.Paging
