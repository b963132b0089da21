import ExperimentalKernel.FrameChains

/-!
# Moving the stack

`changeStack` of `process.cpp`. Memory is what the running process sees, and an access to
a page that is not present ends in the `for(;;)` of the page fault handler. Where
`allocFrame` finds a frame for a page that has none, `fresh` tells what the frame holds.
-/

namespace ExperimentalKernel.StackMoving
open ByteMemory FrameChains Function

structure VirtualMemory where
  present : ℕ → Bool
  memory : Mem

/-- The `n` bytes at `a` are in pages that are present. -/
def VirtualMemory.CanAccess (s : VirtualMemory) (a n : ℕ) : Prop :=
  ∀ k < n, s.present ((a + k) / 0x1000) = true

instance (s : VirtualMemory) (a n : ℕ) : Decidable (s.CanAccess a n) :=
  inferInstanceAs (Decidable (∀ k < n, _))

/-- `pmmu.allocFrame(pmmu.getPage(i, true, currentPageDirectory_), false, true)`. -/
def VirtualMemory.allocFrame (s : VirtualMemory) (fresh : ℕ → Option Mem) (i : ℕ) : VirtualMemory :=
  if s.present (i / 0x1000) then s
  else
    match fresh (i / 0x1000) with
    | none => s
    | some bytes =>
      { present := update s.present (i / 0x1000) true
        memory := fun x => if x / 0x1000 = i / 0x1000 then bytes x else s.memory x }

/-- The loop over the pages of the new stack. One that has not ended after 2^32 turns has
taken all values of `i` and never ends. -/
def allocStack (fresh : ℕ → Option Mem) (low i : ℕ) (s : VirtualMemory) : ℕ → Option VirtualMemory
  | 0 => none
  | turns + 1 =>
    if i ≥ low then allocStack fresh low (sub32 i 0x1000) (s.allocFrame fresh i) turns else some s

def memcpy (s : VirtualMemory) (dest src : ℕ) : ℕ → Option VirtualMemory
  | 0 => some s
  | count + 1 =>
    if s.CanAccess src 1 ∧ s.CanAccess dest 1 then
      memcpy { s with memory := write8 s.memory dest (s.memory src) } (dest + 1) (src + 1) count
    else none

/-- One turn of the loop over the words of the new stack. -/
def moveWord (oldEsp initialEsp offset i : ℕ) (s : VirtualMemory) : VirtualMemory :=
  let tmp := read32 s.memory i
  if oldEsp < tmp ∧ tmp < initialEsp then
    { s with memory := write32 s.memory i (add32 tmp offset) }
  else s

def moveWords (oldEsp initialEsp offset low i : ℕ) (s : VirtualMemory) : ℕ → Option VirtualMemory
  | 0 => none
  | turns + 1 =>
    if i > low then
      if s.CanAccess i 4 then
        moveWords oldEsp initialEsp offset low (sub32 i 4) (moveWord oldEsp initialEsp offset i s) turns
      else none
    else some s

/-- The memory and the two registers afterwards. -/
structure NewStack where
  state : VirtualMemory
  esp : ℕ
  ebp : ℕ

def changeStack (s : VirtualMemory) (fresh : ℕ → Option Mem)
    (initialEsp oldEsp oldEbp newStartAddr newSize : ℕ) : Option NewStack := do
  let low := sub32 newStartAddr newSize
  let s₁ ← allocStack fresh low newStartAddr s wordSize
  let offset := sub32 newStartAddr initialEsp
  let newEsp := add32 newStartAddr (sub32 oldEsp initialEsp)
  let newEbp := add32 newStartAddr (sub32 oldEbp initialEsp)
  let s₂ ← memcpy s₁ newEsp oldEsp (sub32 initialEsp oldEsp)
  let s₃ ← moveWords oldEsp initialEsp offset low newStartAddr s₂ wordSize
  return ⟨s₃, newEsp, newEbp⟩

section Loops

variable {s s' : VirtualMemory} {fresh : ℕ → Option Mem}

theorem allocFrame_present (p i : ℕ) :
    (s.allocFrame fresh i).present p = true ↔
      s.present p = true ∨ p = i / 0x1000 ∧ (fresh p).isSome := by
  unfold VirtualMemory.allocFrame
  split
  · next h =>
    refine ⟨Or.inl, ?_⟩
    rintro (hp | ⟨rfl, -⟩)
    · exact hp
    · exact h
  · split
    · next hnone =>
      refine ⟨Or.inl, ?_⟩
      rintro (hp | ⟨rfl, hsome⟩)
      · exact hp
      · rw [hnone] at hsome
        cases hsome
    · next hsome =>
      dsimp only
      rcases eq_or_ne p (i / 0x1000) with rfl | hne
      · simp only [update_self, hsome, Option.isSome_some, and_self, or_true]
      · simp only [update_of_ne hne, hne, false_and, or_false]

theorem allocFrame_memory {x : ℕ} (h : s.present (x / 0x1000) = true) (i : ℕ) :
    (s.allocFrame fresh i).memory x = s.memory x := by
  unfold VirtualMemory.allocFrame
  split
  · rfl
  · next hi =>
    split
    · rfl
    · refine if_neg fun he => hi ?_
      rw [← he]
      exact h

/-- The pages of the new stack: `k` whole pages below the first address, and its own. -/
theorem allocStack_spec (k : ℕ) {low i turns : ℕ} (hlow : 0x1000 ≤ low) (hk : low + 0x1000 * k ≤ i)
    (hi : i < low + 0x1000 * (k + 1)) (hturns : k + 1 < turns) :
    ∃ s', allocStack fresh low i s turns = some s' ∧
      (∀ p, s'.present p = true ↔ s.present p = true ∨
        (i / 0x1000 - k ≤ p ∧ p ≤ i / 0x1000) ∧ (fresh p).isSome) ∧
      ∀ x, s.present (x / 0x1000) = true → s'.memory x = s.memory x := by
  induction k generalizing i s turns with
  | zero =>
    obtain ⟨turns, rfl⟩ : ∃ t, turns = t + 2 := ⟨turns - 2, by omega⟩
    refine ⟨s.allocFrame fresh i, ?_, ?_, fun x hx => allocFrame_memory hx i⟩
    · have hnext : sub32 i 0x1000 = i - 0x1000 := sub32_eq (by omega)
      rw [allocStack, if_pos (by omega), hnext, allocStack, if_neg (by omega)]
    · intro p
      rw [allocFrame_present]
      apply or_congr_right
      apply and_congr_left'
      omega
  | succ k ih =>
    obtain ⟨turns, rfl⟩ : ∃ t, turns = t + 1 := ⟨turns - 1, by omega⟩
    have hle : 0x1000 ≤ i := hlow.trans ((Nat.le_add_right _ _).trans hk)
    have hnext : sub32 i 0x1000 = i - 0x1000 := sub32_eq hle
    have hpage : (i - 0x1000) / 0x1000 = i / 0x1000 - 1 := by omega
    obtain ⟨s', hs', hpresent, hmemory⟩ := @ih (s.allocFrame fresh i) (i - 0x1000) turns
      (by omega) (by omega) (by omega)
    refine ⟨s', ?_, ?_, ?_⟩
    · rw [allocStack, if_pos (by omega), hnext]
      exact hs'
    · intro p
      rw [hpresent, allocFrame_present, hpage, or_assoc, ← or_and_right]
      apply or_congr_right
      apply and_congr_left'
      omega
    · intro x hx
      rw [hmemory x ((allocFrame_present _ i).mpr (.inl hx)), allocFrame_memory hx]

theorem canAccess_congr {n : ℕ} (h : s'.present = s.present) {a : ℕ} :
    s'.CanAccess a n ↔ s.CanAccess a n := by
  unfold VirtualMemory.CanAccess
  rw [h]

/-- Between pages that are present `memcpy` copies byte by byte. -/
theorem memcpy_spec (count : ℕ) {dest src : ℕ} (hsrc : s.CanAccess src count)
    (hdest : s.CanAccess dest count) (hdisjoint : src + count ≤ dest ∨ dest + count ≤ src) :
    ∃ m, memcpy s dest src count = some { s with memory := m } ∧
      (∀ k < count, m (dest + k) = s.memory (src + k)) ∧ AgreeOff s.memory m dest (dest + count) := by
  induction count generalizing s dest src with
  | zero => exact ⟨s.memory, rfl, fun k hk => absurd hk (Nat.not_lt_zero k), AgreeOff.refl _ _ _⟩
  | succ count ih =>
    have hfirst : s.CanAccess src 1 ∧ s.CanAccess dest 1 :=
      ⟨fun k hk => hsrc k (by omega), fun k hk => hdest k (by omega)⟩
    have hrest : ∀ a, s.CanAccess a (count + 1) → s.CanAccess (a + 1) count := by
      intro a ha k hk
      rw [Nat.add_assoc, Nat.add_comm 1 k]
      exact ha (k + 1) (by omega)
    obtain ⟨m, hm, hcopied, hoff⟩ := ih (s := { s with memory := write8 s.memory dest (s.memory src) })
      (hrest src hsrc) (hrest dest hdest) (by omega)
    refine ⟨m, ?_, ?_, ?_⟩
    · rw [memcpy, if_pos hfirst]
      exact hm
    · intro k hk
      cases k with
      | zero =>
        rw [hoff _ (by omega)]
        exact write8_same _ _ _
      | succ k =>
        have hbyte := hcopied k (by omega)
        rw [Nat.add_assoc, Nat.add_comm 1 k, Nat.add_assoc, Nat.add_comm 1 k] at hbyte
        rw [hbyte]
        exact write8_of_ne _ _ (by omega)
    · exact (agreeOff_write8 _ _ le_rfl (by omega)).trans (hoff.mono (by omega) (by omega))

section Words

variable {oldEsp initialEsp offset low : ℕ}

/-- What the loop makes of a word. -/
def newWord (oldEsp initialEsp offset tmp : ℕ) : ℕ :=
  if oldEsp < tmp ∧ tmp < initialEsp then add32 tmp offset else tmp

theorem moveWord_present (oldEsp initialEsp offset i : ℕ) (s : VirtualMemory) :
    (moveWord oldEsp initialEsp offset i s).present = s.present := by
  unfold moveWord
  dsimp only
  split <;> rfl

theorem moveWord_word (oldEsp initialEsp offset i : ℕ) (s : VirtualMemory) :
    read32 (moveWord oldEsp initialEsp offset i s).memory i =
      newWord oldEsp initialEsp offset (read32 s.memory i) := by
  unfold moveWord newWord
  dsimp only
  split
  · exact read32_write32 _ _ (add32_lt _ _)
  · rfl

theorem moveWord_agreeOff (oldEsp initialEsp offset i : ℕ) (s : VirtualMemory) :
    AgreeOff s.memory (moveWord oldEsp initialEsp offset i s).memory i (i + 4) := by
  unfold moveWord
  dsimp only
  split
  · exact agreeOff_write32 _ _ le_rfl le_rfl
  · exact AgreeOff.refl _ _ _

/-- The loop rewrites each of the `k` words above `b` once, going down. -/
theorem moveWords_spec (k : ℕ) {b turns : ℕ} (hb : b ≤ low) (hlow : low < b + 4) (hturns : k < turns)
    (haccess : ∀ j, 1 ≤ j → j ≤ k → s.CanAccess (b + 4 * j) 4) :
    ∃ m, moveWords oldEsp initialEsp offset low (b + 4 * k) s turns = some { s with memory := m } ∧
      (∀ j, 1 ≤ j → j ≤ k →
        read32 m (b + 4 * j) = newWord oldEsp initialEsp offset (read32 s.memory (b + 4 * j))) ∧
      AgreeOff s.memory m (b + 4) (b + 4 * k + 4) := by
  induction k generalizing s turns with
  | zero =>
    obtain ⟨turns, rfl⟩ : ∃ t, turns = t + 1 := ⟨turns - 1, by omega⟩
    refine ⟨s.memory, ?_, fun j h₁ h₂ => by omega, AgreeOff.refl _ _ _⟩
    rw [moveWords, if_neg (by omega)]
  | succ k ih =>
    obtain ⟨turns, rfl⟩ : ∃ t, turns = t + 1 := ⟨turns - 1, by omega⟩
    have hnext : sub32 (b + 4 * (k + 1)) 4 = b + 4 * k := by
      rw [sub32_eq (by omega)]
      omega
    have hword := moveWord_word oldEsp initialEsp offset (b + 4 * (k + 1)) s
    have hpresent := moveWord_present oldEsp initialEsp offset (b + 4 * (k + 1)) s
    have hoff := moveWord_agreeOff oldEsp initialEsp offset (b + 4 * (k + 1)) s
    rw [moveWords, if_pos (by omega), if_pos (haccess (k + 1) (by omega) le_rfl), hnext]
    generalize moveWord oldEsp initialEsp offset (b + 4 * (k + 1)) s = s₁ at hword hpresent hoff ⊢
    obtain ⟨m, hm, hwords, hrest⟩ := @ih s₁ turns (by omega)
      fun j h₁ h₂ => (canAccess_congr hpresent).mpr (haccess j h₁ (by omega))
    refine ⟨m, ?_, ?_, ?_⟩
    · rw [hm, hpresent]
    · intro j h₁ h₂
      rcases Nat.lt_or_ge k j with hj | hj
      · obtain rfl : j = k + 1 := by omega
        rw [← hword]
        exact read32_congr (hrest.agreeOn (by omega))
      · rw [hwords j h₁ hj, read32_congr (hoff.agreeOn (by omega))]
    · exact (hoff.mono (by omega) (by omega)).trans (hrest.mono le_rfl (by omega))

/-- It comes to its end only if all these words can be accessed. -/
theorem moveWords_access (k : ℕ) {b turns : ℕ} (hlow : low < b + 4)
    (h : moveWords oldEsp initialEsp offset low (b + 4 * k) s turns = some s') :
    ∀ j, 1 ≤ j → j ≤ k → s.CanAccess (b + 4 * j) 4 := by
  induction k generalizing s turns with
  | zero => exact fun j h₁ h₂ => by omega
  | succ k ih =>
    cases turns with
    | zero => cases h
    | succ turns =>
      have hnext : sub32 (b + 4 * (k + 1)) 4 = b + 4 * k := by
        rw [sub32_eq (by omega)]
        omega
      rw [moveWords, if_pos (by omega), hnext] at h
      split at h
      · next haccess =>
        intro j h₁ h₂
        rcases Nat.lt_or_ge k j with hj | hj
        · obtain rfl : j = k + 1 := by omega
          exact haccess
        · exact (canAccess_congr (moveWord_present _ _ _ _ _)).mp (ih h j h₁ hj)
      · cases h

end Words

end Loops

/-- The stack between `oldEsp` and `initialEsp` and a place for it. -/
structure StackMove (initialEsp oldEsp newStartAddr newSize : ℕ) : Prop where
  alignedOld : 4 ∣ oldEsp
  alignedEnd : 4 ∣ initialEsp
  alignedNew : 4 ∣ newStartAddr
  ordered : oldEsp ≤ initialEsp
  word : initialEsp < wordSize
  small : initialEsp - oldEsp < newSize
  low : newSize + 4096 ≤ newStartAddr
  high : newStartAddr < wordSize - 4096
  disjoint : initialEsp ≤ newStartAddr - newSize ∨ newStartAddr ≤ oldEsp

/-- Every frame of the chain and every word that is no pointer into the stack is kept. -/
structure StackKept (s : VirtualMemory) (r : NewStack) (initialEsp oldEsp oldEbp newStartAddr n : ℕ) :
    Prop where
  esp : r.esp = moved initialEsp newStartAddr oldEsp
  frames : walk r.state.memory newStartAddr r.ebp n =
    (walk s.memory initialEsp oldEbp n).map fun f => (moved initialEsp newStartAddr f.1, f.2)
  words : ∀ a, oldEsp ≤ a → a < initialEsp → 4 ∣ a →
    ¬ Inside oldEsp initialEsp (read32 s.memory a) →
    read32 r.state.memory (moved initialEsp newStartAddr a) = read32 s.memory a

/-- The page of the lowest word that the last loop visits. -/
def lowestPage (newStartAddr newSize : ℕ) : ℕ :=
  (newStartAddr - 4 * ((newSize + 3) / 4) + 4) / 0x1000

/-- The pages of the new stack were present before or are given a frame. The first loop
takes as many pages as there are whole ones in `newSize`, and the one of `newStartAddr`. -/
def Backed (s : VirtualMemory) (fresh : ℕ → Option Mem) (newStartAddr newSize : ℕ) : Prop :=
  ∀ p, lowestPage newStartAddr newSize ≤ p → p ≤ newStartAddr / 0x1000 →
    s.present p = true ∨ newStartAddr / 0x1000 - newSize / 0x1000 ≤ p ∧ (fresh p).isSome

section Moving

variable {s : VirtualMemory} {fresh : ℕ → Option Mem} {initialEsp oldEsp oldEbp newStartAddr newSize n : ℕ}

theorem StackMove.newWord_eq (h : StackMove initialEsp oldEsp newStartAddr newSize) (v : ℕ) :
    newWord oldEsp initialEsp (sub32 newStartAddr initialEsp) v =
      relocate oldEsp initialEsp newStartAddr v := by
  by_cases hv : oldEsp < v ∧ v < initialEsp
  · have hrelocate : relocate oldEsp initialEsp newStartAddr v = moved initialEsp newStartAddr v :=
      if_pos hv
    rw [newWord, if_pos hv, hrelocate]
    obtain ⟨-, -, -, hle, hword, hsmall, hlow, hhigh, -⟩ := h
    obtain ⟨hlo, hhi⟩ := hv
    unfold add32 sub32 moved wordSize at *
    split <;> omega
  · have hrelocate : relocate oldEsp initialEsp newStartAddr v = v := if_neg hv
    rw [newWord, if_neg hv, hrelocate]

/-- The registers are shifted, with all wrapping around. -/
theorem StackMove.add32_eq (h : StackMove initialEsp oldEsp newStartAddr newSize) {a : ℕ}
    (hl : oldEsp ≤ a) (hh : a ≤ initialEsp) :
    add32 newStartAddr (sub32 a initialEsp) = moved initialEsp newStartAddr a := by
  obtain ⟨-, -, -, hle, hword, hsmall, hlow, hhigh, -⟩ := h
  unfold add32 sub32 moved wordSize at *
  split <;> omega

theorem canAccess_word {a : ℕ} (ha : 4 ∣ a) : s.CanAccess a 4 ↔ s.present (a / 0x1000) = true := by
  have hpage : ∀ k < 4, (a + k) / 0x1000 = a / 0x1000 := fun k hk => by omega
  constructor
  · exact fun h => h 0 (by decide)
  · intro h k hk
    rw [hpage k hk]
    exact h

/-- The words that are visited, as multiples of four above `b`. -/
theorem StackMove.words_iff (h : StackMove initialEsp oldEsp newStartAddr newSize)
    {s₁ : VirtualMemory} (hs₁ : ∀ p, s₁.present p = true ↔ s.present p = true ∨
      (newStartAddr / 0x1000 - newSize / 0x1000 ≤ p ∧ p ≤ newStartAddr / 0x1000) ∧ (fresh p).isSome)
    {b k : ℕ} (hk : k = (newSize + 3) / 4) (hb : b + 4 * k = newStartAddr) :
    (∀ j, 1 ≤ j → j ≤ k → s₁.CanAccess (b + 4 * j) 4) ↔ Backed s fresh newStartAddr newSize := by
  obtain ⟨-, -, haligned, -, -, hsmall, hlow, -, -⟩ := h
  have hword : ∀ j, s₁.CanAccess (b + 4 * j) 4 ↔ s₁.present ((b + 4 * j) / 0x1000) = true :=
    fun j => canAccess_word (by omega)
  have hlowest : lowestPage newStartAddr newSize = (b + 4) / 0x1000 := by
    rw [lowestPage, ← hk, ← hb, Nat.add_sub_cancel]
  unfold Backed
  rw [hlowest]
  constructor
  · intro hall p hl hh
    -- a word of page `p`: the lowest one, or the first of the page
    obtain ⟨j, h₁, h₂, hp⟩ : ∃ j, 1 ≤ j ∧ j ≤ k ∧ (b + 4 * j) / 0x1000 = p := by
      rcases Nat.lt_or_ge (b + 4) (0x1000 * p) with hlt | hge
      · exact ⟨(0x1000 * p - b) / 4, by omega, by omega, by omega⟩
      · exact ⟨1, le_rfl, by omega, by omega⟩
    have hpage := (hs₁ _).mp ((hword j).mp (hall j h₁ h₂))
    rw [hp] at hpage
    exact hpage.imp_right fun hfresh => ⟨hfresh.1.1, hfresh.2⟩
  · intro hbacked j h₁ h₂
    have htop : (b + 4 * j) / 0x1000 ≤ newStartAddr / 0x1000 := Nat.div_le_div_right (by omega)
    rw [hword, hs₁]
    exact (hbacked _ (Nat.div_le_div_right (by omega)) htop).imp_right fun hfresh =>
      ⟨⟨hfresh.1, htop⟩, hfresh.2⟩

/-- When no page lacks a frame it is about the lowest page: an incomplete page at the end is
left out, unless `newStartAddr` stands high enough in its page. -/
theorem StackMove.backed_iff (h : StackMove initialEsp oldEsp newStartAddr newSize)
    (s : VirtualMemory) (hfresh : ∀ p, (fresh p).isSome) :
    Backed s fresh newStartAddr newSize ↔ newSize % 0x1000 ≤ newStartAddr % 0x1000 + 4 ∨
      s.present (newStartAddr / 0x1000 - newSize / 0x1000 - 1) = true := by
  obtain ⟨-, -, haligned, -, -, hsmall, hlow, -, -⟩ := h
  unfold Backed lowestPage
  constructor
  · intro hbacked
    rcases Nat.lt_or_ge (newStartAddr % 0x1000 + 4) (newSize % 0x1000) with hlt | hge
    · right
      exact (hbacked _ (by omega) (by omega)).resolve_right fun hnot => by omega
    · exact .inl hge
  · intro hor p hl hh
    rcases Nat.lt_or_ge p (newStartAddr / 0x1000 - newSize / 0x1000) with hlt | hge
    · left
      have hp : p = newStartAddr / 0x1000 - newSize / 0x1000 - 1 := by omega
      rw [hp]
      exact hor.resolve_left (by omega)
    · exact .inr ⟨hge, hfresh p⟩

theorem read32_copied {m m' : Mem} {a a' : ℕ} (h : ∀ k < 4, m' (a' + k) = m (a + k)) :
    read32 m' a' = read32 m a := by
  have h₀ : m' a' = m a := h 0 (by decide)
  rw [read32, read32, h₀, h 1 (by decide), h 2 (by decide), h 3 (by decide)]

theorem memcpy_present (count : ℕ) {s' : VirtualMemory} {dest src : ℕ}
    (h : memcpy s dest src count = some s') : s'.present = s.present := by
  induction count generalizing s dest src with
  | zero =>
    cases h
    rfl
  | succ count ih =>
    rw [memcpy] at h
    split at h
    · have hrest := ih h
      exact hrest
    · cases h

theorem changeStack_eq (s : VirtualMemory) (fresh : ℕ → Option Mem)
    (initialEsp oldEsp oldEbp newStartAddr newSize : ℕ) :
    changeStack s fresh initialEsp oldEsp oldEbp newStartAddr newSize =
      (allocStack fresh (sub32 newStartAddr newSize) newStartAddr s wordSize).bind fun s₁ =>
        (memcpy s₁ (add32 newStartAddr (sub32 oldEsp initialEsp)) oldEsp
          (sub32 initialEsp oldEsp)).bind fun s₂ =>
          (moveWords oldEsp initialEsp (sub32 newStartAddr initialEsp) (sub32 newStartAddr newSize)
            newStartAddr s₂ wordSize).map fun s₃ =>
              ⟨s₃, add32 newStartAddr (sub32 oldEsp initialEsp),
                add32 newStartAddr (sub32 oldEbp initialEsp)⟩ := by
  simp only [changeStack, Option.bind_eq_bind, Option.pure_def, Option.map_eq_bind, Function.comp_def]

/-- The copied region after all words of the new stack have been rewritten. -/
theorem StackMove.relocated (h : StackMove initialEsp oldEsp newStartAddr newSize) {m m₁ m₂ m₃ : Mem}
    {b k : ℕ} (hk : k = (newSize + 3) / 4) (hb : b + 4 * k = newStartAddr)
    (h₁ : ∀ x, oldEsp ≤ x → x < initialEsp → m₁ x = m x)
    (h₂ : ∀ j < initialEsp - oldEsp, m₂ (moved initialEsp newStartAddr oldEsp + j) = m₁ (oldEsp + j))
    (h₃ : ∀ j, 1 ≤ j → j ≤ k → read32 m₃ (b + 4 * j) =
      newWord oldEsp initialEsp (sub32 newStartAddr initialEsp) (read32 m₂ (b + 4 * j))) :
    Relocated m m₃ oldEsp initialEsp newStartAddr := by
  intro a hl hh ha
  have hcopied : read32 m₂ (moved initialEsp newStartAddr a) = read32 m a := by
    apply read32_copied
    intro j hj
    have hbyte := h₂ (a - oldEsp + j) (by have := h.alignedEnd; omega)
    have hto : moved initialEsp newStartAddr oldEsp + (a - oldEsp + j) =
        moved initialEsp newStartAddr a + j := by
      have hsmall := h.small
      have hlow := h.low
      unfold moved
      omega
    have hfrom : oldEsp + (a - oldEsp + j) = a + j := by omega
    rw [hto, hfrom, h₁ (a + j) (by omega) (by have := h.alignedEnd; omega)] at hbyte
    exact hbyte
  have hindex : moved initialEsp newStartAddr a = b + 4 * (k - (initialEsp - a) / 4) := by
    obtain ⟨-, hend, -, -, -, hsmall, hlow, -, -⟩ := h
    unfold moved
    omega
  have hrange : 1 ≤ k - (initialEsp - a) / 4 := by
    obtain ⟨-, hend, -, -, -, hsmall, hlow, -, -⟩ := h
    omega
  rw [hindex, h₃ _ hrange (Nat.sub_le _ _), ← hindex, hcopied, h.newWord_eq]

theorem StackMove.apart (h : StackMove initialEsp oldEsp newStartAddr newSize) :
    oldEsp + (initialEsp - oldEsp) ≤ moved initialEsp newStartAddr oldEsp ∨
      moved initialEsp newStartAddr oldEsp + (initialEsp - oldEsp) ≤ oldEsp := by
  obtain ⟨-, -, -, hle, -, hsmall, hlow, -, hdisjoint⟩ := h
  unfold moved
  omega

theorem StackMove.dest_canAccess (h : StackMove initialEsp oldEsp newStartAddr newSize)
    {s₁ : VirtualMemory} {b k : ℕ} (hk : k = (newSize + 3) / 4) (hb : b + 4 * k = newStartAddr)
    (haccess : ∀ j, 1 ≤ j → j ≤ k → s₁.CanAccess (b + 4 * j) 4) :
    s₁.CanAccess (moved initialEsp newStartAddr oldEsp) (initialEsp - oldEsp) := by
  obtain ⟨hold, hend, hnew, -, -, hsmall, hlow, -, -⟩ := h
  intro x hx
  have hwithin : b + 4 ≤ moved initialEsp newStartAddr oldEsp + x ∧
      moved initialEsp newStartAddr oldEsp + x < newStartAddr := by
    unfold moved
    omega
  generalize moved initialEsp newStartAddr oldEsp + x = y at hwithin
  have hy : b + 4 * ((y - b) / 4) + (y - b) % 4 = y := by omega
  rw [← hy]
  exact haccess _ (by omega) (by omega) _ (Nat.mod_lt _ (by decide))

/-- The new stack counted in words: `k` words are visited, all above `b`. -/
theorem StackMove.bottom (h : StackMove initialEsp oldEsp newStartAddr newSize) :
    ∃ b k, k = (newSize + 3) / 4 ∧ b + 4 * k = newStartAddr ∧ k < wordSize ∧
      b ≤ sub32 newStartAddr newSize ∧ sub32 newStartAddr newSize < b + 4 := by
  obtain ⟨-, -, -, -, -, -, hlow, hhigh, -⟩ := h
  rw [sub32_eq (by omega)]
  unfold wordSize at *
  exact ⟨newStartAddr - 4 * ((newSize + 3) / 4), _, rfl, by omega, by omega, by omega, by omega⟩

/-- The first loop ends. -/
theorem StackMove.allocStack_eq (h : StackMove initialEsp oldEsp newStartAddr newSize)
    (s : VirtualMemory) (fresh : ℕ → Option Mem) :
    ∃ s₁, allocStack fresh (sub32 newStartAddr newSize) newStartAddr s wordSize = some s₁ ∧
      (∀ p, s₁.present p = true ↔ s.present p = true ∨
        (newStartAddr / 0x1000 - newSize / 0x1000 ≤ p ∧ p ≤ newStartAddr / 0x1000) ∧
          (fresh p).isSome) ∧
      ∀ x, s.present (x / 0x1000) = true → s₁.memory x = s.memory x := by
  obtain ⟨-, -, -, -, -, -, hlow, hhigh, -⟩ := h
  rw [sub32_eq (by omega)]
  apply allocStack_spec
  · omega
  · omega
  · omega
  · unfold wordSize at *
    omega

/-- The call returns only if all the pages are there. -/
theorem StackMove.backed (h : StackMove initialEsp oldEsp newStartAddr newSize) {r : NewStack}
    (hr : changeStack s fresh initialEsp oldEsp oldEbp newStartAddr newSize = some r) :
    Backed s fresh newStartAddr newSize := by
  obtain ⟨b, k, hk, hb, -, -, habove⟩ := h.bottom
  obtain ⟨s₁, hs₁, hpages, -⟩ := h.allocStack_eq s fresh
  rw [changeStack_eq, hs₁, Option.bind_some] at hr
  obtain ⟨s₂, hs₂, hr⟩ := Option.bind_eq_some_iff.mp hr
  obtain ⟨s₃, hs₃, -⟩ := Option.map_eq_some_iff.mp hr
  rw [← hb] at hs₃
  apply (h.words_iff hpages hk hb).mp
  intro j h₁ h₂
  exact (canAccess_congr (memcpy_present _ hs₂)).mp (moveWords_access k (hb ▸ habove) hs₃ j h₁ h₂)

/-- `changeStack` keeps every frame and every other word iff the pages of the new stack are
all there. -/
theorem changeStack_keeps_iff (h : StackMove initialEsp oldEsp newStartAddr newSize)
    (hpresent : ∀ a, oldEsp ≤ a → a < initialEsp → s.present (a / 0x1000) = true)
    (hchain : FrameChain s.memory oldEsp initialEsp oldEbp n) :
    (∃ r, changeStack s fresh initialEsp oldEsp oldEbp newStartAddr newSize = some r ∧
      StackKept s r initialEsp oldEsp oldEbp newStartAddr n) ↔
      Backed s fresh newStartAddr newSize := by
  constructor
  · rintro ⟨r, hr, -⟩
    exact h.backed hr
  intro hbacked
  obtain ⟨b, k, hk, hb, hturns, hbelow, habove⟩ := h.bottom
  obtain ⟨s₁, hs₁, hpages, hkept⟩ := h.allocStack_eq s fresh
  have haccess := (h.words_iff hpages hk hb).mpr hbacked
  have hroom : initialEsp - oldEsp ≤ newStartAddr := by
    have hsmall := h.small
    have := h.low
    omega
  have hsrc : s₁.CanAccess oldEsp (initialEsp - oldEsp) := fun x hx =>
    (hpages _).mpr (.inl (hpresent _ (by omega) (by omega)))
  obtain ⟨m₂, hm₂, hcopied, -⟩ := memcpy_spec (initialEsp - oldEsp) hsrc
    (h.dest_canAccess hk hb haccess) h.apart
  obtain ⟨m₃, hm₃, hrewritten, -⟩ := @moveWords_spec { s₁ with memory := m₂ } oldEsp initialEsp
    (sub32 newStartAddr initialEsp) _ k _ _ hbelow habove hturns haccess
  have hrelocated := h.relocated hk hb (fun x hl hh => hkept x (hpresent x hl hh)) hcopied hrewritten
  rw [hb] at hm₃
  refine ⟨⟨{ s₁ with memory := m₃ }, moved initialEsp newStartAddr oldEsp,
    moved initialEsp newStartAddr oldEbp⟩, ?_, rfl, hrelocated.walk_eq hroom hchain, ?_⟩
  · rw [changeStack_eq, hs₁, Option.bind_some, h.add32_eq le_rfl h.ordered,
      h.add32_eq hchain.isFrame.inside.1.le hchain.isFrame.inside.2.le, sub32_eq h.ordered, hm₂,
      Option.bind_some, hm₃, Option.map_some]
  · exact fun a hl hh ha hv => hrelocated.same hl hh ha hv

end Moving

/-- Only the page of a stack that ends at `0x108000` is present; on the stack is a chain of
two frames. -/
def twoFrames : VirtualMemory where
  present p := p = 0x107
  memory := write32 (fun _ => 0) 0x107FE4 0x107FF0

theorem twoFrames_present {a : ℕ} (hl : 0x107FE0 ≤ a) (hh : a < 0x108000) :
    twoFrames.present (a / 0x1000) = true := by
  apply decide_eq_true
  omega

theorem twoFrames_chain : FrameChain twoFrames.memory 0x107FE0 0x108000 0x107FE4 2 := by
  have hnext : read32 twoFrames.memory 0x107FE4 = 0x107FF0 := read32_write32 _ _ (by decide)
  refine .link ⟨by decide, by decide, by decide⟩ (by rw [hnext]; decide) ?_
  rw [hnext]
  exact .last ⟨by decide, by decide, by decide⟩

/-- The call in `init`. -/
theorem changeStack_keeps_iff_twoFrames :
    ∃ r, changeStack twoFrames (fun _ => some fun _ => 0) 0x108000 0x107FE0 0x107FE4 0xE0000000
        0x2000 = some r ∧ StackKept twoFrames r 0x108000 0x107FE0 0x107FE4 0xE0000000 2 := by
  have hmove : StackMove 0x108000 0x107FE0 0xE0000000 0x2000 := by
    constructor <;> decide
  refine (changeStack_keeps_iff hmove (fun a hl hh => twoFrames_present hl hh) twoFrames_chain).mpr ?_
  exact (hmove.backed_iff twoFrames fun _ => rfl).mpr (.inl (by decide))

/-- A stack of one page and eight bytes: its lowest word is in a page without a frame. -/
theorem changeStack_loses_frames :
    ¬ ∀ (s : VirtualMemory) (fresh : ℕ → Option Mem)
        (initialEsp oldEsp oldEbp newStartAddr newSize n : ℕ),
      StackMove initialEsp oldEsp newStartAddr newSize → (∀ p, (fresh p).isSome) →
      (∀ a, oldEsp ≤ a → a < initialEsp → s.present (a / 0x1000) = true) →
      FrameChain s.memory oldEsp initialEsp oldEbp n →
      ∃ r, changeStack s fresh initialEsp oldEsp oldEbp newStartAddr newSize = some r ∧
        StackKept s r initialEsp oldEsp oldEbp newStartAddr n := by
  intro h
  have hmove : StackMove 0x108000 0x107FE0 0xE0000000 0x1008 := by
    constructor <;> decide
  obtain ⟨r, hr, -⟩ := h twoFrames (fun _ => some fun _ => 0) 0x108000 0x107FE0 0x107FE4 0xE0000000
    0x1008 2 hmove (fun _ => rfl) (fun a hl hh => twoFrames_present hl hh) twoFrames_chain
  rcases (hmove.backed_iff twoFrames fun _ => rfl).mp (hmove.backed hr) with hle | hpresent
  · revert hle
    decide
  · revert hpresent
    decide

end ExperimentalKernel.StackMoving
