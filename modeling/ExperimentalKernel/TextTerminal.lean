import Mathlib.Data.List.Basic
import Mathlib.Data.Nat.ModEq

/-!
# A terminal without scrolling

Text goes to a grid line by line and from the last line to the first again. The same text
on a sheet without an end says what the grid shows: in every place the newest item of the
lines that come to it. Nothing here belongs to a particular program.
-/

namespace ExperimentalKernel.TextTerminal
open Function

variable {α : Type*} {rows columns : ℕ}

inductive Item (α : Type*) where
  | cell (a : α)
  | lineFeed
  | erase (a : α)

structure Terminal (α : Type*) (rows columns : ℕ) where
  cells : ℕ → ℕ → α
  line : ℕ
  column : ℕ
  line_lt : line < rows
  column_lt : column < columns

/-- Where nothing was put the sheet has what was there before. -/
structure Sheet (α : Type*) where
  before : ℕ → ℕ → α
  cells : ℕ → ℕ → Option α
  line : ℕ
  column : ℕ

/-- One place of a grid. -/
def place {β : Type*} (cells : ℕ → ℕ → β) (l c : ℕ) (b : β) : ℕ → ℕ → β :=
  update cells l (update (cells l) c b)

theorem place_same {β : Type*} (cells : ℕ → ℕ → β) (l c : ℕ) (b : β) : place cells l c b l c = b := by
  rw [place, update_self, update_self]

theorem place_of_ne {β : Type*} (cells : ℕ → ℕ → β) {l c l' c' : ℕ} (b : β)
    (h : ¬ (l' = l ∧ c' = c)) : place cells l c b l' c' = cells l' c' := by
  by_cases hl : l' = l
  · subst hl
    rw [place, update_self, update_of_ne fun hc => h ⟨rfl, hc⟩]
  · rw [place, update_of_ne hl]

namespace Terminal

def lineFeed (t : Terminal α rows columns) : Terminal α rows columns where
  cells := t.cells
  line := if t.line + 1 < rows then t.line + 1 else 0
  column := 0
  line_lt := by
    have := t.line_lt
    split <;> omega
  column_lt := Nat.zero_lt_of_lt t.column_lt

/-- Behind the last column comes the next line. -/
def put (t : Terminal α rows columns) (a : α) : Terminal α rows columns :=
  if h : t.column + 1 < columns then
    { t with cells := place t.cells t.line t.column a, column := t.column + 1, column_lt := h }
  else { t with cells := place t.cells t.line t.column a }.lineFeed

def erase (t : Terminal α rows columns) (a : α) : Terminal α rows columns where
  cells := fun _ _ => a
  line := 0
  column := 0
  line_lt := Nat.zero_lt_of_lt t.line_lt
  column_lt := Nat.zero_lt_of_lt t.column_lt

def exec (t : Terminal α rows columns) : Item α → Terminal α rows columns
  | .cell a => t.put a
  | .lineFeed => t.lineFeed
  | .erase a => t.erase a

variable {t : Terminal α rows columns} {a : α}

theorem put_cells : (t.put a).cells = place t.cells t.line t.column a := by
  unfold put
  split <;> rfl

theorem put_of_lt (h : t.column + 1 < columns) :
    (t.put a).line = t.line ∧ (t.put a).column = t.column + 1 := by
  rw [put, dif_pos h]
  exact ⟨rfl, rfl⟩

theorem put_of_ge (h : ¬ t.column + 1 < columns) :
    (t.put a).line = t.lineFeed.line ∧ (t.put a).column = 0 := by
  rw [put, dif_neg h]
  exact ⟨rfl, rfl⟩

end Terminal

namespace Sheet

def lineFeed (s : Sheet α) : Sheet α := { s with line := s.line + 1, column := 0 }

def put (columns : ℕ) (s : Sheet α) (a : α) : Sheet α :=
  if s.column + 1 < columns then
    { s with cells := place s.cells s.line s.column (some a), column := s.column + 1 }
  else { s with cells := place s.cells s.line s.column (some a) }.lineFeed

def exec (columns : ℕ) (s : Sheet α) : Item α → Sheet α
  | .cell a => s.put columns a
  | .lineFeed => s.lineFeed
  | .erase a => ⟨fun _ _ => a, fun _ _ => none, 0, 0⟩

variable {s : Sheet α} {a : α}

theorem put_cells : (s.put columns a).cells = place s.cells s.line s.column (some a) := by
  unfold put
  split <;> rfl

theorem put_before : (s.put columns a).before = s.before := by
  unfold put
  split <;> rfl

theorem line_le_put : s.line ≤ (s.put columns a).line := by
  unfold put
  split
  · exact le_rfl
  · exact Nat.le_succ _

end Sheet

/-- What stands in a place of the grid is the newest item of the sheet that comes there. -/
structure Shows (t : Terminal α rows columns) (s : Sheet α) : Prop where
  line : t.line = s.line % rows
  column : t.column = s.column
  ahead : ∀ l c, s.line < l → s.cells l c = none
  inside : ∀ l c a, s.cells l c = some a → c < columns
  newest : ∀ l c a, s.cells l c = some a →
    (∀ l', l < l' → l' % rows = l % rows → s.cells l' c = none) → t.cells (l % rows) c = a
  untouched : ∀ r c, (∀ l, l % rows = r → s.cells l c = none) → t.cells r c = s.before r c

namespace Shows

variable {t : Terminal α rows columns} {s : Sheet α} {a : α} {l c : ℕ}

/-- A line stays until as many lines as the grid has come after it. -/
theorem recent (h : Shows t s) (hc : s.cells l c = some a) (hl : s.line < l + rows) :
    t.cells (l % rows) c = a := by
  refine h.newest l c a hc fun l' hlt hmod => h.ahead l' c ?_
  have hle : rows ≤ l' - l :=
    Nat.le_of_dvd (Nat.sub_pos_of_lt hlt) ((Nat.modEq_iff_dvd' hlt.le).mp hmod.symm)
  omega

/-- Before any text. -/
theorem blank (t : Terminal α rows columns) (hl : t.line = 0) (hc : t.column = 0) :
    Shows t ⟨t.cells, fun _ _ => none, 0, 0⟩ where
  line := by rw [hl, Nat.zero_mod]
  column := hc
  ahead _ _ _ := rfl
  inside _ _ _ h := by cases h
  newest _ _ _ h _ := by cases h
  untouched _ _ _ := rfl

theorem lineFeed_line (h : Shows t s) : t.lineFeed.line = (s.line + 1) % rows := by
  have hlt := t.line_lt
  simp only [Terminal.lineFeed]
  rw [Nat.add_mod, ← h.line]
  by_cases hone : rows = 1
  · subst hone
    rw [Nat.mod_one, if_neg (by omega)]
  · rw [Nat.mod_eq_of_lt (show 1 < rows by omega)]
    split
    · next hs => rw [Nat.mod_eq_of_lt hs]
    · rw [show t.line + 1 = rows by omega, Nat.mod_self]

theorem lineFeed (h : Shows t s) : Shows t.lineFeed s.lineFeed where
  line := h.lineFeed_line
  column := rfl
  ahead l c hl := h.ahead l c (Nat.lt_of_succ_lt hl)
  inside := h.inside
  newest := h.newest
  untouched := h.untouched

/-- The places after an item is put at the cursor. -/
theorem put_newest (h : Shows t s) {b : α}
    (hc : place s.cells s.line s.column (some a) l c = some b)
    (hl : ∀ l', l < l' → l' % rows = l % rows →
      place s.cells s.line s.column (some a) l' c = none) :
    place t.cells t.line t.column a (l % rows) c = b := by
  by_cases hat : l = s.line ∧ c = s.column
  · obtain ⟨rfl, rfl⟩ := hat
    rw [place_same] at hc
    rw [h.line, h.column, place_same]
    exact Option.some.inj hc
  · rw [place_of_ne _ _ hat] at hc
    have hother : ¬ (l % rows = t.line ∧ c = t.column) := by
      rintro ⟨hline, hcolumn⟩
      rw [h.line] at hline
      rw [h.column] at hcolumn
      subst hcolumn
      rcases lt_trichotomy l s.line with hlt | heq | hgt
      · have := hl s.line hlt hline.symm
        rw [place_same] at this
        cases this
      · exact hat ⟨heq, rfl⟩
      · rw [h.ahead l _ hgt] at hc
        cases hc
    rw [place_of_ne _ _ hother]
    refine h.newest l c b hc fun l' hlt hmod => ?_
    have hnone := hl l' hlt hmod
    by_cases hat' : l' = s.line ∧ c = s.column
    · rw [hat'.1, hat'.2, place_same] at hnone
      cases hnone
    · rwa [place_of_ne _ _ hat'] at hnone

theorem put (h : Shows t s) (a : α) : Shows (t.put a) (s.put columns a) := by
  have hcolumn := h.column
  refine ⟨?_, ?_, fun l c hl => ?_, fun l c b hc => ?_, ?_, fun r c hr => ?_⟩
  · by_cases hlt : s.column + 1 < columns
    · rw [(Terminal.put_of_lt (hcolumn ▸ hlt)).1, Sheet.put, if_pos hlt]
      exact h.line
    · rw [(Terminal.put_of_ge (hcolumn ▸ hlt)).1, Sheet.put, if_neg hlt]
      exact h.lineFeed_line
  · by_cases hlt : s.column + 1 < columns
    · rw [(Terminal.put_of_lt (hcolumn ▸ hlt)).2, Sheet.put, if_pos hlt, hcolumn]
    · rw [(Terminal.put_of_ge (hcolumn ▸ hlt)).2, Sheet.put, if_neg hlt]
      rfl
  · have hlt := Sheet.line_le_put.trans_lt hl
    rw [Sheet.put_cells, place_of_ne _ _ fun hat => (Nat.ne_of_gt hlt) hat.1]
    exact h.ahead l c hlt
  · rw [Sheet.put_cells] at hc
    by_cases hat : l = s.line ∧ c = s.column
    · rw [hat.2, ← hcolumn]
      exact t.column_lt
    · rw [place_of_ne _ _ hat] at hc
      exact h.inside l c b hc
  · rw [Sheet.put_cells, Terminal.put_cells]
    exact fun l c b hc hl => h.put_newest hc hl
  · rw [Sheet.put_cells] at hr
    rw [Sheet.put_before, Terminal.put_cells, place_of_ne]
    · refine h.untouched r c fun l hl => ?_
      have hnone := hr l hl
      by_cases hat : l = s.line ∧ c = s.column
      · rw [hat.1, hat.2, place_same] at hnone
        cases hnone
      · rwa [place_of_ne _ _ hat] at hnone
    · rintro ⟨rfl, rfl⟩
      have hnone := hr s.line h.line.symm
      rw [hcolumn, place_same] at hnone
      cases hnone

theorem exec (h : Shows t s) (i : Item α) : Shows (t.exec i) (s.exec columns i) := by
  cases i with
  | cell a => exact h.put a
  | lineFeed => exact h.lineFeed
  | erase a => exact blank _ rfl rfl

/-- After any text the grid shows the end of the sheet. -/
theorem foldl (h : Shows t s) (items : List (Item α)) :
    Shows (items.foldl Terminal.exec t) (items.foldl (Sheet.exec columns) s) := by
  induction items generalizing t s with
  | nil => exact h
  | cons i items ih => exact ih (h.exec i)

end Shows

end ExperimentalKernel.TextTerminal
