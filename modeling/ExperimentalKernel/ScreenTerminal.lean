import ExperimentalKernel.ScreenCursor
import ExperimentalKernel.ScreenTexts
import ExperimentalKernel.TextTerminal

/-!
# The screen as a terminal

The bytes of the video memory are the cells of a terminal of 24 lines and 80 columns, and
every operation types its text there.
-/

namespace ExperimentalKernel.TextScreen
open ByteMemory KernelStrings TextTerminal LabelledRuns

/-- A character and its attribute. -/
abbrev Cell := UInt8 × UInt8

/-- The address of the character in line `l` and column `c`. -/
def cellAddress (l c : ℕ) : ℕ := video + (c + l * columns) * 2

def videoEnd : ℕ := video + lines * columns * 2

/-- The terminal and the attribute that the next characters get. -/
structure Console where
  terminal : Terminal Cell lines columns
  attribute_ : UInt8

namespace Console

def item (attribute_ c : UInt8) : Item Cell := if c = 10 then .lineFeed else .cell (c, attribute_)

def typeChar (c : Console) (b : UInt8) : Console :=
  { c with terminal := c.terminal.exec (item c.attribute_ b) }

def type (c : Console) (l : List UInt8) : Console := l.foldl typeChar c

/-- An operation with the strings and bytes of the memory `m`. -/
def exec (m : Mem) (c : Console) : Op → Console
  | .setTextColor backcolor forecolor => { c with attribute_ := textAttribute backcolor forecolor }
  | .clean => { c with terminal := c.terminal.erase (0, 0) }
  | op => c.type (text m op)

/-- What is printed lies outside the video memory, and a number has room in its line. -/
def Fits (m : Mem) (c : Console) : Op → Prop
  | .printString str => ∃ l, HoldsString (fun i => m (str + i)) l ∧ l.length < 0x7FFFFFFF ∧
      (str + l.length < video ∨ videoEnd ≤ str)
  | .printBinaryMem mem length => mem + length ≤ video ∨ videoEnd ≤ mem
  | .printInt k => c.terminal.column + (Nat.toDigits 10 k.natAbs).length < columns
  | _ => True

@[simp] theorem typeChar_attribute_ (c : Console) (b : UInt8) :
    (c.typeChar b).attribute_ = c.attribute_ := rfl

theorem type_cons (c : Console) (b : UInt8) (l : List UInt8) :
    c.type (b :: l) = (c.typeChar b).type l := rfl

theorem type_append (c : Console) (l l' : List UInt8) : c.type (l ++ l') = (c.type l).type l' :=
  List.foldl_append

/-- Characters that have room in the line only move the cursor on. -/
theorem type_column {c : Console} {l : List UInt8} (hl : 10 ∉ l)
    (hroom : c.terminal.column + l.length < columns) :
    (c.type l).terminal.column = c.terminal.column + l.length := by
  induction l generalizing c with
  | nil => rfl
  | cons b l ih =>
    rw [List.length_cons] at hroom ⊢
    have hb : b ≠ 10 := fun he => hl (he ▸ List.mem_cons_self)
    have hcolumn : (c.typeChar b).terminal.column = c.terminal.column + 1 := by
      rw [typeChar, item, if_neg hb]
      exact (Terminal.put_of_lt (by omega)).2
    rw [type_cons, ih (fun hm => hl (List.mem_cons_of_mem _ hm)) (by omega), hcolumn]
    omega

end Console

/-- The screen shows the console; beside the video memory stands what stood in `m`. -/
structure Displays (m : Mem) (s : State) (c : Console) : Prop where
  base : s.screen.video_ = video
  column : s.screen.x = c.terminal.column
  line : s.screen.y = c.terminal.line
  attribute_ : s.screen.attribute_ = c.attribute_
  cells : ∀ l < lines, ∀ k < columns, s.mem (cellAddress l k) = (c.terminal.cells l k).1 ∧
    s.mem (cellAddress l k + 1) = (c.terminal.cells l k).2
  rest : AgreeOff m s.mem video videoEnd

variable {m : Mem} {s : State} {c : Console}

theorem cellAddress_bounds {l k : ℕ} (hl : l < lines) (hk : k < columns) :
    video ≤ cellAddress l k ∧ cellAddress l k + 1 < videoEnd := by
  unfold cellAddress videoEnd
  unfold lines at hl ⊢
  unfold columns at hk ⊢
  omega

theorem cellAddress_ne {l k l' k' : ℕ} (hk : k < columns) (hk' : k' < columns)
    (h : ¬ (l' = l ∧ k' = k)) : cellAddress l' k' + 1 < cellAddress l k ∨
      cellAddress l k + 1 < cellAddress l' k' := by
  unfold cellAddress
  unfold columns at *
  rcases Nat.lt_trichotomy l' l with hl | hl | hl
  · omega
  · omega
  · omega

theorem clearFrom_mem (s : State) (i k : ℕ) : (clearFrom s i k).screen = s.screen ∧
    ∀ x, (clearFrom s i k).mem x =
      if s.screen.video_ + i ≤ x ∧ x < s.screen.video_ + i + k then 0 else s.mem x := by
  induction k generalizing s i with
  | zero => exact ⟨rfl, fun x => (if_neg fun hin => by omega).symm⟩
  | succ k ih =>
    obtain ⟨hscreen, hmem⟩ := ih (store s (s.screen.video_ + i) 0) (i + 1)
    refine ⟨hscreen, fun x => ?_⟩
    rw [clearFrom, hmem x]
    change (if s.screen.video_ + (i + 1) ≤ x ∧ x < s.screen.video_ + (i + 1) + k then 0
      else write8 s.mem (s.screen.video_ + i) 0 x) = _
    by_cases hx : x = s.screen.video_ + i
    · rw [if_neg (by omega), if_pos (by omega), hx, write8_same]
    · rw [write8_of_ne _ _ hx]
      exact if_congr (by omega) rfl rfl

namespace Displays

theorem cell (h : Displays m s c) : s.cell = cellAddress c.terminal.line c.terminal.column := by
  rw [State.cell, cellAddress, h.base, h.column, h.line]

/-- A character and its attribute go to the place under the cursor. -/
theorem put_cells (h : Displays m s c) (b : UInt8) {l k : ℕ} (hl : l < lines) (hk : k < columns) :
    (put s b).mem (cellAddress l k) = ((c.terminal.put (b, c.attribute_)).cells l k).1 ∧
    (put s b).mem (cellAddress l k + 1) = ((c.terminal.put (b, c.attribute_)).cells l k).2 := by
  have hcell := h.cell
  rw [Terminal.put_cells]
  by_cases hat : l = c.terminal.line ∧ k = c.terminal.column
  · rw [hat.1, hat.2, place_same, ← hcell]
    refine ⟨?_, (write8_same _ _ _).trans h.attribute_⟩
    exact (write8_of_ne _ _ (Nat.lt_succ_self _).ne).trans (write8_same _ _ _)
  · have hne := cellAddress_ne c.terminal.column_lt hk hat
    rw [← hcell] at hne
    rw [place_of_ne _ _ hat]
    obtain ⟨h₁, h₂⟩ := h.cells l hl k hk
    constructor
    · rw [← h₁]
      exact (write8_of_ne _ _ (by omega)).trans (write8_of_ne _ _ (by omega))
    · rw [← h₂]
      exact (write8_of_ne _ _ (by omega)).trans (write8_of_ne _ _ (by omega))

theorem put_rest (h : Displays m s c) (b : UInt8) : AgreeOff m (put s b).mem video videoEnd := by
  obtain ⟨hlo, hhi⟩ := cellAddress_bounds c.terminal.line_lt c.terminal.column_lt
  rw [← h.cell] at hlo hhi
  exact h.rest.trans ((agreeOff_write8 _ _ hlo (by omega)).trans (agreeOff_write8 _ _ (by omega) hhi))

/-- While the line has room the cursor only moves on. -/
theorem put (h : Displays m s c) (b : UInt8) (hx : s.screen.x + 1 < columns) :
    Displays m (put s b) { c with terminal := c.terminal.put (b, c.attribute_) } := by
  have hlt : c.terminal.column + 1 < columns := h.column ▸ hx
  obtain ⟨hline, hcolumn⟩ := Terminal.put_of_lt (a := (b, c.attribute_)) hlt
  refine ⟨h.base, ?_, ?_, h.attribute_, fun l hl k hk => h.put_cells b hl hk, h.put_rest b⟩
  · rw [hcolumn, ← h.column]
    rfl
  · rw [hline]
    exact h.line

theorem newLine (h : Displays m s c) :
    Displays m (newLine s) { c with terminal := c.terminal.lineFeed } := by
  refine ⟨h.base, rfl, ?_, h.attribute_, h.cells, h.rest⟩
  simp only [TextScreen.newLine, Terminal.lineFeed, h.line]
  split
  · next hge => rw [if_neg (not_lt.mpr hge)]
  · next hlt => rw [if_pos (not_le.mp hlt)]

/-- Behind the last column. -/
theorem put_newLine (h : Displays m s c) (b : UInt8) (hx : ¬ s.screen.x + 1 < columns) :
    Displays m (TextScreen.newLine (TextScreen.put s b))
      { c with terminal := c.terminal.put (b, c.attribute_) } := by
  have hge : ¬ c.terminal.column + 1 < columns := h.column ▸ hx
  obtain ⟨hline, hcolumn⟩ := Terminal.put_of_ge (a := (b, c.attribute_)) hge
  refine ⟨h.base, hcolumn.symm, ?_, h.attribute_, fun l hl k hk => h.put_cells b hl hk, h.put_rest b⟩
  rw [hline]
  exact h.newLine.line

theorem printChar (h : Displays m s c) (b : UInt8) : Displays m (printChar s b) (c.typeChar b) := by
  rw [Console.typeChar, Console.item]
  by_cases hb : b = 10
  · rw [if_pos hb, TextScreen.printChar, if_neg (not_not.mpr hb)]
    exact h.newLine
  · rw [if_neg hb, TextScreen.printChar, if_pos hb]
    have hcolumn : (TextScreen.put s b).screen.x = s.screen.x + 1 := rfl
    dsimp only
    rw [hcolumn]
    by_cases hx : s.screen.x + 1 < columns
    · rw [if_neg (not_le.mpr hx)]
      exact h.put b hx
    · rw [if_pos (not_lt.mp hx)]
      exact h.put_newLine b hx

theorem printLiteral (h : Displays m s c) (l : List UInt8) :
    Displays m (printLiteral s l) (c.type l) := by
  induction l generalizing s c with
  | nil => exact h
  | cons b l ih => exact ih (h.printChar b)

/-- A string of `m` outside the video memory, from its character `i` on. -/
theorem printStringFrom (h : Displays m s c) {str : ℕ} {l : List UInt8}
    (hl : HoldsString (fun i => m (str + i)) l) (hd : str + l.length < video ∨ videoEnd ≤ str)
    (k i : ℕ) (hi : i ≤ l.length) (hk : l.length < i + k) :
    Displays m (printStringFrom s str i k) (c.type (l.drop i)) := by
  induction k generalizing s c i with
  | zero => omega
  | succ k ih =>
    have hmem : s.mem (str + i) = chars l i := by
      rw [← hl.same i hi]
      exact h.rest _ (by omega)
    rw [TextScreen.printStringFrom, hmem]
    by_cases hend : i = l.length
    · rw [hend, chars_length, if_neg (not_not.mpr rfl), List.drop_length]
      exact h
    · have hlt : i < l.length := by omega
      rw [if_pos (chars_ne_zero hl.nonzero hlt), List.drop_eq_getElem_cons hlt, chars,
        List.getD_eq_getElem l 0 hlt]
      exact ih (h.printChar _) (i + 1) hlt (by omega)

theorem printString (h : Displays m s c) {str : ℕ} (hf : c.Fits m (.printString str)) :
    Displays m (printString s str) (c.type (text m (.printString str))) := by
  obtain ⟨l, hl, hlen, hd⟩ := hf
  rw [text, hl.copied_eq hlen.le]
  exact h.printStringFrom hl hd 0x7FFFFFFF 0 (Nat.zero_le _) (by omega)

/-- Digits that have room are typed like any characters. -/
theorem foldl_put (h : Displays m s c) (l : List UInt8) (hl : 10 ∉ l)
    (hroom : s.screen.x + l.length < columns) : Displays m (l.foldl TextScreen.put s) (c.type l) := by
  induction l generalizing s c with
  | nil => exact h
  | cons b l ih =>
    rw [List.length_cons] at hroom
    have hb : b ≠ 10 := fun he => hl (he ▸ List.mem_cons_self)
    have htype : c.typeChar b = { c with terminal := c.terminal.put (b, c.attribute_) } := by
      rw [Console.typeChar, Console.item, if_neg hb]
      rfl
    rw [List.foldl_cons, Console.type, List.foldl_cons, htype]
    refine ih (h.put b (by omega)) (fun hm => hl (List.mem_cons_of_mem _ hm)) ?_
    have hx : (TextScreen.put s b).screen.x = s.screen.x + 1 := rfl
    omega

theorem printInt (h : Displays m s c) {k : ℤ} (hf : c.Fits m (.printInt k)) :
    Displays m (printInt s k) (c.type (text m (.printInt k))) := by
  rw [TextScreen.printInt, printDigits_eq, text]
  refine h.foldl_put _ (newLine_notMem_digitChars k _) ?_
  · rw [digitChars_length, countDigits_eq, Nat.zero_add, h.column]
    exact hf

theorem printNibbles (h : Displays m s c) (k : ℤ) (i : ℕ) :
    Displays m (printNibbles s k i) (c.type (nibbles k i)) := by
  induction i generalizing s c with
  | zero => exact h
  | succ i ih => exact ih (h.printChar _)

theorem printBits (h : Displays m s c) {a : ℕ} (ha : a < video ∨ videoEnd ≤ a) (mask : UInt8) (k : ℕ) :
    Displays m (printBits s a mask k) (c.type (maskBits (m a) mask k)) := by
  induction k generalizing s c mask with
  | zero => exact h
  | succ k ih =>
    rw [TextScreen.printBits, h.rest a ha, ← bitChar_decide]
    exact ih (h.printChar _) (mask >>> 1)

theorem printBytes (h : Displays m s c) {mem length : ℕ}
    (hd : mem + length ≤ video ∨ videoEnd ≤ mem) (k i : ℕ) (hi : i + k ≤ length) :
    Displays m (printBytes s mem i k) (c.type (bytesText m mem i k)) := by
  induction k generalizing s c i with
  | zero => exact h
  | succ k ih =>
    have hbits := h.printBits (a := mem + i) (by omega) 0x80 8
    rw [TextScreen.printBytes, bytesText, Console.type_append, Console.type_cons]
    exact ih (hbits.printChar 32) (i + 1) (by omega)

theorem printNumBytes (h : Displays m s c) (num : ℤ) (i : ℕ) :
    Displays m (printNumBytes s num i) (c.type (numBytesText num i)) := by
  have hbits : ∀ l : List ℕ, ∀ s c, Displays m s c → ∀ f : ℕ → UInt8,
      Displays m (l.foldl (fun s j => TextScreen.printChar s (f j)) s) (c.type (l.map f)) := by
    intro l
    induction l with
    | nil => exact fun s c h f => h
    | cons j l ih => exact fun s c h f => ih _ _ (h.printChar _) f
  induction i generalizing s c with
  | zero => exact h
  | succ i ih =>
    rw [TextScreen.printNumBytes, numBytesText, Console.type_append, Console.type_cons]
    simp only [← bitChar_decide]
    exact ih ((hbits _ s c h _).printChar 32)

/-- Both bytes of every cell become zero. -/
theorem clean (h : Displays m s c) :
    Displays m (clean s) { c with terminal := c.terminal.erase (0, 0) } := by
  obtain ⟨hscreen, hmem⟩ := clearFrom_mem s 0 (columns * lines * 2)
  rw [h.base, Nat.add_zero] at hmem
  have hsize : video + columns * lines * 2 = videoEnd := by rw [videoEnd, Nat.mul_comm columns]
  rw [hsize] at hmem
  simp only [TextScreen.clean]
  generalize clearFrom s 0 (columns * lines * 2) = s₁ at hscreen hmem
  have hcleared : ∀ x, video ≤ x → x < videoEnd → s₁.mem x = 0 :=
    fun x hlo hhi => (hmem x).trans (if_pos ⟨hlo, hhi⟩)
  refine ⟨?_, rfl, rfl, ?_, fun l hl k hk => ?_, fun x hx => ?_⟩
  · exact (congrArg Screen.video_ hscreen).trans h.base
  · exact (congrArg Screen.attribute_ hscreen).trans h.attribute_
  · obtain ⟨hlo, hhi⟩ := cellAddress_bounds hl hk
    exact ⟨hcleared _ hlo (by omega), hcleared _ (by omega) hhi⟩
  · exact ((hmem x).trans (if_neg fun hin => by omega)).trans (h.rest x hx)

theorem printHex (h : Displays m s c) (k : ℤ) : Displays m (printHex s k) (c.type (hexText k)) := by
  have hdigits := (h.printLiteral [48, 120]).printNibbles k 8
  rw [hexText, Console.type_cons, Console.type_cons, TextScreen.printHex]
  exact hdigits

theorem printBinaryMem (h : Displays m s c) {mem length : ℕ}
    (hf : c.Fits m (.printBinaryMem mem length)) :
    Displays m (printBinaryMem s mem length) (c.type (bytesText m mem 0 length ++ [10])) := by
  have hbytes := (h.printBytes hf length 0 (Nat.zero_add _).le).printLiteral [10]
  rw [Console.type_append, TextScreen.printBinaryMem, printEndl]
  exact hbytes

theorem printBinary (h : Displays m s c) (num : ℤ) :
    Displays m (printBinary s num) (c.type (numBytesText num 4 ++ [10])) := by
  have hbits := (h.printNumBytes num 4).printLiteral [10]
  rw [Console.type_append, TextScreen.printBinary, printEndl]
  exact hbits

/-- Every operation whose text fits types it. -/
theorem exec (h : Displays m s c) {op : Op} (hf : c.Fits m op) : Displays m (exec s op) (c.exec m op) := by
  cases op with
  | printChar b => exact h.printChar b
  | printString str =>
    change Displays m _ (c.type (text m (.printString str)))
    exact h.printString hf
  | printInt k => exact h.printInt hf
  | printHex k => exact h.printHex k
  | printBinaryMem mem length => exact h.printBinaryMem hf
  | printBinary num => exact h.printBinary num
  | printEndl => exact h.printLiteral [10]
  | setTextColor backcolor forecolor => exact ⟨h.base, h.column, h.line, rfl, h.cells, h.rest⟩
  | clean => exact h.clean

end Displays

/-- What the constructor finds in the video memory, and its attribute. -/
def Console.start (m : Mem) : Console where
  terminal :=
    { cells := fun l k => (m (cellAddress l k), m (cellAddress l k + 1))
      line := 0
      column := 0
      line_lt := Nat.succ_pos 23
      column_lt := Nat.succ_pos 79 }
  attribute_ := textAttribute colorBlack colorWhite

def Console.Step (m : Mem) (c : Console) (op : Op) (c' : Console) : Prop := c' = c.exec m op

theorem construct_displays (m : Mem) : Displays m (construct m) (Console.start m) :=
  ⟨rfl, rfl, rfl, rfl, fun _ _ _ _ => ⟨rfl, rfl⟩, AgreeOff.refl m _ _⟩

theorem Displays.foldl {ops : List Op} (h : Displays m s c)
    (hf : Along (Console.Step m) (Console.Fits m) c ops) :
    Displays m (ops.foldl TextScreen.exec s) (ops.foldl (Console.exec m) c) := by
  induction ops generalizing s c with
  | nil => exact h
  | cons op ops ih => exact ih (h.exec hf.1) (hf.2 _ rfl)

/-- After every sequence of operations the screen shows what a terminal shows on which
their texts were typed. -/
theorem screen_refines (ops : List Op)
    (hf : Along (Console.Step m) (Console.Fits m) (Console.start m) ops) :
    Displays m (ops.foldl exec (construct m)) (ops.foldl (Console.exec m) (Console.start m)) :=
  (construct_displays m).foldl hf

/-- `Hi` at `0x1000`. -/
def greeting : Mem := fun x => if x = 0x1000 then 72 else if x = 0x1001 then 105 else 0

theorem greeting_holds : HoldsString (fun i => greeting (0x1000 + i)) [72, 105] := by
  refine ⟨by decide, fun i hi => ?_⟩
  rcases i with _ | _ | _ | i
  · rfl
  · rfl
  · rfl
  · simp at hi

theorem screen_refines_greeting :
    Displays greeting ([.printString 0x1000, .printInt 42].foldl exec (construct greeting))
      ([.printString 0x1000, .printInt 42].foldl (Console.exec greeting) (Console.start greeting)) := by
  refine screen_refines _ ⟨⟨[72, 105], greeting_holds, by decide, by decide⟩, fun c' hc' => ?_⟩
  refine ⟨?_, fun _ _ => trivial⟩
  have htext : text greeting (.printString 0x1000) = [72, 105] := greeting_holds.copied_eq (by decide)
  have hexec : c' = (Console.start greeting).type [72, 105] := by
    rw [hc', ← htext]
    rfl
  have hdigits : (Nat.toDigits 10 (Int.natAbs 42)).length = 2 := rfl
  rw [hexec, Console.Fits, hdigits]
  decide

section Lines

/-- What the operations type, with the attribute that each character gets. -/
def items (m : Mem) (attribute_ : UInt8) : List Op → List (Item Cell)
  | [] => []
  | .setTextColor backcolor forecolor :: ops => items m (textAttribute backcolor forecolor) ops
  | .clean :: ops => .erase (0, 0) :: items m attribute_ ops
  | op :: ops => (text m op).map (Console.item attribute_) ++ items m attribute_ ops

theorem Console.type_terminal (c : Console) (l : List UInt8) :
    (c.type l).terminal = (l.map (Console.item c.attribute_)).foldl Terminal.exec c.terminal ∧
      (c.type l).attribute_ = c.attribute_ := by
  induction l generalizing c with
  | nil => exact ⟨rfl, rfl⟩
  | cons b l ih => exact ih (c.typeChar b)

theorem Console.foldl_terminal (ops : List Op) (c : Console) :
    (ops.foldl (Console.exec m) c).terminal =
      (items m c.attribute_ ops).foldl Terminal.exec c.terminal := by
  have htyped : ∀ op ops, (∀ c : Console, (ops.foldl (Console.exec m) c).terminal =
      (items m c.attribute_ ops).foldl Terminal.exec c.terminal) → ∀ c : Console,
      (ops.foldl (Console.exec m) (c.type (text m op))).terminal =
        ((text m op).map (Console.item c.attribute_) ++ items m c.attribute_ ops).foldl
          Terminal.exec c.terminal := by
    intro op ops ih c
    obtain ⟨hterminal, hattribute⟩ := c.type_terminal (text m op)
    rw [ih, hterminal, hattribute, List.foldl_append]
  induction ops generalizing c with
  | nil => rfl
  | cons op ops ih =>
    cases op with
    | setTextColor backcolor forecolor => exact ih _
    | clean => exact ih _
    | printChar b => exact htyped (.printChar b) ops ih c
    | printString str => exact htyped (.printString str) ops ih c
    | printInt k => exact htyped (.printInt k) ops ih c
    | printHex k => exact htyped (.printHex k) ops ih c
    | printBinaryMem mem length => exact htyped (.printBinaryMem mem length) ops ih c
    | printBinary num => exact htyped (.printBinary num) ops ih c
    | printEndl => exact htyped .printEndl ops ih c

/-- The sheet with everything that was typed since the last `clean`. -/
def sheet (m : Mem) (ops : List Op) : Sheet Cell :=
  (items m (Console.start m).attribute_ ops).foldl (Sheet.exec columns)
    ⟨(Console.start m).terminal.cells, fun _ _ => none, 0, 0⟩

theorem shows_sheet (m : Mem) (ops : List Op) :
    Shows (ops.foldl (Console.exec m) (Console.start m)).terminal (sheet m ops) := by
  rw [Console.foldl_terminal]
  exact (Shows.blank (Console.start m).terminal rfl rfl).foldl _

/-- What was printed stays in its place until something else is printed there, and that does
not happen before the cursor is 24 lines further. -/
theorem printed_stays (ops : List Op)
    (hf : Along (Console.Step m) (Console.Fits m) (Console.start m) ops) {l k : ℕ} {a : Cell}
    (ha : (sheet m ops).cells l k = some a)
    (hl : (sheet m ops).line < l + lines ∨
      ∀ l', l < l' → l' % lines = l % lines → (sheet m ops).cells l' k = none) :
    (ops.foldl exec (construct m)).mem (cellAddress (l % lines) k) = a.1 ∧
      (ops.foldl exec (construct m)).mem (cellAddress (l % lines) k + 1) = a.2 := by
  have hshows := shows_sheet m ops
  have hcell : (ops.foldl (Console.exec m) (Console.start m)).terminal.cells (l % lines) k = a :=
    hl.elim (hshows.recent ha) (hshows.newest l k a ha)
  have hcells := ((construct_displays m).foldl hf).cells (l % lines) (Nat.mod_lt _ (Nat.succ_pos 23)) k
    (hshows.inside l k a ha)
  rwa [hcell] at hcells

theorem printed_stays_hex :
    ([.printChar 72, .printEndl, .printHex 5].foldl exec (construct greeting)).mem
      (cellAddress 1 9) = 53 :=
  (printed_stays (m := greeting) [.printChar 72, .printEndl, .printHex 5]
    ⟨trivial, fun _ _ => ⟨trivial, fun _ _ => ⟨trivial, fun _ _ => trivial⟩⟩⟩
    (l := 1) (k := 9) (a := (53, 15)) (by decide) (.inl (by decide))).1

end Lines

end ExperimentalKernel.TextScreen
