import ExperimentalKernel.LabelledRuns
import ExperimentalKernel.ScreenNumerals
import Mathlib.Tactic.Ring

/-!
# The cursor and the video memory

Every operation but `printInt` prints through `printChar`, which starts a new line at the
last column. `printInt` moves the cursor by itself, and leaves the line when the digits
do.
-/

namespace ExperimentalKernel.TextScreen
open ByteMemory LabelledRuns

/-- All bytes were stored to the video memory. -/
def InVideo (s : State) : Prop :=
  ∀ a ∈ s.written, video ≤ a ∧ a < video + lines * columns * 2

structure OnScreen (s : State) : Prop where
  column : s.screen.x < columns
  line : s.screen.y < lines
  written : InVideo s

/-- The screen object as the constructor made it, and the cursor on the screen. -/
structure Kept (s : State) : Prop extends OnScreen s where
  base : s.screen.video_ = video

/-- A digit and the cursor behind it have room in the line. -/
def Room (s : State) : Op → Prop
  | .printInt k => s.screen.x + (Nat.toDigits 10 k.natAbs).length < columns
  | _ => True

def Step (s : State) (op : Op) (s' : State) : Prop := s' = exec s op

theorem construct_kept (m : Mem) : Kept (construct m) :=
  ⟨⟨Nat.succ_pos 79, Nat.succ_pos 23, fun _ h => nomatch h⟩, rfl⟩

theorem InVideo.store {s : State} (h : InVideo s) {a : ℕ} (b : UInt8) (hl : video ≤ a)
    (hh : a < video + lines * columns * 2) : InVideo (store s a b) := by
  intro x hx
  rcases List.mem_cons.mp hx with rfl | hx
  · exact ⟨hl, hh⟩
  · exact h x hx

/-- Both bytes of a cell on the screen lie in the video memory. -/
theorem cell_bounds {s : State} (hx : s.screen.x < columns) (hy : s.screen.y < lines)
    (hb : s.screen.video_ = video) :
    video ≤ s.cell ∧ s.cell + 1 < video + lines * columns * 2 := by
  unfold columns at hx
  unfold lines at hy
  simp only [State.cell, hb, columns, lines]
  omega

theorem InVideo.put {s : State} (h : InVideo s) (c : UInt8) (hx : s.screen.x < columns)
    (hy : s.screen.y < lines) (hb : s.screen.video_ = video) : InVideo (put s c) := by
  obtain ⟨hl, hh⟩ := cell_bounds hx hy hb
  exact (h.store c hl (by omega)).store s.screen.attribute_ (by omega) hh

theorem newLine_kept {s : State} (h : InVideo s) (hb : s.screen.video_ = video) : Kept (newLine s) := by
  refine ⟨⟨Nat.succ_pos 79, ?_, h⟩, hb⟩
  simp only [newLine]
  split
  · exact Nat.succ_pos 23
  · next hlt => exact not_le.mp hlt

namespace Kept
variable {s : State}

theorem printChar (h : Kept s) (c : UInt8) : Kept (printChar s c) := by
  have hput := h.written.put c h.column h.line h.base
  simp only [TextScreen.printChar]
  split
  · split
    · exact newLine_kept hput h.base
    · next hlt => exact ⟨⟨not_le.mp hlt, h.line, hput⟩, h.base⟩
  · exact newLine_kept h.written h.base

/-- What is printed character by character keeps the cursor on the screen. -/
theorem foldl {α : Type} {f : State → α → State} (hf : ∀ s a, Kept s → Kept (f s a)) (h : Kept s)
    (l : List α) : Kept (l.foldl f s) := by
  induction l generalizing s with
  | nil => exact h
  | cons a l ih => exact ih (hf s a h)

theorem printLiteral (h : Kept s) (l : List UInt8) : Kept (printLiteral s l) :=
  h.foldl (fun _ c hs => hs.printChar c) l

theorem printStringFrom (h : Kept s) (str i k : ℕ) : Kept (printStringFrom s str i k) := by
  induction k generalizing s i with
  | zero => exact h
  | succ k ih =>
    rw [TextScreen.printStringFrom]
    split
    · exact ih (h.printChar _) (i + 1)
    · exact h

theorem printBits (h : Kept s) (a : ℕ) (mask : UInt8) (k : ℕ) : Kept (printBits s a mask k) := by
  induction k generalizing s mask with
  | zero => exact h
  | succ k ih => exact ih (h.printLiteral _) _

theorem printBytes (h : Kept s) (mem i k : ℕ) : Kept (printBytes s mem i k) := by
  induction k generalizing s i with
  | zero => exact h
  | succ k ih => exact ih ((h.printBits _ _ 8).printLiteral _) (i + 1)

theorem printNumBytes (h : Kept s) (num : ℤ) (i : ℕ) : Kept (printNumBytes s num i) := by
  induction i generalizing s with
  | zero => exact h
  | succ i ih => exact ih ((h.foldl (fun _ _ hs => hs.printChar _) _).printLiteral _)

theorem printNibbles (h : Kept s) (k : ℤ) (i : ℕ) : Kept (printNibbles s k i) := by
  induction i generalizing s with
  | zero => exact h
  | succ i ih => exact ih (h.printChar _)

end Kept

theorem clearFrom_spec {s : State} (h : InVideo s) (hb : s.screen.video_ = video) (k i : ℕ)
    (hik : i + k ≤ lines * columns * 2) :
    InVideo (clearFrom s i k) ∧ (clearFrom s i k).screen.video_ = video := by
  induction k generalizing s i with
  | zero => exact ⟨h, hb⟩
  | succ k ih =>
    have hstore : InVideo (store s (s.screen.video_ + i) 0) := by
      rw [hb]
      exact h.store 0 (Nat.le_add_right _ _) (by omega)
    exact ih hstore hb (i + 1) (by omega)

/-- Clearing stores zero to every byte of the video memory and to no other. -/
theorem Kept.clean {s : State} (h : Kept s) : Kept (clean s) := by
  have hsize : 0 + columns * lines * 2 ≤ lines * columns * 2 := by
    rw [Nat.zero_add, Nat.mul_comm columns]
  have hspec := clearFrom_spec h.written h.base (columns * lines * 2) 0 hsize
  simp only [TextScreen.clean]
  generalize clearFrom s 0 (columns * lines * 2) = s₁ at hspec
  exact ⟨⟨Nat.succ_pos 79, Nat.succ_pos 23, hspec.1⟩, hspec.2⟩

theorem foldl_put_screen (s : State) (l : List UInt8) :
    (l.foldl put s).screen = { s.screen with x := s.screen.x + l.length } := by
  induction l generalizing s with
  | nil => rfl
  | cons c l ih =>
    rw [List.foldl_cons, ih, List.length_cons, Nat.add_comm l.length 1, ← Nat.add_assoc]
    rfl

/-- The cursor moves by one column for each digit, whatever the line holds. -/
theorem printInt_screen (s : State) (k : ℤ) : (printInt s k).screen =
    { s.screen with x := s.screen.x + (Nat.toDigits 10 k.natAbs).length } := by
  rw [printInt, printDigits_eq, foldl_put_screen, digitChars_length, countDigits_eq, Nat.zero_add]

theorem printDigits_kept {s : State} (h : Kept s) (k : ℤ) (num : ℕ)
    (hroom : s.screen.x + num < columns) : Kept (printDigits s k num) := by
  induction num generalizing s with
  | zero => exact h
  | succ num ih =>
    have hcolumn : (put s (digitChar k num)).screen.x = s.screen.x + 1 := rfl
    have hput : Kept (put s (digitChar k num)) :=
      ⟨⟨by omega, h.line, h.written.put _ h.column h.line h.base⟩, h.base⟩
    exact ih hput (by omega)

theorem Kept.printInt {s : State} (h : Kept s) {k : ℤ} (hroom : Room s (.printInt k)) :
    Kept (printInt s k) := by
  refine printDigits_kept h k _ ?_
  rw [countDigits_eq, Nat.zero_add]
  exact hroom

theorem Kept.exec {s : State} (h : Kept s) {op : Op} (hroom : Room s op) : Kept (exec s op) := by
  cases op with
  | printChar c => exact h.printChar c
  | printString str => exact h.printStringFrom str 0 _
  | printInt k => exact h.printInt hroom
  | printHex k => exact (h.printLiteral _).printNibbles k 8
  | printBinaryMem mem length => exact (h.printBytes mem 0 length).printLiteral _
  | printBinary num => exact (h.printNumBytes num 4).printLiteral _
  | printEndl => exact h.printLiteral _
  | setTextColor backcolor forecolor => exact ⟨⟨h.column, h.line, h.written⟩, h.base⟩
  | clean => exact h.clean

/-- One operation leaves the screen if it is a `printInt` without room. -/
theorem onScreen_exec_iff {s : State} (h : Kept s) (op : Op) : OnScreen (exec s op) ↔ Room s op := by
  refine ⟨fun hon => ?_, fun hroom => (h.exec hroom).toOnScreen⟩
  cases op with
  | printInt k =>
    have hcolumn := hon.column
    rwa [exec, printInt_screen] at hcolumn
  | _ => trivial

/-- In a run from the constructor the cursor and all stores are on the screen after every
operation, just when each number printed leaves room behind it in the line. -/
theorem cursor_stays_iff (m : Mem) (ops : List Op) :
    Along Step (fun s op => OnScreen (exec s op)) (construct m) ops ↔
      Along Step Room (construct m) ops := by
  refine along_iff (fun s op hs => onScreen_exec_iff hs op) (fun s op s' hs hon hstep => ?_) ops
    (construct_kept m)
  rw [hstep]
  exact hs.exec ((onScreen_exec_iff hs op).mp hon)

/-- After the last operation of such a run. -/
theorem onScreen_last {s : State} {ops : List Op} {op : Op}
    (h : Along Step (fun s op => OnScreen (exec s op)) s (ops ++ [op])) :
    OnScreen (exec (ops.foldl exec s) op) := by
  induction ops generalizing s with
  | nil => exact h.1
  | cons a ops ih => exact ih (h.2 _ rfl)

theorem foldl_put_written (s : State) (l : List UInt8) : s.written <:+ (l.foldl put s).written := by
  induction l generalizing s with
  | nil => exact List.suffix_rfl
  | cons c l ih =>
    exact ((List.suffix_cons _ _).trans (List.suffix_cons _ _)).trans (ih (put s c))

/-- The first digit goes to the cell under the cursor. -/
theorem cell_written (s : State) (k : ℤ) : s.cell ∈ (printInt s k).written := by
  rw [printInt, printDigits_eq, countDigits_eq, Nat.zero_add]
  obtain ⟨num, hnum⟩ := Nat.exists_eq_succ_of_ne_zero (Nat.ne_of_gt
    (Nat.length_toDigits_pos (b := 10) (n := k.natAbs)))
  rw [hnum, digitChars, List.foldl_cons]
  exact (foldl_put_written _ _).subset (List.mem_cons_of_mem _ List.mem_cons_self)

theorem printInts_screen (s : State) (k : ℤ) (n : ℕ) :
    ((List.replicate n (Op.printInt k)).foldl exec s).screen =
      { s.screen with x := s.screen.x + n * (Nat.toDigits 10 k.natAbs).length } := by
  induction n generalizing s with
  | zero => simp
  | succ n ih =>
    have hsum : ∀ d, s.screen.x + d + n * d = s.screen.x + (n + 1) * d := fun d => by ring
    rw [List.replicate_succ, List.foldl_cons, ih, exec, printInt_screen, ← hsum]

/-- Eight numbers of ten digits fill the last line; the ninth is stored behind the video memory. -/
theorem cursor_leaves :
    0xB8F00 ∈ (exec ((List.replicate 23 Op.printEndl ++ List.replicate 8 (Op.printInt 2147483647)).foldl
      exec (construct fun _ => 0)) (.printInt 2147483647)).written ∧
    ¬ Along Step (fun s op => OnScreen (exec s op)) (construct fun _ => 0)
      (List.replicate 23 Op.printEndl ++ List.replicate 8 (Op.printInt 2147483647) ++
        [.printInt 2147483647]) := by
  have hlen : (Nat.toDigits 10 (Int.natAbs 2147483647)).length = 10 := rfl
  have hmem : 0xB8F00 ∈ (exec ((List.replicate 23 Op.printEndl ++
      List.replicate 8 (Op.printInt 2147483647)).foldl exec (construct fun _ => 0))
      (.printInt 2147483647)).written := by
    have hcell : ∀ s : State, s.screen = ⟨0, 23, video, textAttribute colorBlack colorWhite⟩ →
        ((List.replicate 8 (Op.printInt 2147483647)).foldl exec s).cell = 0xB8F00 := by
      intro s hs
      rw [State.cell, printInts_screen, hlen, hs]
      rfl
    have hmem := cell_written ((List.replicate 23 Op.printEndl ++
      List.replicate 8 (Op.printInt 2147483647)).foldl exec (construct fun _ => 0)) 2147483647
    rw [List.foldl_append, hcell _ rfl] at hmem
    rw [List.foldl_append]
    exact hmem
  refine ⟨hmem, fun h => ?_⟩
  exact absurd ((onScreen_last h).written _ hmem).2 (by decide)

end ExperimentalKernel.TextScreen
