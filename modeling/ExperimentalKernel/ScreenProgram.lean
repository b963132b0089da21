import ExperimentalKernel.ByteMemory

/-!
# The text screen

`screen.cpp` over byte-addressed memory, with the addresses that were stored to kept
beside it. The cursor is a column and a line; the index of a loop over characters is
an `int`. A literal is printed from its characters, any other string from memory,
which the printing itself may change.
-/

namespace ExperimentalKernel.TextScreen
open ByteMemory

def video : ℕ := 0xB8000

def lines : ℕ := 24

def columns : ℕ := 80

def colorBlack : UInt8 := 0

def colorWhite : UInt8 := 15

structure Screen where
  x : ℕ
  y : ℕ
  video_ : ℕ
  attribute_ : UInt8
  deriving DecidableEq

structure State where
  screen : Screen
  mem : Mem
  written : List ℕ

def textAttribute (backcolor forecolor : UInt8) : UInt8 := backcolor <<< 4 ||| forecolor &&& 0x0F

def construct (m : Mem) : State where
  screen := ⟨0, 0, video, textAttribute colorBlack colorWhite⟩
  mem := m
  written := []

def store (s : State) (a : ℕ) (b : UInt8) : State :=
  { s with mem := write8 s.mem a b, written := a :: s.written }

/-- The address of the cell under the cursor. -/
def State.cell (s : State) : ℕ := s.screen.video_ + (s.screen.x + s.screen.y * columns) * 2

/-- A character in its cell and the cursor one column further, as both `printChar` and
`printInt` have it. -/
def put (s : State) (c : UInt8) : State :=
  let s₁ := store (store s s.cell c) (s.cell + 1) s.screen.attribute_
  { s₁ with screen := { s.screen with x := s.screen.x + 1 } }

/-- What stands behind the label `NewLine`. -/
def newLine (s : State) : State :=
  { s with screen := { s.screen with
      x := 0
      y := if s.screen.y + 1 ≥ lines then 0 else s.screen.y + 1 } }

def printChar (s : State) (c : UInt8) : State :=
  if c ≠ 10 then
    let s₁ := put s c
    if s₁.screen.x ≥ columns then newLine s₁ else s₁
  else newLine s

/-- `printString` of a literal. -/
def printLiteral (s : State) (l : List UInt8) : State := l.foldl printChar s

/-- The loop of `printString` from the index `i` on. -/
def printStringFrom (s : State) (str i : ℕ) : ℕ → State
  | 0 => s
  | k + 1 =>
    if s.mem (str + i) ≠ 0 then printStringFrom (printChar s (s.mem (str + i))) str (i + 1) k
    else s

def printString (s : State) (str : ℕ) : State := printStringFrom s str 0 0x7FFFFFFF

def setTextColor (s : State) (backcolor forecolor : UInt8) : State :=
  { s with screen := { s.screen with attribute_ := textAttribute backcolor forecolor } }

/-- The loop of `clean` from the byte `i` on. -/
def clearFrom (s : State) (i : ℕ) : ℕ → State
  | 0 => s
  | k + 1 => clearFrom (store s (s.screen.video_ + i) 0) (i + 1) k

def clean (s : State) : State :=
  let s₁ := clearFrom s 0 (columns * lines * 2)
  { s₁ with screen := { s₁.screen with x := 0, y := 0 } }

/-- The first loop of `printInt`, which runs at least once. -/
def countDigits (k1 : ℤ) (num : ℕ) : ℕ :=
  if k1.tdiv 10 ≠ 0 then countDigits (k1.tdiv 10) (num + 1) else num + 1
termination_by k1.natAbs
decreasing_by
  rename_i h
  have hdiv : (k1.tdiv 10).natAbs = k1.natAbs / 10 := Int.natAbs_tdiv k1 10
  omega

/-- The inner loop of `printInt`. -/
def divide (k1 : ℤ) : ℕ → ℤ
  | 0 => k1
  | i + 1 => divide (k1.tdiv 10) i

/-- The character that `printInt` computes when `i` digits are left behind it. -/
def digitChar (k : ℤ) (i : ℕ) : UInt8 := UInt8.ofInt ((divide k i).tmod 10 + 48)

/-- The second loop of `printInt`: unlike `printChar` it never starts a new line. -/
def printDigits (s : State) (k : ℤ) : ℕ → State
  | 0 => s
  | num + 1 => printDigits (put s (digitChar k num)) k num

def printInt (s : State) (k : ℤ) : State := printDigits s k (countDigits k 0)

/-- The inner loop of `printBinary(void*, unsigned)`: the byte is read for every bit. -/
def printBits (s : State) (a : ℕ) (mask : UInt8) : ℕ → State
  | 0 => s
  | k + 1 => printBits (printLiteral s [if mask &&& s.mem a ≠ 0 then 49 else 48]) a (mask >>> 1) k

/-- Its outer loop from the byte `i` on. -/
def printBytes (s : State) (mem i : ℕ) : ℕ → State
  | 0 => s
  | k + 1 => printBytes (printLiteral (printBits s (mem + i) 0x80 8) [32]) mem (i + 1) k

def printEndl (s : State) : State := printLiteral s [10]

def printBinaryMem (s : State) (mem length : ℕ) : State := printEndl (printBytes s mem 0 length)

/-- The bits of `num` below `i * 8`, the eight highest first, each eight followed by a blank. -/
def printNumBytes (s : State) (num : ℤ) : ℕ → State
  | 0 => s
  | i + 1 =>
    let s₁ := (List.range 8).foldl (fun s j =>
      printChar s (if num >>> ((i + 1) * 8 - (j + 1)) % 2 = 1 then 49 else 48)) s
    printNumBytes (printLiteral s₁ [32]) num i

def printBinary (s : State) (num : ℤ) : State := printEndl (printNumBytes s num 4)

/-- The characters `0123456789ABCDEF`. -/
def hexDigits : List UInt8 := [48, 49, 50, 51, 52, 53, 54, 55, 56, 57, 65, 66, 67, 68, 69, 70]

/-- The loop of `printHex`, downwards from the nibble `i - 1`. -/
def printNibbles (s : State) (k : ℤ) : ℕ → State
  | 0 => s
  | i + 1 => printNibbles (printChar s (hexDigits.getD (k >>> (4 * i) % 16).toNat 0)) k i

def printHex (s : State) (k : ℤ) : State := printNibbles (printLiteral s [48, 120]) k 8

inductive Op where
  | printChar (c : UInt8)
  | printString (str : ℕ)
  | printInt (k : ℤ)
  | printHex (k : ℤ)
  | printBinaryMem (mem length : ℕ)
  | printBinary (num : ℤ)
  | printEndl
  | setTextColor (backcolor forecolor : UInt8)
  | clean

def exec (s : State) : Op → State
  | .printChar c => printChar s c
  | .printString str => printString s str
  | .printInt k => printInt s k
  | .printHex k => printHex s k
  | .printBinaryMem mem length => printBinaryMem s mem length
  | .printBinary num => printBinary s num
  | .printEndl => printEndl s
  | .setTextColor backcolor forecolor => setTextColor s backcolor forecolor
  | .clean => clean s

end ExperimentalKernel.TextScreen
