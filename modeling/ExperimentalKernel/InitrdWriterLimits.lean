import ExperimentalKernel.InitrdImage

/-!
# The ramdisk writer outside its limits

The array has room for 32 files and a name field for 63 characters. The passes of `main`
treat these limits differently: the count is cut off at 32, but all arguments are laid out
and written; only names above 64 characters are skipped, and only in the first pass; and
the files are opened under the last part of their paths, for writing too.
-/

namespace ExperimentalKernel.Initrd
open ByteMemory KernelStrings

/-- The fields of a `FileNode`. -/
inductive NodeField
  | magic
  | name
  | offset
  | length

def NodeField.start : NodeField → ℕ
  | .magic => 0
  | .name => 1
  | .offset => 65
  | .length => 69

def NodeField.size : NodeField → ℕ
  | .magic => 1
  | .name => 64
  | .offset => 4
  | .length => 4

/-- A store of `count` bytes from byte `first` of a field of `fileNodes[index]` on. -/
structure NodeStore where
  index : ℕ
  field : NodeField
  first : ℕ
  count : ℕ

def NodeStore.address (w : NodeStore) : ℕ := fileNodeSize * w.index + w.field.start + w.first

/-- The store keeps to an element of the array and to its field. -/
def NodeStore.Inside (w : NodeStore) : Prop :=
  w.index < fileNodesMax ∧ w.first + w.count ≤ w.field.size

/-- The stores of one turn of the first loop. -/
def fillNodeStores (m : Mem) (i : ℕ) (arg : List UInt8) : List NodeStore :=
  if arg.length > 64 then []
  else
    let a := fileNodeSize * i
    let m₂ := strcpy (write8 m a 0xAB) (a + 1) (getFileNameFromPath arg)
    let len := strlen fun k => m₂ (a + 1 + k)
    [⟨i, .magic, 0, 1⟩, ⟨i, .name, 0, (getFileNameFromPath arg).length + 1⟩,
      ⟨i, .name, len, 64 - len⟩, ⟨i, .offset, 0, 4⟩, ⟨i, .length, 0, 4⟩]

def fillNodesStores (files : Directory) (m : Mem) (i : ℕ) (offset : ℕ) :
    List (List UInt8) → List NodeStore
  | [] => []
  | arg :: args =>
    let (m₁, offset₁) := fillNode files m i arg offset
    fillNodeStores m i arg ++ fillNodesStores files m₁ (i + 1) offset₁ args

/-- What the second loop writes, record by record. -/
def nodeRecords (m : Mem) (i : ℕ) : ℕ → List (List UInt8)
  | 0 => []
  | k + 1 => bytes m (fileNodeSize * i) fileNodeSize :: nodeRecords m (i + 1) k

theorem nodeRecords_length (m : Mem) (i k : ℕ) : (nodeRecords m i k).length = k := by
  induction k generalizing i with
  | zero => rfl
  | succ k ih => rw [nodeRecords, List.length_cons, ih]

theorem nodeRecords_flatten (m : Mem) (i k : ℕ) :
    (nodeRecords m i k).flatten = bytes m (73 * i) (73 * k) := by
  induction k generalizing i with
  | zero => rfl
  | succ k ih =>
    rw [nodeRecords, List.flatten_cons, ih, show 73 * (k + 1) = 73 + 73 * k by omega, bytes_append]
    rfl

/-- `r` is the record of `arg`: its name, and the place of its content in the image. -/
structure RecordOf (files : Directory) (image r arg : List UInt8) : Prop where
  magic : chars r 0 = 0xAB
  terminated : (getFileNameFromPath arg).length < 64
  name : HoldsString (fun k => chars r (1 + k)) (getFileNameFromPath arg)
  content : ∀ content, files arg = some content → read32 (chars r) 69 = content.length ∧
    (image.drop (read32 (chars r) 65)).take content.length = content

/-- `fileNodesNum`, cut off. -/
def fileNodesNum (args : List (List UInt8)) : ℕ :=
  if args.length > fileNodesMax then fileNodesMax else args.length

/-- Where the contents begin, as the first loop assumes. -/
def startOffset (args : List (List UInt8)) : ℕ := 4 + fileNodesNum args * fileNodeSize

/-- The headers that `main` writes. -/
def headers (files : Directory) (stack : Mem) (args : List (List UInt8)) : List (List UInt8) :=
  nodeRecords (fillNodes files stack 0 (startOffset args) args) 0 args.length

structure WriterConsistent (files : Directory) (junk : ℕ → UInt8) (stack : Mem)
    (args : List (List UInt8)) : Prop where
  stores : ∀ w ∈ fillNodesStores files stack 0 (startOffset args) args, w.Inside
  count : read32 (chars (mkInitrdImg files junk stack args)) 0 = (headers files stack args).length
  records : List.Forall₂ (RecordOf files (mkInitrdImg files junk stack args))
    (headers files stack args) (args.filter fun arg => arg.length ≤ 64)

section Headers

variable {files : Directory} {args : List (List UInt8)}

theorem headers_length (files : Directory) (stack : Mem) (args : List (List UInt8)) :
    (headers files stack args).length = args.length := nodeRecords_length _ _ _

theorem stored_chars (l : List UInt8) : Stored (chars l) 0 l := by
  intro k _
  rw [Nat.zero_add, chars]

/-- Whatever is in the array, the last loop only appends. -/
theorem WrittenOver.writeContents_append (files : Directory) (k : ℕ) {old : List UInt8} {f : ImageFile}
    {bs : List UInt8} (h : WrittenOver old f bs) (junk : ℕ → UInt8) (m : Mem) (i : ℕ) :
    ∃ cs, WrittenOver old (writeContents files junk m f i k) (bs ++ cs) := by
  induction k generalizing f bs i with
  | zero => exact ⟨[], by rwa [List.append_nil]⟩
  | succ k ih =>
    rw [writeContents]
    split
    · obtain ⟨cs, hcs⟩ := ih (h.write (readContent files junk f (stringAt m (fileNodeSize * i + 1))
        (toCount (read32 m (fileNodeSize * i + 69))))) (i + 1)
      rw [List.append_assoc] at hcs
      exact ⟨_, hcs⟩
    · exact ⟨[], by rwa [List.append_nil]⟩

/-- The image file after the second loop. -/
theorem headers_written (files : Directory) (stack : Mem) (args : List (List UInt8)) :
    WrittenOver ((files imageName).getD [])
      (writeNodes (fillNodes files stack 0 (startOffset args) args)
        ((ImageFile.mk ((files imageName).getD []) 0).write (le32 (fileNodesNum args))) 0 args.length)
      (le32 (fileNodesNum args) ++ (headers files stack args).flatten) := by
  have hstart : WrittenOver ((files imageName).getD []) (ImageFile.mk ((files imageName).getD []) 0) [] :=
    ⟨rfl, rfl⟩
  rw [headers, nodeRecords_flatten]
  exact (hstart.write (le32 (fileNodesNum args))).writeNodes args.length _ 0

theorem read32_chars {v : ℕ} (hv : v < wordSize) (rest : List UInt8) :
    read32 (chars (le32 v ++ rest)) 0 = v :=
  (stored_append.mp (stored_chars (le32 v ++ rest))).1.read32_eq hv

theorem fileNodesNum_le (args : List (List UInt8)) : fileNodesNum args ≤ fileNodesMax := by
  unfold fileNodesNum
  split <;> omega

theorem mkInitrdImg_eq {files : Directory} (hout : files.opens imageName = true) (junk : ℕ → UInt8)
    (stack : Mem) (args : List (List UInt8)) :
    mkInitrdImg files junk stack args =
      (writeContents files junk (fillNodes files stack 0 (startOffset args) args)
        (writeNodes (fillNodes files stack 0 (startOffset args) args)
          ((ImageFile.mk ((files imageName).getD []) 0).write (le32 (fileNodesNum args))) 0
          args.length) 0 args.length).content := if_pos hout

theorem count_written {files : Directory} (hout : files.opens imageName = true) (junk : ℕ → UInt8)
    (stack : Mem) (args : List (List UInt8)) :
    read32 (chars (mkInitrdImg files junk stack args)) 0 = fileNodesNum args := by
  obtain ⟨cs, -, hcs⟩ := (headers_written files stack args).writeContents_append files
    args.length junk (fillNodes files stack 0 (startOffset args) args) 0
  rw [mkInitrdImg_eq hout, hcs, List.append_assoc, List.append_assoc]
  have := fileNodesNum_le args
  exact read32_chars (by unfold fileNodesMax wordSize at *; omega) _

end Headers

section Necessary

variable {files : Directory} {junk : ℕ → UInt8} {stack : Mem} {args : List (List UInt8)}

theorem WriterConsistent.few (h : WriterConsistent files junk stack args)
    (hout : files.opens imageName = true) : args.length ≤ fileNodesMax := by
  have hcount := h.count
  rw [count_written hout, headers_length] at hcount
  exact hcount ▸ fileNodesNum_le args

end Necessary

section Contents

variable {files : Directory} {args : List (List UInt8)}

end Contents

section Exact

variable {files : Directory} {args : List (List UInt8)}

end Exact

end ExperimentalKernel.Initrd
