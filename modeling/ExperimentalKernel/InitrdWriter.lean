import ExperimentalKernel.KernelStrings

/-!
# The ramdisk writer

`mk_initrd_img.cpp`. The array `fileNodes` is raw memory from address 0 on, so that
what the code copies into it may run on. Several names of a directory may lead to one
file, and a file that can be read need not open with `O_RDWR`; every `read` and `write`
of an open file succeeds. Bytes of `new char[]` that `read` does not fill come from `junk`.
-/

namespace ExperimentalKernel.Initrd
open ByteMemory KernelStrings

/-- What the host has under paths. `file` is the file that a path leads to, over all links,
and `opens` tells whether `open` with `O_RDWR` succeeds. -/
structure Directory where
  file : List UInt8 → Option ℕ
  content : ℕ → List UInt8
  opens : List UInt8 → Bool

/-- The content of the file that stands under `path` before the tool runs. -/
def Directory.find (files : Directory) (path : List UInt8) : Option (List UInt8) :=
  (files.file path).map files.content

instance : CoeFun Directory fun _ => List UInt8 → Option (List UInt8) := ⟨Directory.find⟩

/-- `sizeof(FileNode)` of the writer. -/
def fileNodeSize : ℕ := 73

def fileNodesMax : ℕ := 32

/-- The characters `initrd.img`. -/
def imageName : List UInt8 := [105, 110, 105, 116, 114, 100, 46, 105, 109, 103]

/-- The part behind the last `/`. -/
def getFileNameFromPath (path : List UInt8) : List UInt8 :=
  (path.reverse.takeWhile fun c => c ≠ 47).reverse

/-- The path leads to the output: it is its name, or another name of the same file. -/
def Directory.IsImage (files : Directory) (path : List UInt8) : Prop :=
  path = imageName ∨ (files.file path).isSome ∧ files.file path = files.file imageName

instance (files : Directory) (path : List UInt8) : Decidable (files.IsImage path) :=
  inferInstanceAs (Decidable (_ ∨ _ ∧ _))

/-- The file written so far and the position in it. -/
structure ImageFile where
  content : List UInt8
  position : ℕ

/-- `write` replaces bytes and never shortens the file. -/
def ImageFile.write (f : ImageFile) (bs : List UInt8) : ImageFile where
  content := f.content.take f.position ++ bs ++ f.content.drop (f.position + bs.length)
  position := f.position + bs.length

/-- `strcpy` of a string of another object. -/
def strcpy (m : Mem) (dest : ℕ) : List UInt8 → Mem
  | [] => write8 m dest 0
  | c :: cs => strcpy (write8 m dest c) (dest + 1) cs

/-- The string that stands at `a`. -/
def stringAt (m : Mem) (a : ℕ) : List UInt8 := copied (fun k => m (a + k)) (strlen fun k => m (a + k))

/-- `tellg` at the end of the file, minus one if it is not there. -/
def fileLength (files : Directory) (name : List UInt8) : ℕ :=
  match files name with
  | some content => u32 content.length
  | none => 0xFFFFFFFF

/-- One turn of the first loop; `offset` is the running offset. -/
def fillNode (files : Directory) (m : Mem) (i : ℕ) (arg : List UInt8) (offset : ℕ) : Mem × ℕ :=
  if arg.length > 64 then (m, offset)
  else
    let a := fileNodeSize * i
    let m₁ := write8 m a 0xAB
    let m₂ := strcpy m₁ (a + 1) (getFileNameFromPath arg)
    let len := strlen fun k => m₂ (a + 1 + k)
    let m₃ := fill m₂ (a + 1 + len) 0 (64 - len)
    let m₄ := write32 m₃ (a + 65) offset
    let m₅ := write32 m₄ (a + 69) (fileLength files (stringAt m₃ (a + 1)))
    (m₅, add32 offset (read32 m₅ (a + 69)))

def fillNodes (files : Directory) (m : Mem) (i : ℕ) (offset : ℕ) : List (List UInt8) → Mem
  | [] => m
  | arg :: args =>
    let (m₁, offset₁) := fillNode files m i arg offset
    fillNodes files m₁ (i + 1) offset₁ args

/-- The four `write` calls for node `i`. -/
def writeNode (m : Mem) (f : ImageFile) (i : ℕ) : ImageFile :=
  let a := fileNodeSize * i
  (((f.write (bytes m a 1)).write (bytes m (a + 1) 64)).write (bytes m (a + 65) 4)).write
    (bytes m (a + 69) 4)

def writeNodes (m : Mem) (f : ImageFile) (i : ℕ) : ℕ → ImageFile
  | 0 => f
  | k + 1 => writeNodes m (writeNode m f i) (i + 1) k

/-- `open` with `O_RDWR` and `read` into a fresh buffer of `length` bytes. If the `open` fails
the `read` does, and the buffer is used as it is. -/
def readContent (files : Directory) (junk : ℕ → UInt8) (f : ImageFile) (name : List UInt8)
    (length : ℕ) : List UInt8 :=
  let content :=
    if files.opens name = false then []
    else if files.IsImage name then f.content
    else (files name).getD []
  (List.range length).map fun k => content.getD k (junk k)

/-- One turn of the last loop. -/
def writeContent (files : Directory) (junk : ℕ → UInt8) (m : Mem) (f : ImageFile) (i : ℕ) :
    ImageFile :=
  let a := fileNodeSize * i
  f.write (readContent files junk f (stringAt m (a + 1)) (toCount (read32 m (a + 69))))

/-- The last loop. It ends the program at a length that is negative as an `int`:
`new char[]` throws then, and nothing catches it. -/
def writeContents (files : Directory) (junk : ℕ → UInt8) (m : Mem) (f : ImageFile) (i : ℕ) :
    ℕ → ImageFile
  | 0 => f
  | k + 1 =>
    if read32 m (fileNodeSize * i + 69) < 0x80000000 then
      writeContents files junk m (writeContent files junk m f i) (i + 1) k
    else f

/-- `main`: the content of `initrd.img`. The arguments are those after the program's
name; `stack` is what memory held before. If `initrd.img` does not open every `write` fails. -/
def mkInitrdImg (files : Directory) (junk : ℕ → UInt8) (stack : Mem) (args : List (List UInt8)) :
    List UInt8 :=
  let fileNodesNum := if args.length > fileNodesMax then fileNodesMax else args.length
  let m := fillNodes files stack 0 (4 + fileNodesNum * fileNodeSize) args
  if files.opens imageName then
    let f₁ := (ImageFile.mk ((files imageName).getD []) 0).write (le32 fileNodesNum)
    let f₂ := writeNodes m f₁ 0 args.length
    (writeContents files junk m f₂ 0 args.length).content
  else (files imageName).getD []

end ExperimentalKernel.Initrd
