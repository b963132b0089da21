import ExperimentalKernel.KernelStrings

/-!
# The ramdisk file system

`initrd_fs.cpp` with the parts of `fs.cpp` and `array.cpp` it uses. The image lies
in memory; the nodes that `init` makes are values. Of `name_` only the characters
before the terminator are kept, and an index out of range is `none`.
-/

namespace ExperimentalKernel.Initrd
open ByteMemory KernelStrings

/-- `sizeof(FileHeader)`: the record is packed. -/
def headerSize : ℕ := 73

structure FileHeader where
  magic : UInt8
  name : ℕ → UInt8
  offset : ℕ
  length : ℕ

/-- `fileHeaders_[i]` of the array at `array`. -/
def fileHeader (m : Mem) (array i : ℕ) : FileHeader where
  magic := m (array + headerSize * i)
  name := fun k => m (array + headerSize * i + 1 + k)
  offset := read32 m (array + headerSize * i + 65)
  length := read32 m (array + headerSize * i + 69)

/-- Which of the function pointers are set; all are those of `InitrdFs`. -/
structure FileOperations where
  read : Bool := false
  write : Bool := false
  opens : Bool := false
  close : Bool := false
  readdir : Bool := false
  finddir : Bool := false
  deriving DecidableEq

structure FileNode where
  name : List UInt8
  mask : ℕ
  uid : ℕ
  gid : ℕ
  flags : ℕ
  inode : ℕ
  length : ℕ
  fileOperations : FileOperations
  deriving DecidableEq

def maxNameLen : ℕ := 64

def fsFile : ℕ := 1

def fsDirectory : ℕ := 2

/-- The name that the constructors and `operator=` take over. -/
def copyName (name : ℕ → UInt8) : List UInt8 :=
  let nameLen := if strlen name > maxNameLen then maxNameLen else strlen name
  copied name nameLen

def FileNode.assign (n : FileNode) : FileNode := { n with name := copyName (chars n.name) }

/-- `Array::add` on the array of child nodes. -/
def addChild (maxSize : ℕ) (children : List FileNode) (item : FileNode) : List FileNode :=
  if children.length ≠ maxSize then children ++ [item.assign] else children

structure Dirent where
  name : List UInt8
  inode : ℕ
  deriving DecidableEq

/-- The static members of `InitrdFs`; `childNodes` are those of `root`. -/
structure InitrdFs where
  memory : Mem
  fileHeaders : ℕ
  size : ℕ
  root : FileNode
  dev : FileNode
  childNodes : List FileNode
  currDirent : Dirent

/-- The characters `initrd`. -/
def initrdName : List UInt8 := [105, 110, 105, 116, 114, 100]

/-- The characters `dev`. -/
def devName : List UInt8 := [100, 101, 118]

/-- Both directories have the listing operations and nothing else. -/
def directoryNode (name : List UInt8) : FileNode where
  name := copied (chars name) (strlen (chars name))
  mask := 0
  uid := 0
  gid := 0
  flags := fsDirectory
  inode := 0
  length := 0
  fileOperations := { readdir := true, finddir := true }

/-- One turn of the loop of `init`. -/
def initEntry (m : Mem) (location array maxSize : ℕ) (children : List FileNode) (i : ℕ) :
    Mem × List FileNode :=
  let a := array + headerSize * i + 65
  let m₁ := write32 m a (add32 (read32 m a) location)
  let h := fileHeader m₁ array i
  (m₁, addChild maxSize children
    { name := copyName h.name, mask := 0, uid := 0, gid := 0, flags := fsFile, inode := i + 1,
      length := h.length, fileOperations := { read := true } })

/-- `k` turns from header `i` on. -/
def initEntries (m : Mem) (location array maxSize : ℕ) (children : List FileNode) (i : ℕ) :
    ℕ → Mem × List FileNode
  | 0 => (m, children)
  | k + 1 =>
    let (m₁, children₁) := initEntry m location array maxSize children i
    initEntries m₁ location array maxSize children₁ (i + 1) k

def init (m : Mem) (location : ℕ) : InitrdFs :=
  let size := read32 m location
  let array := location + 4
  let (m₁, children) := initEntries m location array size [] 0 size
  { memory := m₁
    fileHeaders := array
    size := size
    root := directoryNode initrdName
    dev := directoryNode devName
    childNodes := children
    currDirent := ⟨[], 0⟩ }

/-- `read` of a node with this `inode_`: the result and memory. -/
def read (fs : InitrdFs) (inode offset size buffer : ℕ) : ℕ × Mem :=
  let h := fileHeader fs.memory fs.fileHeaders (inode - 1)
  let size := if add32 offset size > h.length then sub32 h.length offset else size
  if offset > h.length then (0, fs.memory)
  else (size, strncpy fs.memory buffer (add32 h.offset offset) (toCount size))

/-- A `FileNode*`. -/
inductive NodePtr where
  | root
  | dev
  | child (i : ℕ)
  deriving DecidableEq

/-- `readdir` returns null or the address of `currDirent`. -/
def readdir (fs : InitrdFs) (fileNode : NodePtr) (index : ℕ) : Option (Option Dirent × InitrdFs) :=
  if fileNode = .root ∧ index = 0 then
    let d : Dirent := ⟨copied (chars devName) (strlen (chars devName)), 0⟩
    some (some d, { fs with currDirent := d })
  else if index > fs.childNodes.length then some (none, fs)
  else
    fs.childNodes[sub32 index 1]?.map fun node =>
      let d : Dirent := ⟨copied (chars node.name) (strlen (chars node.name)), node.inode⟩
      (some d, { fs with currDirent := d })

/-- The loop of `finddir`. -/
def findChild (name : ℕ → UInt8) (i : ℕ) : List FileNode → Option NodePtr
  | [] => none
  | node :: nodes =>
    if strncmp name (chars node.name) (strlen name) = 0 then some (.child i)
    else findChild name (i + 1) nodes

def finddir (fs : InitrdFs) (fileNode : NodePtr) (name : ℕ → UInt8) : Option NodePtr :=
  if fileNode = .root ∧ strncmp name (chars devName) (strlen (chars devName)) = 0 then some .dev
  else findChild name 0 fs.childNodes

/-- `Vfs::readdir` of the root. -/
def vfsReaddir (fs : InitrdFs) (index : ℕ) : Option (Option Dirent × InitrdFs) :=
  if fs.root.fileOperations.readdir = true then readdir fs .root index else some (none, fs)

/-- What the loop of `kernel_main` sees from index `i` on, if it ends within `k` calls;
its body changes nothing that `readdir` reads. -/
def listing (fs : InitrdFs) (i : ℕ) : ℕ → Option (List Dirent)
  | 0 => none
  | k + 1 =>
    match vfsReaddir fs i with
    | none => none
    | some (none, _) => some []
    | some (some d, fs₁) => (listing fs₁ (i + 1) k).map (d :: ·)

end ExperimentalKernel.Initrd
