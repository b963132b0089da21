import ExperimentalKernel.FaultReports
import ExperimentalKernel.InitrdListing
import ExperimentalKernel.InitrdReading

/-!
# The ramdisk on the screen

The child process of `kernel_main` lists the root and prints what `read` puts into a
buffer of 256 bytes. The terminator of a full buffer goes to the byte behind it, and
behind a zero byte of a file the buffer shows what an earlier file left there.
-/

namespace ExperimentalKernel.Initrd
open ByteMemory KernelStrings TextScreen
open Faults (literal printText displays_printText)

def vfsRead (fs : InitrdFs) (fileNode : FileNode) (offset size buffer : ℕ) : ℕ × Mem :=
  if fileNode.fileOperations.read = true then read fs fileNode.inode offset size buffer
  else (0xFFFFFFFF, fs.memory)

/-- The loop over `buf` from the index `j` on. -/
def printBuf (s : State) (buf j : ℕ) : ℕ → State
  | 0 => s
  | k + 1 => printBuf (printChar s (s.mem (buf + j))) buf (j + 1) k

/-- The rest of the loop's body for a node. -/
def printNode (fs : InitrdFs) (buf : ℕ) (s : State) (fsnode : FileNode) : State :=
  if fsnode.flags &&& 7 = fsDirectory then printText s " - directory -> \n"
  else
    let (sz, m) := vfsRead { fs with memory := s.mem } fsnode 0 256 buf
    printEndl (printBuf { s with mem := m } buf 0 sz)

section Texts

/-- The buffer after a file was read into it. -/
def received (content b : List UInt8) : List UInt8 :=
  let l := (content.take 256).takeWhile (· ≠ 0)
  (l ++ 0 :: b.drop (l.length + 1)).take 256

variable {contentOf : List UInt8 → List UInt8} {names : List (List UInt8)} {content : List UInt8}

end Texts

section Buffer

theorem copied_congr {s s' : ℕ → UInt8} {num : ℕ} (h : ∀ i < num, s' i = s i) :
    copied s' num = copied s num := by
  induction num generalizing s s' with
  | zero => rfl
  | succ num ih =>
    rw [copied, copied, h 0 (Nat.succ_pos num), ih fun i hi => h (i + 1) (by omega)]

theorem copied_stored {m : Mem} {a num : ℕ} {content : List UInt8} (h : Stored m a content)
    (hnum : num ≤ content.length) :
    copied (fun i => m (a + i)) num = (content.take num).takeWhile (· ≠ 0) := by
  induction content generalizing a num with
  | nil =>
    obtain rfl : num = 0 := Nat.le_zero.mp hnum
    rfl
  | cons c content ih =>
    cases num with
    | zero => rfl
    | succ num =>
      have hc : m (a + 0) = c := h 0 (Nat.succ_pos _)
      have htail : Stored m (a + 1) content := by
        intro i hi
        rw [Nat.add_assoc, Nat.add_comm 1 i]
        exact h (i + 1) (by rw [List.length_cons]; omega)
      have hshift : (fun i => m (a + (i + 1))) = fun i => m (a + 1 + i) := by
        funext i
        rw [Nat.add_assoc, Nat.add_comm 1 i]
      rw [copied, hc, hshift, ih htail (by simpa using hnum), List.take_succ_cons]
      by_cases h0 : c = 0
      · rw [if_pos h0, List.takeWhile_cons_of_neg (by simpa using h0)]
      · rw [if_neg h0, List.takeWhile_cons_of_pos (by simpa using h0)]

/-- Apart from its source, `strncpy` writes the characters before the first zero and a
terminator. -/
theorem strncpy_eq_strcpy (num : ℕ) (m : Mem) (dest src : ℕ)
    (hd : src + num ≤ dest ∨ dest + num + 1 ≤ src) :
    strncpy m dest src num = strcpy m dest (copied (fun i => m (src + i)) num) := by
  induction num generalizing m dest src with
  | zero => rfl
  | succ num ih =>
    have hsource : ∀ i < num, write8 m dest (m src) (src + 1 + i) = m (src + (i + 1)) := by
      intro i hi
      rw [write8_of_ne m _ (by omega), Nat.add_assoc, Nat.add_comm 1 i]
    have hrest := ih (write8 m dest (m src)) (dest + 1) (src + 1) (by omega)
    rw [copied_congr hsource] at hrest
    by_cases h0 : m src = 0
    · have h0' : m (src + 0) = 0 := h0
      rw [strncpy, if_pos h0, copied, if_pos h0']
      rfl
    · have h0' : m (src + 0) ≠ 0 := h0
      rw [strncpy, if_neg h0, copied, if_neg h0', hrest]
      rfl

theorem bytes_take (m : Mem) (a n k : ℕ) : (bytes m a n).take k = bytes m a (min k n) := by
  rw [bytes, ← List.map_take, List.take_range]
  rfl

theorem bytes_strcpy (m : Mem) (a : ℕ) (l : List UInt8) (n : ℕ) :
    bytes (strcpy m a l) a n = (l ++ 0 :: (bytes m a n).drop (l.length + 1)).take n := by
  obtain ⟨hstored, hoff⟩ := strcpy_spec l m a
  have hlen : (l ++ [0]).length = l.length + 1 := List.length_append
  have happend : l ++ 0 :: (bytes m a n).drop (l.length + 1) =
      (l ++ [0]) ++ (bytes m a n).drop (l.length + 1) := by simp
  rw [happend]
  by_cases hn : n ≤ l.length + 1
  · have hslice := hstored.bytes_slice (o := 0) (n := n) (by omega)
    rw [Nat.add_zero, List.drop_zero] at hslice
    exact hslice.trans (List.take_append_of_le_length (by omega)).symm
  · obtain ⟨r, rfl⟩ := Nat.exists_eq_add_of_le (not_le.mp hn).le
    have hfront := hstored.bytes_eq
    rw [hlen] at hfront
    have hback : bytes (strcpy m a l) (a + (l.length + 1)) r = bytes m (a + (l.length + 1)) r :=
      List.map_congr_left fun i _ => hoff _ (by omega)
    rw [bytes_append, hfront, hback, bytes_append, List.drop_left' (bytes_length _ _ _),
      List.take_of_length_le]
    rw [List.length_append, hlen, bytes_length]

end Buffer

/-- An image of this length and the buffer lie apart, both beside the video memory. -/
structure Layout (location length buf : ℕ) : Prop where
  fits : location + length < wordSize
  apart : buf + 257 ≤ location ∨ location + length ≤ buf
  bounded : buf + 257 ≤ wordSize
  image_beside : location + length ≤ video ∨ videoEnd ≤ location
  buffer_beside : buf + 257 ≤ video ∨ videoEnd ≤ buf

/-- The file system that `init` makes of an image. -/
structure Mounted (fs : InitrdFs) (es : List FileEntry) (contentOf : List UInt8 → List UInt8)
    (m : Mem) (location buf : ℕ) : Prop where
  initialised : fs = init m location
  plainName : ∀ e ∈ es, PlainName e.name
  content : ∀ e ∈ es, contentOf e.name = e.content
  stored : Stored m location (image es)
  size : (image es).length < 0x80000000
  layout : Layout location (image es).length buf

/-- Beside the video memory and the buffer both states have the same bytes. -/
def Kept (buf : ℕ) (s s' : State) : Prop :=
  ∀ x, x < video ∨ videoEnd ≤ x → x < buf ∨ buf + 257 ≤ x → s'.mem x = s.mem x

/-- The screen shows `c`, the buffer holds `b`, and the rest is as in `s`. -/
structure Showing (buf : ℕ) (s s' : State) (c : Console) (b : List UInt8) : Prop where
  displays : Displays s'.mem s' c
  buffer : bytes s'.mem buf 256 = b
  kept : Kept buf s s'

section Printing

variable {fs : InitrdFs} {es : List FileEntry} {contentOf : List UInt8 → List UInt8} {m : Mem}
variable {location buf : ℕ} {s s' : State} {c : Console} {b name : List UInt8}

/-- What a printing operation leaves. -/
theorem Showing.print (h : Showing buf s s' c b) (hbuf : buf + 257 ≤ video ∨ videoEnd ≤ buf)
    {t : State} {c' : Console} (ht : Displays s'.mem t c') : Showing buf s t c' b := by
  refine ⟨⟨ht.base, ht.column, ht.line, ht.attribute_, ht.cells, AgreeOff.refl _ _ _⟩, ?_, ?_⟩
  · rw [← h.buffer]
    refine List.map_congr_left fun i hi => ht.rest _ ?_
    have := List.mem_range.mp hi
    omega
  · intro x hx hb
    rw [ht.rest x hx, h.kept x hx hb]

theorem displays_printBuf (h : Displays m s c) (hd : buf + 257 ≤ video ∨ videoEnd ≤ buf)
    (k j : ℕ) (hj : j + k ≤ 256) :
    Displays m (printBuf s buf j k) (c.type (bytes m (buf + j) k)) := by
  induction k generalizing s c j with
  | zero => exact h
  | succ k ih =>
    have hfirst : bytes m (buf + j) (k + 1) = m (buf + j) :: bytes m (buf + (j + 1)) k := by
      rw [Nat.add_comm k 1, bytes_append]
      rfl
    rw [printBuf, h.rest (buf + j) (by omega), hfirst, Console.type_cons]
    exact ih (h.printChar _) (j + 1) (by omega)

theorem Mounted.setDirent (hm : Mounted fs es contentOf m location buf) (d : Dirent) :
    Initialised m location (es.map FileEntry.name) { fs with currDirent := d } := by
  rw [hm.initialised]
  exact (image_initialised hm.plainName hm.stored hm.layout.fits).setDirent d

/-- As long as the image is as `init` left it, every file can be read. -/
theorem Mounted.readable (hm : Mounted fs es contentOf m location buf)
    (hmem : AgreeOn fs.memory s.mem location (location + (image es).length))
    {i : ℕ} (hi : i < es.length) (d : Dirent) :
    ∃ a, Readable { fs with currDirent := d }
      (childNode m (location + 4) (es.map FileEntry.name) i) es[i].content a buf 257 s.mem := by
  have hnode := (hm.setDirent d).child (i := i) (by rwa [List.length_map])
  have hfile : (es[i]?).map FileEntry.content = some es[i].content := by
    rw [List.getElem?_eq_getElem hi]
    rfl
  obtain rfl := hm.initialised
  have hreading : Reading es m location i es[i].content
      (childNode m (location + 4) (es.map FileEntry.name) i) (fun _ => 256) buf 257 fun _ => s.mem :=
    ⟨hm.plainName, hm.stored, hm.size, hm.layout.fits, hfile, hnode, fun _ => hmem, hm.layout.apart, hm.layout.bounded,
      fun _ => lt_of_le_of_lt (Nat.min_le_left _ _) (by decide)⟩
  obtain ⟨a, hread⟩ := hreading.readable
  have h := hread 0
  exact ⟨a, h.offset, h.length, h.stored, h.address, h.short, h.apart⟩

/-- `read` of a whole file into the buffer. -/
theorem Showing.read (h : Showing buf s s' c b) (hbuf : buf + 257 ≤ video ∨ videoEnd ≤ buf)
    {fs : InitrdFs} {node : FileNode} {content : List UInt8} {a : ℕ}
    (hread : Readable fs node content a buf 257 s'.mem) :
    ∃ m₁, Initrd.read { fs with memory := s'.mem } node.inode 0 256 buf =
        (min 256 content.length, m₁) ∧
      Showing buf s { s' with mem := m₁ } c (received content b) := by
  have hcopied := copied_stored hread.stored (Nat.min_le_right 256 content.length)
  have hapart := hread.apart
  have hstrcpy := strncpy_eq_strcpy (min 256 content.length) s'.mem buf a (by omega)
  have htake : content.take (min 256 content.length) = content.take 256 := by
    rw [← List.take_take, List.take_length]
  rw [hcopied, htake] at hstrcpy
  have hlen : ((content.take 256).takeWhile (· ≠ 0)).length ≤ 256 :=
    (List.takeWhile_prefix _).length_le.trans (List.length_take_le _ _)
  obtain ⟨-, hoff⟩ := strcpy_spec ((content.take 256).takeWhile (· ≠ 0)) s'.mem buf
  refine ⟨_, (read_eq hread (Nat.zero_le _) (by decide)), ?_⟩
  simp only [Nat.sub_zero, Nat.add_zero, hstrcpy]
  refine ⟨⟨h.displays.base, h.displays.column, h.displays.line, h.displays.attribute_,
    fun l hl k hk => ?_, AgreeOff.refl _ _ _⟩, ?_, fun x hx hb => ?_⟩
  · obtain ⟨hlo, hhi⟩ := cellAddress_bounds hl hk
    obtain ⟨h₁, h₂⟩ := h.displays.cells l hl k hk
    rw [← h₁, ← h₂]
    exact ⟨hoff _ (by omega), hoff _ (by omega)⟩
  · rw [bytes_strcpy, h.buffer]
    rfl
  · rw [← h.kept x hx hb]
    exact hoff x (by omega)

theorem Showing.directory (h : Showing buf s s' c b) (hbuf : buf + 257 ≤ video ∨ videoEnd ≤ buf)
    (fs : InitrdFs) {node : FileNode} (hnode : node.flags &&& 7 = fsDirectory) :
    Showing buf s (printNode fs buf s' node) (c.type (literal " - directory -> \n")) b := by
  rw [printNode, if_pos hnode]
  exact h.print hbuf (displays_printText h.displays " - directory -> \n")

/-- A file is shown as far as it fits the buffer. -/
theorem Showing.file (h : Showing buf s s' c b) (hbuf : buf + 257 ≤ video ∨ videoEnd ≤ buf)
    {fs : InitrdFs} {node : FileNode} {content : List UInt8} {a : ℕ}
    (hfile : node.flags &&& 7 ≠ fsDirectory) (hoperation : node.fileOperations.read = true)
    (hread : Readable fs node content a buf 257 s'.mem) :
    Showing buf s (printNode fs buf s' node)
      (c.type ((received content b).take content.length ++ [10])) (received content b) := by
  obtain ⟨m₁, hreads, hshowing⟩ := h.read hbuf hread
  have hprinted := (displays_printBuf hshowing.displays hbuf (min 256 content.length) 0
    (by omega)).printLiteral [10]
  have hbytes : bytes m₁ (buf + 0) (min 256 content.length) =
      (received content b).take content.length := by
    rw [← hshowing.buffer, bytes_take, Nat.min_comm]
    rfl
  rw [hbytes, ← Console.type_append] at hprinted
  rw [printNode, if_neg hfile, vfsRead, if_pos hoperation, hreads]
  exact hshowing.print hbuf hprinted

end Printing

section Image

variable {files : Directory} {names : List (List UInt8)} {location buf : ℕ} {s : State} {c : Console}

end Image

end ExperimentalKernel.Initrd
