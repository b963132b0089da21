import ExperimentalKernel.InitrdRoundTrip

/-!
# Reading a file in pieces

`read` computes how much it delivers from the header, but copies with `strncpy`, which
stops at a zero byte. A piece arrives as it is in the file if a zero byte is at most
its last byte, and if `offset + size` does not wrap around.
-/

namespace ExperimentalKernel.Initrd
open ByteMemory KernelStrings

/-- A caller that reads piece after piece and appends what it gets; `memories k` is
memory before call `k`. The loop ends if it does within `fuel` calls. -/
def readPieces (fs : InitrdFs) (node : FileNode) (buffer : ℕ) (chunks : ℕ → ℕ) (memories : ℕ → Mem)
    (k offset : ℕ) : ℕ → Option (List UInt8)
  | 0 => none
  | fuel + 1 =>
    let (size, m) := read { fs with memory := memories k } node.inode offset (chunks k) buffer
    if size = 0 then some []
    else (readPieces fs node buffer chunks memories (k + 1) (add32 offset size) fuel).map
      (bytes m buffer size ++ ·)

/-- Where piece `k` of a file of this length starts. -/
def pieceStart (length : ℕ) (chunks : ℕ → ℕ) : ℕ → ℕ
  | 0 => 0
  | k + 1 => min (pieceStart length chunks k + chunks k) length

/-- Piece `k` is asked for. -/
def Asked (length : ℕ) (chunks : ℕ → ℕ) (k : ℕ) : Prop := ∀ j < k, pieceStart length chunks j < length

/-- In no piece a zero byte comes before another byte, and no end of a piece wraps around. -/
structure Deliverable (content : List UInt8) (chunks : ℕ → ℕ) : Prop where
  nowrap : ∀ k, Asked content.length chunks k →
    pieceStart content.length chunks k + chunks k < wordSize
  nonzero : ∀ k, Asked content.length chunks k → ∀ i, pieceStart content.length chunks k ≤ i →
    i + 1 < pieceStart content.length chunks (k + 1) → content.getD i 0 ≠ 0

/-- The file of `node` stands at `a`, apart from the buffer. -/
structure Readable (fs : InitrdFs) (node : FileNode) (content : List UInt8) (a buffer room : ℕ)
    (m : Mem) : Prop where
  offset : (fileHeader m fs.fileHeaders (node.inode - 1)).offset = a
  length : (fileHeader m fs.fileHeaders (node.inode - 1)).length = content.length
  stored : Stored m a content
  address : a + content.length < wordSize
  short : content.length < 0x80000000
  apart : buffer + room ≤ a ∨ a + content.length ≤ buffer

theorem pieceStart_le (length : ℕ) (chunks : ℕ → ℕ) (k : ℕ) : pieceStart length chunks k ≤ length := by
  cases k with
  | zero => exact Nat.zero_le _
  | succ k => exact Nat.min_le_right _ _

theorem pieceStart_succ (length : ℕ) (chunks : ℕ → ℕ) (k : ℕ) :
    pieceStart length chunks (k + 1) =
      pieceStart length chunks k + min (chunks k) (length - pieceStart length chunks k) := by
  have := pieceStart_le length chunks k
  rw [pieceStart]
  omega

theorem Asked.succ {length : ℕ} {chunks : ℕ → ℕ} {k : ℕ} (h : Asked length chunks k)
    (hk : pieceStart length chunks k < length) : Asked length chunks (k + 1) := by
  intro j hj
  rcases Nat.lt_succ_iff_lt_or_eq.mp hj with hlt | rfl
  · exact h j hlt
  · exact hk

section Pieces

variable {fs : InitrdFs} {node : FileNode} {content : List UInt8} {a buffer room : ℕ} {m : Mem}
variable {offset size : ℕ}

/-- What `read` returns if its sum does not wrap around. -/
theorem read_eq (h : Readable fs node content a buffer room m) (ho : offset ≤ content.length)
    (hsize : offset + size < wordSize) :
    read { fs with memory := m } node.inode offset size buffer =
      (min size (content.length - offset),
        strncpy m buffer (a + offset) (min size (content.length - offset))) := by
  have haddress := h.address
  have hshort := h.short
  have hmin : (if offset + size > content.length then content.length - offset else size) =
      min size (content.length - offset) := by
    split <;> omega
  have hcount : toCount (min size (content.length - offset)) = min size (content.length - offset) :=
    if_pos (by omega)
  simp only [read, h.length, h.offset, add32_eq hsize, sub32_eq ho, hmin, hcount,
    if_neg (show ¬ offset > content.length by omega), add32_eq (show a + offset < wordSize by omega)]

/-- If it does, `size` comes back as it is. -/
theorem read_wrapped (h : Readable fs node content a buffer room m) (ho : offset ≤ content.length)
    (hsize : size < wordSize) (hwrap : wordSize ≤ offset + size) :
    (read { fs with memory := m } node.inode offset size buffer).1 = size := by
  have haddress := h.address
  have hsum : add32 offset size ≤ content.length := by
    have hmod : add32 offset size = offset + size - wordSize := by
      rw [add32, Nat.mod_eq_sub_mod hwrap, Nat.mod_eq_of_lt (by omega)]
    omega
  simp only [read, h.length, if_neg (show ¬ offset > content.length by omega),
    if_neg (show ¬ add32 offset size > content.length by omega)]

/-- A piece in which only the last byte may be zero is copied. -/
theorem strncpy_piece (h : Readable fs node content a buffer room m) {n : ℕ}
    (hn : offset + n ≤ content.length) (hroom : n < room)
    (hne : ∀ i, offset ≤ i → i + 1 < offset + n → content.getD i 0 ≠ 0) :
    bytes (strncpy m buffer (a + offset) n) buffer n = (content.drop offset).take n := by
  rw [← h.stored.bytes_slice hn]
  refine List.map_congr_left fun j hj => ?_
  have hj := List.mem_range.mp hj
  have hapart := h.apart
  have hbyte : ∀ i, offset + i < content.length → m (a + offset + i) = content.getD (offset + i) 0 :=
    fun i hi => by rw [Nat.add_assoc, h.stored _ hi]
  have hbefore : ∀ i < j, m (a + offset + i) ≠ 0 := by
    intro i hi
    rw [hbyte i (by omega)]
    exact hne _ (by omega) (by omega)
  by_cases h0 : m (a + offset + j) = 0
  · rw [(strncpy_zero n m (by omega) hj h0 hbefore).1, h0]
  · refine strncpy_apply n m (by omega) hj fun i hi => ?_
    rcases hi.lt_or_eq with hlt | rfl
    · exact hbefore i hlt
    · exact h0

variable {chunks : ℕ → ℕ} {memories : ℕ → Mem}

/-- From an offset that is reached the rest of the file is read. -/
theorem readPieces_eq (hread : ∀ k, Readable fs node content a buffer room (memories k))
    (hroom : ∀ k, min (chunks k) content.length < room) (hpos : ∀ k, 0 < chunks k)
    (hd : Deliverable content chunks) (fuel : ℕ) {k : ℕ} (hk : Asked content.length chunks k)
    (hfuel : content.length - pieceStart content.length chunks k < fuel) :
    readPieces fs node buffer chunks memories k (pieceStart content.length chunks k) fuel =
      some (content.drop (pieceStart content.length chunks k)) := by
  induction fuel generalizing k with
  | zero => omega
  | succ fuel ih =>
    have hle := pieceStart_le content.length chunks k
    have hnext := pieceStart_succ content.length chunks k
    have hnowrap := hd.nowrap k hk
    have hnonzero := hd.nonzero k hk
    have hk0 := hpos k
    have hk1 := hroom k
    rw [readPieces, read_eq (hread k) hle hnowrap]
    rw [hnext] at hnonzero
    by_cases hend : pieceStart content.length chunks k = content.length
    · have hzero : min (chunks k) (content.length - pieceStart content.length chunks k) = 0 := by
        omega
      rw [hzero, hend, List.drop_length]
      rfl
    · have hrest := ih (hk.succ (by omega)) (by omega)
      have hpiece := strncpy_piece (hread k) (by omega) (by omega) hnonzero
      rw [hnext] at hrest
      simp only [add32_eq (show pieceStart content.length chunks k +
        min (chunks k) (content.length - pieceStart content.length chunks k) < wordSize by omega),
        hrest, hpiece, if_neg (show min (chunks k)
          (content.length - pieceStart content.length chunks k) ≠ 0 by omega), Option.map_some]
      rw [← List.drop_drop, List.take_append_drop]

/-- If the rest of the file is read, then this piece is right, and the rest behind it is read. -/
theorem readPieces_split (hread : ∀ k, Readable fs node content a buffer room (memories k))
    {k : ℕ} (hpos : 0 < chunks k) (ho : offset ≤ content.length) (hsize : offset + chunks k < wordSize)
    {fuel : ℕ} (h : readPieces fs node buffer chunks memories k offset fuel =
      some (content.drop offset)) :
    let n := min (chunks k) (content.length - offset)
    bytes (strncpy (memories k) buffer (a + offset) n) buffer n = (content.drop offset).take n ∧
      (offset < content.length → ∃ fuel₁, readPieces fs node buffer chunks memories (k + 1)
        (offset + n) fuel₁ = some (content.drop (offset + n))) := by
  intro n
  cases fuel with
  | zero => cases h
  | succ fuel =>
    rw [readPieces, read_eq (hread k) ho hsize] at h
    change (if n = 0 then _ else _) = _ at h
    by_cases hn : n = 0
    · refine ⟨by rw [hn]; rfl, fun hlt => ?_⟩
      omega
    · rw [if_neg hn, add32_eq (by omega)] at h
      obtain ⟨rest, hrest, heq⟩ := Option.map_eq_some_iff.mp h
      have hlen : (bytes (strncpy (memories k) buffer (a + offset) n) buffer n).length = n :=
        bytes_length _ _ _
      refine ⟨?_, fun _ => ⟨fuel, ?_⟩⟩
      · rw [← heq, List.take_left' hlen]
      · rw [hrest, ← List.drop_drop, ← heq, List.drop_left' hlen]

/-- A caller that gets the whole file has asked for the rest at every piece. -/
theorem readPieces_rest (hread : ∀ k, Readable fs node content a buffer room (memories k))
    (hpos : ∀ k, 0 < chunks k) {k fuel : ℕ} (hk : Asked content.length chunks k)
    (hnowrap : ∀ j < k, pieceStart content.length chunks j + chunks j < wordSize)
    (h : readPieces fs node buffer chunks memories 0 0 fuel = some content) :
    ∃ fuel₁, readPieces fs node buffer chunks memories k (pieceStart content.length chunks k) fuel₁ =
      some (content.drop (pieceStart content.length chunks k)) := by
  induction k with
  | zero => exact ⟨fuel, h⟩
  | succ k ih =>
    obtain ⟨fuel₁, h₁⟩ := ih (fun j hj => hk j (by omega)) fun j hj => hnowrap j (by omega)
    obtain ⟨-, hrest⟩ := readPieces_split hread (hpos k) (pieceStart_le _ _ _)
      (hnowrap k (by omega)) h₁
    rw [pieceStart_succ]
    exact hrest (hk k (by omega))

/-- A piece whose end wraps around is longer than the file. -/
theorem readPieces_wrapped (hread : ∀ k, Readable fs node content a buffer room (memories k))
    {k fuel : ℕ} (hpos : 0 < chunks k) (ho : offset ≤ content.length) (hsize : chunks k < wordSize)
    (hwrap : wordSize ≤ offset + chunks k) :
    readPieces fs node buffer chunks memories k offset fuel ≠ some (content.drop offset) := by
  intro h
  have haddress := (hread k).address
  have hret := read_wrapped (hread k) ho hsize hwrap
  cases fuel with
  | zero => cases h
  | succ fuel =>
    rw [readPieces] at h
    generalize read { fs with memory := memories k } node.inode offset (chunks k) buffer = r at h hret
    obtain ⟨n, m⟩ := r
    obtain rfl : n = chunks k := hret
    simp only [if_neg (show chunks k ≠ 0 by omega)] at h
    obtain ⟨rest, -, heq⟩ := Option.map_eq_some_iff.mp h
    have hlen := congrArg List.length heq
    rw [List.length_append, bytes_length, List.length_drop] at hlen
    omega

end Pieces

/-- File number `i` of an image that `init` has read at `location`, and a caller whose buffer
has room for every piece and a terminator and lies outside the image, which nobody changes. -/
structure Reading (es : List FileEntry) (m : Mem) (location i : ℕ) (content : List UInt8)
    (node : FileNode) (chunks : ℕ → ℕ) (buffer room : ℕ) (memories : ℕ → Mem) : Prop where
  plainName : ∀ e ∈ es, PlainName e.name
  stored : Stored m location (image es)
  size : (image es).length < 0x80000000
  fits : location + (image es).length < wordSize
  file : (es[i]?).map FileEntry.content = some content
  node : (init m location).childNodes[i]? = some node
  intact : ∀ k, AgreeOn (init m location).memory (memories k) location (location + (image es).length)
  apart : buffer + room ≤ location ∨ location + (image es).length ≤ buffer
  bounded : buffer + room ≤ wordSize
  large : ∀ k, min (chunks k) content.length < room

/-- Whoever reads a file with this content in these pieces gets the content. -/
def ReadsBack (content : List UInt8) (chunks : ℕ → ℕ) : Prop :=
  ∀ (es : List FileEntry) (m : Mem) (location i : ℕ) (node : FileNode) (buffer room : ℕ)
    (memories : ℕ → Mem), Reading es m location i content node chunks buffer room memories →
    ∃ fuel, readPieces (init m location) node buffer chunks memories 0 0 fuel = some content

section Callers

variable {es : List FileEntry} {m : Mem} {location i : ℕ} {content : List UInt8} {node : FileNode}
variable {chunks : ℕ → ℕ} {buffer room : ℕ} {memories : ℕ → Mem}

theorem Reading.readable (h : Reading es m location i content node chunks buffer room memories) :
    ∃ a, ∀ k, Readable (init m location) node content a buffer room (memories k) := by
  obtain ⟨e, he, rfl⟩ := Option.map_eq_some_iff.mp h.file
  obtain ⟨hi, rfl⟩ := List.getElem?_eq_some_iff.mp he
  obtain ⟨node', hnode, -, hinode, -⟩ := init_childNodes h.plainName h.stored h.fits hi
  obtain rfl : node' = node := Option.some.inj (hnode.symm.trans h.node)
  obtain ⟨hoffset, hlength⟩ := init_header h.plainName h.stored h.fits hi
  have hcontent := stored_content (init_contents h.plainName h.stored h.fits) hi
  have hle := contentStart_add_le hi
  have hlen := image_length h.plainName
  have hsize := h.size
  have hfits := h.fits
  have hapart := h.apart
  have harray := (image_initialised h.plainName h.stored h.fits).fileHeaders
  refine ⟨_, fun k => ⟨?_, ?_, hcontent.congr ?_, by omega, by omega, by omega⟩⟩
  · rw [hinode, Nat.add_sub_cancel, ← hoffset]
    apply read32_congr
    rw [harray]
    exact (h.intact k).mono (by unfold headerSize; omega) (by unfold headersEnd headerSize at *; omega)
  · rw [hinode, Nat.add_sub_cancel, ← hlength]
    apply read32_congr
    rw [harray]
    exact (h.intact k).mono (by unfold headerSize; omega) (by unfold headersEnd headerSize at *; omega)
  · exact (h.intact k).mono (by omega) (by omega)

theorem Deliverable.readsBack (hpos : ∀ k, 0 < chunks k) (hd : Deliverable content chunks) :
    ReadsBack content chunks := by
  intro es m location i node buffer room memories h
  obtain ⟨a, hread⟩ := h.readable
  have hstart : Asked content.length chunks 0 := fun j hj => absurd hj (Nat.not_lt_zero j)
  exact ⟨_, readPieces_eq hread h.large hpos hd _ hstart (Nat.lt_succ_self _)⟩

theorem plainName_a : PlainName [97] := ⟨by decide, by decide, by decide⟩

/-- The image with one file, at the start of memory. -/
def alone (content : List UInt8) : List FileEntry := [⟨[97], content⟩]

/-- That image after `init`; the rest of memory is `b`. -/
def aloneIn (content : List UInt8) (b : UInt8) : Mem := fun x =>
  if x < (image (alone content)).length then (init (loaded (image (alone content)) 0) 0).memory x
  else b

theorem alone_plainName (content : List UInt8) : ∀ e ∈ alone content, PlainName e.name := by
  intro e he
  rw [List.mem_singleton.mp he]
  exact plainName_a

theorem alone_length (content : List UInt8) :
    (image (alone content)).length = 77 + content.length := by
  rw [image_length (alone_plainName content)]
  simp [alone, contents, headersEnd]

theorem alone_reading (hlen : 77 + content.length < 0x80000000) (b : UInt8) (chunks : ℕ → ℕ) :
    ∃ node, Reading (alone content) (loaded (image (alone content)) 0) 0 0 content node chunks
      (77 + content.length) (content.length + 1) fun _ => aloneIn content b := by
  have hn := alone_plainName content
  have hsize := alone_length content
  have hstored := stored_loaded (image (alone content)) 0
  have hfits : 0 + (image (alone content)).length < wordSize := by
    unfold wordSize
    omega
  obtain ⟨node, hnode, -⟩ := init_childNodes hn hstored hfits (i := 0) Nat.one_pos
  refine ⟨node, hn, hstored, by omega, hfits, rfl, hnode, fun _ x _ hx => if_pos (by omega),
    .inr (by omega), by unfold wordSize; omega, fun k => ?_⟩
  exact Nat.lt_succ_of_le (Nat.min_le_right _ _)

theorem Asked.mono {length j k : ℕ} (h : Asked length chunks k) (hjk : j ≤ k) :
    Asked length chunks j :=
  fun l hl => h l (by omega)

theorem ReadsBack.nowrap (hlen : 77 + content.length < 0x80000000) (hpos : ∀ k, 0 < chunks k)
    (h32 : ∀ k, chunks k < wordSize) (h : ReadsBack content chunks) (k : ℕ)
    (hk : Asked content.length chunks k) :
    pieceStart content.length chunks k + chunks k < wordSize := by
  obtain ⟨node, hr⟩ := alone_reading hlen 0 chunks
  obtain ⟨a, hread⟩ := hr.readable
  obtain ⟨fuel, hfuel⟩ := h _ _ _ _ _ _ _ _ hr
  induction k using Nat.strong_induction_on with
  | _ k ih =>
    by_contra hwrap
    obtain ⟨fuel₁, h₁⟩ := readPieces_rest hread hpos hk (fun j hj => ih j hj (hk.mono hj.le)) hfuel
    exact readPieces_wrapped hread (hpos k) (pieceStart_le _ _ _) (h32 k) (by omega) h₁

/-- Behind the first zero byte of a piece the caller sees what its buffer held before. -/
theorem ReadsBack.nonzero (hlen : 77 + content.length < 0x80000000) (hpos : ∀ k, 0 < chunks k)
    (hnowrap : ∀ k, Asked content.length chunks k →
      pieceStart content.length chunks k + chunks k < wordSize)
    (h : ReadsBack content chunks) {k i : ℕ} (hk : Asked content.length chunks k)
    (hi : pieceStart content.length chunks k ≤ i)
    (hend : i + 1 < pieceStart content.length chunks (k + 1)) : content.getD i 0 ≠ 0 := by
  intro h0
  have hex : ∃ z, pieceStart content.length chunks k ≤ z ∧ content.getD z 0 = 0 := ⟨i, hi, h0⟩
  obtain ⟨hz, hz0⟩ := Nat.find_spec hex
  have hzi : Nat.find hex ≤ i := Nat.find_min' hex ⟨hi, h0⟩
  have hbefore : ∀ j < Nat.find hex, pieceStart content.length chunks k ≤ j → content.getD j 0 ≠ 0 :=
    fun j hj hle he => Nat.find_min hex hj ⟨hle, he⟩
  generalize Nat.find hex = z at hz hz0 hzi hbefore
  -- the buffer is filled with a byte that is not the one behind the zero
  obtain ⟨node, hr⟩ := alone_reading hlen (content.getD (z + 1) 0 + 1) chunks
  obtain ⟨a, hread⟩ := hr.readable
  obtain ⟨fuel, hfuel⟩ := h _ _ _ _ _ _ _ _ hr
  obtain ⟨fuel₁, h₁⟩ := readPieces_rest hread hpos hk (fun j hj => hnowrap j (hk.mono hj.le)) hfuel
  obtain ⟨hpiece, -⟩ := readPieces_split hread (hpos k) (pieceStart_le _ _ _) (hnowrap k hk) h₁
  have hnext := pieceStart_succ content.length chunks k
  have hle := pieceStart_le content.length chunks k
  have hstored := (hread k).stored
  have hapart := (hread k).apart
  generalize pieceStart content.length chunks k = o at *
  generalize min (chunks k) (content.length - o) = n at *
  have hn : o + n ≤ content.length := by
    rw [← hnext]
    exact pieceStart_le _ _ _
  rw [← hstored.bytes_slice hn] at hpiece
  have hbyte := List.map_inj_left.mp hpiece (z + 1 - o) (List.mem_range.mpr (by omega))
  have hsource : ∀ j, o + j < content.length →
      aloneIn content (content.getD (z + 1) 0 + 1) (a + o + j) = content.getD (o + j) 0 :=
    fun j hj => by rw [Nat.add_assoc, hstored _ hj]
  obtain ⟨-, hkeep⟩ := strncpy_zero n (aloneIn content (content.getD (z + 1) 0 + 1))
    (show a + o + n ≤ 77 + content.length ∨ 77 + content.length + n + 1 ≤ a + o by omega)
    (show z - o < n by omega) (by rw [hsource _ (by omega), Nat.add_sub_cancel' hz, hz0])
    fun j hj => by
      rw [hsource j (by omega)]
      exact hbefore _ (by omega) (by omega)
  have hgarbage := hkeep (z + 1 - o) (by omega)
  rw [hbyte, hsource _ (by omega), Nat.add_sub_cancel' (by omega), aloneIn,
    if_neg (by rw [alone_length]; omega)] at hgarbage
  exact byte_ne_add_one _ hgarbage

/-- Exactly these files and pieces are read back. -/
theorem readsBack_iff (hlen : 77 + content.length < 0x80000000) (hpos : ∀ k, 0 < chunks k)
    (h32 : ∀ k, chunks k < wordSize) : ReadsBack content chunks ↔ Deliverable content chunks := by
  constructor
  · intro h
    have hnowrap := h.nowrap hlen hpos h32
    exact ⟨hnowrap, fun k hk i hi hend => h.nonzero hlen hpos hnowrap hk hi hend⟩
  · exact Deliverable.readsBack hpos

/-- Byte by byte every file can be read. -/
theorem deliverable_bytewise (hlen : content.length < 0x80000000) :
    Deliverable content fun _ => 1 := by
  constructor
  · intro k _
    have := pieceStart_le content.length (fun _ => 1) k
    unfold wordSize
    omega
  · intro k _ i hi hend
    have := pieceStart_succ content.length (fun _ => 1) k
    omega

theorem readsBack_iff_bytewise : ReadsBack [0, 1] fun _ => 1 :=
  (readsBack_iff (by decide) (fun _ => by decide) fun _ => by decide).mpr
    (deliverable_bytewise (by decide))

/-- In one piece the second byte is lost. -/
theorem not_readsBack : ¬ ReadsBack [0, 1] fun _ => 2 := by
  intro h
  have hnowrap := h.nowrap (by decide) (fun _ => by decide) fun _ => by decide
  exact h.nonzero (by decide) (fun _ => by decide) hnowrap (k := 0) (i := 0)
    (fun j hj => absurd hj (Nat.not_lt_zero j)) (by decide) (by decide) rfl

end Callers

end ExperimentalKernel.Initrd
