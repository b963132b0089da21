import ExperimentalKernel.InitrdInit
import ExperimentalKernel.InitrdWriter
import Mathlib.Data.List.TakeWhile

/-!
# Images

What the writer produces is the count, a record of 73 bytes for each file and the
contents one after another. `init` reads just that.
-/

namespace ExperimentalKernel.Initrd
open ByteMemory KernelStrings

/-- A file as the image describes it. -/
structure FileEntry where
  name : List UInt8
  content : List UInt8

/-- The record of a file. -/
def record (name : List UInt8) (offset length : ℕ) : List UInt8 :=
  [0xAB] ++ (name ++ List.replicate (64 - name.length) 0) ++ le32 offset ++ le32 length

/-- The records, the first content being at `offset`. -/
def records (offset : ℕ) : List FileEntry → List UInt8
  | [] => []
  | e :: es => record e.name offset e.content.length ++ records (offset + e.content.length) es

def contents (es : List FileEntry) : List UInt8 := (es.map FileEntry.content).flatten

def headersEnd (n : ℕ) : ℕ := 4 + 73 * n

def image (es : List FileEntry) : List UInt8 :=
  le32 es.length ++ records (headersEnd es.length) es ++ contents es

/-- A name that fits its field and has no directory part. -/
structure PlainName (name : List UInt8) : Prop where
  nonzero : 0 ∉ name
  plain : 47 ∉ name
  short : name.length < 64

theorem record_length {name : List UInt8} (h : name.length < 64) (offset length : ℕ) :
    (record name offset length).length = 73 := by
  simp only [record, le32, List.length_append, List.length_cons, List.length_nil,
    List.length_replicate]
  omega

theorem strcpy_spec (s : List UInt8) (m : Mem) (dest : ℕ) :
    Stored (strcpy m dest s) dest (s ++ [0]) ∧
      AgreeOff m (strcpy m dest s) dest (dest + s.length + 1) := by
  induction s generalizing m dest with
  | nil =>
    refine ⟨fun i hi => ?_, agreeOff_write8 m 0 le_rfl (by simp)⟩
    obtain rfl : i = 0 := by simpa using hi
    exact write8_same m dest 0
  | cons c cs ih =>
    obtain ⟨h₁, h₂⟩ := ih (write8 m dest c) (dest + 1)
    refine ⟨fun i hi => ?_, ?_⟩
    · cases i with
      | zero =>
        rw [strcpy, h₂ (dest + 0) (by omega)]
        exact write8_same m dest c
      | succ i =>
        have := h₁ i (by simpa using hi)
        rw [Nat.add_assoc, Nat.add_comm 1 i] at this
        exact this
    · exact (agreeOff_write8 m c le_rfl (by simp only [List.length_cons]; omega)).trans
        (h₂.mono (by omega) (by simp only [List.length_cons]; omega))

theorem holdsString_of_stored {m : Mem} {a : ℕ} {name rest : List UInt8} (h0 : 0 ∉ name)
    (h : Stored m a (name ++ 0 :: rest)) : HoldsString (fun k => m (a + k)) name := by
  refine ⟨h0, fun i hi => ?_⟩
  rw [h i (by rw [List.length_append, List.length_cons]; omega), chars]
  rcases hi.lt_or_eq with hlt | rfl
  · exact List.getD_append _ _ _ _ hlt
  · rw [List.getD_append_right _ _ _ _ le_rfl, Nat.sub_self, List.getD_eq_default _ _ le_rfl]
    rfl

theorem padded_eq {name : List UInt8} (h : name.length < 64) :
    name ++ List.replicate (64 - name.length) 0 =
      name ++ 0 :: List.replicate (63 - name.length) (0 : UInt8) := by
  rw [show 64 - name.length = 63 - name.length + 1 by omega, List.replicate_succ]

theorem stringAt_eq {m : Mem} {a : ℕ} {name : List UInt8}
    (h : HoldsString (fun k => m (a + k)) name) (hl : name.length < 0x80000000) :
    stringAt m a = name := by
  rw [stringAt, h.strlen_eq hl]
  exact h.copied_eq le_rfl

section FirstLoop

variable {files : Directory}

/-- The files found in the directory under the names, in their order. -/
def entries (files : Directory) (args : List (List UInt8)) : List FileEntry :=
  args.map fun name => ⟨name, (files name).getD []⟩

/-- The writer can take this file. -/
structure Writable (files : Directory) (name : List UInt8) : Prop where
  plainName : PlainName name
  exists_content : ∃ content, files name = some content ∧ content.length < 0x80000000

theorem entries_cons (files : Directory) (arg : List UInt8) (args : List (List UInt8)) :
    entries files (arg :: args) = ⟨arg, (files arg).getD []⟩ :: entries files args := rfl

theorem contents_cons (e : FileEntry) (es : List FileEntry) :
    contents (e :: es) = e.content ++ contents es := rfl

/-- The records of `args`; the running offset wraps. -/
def layout (files : Directory) (offset : ℕ) : List (List UInt8) → List (List UInt8)
  | [] => []
  | arg :: args =>
    record (getFileNameFromPath arg) offset (fileLength files (getFileNameFromPath arg)) ::
      layout files (add32 offset (fileLength files (getFileNameFromPath arg))) args

end FirstLoop

/-- The fields of a record, read back. -/
theorem record_header {m : Mem} {array i offset length : ℕ} {name : List UInt8}
    (h : Stored m (array + 73 * i) (record name offset length)) (h0 : 0 ∉ name)
    (hshort : name.length < 64) (ho : offset < wordSize) (hl : length < wordSize) :
    HoldsString (fileHeader m array i).name name ∧ (fileHeader m array i).offset = offset ∧
      (fileHeader m array i).length = length := by
  obtain ⟨h₁, hlength⟩ := stored_append.mp h
  obtain ⟨h₂, hoffset⟩ := stored_append.mp h₁
  obtain ⟨-, hname⟩ := stored_append.mp h₂
  have hpad := padded_eq hshort
  simp only [List.length_append, List.length_cons, List.length_nil, List.length_replicate,
    le32] at hlength hoffset hname
  rw [hpad] at hname
  refine ⟨?_, ?_, ?_⟩
  · exact holdsString_of_stored h0 hname
  · have ha : array + 73 * i + (0 + 1 + (name.length + (64 - name.length))) =
        array + headerSize * i + 65 := by
      unfold headerSize
      omega
    rw [ha] at hoffset
    exact Stored.read32_eq hoffset ho
  · have ha : array + 73 * i + (0 + 1 + (name.length + (64 - name.length)) +
        (0 + 1 + 1 + 1 + 1)) = array + headerSize * i + 69 := by
      unfold headerSize
      omega
    rw [ha] at hlength
    exact Stored.read32_eq hlength hl

section Writing

/-- The file holds `bs` and, behind the position, what `old` had there. -/
def WrittenOver (old : List UInt8) (f : ImageFile) (bs : List UInt8) : Prop :=
  f.position = bs.length ∧ f.content = bs ++ old.drop bs.length

theorem WrittenOver.write {old : List UInt8} {f : ImageFile} {bs : List UInt8}
    (h : WrittenOver old f bs) (cs : List UInt8) : WrittenOver old (f.write cs) (bs ++ cs) := by
  obtain ⟨hpos, hc⟩ := h
  refine ⟨by rw [ImageFile.write, hpos, List.length_append], ?_⟩
  rw [ImageFile.write, hpos, hc, List.take_left, List.drop_append, List.drop_eq_nil_of_le (by omega),
    List.nil_append, Nat.add_sub_cancel_left, List.drop_drop, List.length_append]

/-- The four calls write the record as it stands. -/
theorem WrittenOver.writeNode {old : List UInt8} {f : ImageFile} {bs : List UInt8}
    (h : WrittenOver old f bs) (m : Mem) (i : ℕ) :
    WrittenOver old (writeNode m f i) (bs ++ bytes m (73 * i) 73) := by
  have hsplit : bytes m (73 * i) 73 = bytes m (73 * i) 1 ++ bytes m (73 * i + 1) 64 ++
      bytes m (73 * i + 65) 4 ++ bytes m (73 * i + 69) 4 := by
    rw [← bytes_append, ← bytes_append, ← bytes_append]
  have hwrite := (((h.write (bytes m (73 * i) 1)).write (bytes m (73 * i + 1) 64)).write
    (bytes m (73 * i + 65) 4)).write (bytes m (73 * i + 69) 4)
  rw [hsplit, ← List.append_assoc, ← List.append_assoc, ← List.append_assoc]
  exact hwrite

theorem WrittenOver.writeNodes (k : ℕ) {old : List UInt8} {f : ImageFile} {bs : List UInt8}
    (h : WrittenOver old f bs) (m : Mem) (i : ℕ) :
    WrittenOver old (writeNodes m f i k) (bs ++ bytes m (73 * i) (73 * k)) := by
  induction k generalizing f bs i with
  | zero => simpa [Initrd.writeNodes, bytes] using h
  | succ k ih =>
    have hsplit : bytes m (73 * i) (73 * (k + 1)) =
        bytes m (73 * i) 73 ++ bytes m (73 * (i + 1)) (73 * k) := by
      rw [show 73 * (k + 1) = 73 + 73 * k by omega, bytes_append]
      rfl
    rw [Initrd.writeNodes, hsplit, ← List.append_assoc]
    exact ih (h.writeNode m i) (i + 1)

/-- The file begins with `bs`, and the position is behind it. -/
def Written (f : ImageFile) (bs : List UInt8) : Prop :=
  f.position = bs.length ∧ ∃ rest, f.content = bs ++ rest

theorem WrittenOver.written {old : List UInt8} {f : ImageFile} {bs : List UInt8}
    (h : WrittenOver old f bs) : Written f bs := ⟨h.1, _, h.2⟩

theorem Written.write {f : ImageFile} {bs : List UInt8} (h : Written f bs) (cs : List UInt8) :
    Written (f.write cs) (bs ++ cs) := by
  obtain ⟨hpos, rest, hc⟩ := h
  have hover : WrittenOver (bs ++ rest) f bs := ⟨hpos, by rw [hc, List.drop_left]⟩
  exact (hover.write cs).written

theorem readContent_eq {files : Directory} {junk : ℕ → UInt8} {f : ImageFile} {name : List UInt8}
    (hopens : files.opens name = true) (hne : ¬ files.IsImage name) :
    readContent files junk f name ((files name).getD []).length = (files name).getD [] := by
  have hopen : ¬ files.opens name = false := fun h => Bool.false_ne_true (h.symm.trans hopens)
  rw [readContent, if_neg hopen, if_neg hne]
  apply List.ext_getElem (by simp)
  intro i h₁ h₂
  simp [h₂]

/-- One turn of the last loop, from the record that it reads. -/
theorem writeContent_record {m : Mem} {i offset length : ℕ} {name : List UInt8}
    (h : Stored m (73 * i) (record name offset length)) (h0 : 0 ∉ name) (hshort : name.length < 64)
    (ho : offset < wordSize) (hl : length < 0x80000000) (files : Directory) (junk : ℕ → UInt8)
    (f : ImageFile) :
    read32 m (fileNodeSize * i + 69) = length ∧
      writeContent files junk m f i = f.write (readContent files junk f name length) := by
  have h₀ : Stored m (0 + 73 * i) (record name offset length) := by
    rw [Nat.zero_add]
    exact h
  obtain ⟨hname, -, hlength⟩ := record_header h₀ h0 hshort ho (by unfold wordSize; omega)
  have hstring : stringAt m (fileNodeSize * i + 1) = name := by
    refine stringAt_eq ?_ (by omega)
    simpa [fileHeader, headerSize, fileNodeSize] using hname
  have hread : read32 m (fileNodeSize * i + 69) = length := by
    simpa [fileHeader, headerSize, fileNodeSize] using hlength
  refine ⟨hread, ?_⟩
  rw [writeContent, hstring, hread, toCount, if_pos hl]

theorem Written.writeContents {files : Directory} {m : Mem}
    (args : List (List UInt8)) (hw : ∀ name ∈ args, Writable files name)
    (hopens : ∀ name ∈ args, files.opens name = true) (hne : ∀ name ∈ args, ¬ files.IsImage name)
    {f : ImageFile} {bs : List UInt8} (h : Written f bs)
    (junk : ℕ → UInt8) (i offset : ℕ) (hoff : offset + (contents (entries files args)).length < wordSize)
    (hm : Stored m (73 * i) (records offset (entries files args))) :
    Written (writeContents files junk m f i args.length)
      (bs ++ contents (entries files args)) := by
  induction args generalizing f bs i offset with
  | nil => simpa [Initrd.writeContents, contents, entries] using h
  | cons arg args ih =>
    rw [entries_cons, contents_cons, List.length_append] at hoff
    have hlt : ((files arg).getD []).length < 0x80000000 := by
      obtain ⟨content, hc, hlt⟩ := (hw arg List.mem_cons_self).exists_content
      rw [hc]
      exact hlt
    have harg := hw arg List.mem_cons_self
    rw [entries_cons, records] at hm
    obtain ⟨h₁, h₂⟩ := stored_append.mp hm
    rw [record_length harg.plainName.short] at h₂
    obtain ⟨hread, hturn⟩ := writeContent_record h₁ harg.plainName.nonzero harg.plainName.short
      (by simp only at hoff; omega) hlt files junk f
    have hwrite : Written (writeContent files junk m f i) (bs ++ (files arg).getD []) := by
      rw [hturn, readContent_eq (hopens arg List.mem_cons_self) (hne arg List.mem_cons_self)]
      exact h.write _
    rw [List.length_cons, Initrd.writeContents, if_pos (hread.trans_lt hlt), entries_cons,
      contents_cons, ← List.append_assoc]
    exact ih (fun name hn => hw name (List.mem_cons_of_mem _ hn))
      (fun name hn => hopens name (List.mem_cons_of_mem _ hn))
      (fun name hn => hne name (List.mem_cons_of_mem _ hn)) hwrite (i + 1)
      (offset + ((files arg).getD []).length) (by simp only at hoff; omega) h₂

end Writing

end ExperimentalKernel.Initrd
