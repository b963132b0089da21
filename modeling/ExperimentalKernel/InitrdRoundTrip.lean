import ExperimentalKernel.InitrdImage

/-!
# Reading back what was written

`init` on an image gives the files back: as children of the root in their order, and
with the contents behind the headers. The writer opens its inputs with `O_RDWR`, after it
has overwritten an older `initrd.img`: a file that cannot be written, and that one under
any name, cannot be among them.
-/

namespace ExperimentalKernel.Initrd
open ByteMemory KernelStrings

/-- The length of the contents before number `i`. -/
def contentStart (es : List FileEntry) (i : ℕ) : ℕ := (contents (es.take i)).length

@[simp] theorem contentStart_cons_succ (e : FileEntry) (es : List FileEntry) (i : ℕ) :
    contentStart (e :: es) (i + 1) = e.content.length + contentStart es i := by
  simp [contentStart, contents]

theorem contents_append (es es' : List FileEntry) :
    contents (es ++ es') = contents es ++ contents es' := by
  rw [contents, List.map_append, List.flatten_append]
  rfl

theorem contentStart_succ {es : List FileEntry} {i : ℕ} (hi : i < es.length) :
    contentStart es (i + 1) = contentStart es i + es[i].content.length := by
  rw [contentStart, List.take_succ_eq_append_getElem hi, contents_append, List.length_append,
    contents_cons, List.length_append]
  rfl

theorem contentStart_mono (es : List FileEntry) {i j : ℕ} (hij : i ≤ j) :
    contentStart es i ≤ contentStart es j := by
  obtain ⟨k, rfl⟩ := Nat.exists_eq_add_of_le hij
  rw [contentStart, contentStart, List.take_add, contents_append, List.length_append]
  exact Nat.le_add_right _ _

theorem contentStart_add_le {es : List FileEntry} {i : ℕ} (hi : i < es.length) :
    contentStart es i + es[i].content.length ≤ (contents es).length := by
  rw [← contentStart_succ hi, show (contents es).length = contentStart es es.length by
    rw [contentStart, List.take_length]]
  exact contentStart_mono es hi

theorem stored_record {m : Mem} {es : List FileEntry} {a offset : ℕ}
    (hn : ∀ e ∈ es, PlainName e.name) (h : Stored m a (records offset es)) {i : ℕ}
    (hi : i < es.length) :
    Stored m (a + 73 * i) (record es[i].name (offset + contentStart es i) es[i].content.length) := by
  induction es generalizing a offset i with
  | nil => simp at hi
  | cons e es ih =>
    rw [records] at h
    obtain ⟨h₁, h₂⟩ := stored_append.mp h
    rw [record_length (hn e List.mem_cons_self).short] at h₂
    cases i with
    | zero => exact h₁
    | succ i =>
      have := ih (fun e' he => hn e' (List.mem_cons_of_mem _ he)) h₂ (by simpa using hi)
      rw [contentStart_cons_succ, ← Nat.add_assoc,
        show a + 73 * (i + 1) = a + 73 + 73 * i by omega]
      exact this

theorem stored_content {m : Mem} {es : List FileEntry} {a : ℕ} (h : Stored m a (contents es))
    {i : ℕ} (hi : i < es.length) : Stored m (a + contentStart es i) es[i].content := by
  induction es generalizing a i with
  | nil => simp at hi
  | cons e es ih =>
    rw [contents_cons] at h
    obtain ⟨h₁, h₂⟩ := stored_append.mp h
    cases i with
    | zero => exact h₁
    | succ i =>
      rw [contentStart_cons_succ, ← Nat.add_assoc]
      exact ih h₂ (by simpa using hi)

theorem records_length {es : List FileEntry} (hn : ∀ e ∈ es, PlainName e.name) (offset : ℕ) :
    (records offset es).length = 73 * es.length := by
  induction es generalizing offset with
  | nil => rfl
  | cons e es ih =>
    rw [records, List.length_append, record_length (hn e List.mem_cons_self).short,
      ih fun e' he => hn e' (List.mem_cons_of_mem _ he), List.length_cons]
    omega

theorem image_length {es : List FileEntry} (hn : ∀ e ∈ es, PlainName e.name) :
    (image es).length = headersEnd es.length + (contents es).length := by
  rw [image, List.length_append, List.length_append, records_length hn]
  rfl

section Reading

variable {m : Mem} {location : ℕ} {es : List FileEntry}

/-- The parts of an image at their places. -/
theorem stored_image (hn : ∀ e ∈ es, PlainName e.name) (h : Stored m location (image es)) :
    Stored m location (le32 es.length) ∧
      Stored m (location + 4) (records (headersEnd es.length) es) ∧
      Stored m (location + headersEnd es.length) (contents es) := by
  obtain ⟨h₁, hcontents⟩ := stored_append.mp h
  obtain ⟨hcount, hrecords⟩ := stored_append.mp h₁
  rw [List.length_append, records_length hn] at hcontents
  exact ⟨hcount, hrecords, hcontents⟩

theorem header_eq (hn : ∀ e ∈ es, PlainName e.name) (h : Stored m location (image es))
    (hsize : location + (image es).length < wordSize) {i : ℕ} (hi : i < es.length) :
    HoldsString (fileHeader m (location + 4) i).name es[i].name ∧
      (fileHeader m (location + 4) i).offset = headersEnd es.length + contentStart es i ∧
      (fileHeader m (location + 4) i).length = es[i].content.length := by
  have hle := contentStart_add_le hi
  rw [image_length hn] at hsize
  exact record_header (stored_record hn (stored_image hn h).2.1 hi) (hn _ (List.getElem_mem hi)).nonzero
    (hn _ (List.getElem_mem hi)).short (by omega) (by omega)

theorem image_named (hn : ∀ e ∈ es, PlainName e.name) (h : Stored m location (image es))
    (hsize : location + (image es).length < wordSize) :
    Named m (location + 4) (es.map FileEntry.name) := by
  constructor
  · intro name hmem
    obtain ⟨e, he, rfl⟩ := List.mem_map.mp hmem
    exact (hn e he).short
  · intro i hi
    have hi' : i < es.length := by simpa using hi
    rw [List.getD_eq_getElem _ _ hi, List.getElem_map]
    exact (header_eq hn h hsize hi').1

theorem image_initialised (hn : ∀ e ∈ es, PlainName e.name) (h : Stored m location (image es))
    (hsize : location + (image es).length < wordSize) :
    Initialised m location (es.map FileEntry.name) (init m location) := by
  apply init_initialised _ (image_named hn h hsize)
  rw [image_length hn] at hsize
  rw [List.length_map]
  exact (stored_image hn h).1.read32_eq (by unfold headersEnd at hsize; omega)

/-- After `init` the offset is the address of the content. -/
theorem init_header (hn : ∀ e ∈ es, PlainName e.name) (h : Stored m location (image es))
    (hsize : location + (image es).length < wordSize) {i : ℕ} (hi : i < es.length) :
    (fileHeader (init m location).memory (init m location).fileHeaders i).offset =
        location + headersEnd es.length + contentStart es i ∧
      (fileHeader (init m location).memory (init m location).fileHeaders i).length =
        es[i].content.length := by
  have hinit := image_initialised hn h hsize
  have hle := contentStart_add_le hi
  have hheader := header_eq hn h hsize hi
  rw [image_length hn] at hsize
  constructor
  · rw [hinit.fileHeaders, hinit.memory.offsets i (by rw [List.length_map]; exact hi), hheader.2.1,
      add32_eq (by omega)]
    omega
  · rw [hinit.fileHeaders, hinit.memory.length_eq, hheader.2.2]

/-- The contents do not change. -/
theorem init_contents (hn : ∀ e ∈ es, PlainName e.name) (h : Stored m location (image es))
    (hsize : location + (image es).length < wordSize) :
    Stored (init m location).memory (location + headersEnd es.length) (contents es) := by
  refine (stored_image hn h).2.2.congr fun x h₁ _ => ?_
  apply (image_initialised hn h hsize).memory.others
  intro j hj
  rw [List.length_map] at hj
  unfold headersEnd at h₁
  omega

theorem init_childNodes (hn : ∀ e ∈ es, PlainName e.name) (h : Stored m location (image es))
    (hsize : location + (image es).length < wordSize) {i : ℕ} (hi : i < es.length) :
    ∃ node, (init m location).childNodes[i]? = some node ∧ node.name = es[i].name ∧
      node.inode = i + 1 ∧ node.length = es[i].content.length := by
  refine ⟨childNode m (location + 4) (es.map FileEntry.name) i, ?_, ?_, rfl, ?_⟩
  · rw [(image_initialised hn h hsize).childNodes, List.length_map, List.getElem?_map,
      List.getElem?_range hi, Option.map_some]
  · change (es.map FileEntry.name).getD i [] = _
    rw [List.getD_eq_getElem _ _ (by rw [List.length_map]; exact hi), List.getElem_map]
  · exact (header_eq hn h hsize hi).2.2

end Reading

section RoundTrip

variable {files : Directory} {names : List (List UInt8)}

end RoundTrip

/-- Memory with an image at `location`. -/
def loaded (bs : List UInt8) (location : ℕ) : Mem := fun x => bs.getD (x - location) 0

theorem stored_loaded (bs : List UInt8) (location : ℕ) : Stored (loaded bs location) location bs := by
  intro i _
  rw [loaded, Nat.add_sub_cancel_left]

end ExperimentalKernel.Initrd
