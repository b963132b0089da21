import ExperimentalKernel.InitrdProgram

/-!
# What `init` makes of an image

The offsets of the headers become addresses, the rest of memory stays, and the
children of the root are the files of the headers in their order.
-/

namespace ExperimentalKernel.Initrd
open ByteMemory KernelStrings

/-- The headers at `array` carry the terminated `names`. -/
structure Named (m : Mem) (array : ℕ) (names : List (List UInt8)) : Prop where
  short : ∀ name ∈ names, name.length < 64
  holds : ∀ i < names.length, HoldsString (fileHeader m array i).name (names.getD i [])

/-- The offsets of the first `i` headers are relocated; nothing else changed. -/
structure Relocated (m m' : Mem) (location array i : ℕ) : Prop where
  offsets : ∀ j < i, (fileHeader m' array j).offset =
    add32 (fileHeader m array j).offset location
  others : ∀ x, (∀ j < i, x < array + 73 * j + 65 ∨ array + 73 * j + 69 ≤ x) → m' x = m x

/-- The node of the file with header `i`. -/
def childNode (m : Mem) (array : ℕ) (names : List (List UInt8)) (i : ℕ) : FileNode where
  name := names.getD i []
  mask := 0
  uid := 0
  gid := 0
  flags := fsFile
  inode := i + 1
  length := (fileHeader m array i).length
  fileOperations := { read := true }

variable {m m' : Mem} {location array i : ℕ} {names : List (List UInt8)}

theorem copyName_eq {s : ℕ → UInt8} {name : List UInt8} (h : HoldsString s name)
    (hl : name.length < 64) : copyName s = name := by
  have hs : strlen s = name.length := h.strlen_eq (by omega)
  have hle : ¬ strlen s > maxNameLen := by
    rw [hs, maxNameLen]
    omega
  simp only [copyName, hs ▸ hle, hs, ↓reduceIte]
  exact h.copied_eq le_rfl

theorem getD_mem {j : ℕ} (h : j < names.length) : names.getD j [] ∈ names := by
  rw [List.getD_eq_getElem names [] h]
  exact List.getElem_mem h

/-- Outside the offsets a header is as it was. -/
theorem Relocated.name_eq (h : Relocated m m' location array i) (j : ℕ) {k : ℕ} (hk : k < 64) :
    (fileHeader m' array j).name k = (fileHeader m array j).name k := by
  apply h.others
  intro l _
  unfold headerSize
  omega

theorem Relocated.length_eq (h : Relocated m m' location array i) (j : ℕ) :
    (fileHeader m' array j).length = (fileHeader m array j).length := by
  refine read32_congr fun x h₁ h₂ => h.others x fun l _ => ?_
  unfold headerSize at h₁ h₂
  omega

theorem Relocated.offset_eq (h : Relocated m m' location array i) {j : ℕ} (hj : i ≤ j) :
    (fileHeader m' array j).offset = (fileHeader m array j).offset := by
  refine read32_congr fun x h₁ h₂ => h.others x fun l _ => ?_
  unfold headerSize at h₁ h₂
  omega

/-- The next offset is relocated. -/
theorem Relocated.step (h : Relocated m m' location array i) :
    Relocated m (write32 m' (array + headerSize * i + 65)
      (add32 (read32 m' (array + headerSize * i + 65)) location)) location array (i + 1) where
  offsets j hj := by
    by_cases hji : j = i
    · subst hji
      have := h.offset_eq (le_refl j)
      simp only [fileHeader] at this ⊢
      rw [read32_write32 _ _ (add32_lt _ _), this]
    · rw [← h.offsets j (by omega)]
      apply read32_write32_of_disjoint
      unfold headerSize
      omega
  others x hx := by
    have hi := hx i (by omega)
    rw [write32_of_disjoint _ _ (by unfold headerSize; omega)]
    exact h.others x fun j hj => hx j (by omega)

/-- One turn of the loop adds the next child. -/
theorem initEntry_eq (hn : Named m array names) (h : Relocated m m' location array i)
    (hi : i < names.length) {children : List FileNode}
    (hc : children = (List.range i).map (childNode m array names)) :
    ∃ m₁, initEntry m' location array names.length children i =
      (m₁, (List.range (i + 1)).map (childNode m array names)) ∧
      Relocated m m₁ location array (i + 1) := by
  have hstep := h.step
  refine ⟨_, ?_, hstep⟩
  have hshort := hn.short _ (getD_mem hi)
  have hname : copyName (fileHeader (write32 m' (array + headerSize * i + 65)
      (add32 (read32 m' (array + headerSize * i + 65)) location)) array i).name =
      names.getD i [] :=
    copyName_eq ((hn.holds i hi).congr fun k hk => hstep.name_eq i (by omega)) hshort
  have hassign : copyName (chars (names.getD i [])) = names.getD i [] :=
    copyName_eq (holdsString_chars (hn.holds i hi).nonzero) hshort
  have hlen : ((List.range i).map (childNode m array names)).length ≠ names.length := by
    rw [List.length_map, List.length_range]
    omega
  simp only [initEntry, hname, hstep.length_eq i, hc, addChild, if_pos hlen, FileNode.assign,
    hassign, List.range_succ, List.map_append, List.map_cons, List.map_nil]
  rfl

theorem initEntries_eq (k : ℕ) (hn : Named m array names) (h : Relocated m m' location array i)
    (hik : i + k = names.length) {children : List FileNode}
    (hc : children = (List.range i).map (childNode m array names)) :
    ∃ m₁, initEntries m' location array names.length children i k =
      (m₁, (List.range names.length).map (childNode m array names)) ∧
      Relocated m m₁ location array names.length := by
  induction k generalizing m' i children with
  | zero =>
    obtain rfl : i = names.length := by omega
    exact ⟨m', by rw [initEntries, hc], h⟩
  | succ k ih =>
    obtain ⟨m₁, he, h₁⟩ := initEntry_eq hn h (by omega) hc
    rw [initEntries, he]
    exact ih h₁ (by omega) rfl

/-- The root after `init`. -/
structure Initialised (m : Mem) (location : ℕ) (names : List (List UInt8)) (fs : InitrdFs) :
    Prop where
  memory : Relocated m fs.memory location (location + 4) names.length
  fileHeaders : fs.fileHeaders = location + 4
  size : fs.size = names.length
  root : fs.root = directoryNode initrdName
  dev : fs.dev = directoryNode devName
  childNodes : fs.childNodes = (List.range names.length).map (childNode m (location + 4) names)

theorem init_initialised (hcount : read32 m location = names.length)
    (hn : Named m (location + 4) names) : Initialised m location names (init m location) := by
  have hstart : Relocated m m location (location + 4) 0 :=
    ⟨fun j hj => by omega, fun _ _ => rfl⟩
  have hchildren : [] = (List.range 0).map (childNode m (location + 4) names) := rfl
  obtain ⟨m₁, he, h₁⟩ := initEntries_eq names.length hn hstart (Nat.zero_add _) hchildren
  simp only [init, hcount, he]
  exact ⟨h₁, rfl, rfl, rfl, rfl, rfl⟩

end ExperimentalKernel.Initrd
