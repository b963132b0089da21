import ExperimentalKernel.InitrdInit

/-!
# The root directory of a ramdisk

`readdir` runs through `dev` and the files, and `finddir` finds a name exactly when
`readdir` shows it.
-/

namespace ExperimentalKernel.Initrd
open ByteMemory KernelStrings

/-- The image at `location` has files with these names. -/
structure DirectoryImage (m : Mem) (location : ℕ) (names : List (List UInt8)) : Prop where
  count : read32 m location = names.length
  named : Named m (location + 4) names
  distinct : names.Nodup
  notDev : devName ∉ names

theorem dev_nonzero : 0 ∉ devName := by decide

theorem dev_copied : copied (chars devName) (strlen (chars devName)) = devName := by
  have h := holdsString_chars dev_nonzero
  rw [h.strlen_eq (by decide)]
  exact h.copied_eq le_rfl

section Lookup

variable {s : ℕ → UInt8} {l : List UInt8}

/-- The loop of `finddir` finds the first child with exactly this name. -/
theorem findChild_eq (hs : HoldsString s l) (hl : l.length < 0x80000000) (i : ℕ)
    (nodes : List FileNode) (hn : ∀ node ∈ nodes, 0 ∉ node.name) :
    findChild s i nodes =
      (nodes.findIdx? fun node => node.name = l).map fun j => NodePtr.child (i + j) := by
  induction nodes generalizing i with
  | nil => rfl
  | cons node nodes ih =>
    have hiff := hs.strncmp_iff (holdsString_chars (hn node List.mem_cons_self)) (.inl rfl)
    rw [findChild, hs.strlen_eq hl, List.findIdx?_cons]
    by_cases he : node.name = l
    · rw [if_pos (hiff.mpr he.symm), if_pos (by simpa using he)]
      rfl
    · rw [if_neg fun h => he (hiff.mp h).symm, if_neg (by simpa using he),
        ih (i + 1) fun node hnode => hn node (List.mem_cons_of_mem _ hnode), Option.map_map]
      congr 1
      funext j
      have hj : i + 1 + j = i + (j + 1) := by omega
      exact congrArg NodePtr.child hj

theorem strncmp_dev (hs : HoldsString s l) :
    strncmp s (chars devName) (strlen (chars devName)) = 0 ↔ l = devName := by
  have hdev := holdsString_chars dev_nonzero
  exact hs.strncmp_iff hdev (.inr (hdev.strlen_eq (by decide)))

theorem finddir_eq {fs : InitrdFs} (hs : HoldsString s l) (hl : l.length < 0x80000000)
    (hn : ∀ node ∈ fs.childNodes, 0 ∉ node.name) : finddir fs .root s =
      if l = devName then some .dev
      else (fs.childNodes.findIdx? fun node => node.name = l).map NodePtr.child := by
  rw [finddir, findChild_eq hs hl 0 fs.childNodes hn]
  by_cases hd : l = devName
  · rw [if_pos ⟨rfl, (strncmp_dev hs).mpr hd⟩, if_pos hd]
  · rw [if_neg fun h => hd ((strncmp_dev hs).mp h.2), if_neg hd]
    simp only [Nat.zero_add]

end Lookup

section Root

variable {m : Mem} {location : ℕ} {names : List (List UInt8)} {fs : InitrdFs}

theorem Initialised.length (h : Initialised m location names fs) :
    fs.childNodes.length = names.length := by
  rw [h.childNodes, List.length_map, List.length_range]

theorem Initialised.child (h : Initialised m location names fs) {i : ℕ} (hi : i < names.length) :
    fs.childNodes[i]? = some (childNode m (location + 4) names i) := by
  rw [h.childNodes, List.getElem?_map, List.getElem?_range hi]
  rfl

/-- The name and inode that `readdir` shows at index `i`. -/
def rootEntry (names : List (List UInt8)) (i : ℕ) : Dirent :=
  if i = 0 then ⟨devName, 0⟩ else ⟨names.getD (i - 1) [], i⟩

theorem readdir_root (h : Initialised m location names fs) (hn : Named m (location + 4) names)
    {i : ℕ} (hi : i ≤ names.length) :
    readdir fs .root i = some (some (rootEntry names i), { fs with currDirent := rootEntry names i }) := by
  by_cases h0 : i = 0
  · rw [readdir, if_pos ⟨rfl, h0⟩, dev_copied, rootEntry, if_pos h0]
  · have hpos : i - 1 < names.length := by omega
    have hmem := getD_mem hpos
    have hholds := holdsString_chars (hn.holds (i - 1) hpos).nonzero
    have hlen := hn.short _ hmem
    have hcopy : copied (chars (names.getD (i - 1) [])) (strlen (chars (names.getD (i - 1) []))) =
        names.getD (i - 1) [] := by
      rw [hholds.strlen_eq (by omega)]
      exact hholds.copied_eq le_rfl
    have hinode : i - 1 + 1 = i := by omega
    rw [readdir, if_neg fun h => h0 h.2, if_neg (by rw [h.length]; omega), sub32_eq (by omega),
      h.child hpos, rootEntry, if_neg h0]
    simp only [Option.map_some, childNode, hcopy, hinode]

theorem readdir_end (h : Initialised m location names fs) {i : ℕ} (hi : names.length < i) :
    readdir fs .root i = some (none, fs) := by
  rw [readdir, if_neg fun h => by omega, if_pos (by rw [h.length]; exact hi)]

theorem Initialised.setDirent (h : Initialised m location names fs) (d : Dirent) :
    Initialised m location names { fs with currDirent := d } :=
  ⟨h.memory, h.fileHeaders, h.size, h.root, h.dev, h.childNodes⟩

theorem vfsReaddir_root (h : Initialised m location names fs) (i : ℕ) :
    vfsReaddir fs i = readdir fs .root i := by
  rw [vfsReaddir, h.root]
  exact if_pos rfl

/-- From index `i` on the listing loop sees the rest of the entries. -/
theorem listing_eq (k : ℕ) (h : Initialised m location names fs)
    (hn : Named m (location + 4) names) {i : ℕ}
    (hik : i + k = names.length + 1) :
    listing fs i (k + 1) = some ((List.range' i k).map (rootEntry names)) := by
  induction k generalizing fs i with
  | zero =>
    rw [listing, vfsReaddir_root h, readdir_end h (by omega)]
    rfl
  | succ k ih =>
    rw [listing, vfsReaddir_root h, readdir_root h hn (by omega)]
    simp only
    rw [ih (h.setDirent _) (by omega), List.range'_succ]
    rfl

theorem rootEntry_names (names : List (List UInt8)) :
    ((List.range' 0 (names.length + 1)).map (rootEntry names)).map Dirent.name = devName :: names := by
  apply List.ext_getElem
  · simp
  · intro i h₁ h₂
    cases i with
    | zero => simp [rootEntry]
    | succ i =>
      have hi : i < names.length := by simpa using h₂
      simp [rootEntry, hi]

theorem Initialised.names_eq (h : Initialised m location names fs) :
    fs.childNodes.map FileNode.name = names := by
  rw [h.childNodes, List.map_map]
  apply List.ext_getElem
  · simp
  · intro i h₁ h₂
    simp [childNode, h₂]

theorem finddir_root (h : Initialised m location names fs) (hn : Named m (location + 4) names)
    {s : ℕ → UInt8} {l : List UInt8} (hs : HoldsString s l) (hl : l.length < 0x80000000) :
    finddir fs .root s =
      if l = devName then some .dev else (names.findIdx? (· = l)).map NodePtr.child := by
  have hnonzero : ∀ node ∈ fs.childNodes, 0 ∉ node.name := by
    intro node hnode
    rw [h.childNodes] at hnode
    obtain ⟨i, hi, rfl⟩ := List.mem_map.mp hnode
    exact (hn.holds i (List.mem_range.mp hi)).nonzero
  have hfind : names.findIdx? (· = l) = fs.childNodes.findIdx? fun node => node.name = l := by
    conv_lhs => rw [← h.names_eq, List.findIdx?_map]
    rfl
  rw [finddir_eq hs hl hnonzero, hfind]

theorem findIdx?_iff (hd : names.Nodup) (l : List UInt8) (i : ℕ) :
    names.findIdx? (· = l) = some i ↔ i < names.length ∧ names.getD i [] = l := by
  rw [List.findIdx?_eq_some_iff_getElem]
  constructor
  · rintro ⟨hi, he, -⟩
    exact ⟨hi, by rw [List.getD_eq_getElem names [] hi]; simpa using he⟩
  · rintro ⟨hi, he⟩
    rw [List.getD_eq_getElem names [] hi] at he
    refine ⟨hi, by simpa using he, fun j hj hjl => ?_⟩
    have hjn : j < names.length := by omega
    have hji : names[j] = names[i] := by rw [he]; simpa using hjl
    exact absurd (hd.getElem_inj_iff.mp hji) (by omega)

end Root

/-- Listing and lookup in the root agree, whatever `currDirent` holds. -/
theorem listing_and_lookup_agree {m : Mem} {location : ℕ} {names : List (List UInt8)}
    (h : DirectoryImage m location names) (d : Dirent) :
    (∀ i ≤ names.length, readdir { init m location with currDirent := d } .root i =
      some (some (rootEntry names i), { init m location with currDirent := rootEntry names i })) ∧
    (∀ i, names.length < i → readdir { init m location with currDirent := d } .root i =
      some (none, { init m location with currDirent := d })) ∧
    (∃ ds, listing { init m location with currDirent := d } 0 (names.length + 2) = some ds ∧
      ds.map Dirent.name = devName :: names ∧ (ds.map Dirent.name).Nodup) ∧
    (∀ s l, HoldsString s l → l.length < 0x80000000 →
      (finddir (init m location) .root s = some .dev ↔ l = devName) ∧
      (∀ i, finddir (init m location) .root s = some (.child i) ↔
        i < names.length ∧ names.getD i [] = l) ∧
      (finddir (init m location) .root s = none ↔ l ≠ devName ∧ l ∉ names)) := by
  have hinit := init_initialised h.count h.named
  refine ⟨fun i hi => readdir_root (hinit.setDirent d) h.named hi,
    fun i hi => readdir_end (hinit.setDirent d) hi, ?_, fun s l hs hl => ?_⟩
  · refine ⟨_, listing_eq (names.length + 1) (hinit.setDirent d) h.named (Nat.zero_add _),
      rootEntry_names names, ?_⟩
    rw [rootEntry_names]
    exact List.nodup_cons.mpr ⟨h.notDev, h.distinct⟩
  · rw [finddir_root hinit h.named hs hl]
    by_cases hdev : l = devName
    · subst hdev
      rw [if_pos rfl]
      refine ⟨by simp, fun i => ⟨fun he => by simp at he, fun ⟨hi, he⟩ => ?_⟩, by simp⟩
      exact absurd (he ▸ getD_mem hi) h.notDev
    · rw [if_neg hdev]
      refine ⟨by simp [hdev], fun i => ?_, ?_⟩
      · rw [← findIdx?_iff h.distinct l i]
        simp
      · simp only [Option.map_eq_none_iff, List.findIdx?_eq_none_iff, decide_eq_false_iff_not]
        constructor
        · exact fun hne => ⟨hdev, fun hm => hne l hm rfl⟩
        · rintro ⟨-, hm⟩ x hx rfl
          exact hm hx

/-- The record of an empty file. -/
def emptyRecord (name : List UInt8) : List UInt8 :=
  0xAB :: name ++ List.replicate (64 - name.length) 0 ++ List.replicate 8 0

/-- An image at `0x1000` with the files `a` and `dev1`. -/
def twoFiles : Mem := fun x =>
  ([2, 0, 0, 0] ++ emptyRecord [97] ++ emptyRecord (devName ++ [49])).getD (x - 0x1000) 0

theorem twoFiles_image : DirectoryImage twoFiles 0x1000 [[97], devName ++ [49]] where
  count := by decide
  named := by
    refine ⟨by decide, fun i hi => ?_⟩
    have hcases : i = 0 ∨ i = 1 := by
      simp only [List.length_cons, List.length_nil] at hi
      omega
    rcases hcases with rfl | rfl
    · exact ⟨by decide, by decide⟩
    · exact ⟨by decide, by decide⟩
  distinct := by decide
  notDev := by decide

theorem listing_and_lookup_agree_twoFiles :
    listing (init twoFiles 0x1000) 0 4 = some [⟨devName, 0⟩, ⟨[97], 1⟩, ⟨devName ++ [49], 2⟩] ∧
    finddir (init twoFiles 0x1000) .root (chars devName) = some .dev ∧
    finddir (init twoFiles 0x1000) .root (chars (devName ++ [49])) = some (.child 1) := by
  obtain ⟨-, -, -, hfind⟩ := listing_and_lookup_agree twoFiles_image ⟨[], 0⟩
  refine ⟨listing_eq 3 (init_initialised twoFiles_image.count twoFiles_image.named)
    twoFiles_image.named rfl, ?_, ?_⟩
  · exact (hfind _ _ (holdsString_chars (by decide)) (by decide)).1.mpr rfl
  · exact ((hfind _ _ (holdsString_chars (by decide)) (by decide)).2.1 1).mpr (by decide)

end ExperimentalKernel.Initrd
