import ExperimentalKernel.InitrdDirectory

/-!
# What `readdir` and `finddir` show of a directory

Both look at the children of the root, whichever directory they are asked about: for
`dev`, which has none, they answer with files of the root. Images need not be well
formed here, for `init` makes as many nodes as the count says and ends every name.
-/

namespace ExperimentalKernel.Initrd
open ByteMemory KernelStrings

/-- The node behind a pointer. -/
def InitrdFs.node? (fs : InitrdFs) : NodePtr → Option FileNode
  | .root => some fs.root
  | .dev => some fs.dev
  | .child i => fs.childNodes[i]?

/-- `dev` and the files belong to the root, and nothing to `dev` or to a file. -/
def children (fs : InitrdFs) : NodePtr → List NodePtr
  | .root => .dev :: (List.range fs.childNodes.length).map .child
  | _ => []

/-- `readdir` stays in `childNodes`, shows children of `d` only, and nothing past the last. -/
def ListsOnly (fs : InitrdFs) (d : NodePtr) (index : ℕ) : Prop :=
  ∃ r fs', readdir fs d index = some (r, fs') ∧
    (∀ e, r = some e → ∃ c ∈ children fs d, ∃ n, fs.node? c = some n ∧ e = ⟨n.name, n.inode⟩) ∧
    ((children fs d).length ≤ index → r = none)

/-- `finddir` finds children of `d` only, and nothing if none has the name. -/
def FindsOnly (fs : InitrdFs) (d : NodePtr) (s : ℕ → UInt8) (l : List UInt8) : Prop :=
  (∀ c, finddir fs d s = some c → c ∈ children fs d) ∧
  ((∀ c ∈ children fs d, ∀ n, fs.node? c = some n → n.name ≠ l) → finddir fs d s = none)

/-- The name is terminated where `name_` ends, at the latest. -/
structure FileNode.Ended (n : FileNode) : Prop where
  nonzero : 0 ∉ n.name
  short : n.name.length ≤ maxNameLen

theorem copied_nonzero (s : ℕ → UInt8) (num : ℕ) : 0 ∉ copied s num := by
  induction num generalizing s with
  | zero => exact List.not_mem_nil
  | succ num ih =>
    rw [copied]
    split
    · exact List.not_mem_nil
    · rename_i h0
      exact List.not_mem_cons_of_ne_of_not_mem (Ne.symm h0) (ih _)

theorem copied_length_le (s : ℕ → UInt8) (num : ℕ) : (copied s num).length ≤ num := by
  induction num generalizing s with
  | zero => exact le_rfl
  | succ num ih =>
    rw [copied]
    split
    · exact Nat.zero_le _
    · exact Nat.succ_le_succ (ih _)

theorem FileNode.assign_ended (n : FileNode) : n.assign.Ended := by
  refine ⟨copied_nonzero _ _, (copied_length_le _ _).trans ?_⟩
  split
  · exact le_rfl
  · rename_i h
    exact not_lt.mp h

theorem FileNode.Ended.copied_eq {n : FileNode} (h : n.Ended) :
    copied (chars n.name) (strlen (chars n.name)) = n.name := by
  have hn := holdsString_chars h.nonzero
  rw [hn.strlen_eq (lt_of_le_of_lt h.short (by decide))]
  exact hn.copied_eq le_rfl

/-- While there is room, a turn of the loop adds one node. -/
theorem initEntries_succ (m : Mem) (location array maxSize i k : ℕ) {children : List FileNode}
    (hroom : children.length ≠ maxSize) :
    ∃ m₁ node, node.Ended ∧ node.inode = i + 1 ∧
      initEntries m location array maxSize children i (k + 1) =
        initEntries m₁ location array maxSize (children ++ [node]) (i + 1) k := by
  have hturn : initEntries m location array maxSize children i (k + 1) =
      initEntries (initEntry m location array maxSize children i).1 location array maxSize
        (initEntry m location array maxSize children i).2 (i + 1) k := rfl
  simp only [initEntry, addChild, if_pos hroom] at hturn
  exact ⟨_, _, FileNode.assign_ended _, rfl, hturn⟩

theorem initEntries_children (k : ℕ) (m : Mem) (location array maxSize i : ℕ)
    {children : List FileNode} (hk : children.length + k ≤ maxSize)
    (hc : ∀ n ∈ children, n.Ended) :
    (initEntries m location array maxSize children i k).2.length = children.length + k ∧
      ∀ n ∈ (initEntries m location array maxSize children i k).2, n.Ended := by
  induction k generalizing m i children with
  | zero => exact ⟨rfl, hc⟩
  | succ k ih =>
    obtain ⟨m₁, node, hnode, -, he⟩ := initEntries_succ m location array maxSize i k
      (by omega : children.length ≠ maxSize)
    have hlen : (children ++ [node]).length = children.length + 1 := List.length_append
    have hended : ∀ n ∈ children ++ [node], n.Ended := by
      intro n hn
      rcases List.mem_append.mp hn with hn | hn
      · exact hc n hn
      · rw [List.mem_singleton.mp hn]
        exact hnode
    obtain ⟨h₁, h₂⟩ := ih m₁ (i + 1) (by omega) hended
    rw [he]
    exact ⟨h₁.trans (by omega), h₂⟩

/-- The directories that `init` makes, and as many files as the image counts. -/
structure Listed (count : ℕ) (fs : InitrdFs) : Prop where
  dev : fs.dev = directoryNode devName
  length : fs.childNodes.length = count
  small : count < wordSize
  ended : ∀ n ∈ fs.childNodes, n.Ended

theorem init_listed (m : Mem) (location : ℕ) (d : Dirent) :
    Listed (read32 m location) { init m location with currDirent := d } := by
  obtain ⟨h₁, h₂⟩ := initEntries_children (read32 m location) m location (location + 4)
    (read32 m location) 0 (Nat.zero_add _).le (List.forall_mem_nil _)
  exact ⟨rfl, h₁.trans (Nat.zero_add _), read32_lt m location, h₂⟩

section Listed

variable {fs : InitrdFs} {count index : ℕ} {s : ℕ → UInt8} {l : List UInt8}

theorem readdir_zero (h : Listed count fs) :
    readdir fs .root 0 = some (some ⟨fs.dev.name, fs.dev.inode⟩,
      { fs with currDirent := ⟨fs.dev.name, fs.dev.inode⟩ }) := by
  rw [readdir, if_pos ⟨rfl, rfl⟩, dev_copied, h.dev, directoryNode, dev_copied]

/-- Whatever the directory, at `i + 1` stands the file `i` of the root. -/
theorem readdir_file (h : Listed count fs) (d : NodePtr) {i : ℕ} (hi : i < count) :
    ∃ n, fs.childNodes[i]? = some n ∧
      readdir fs d (i + 1) = some (some ⟨n.name, n.inode⟩, { fs with currDirent := ⟨n.name, n.inode⟩ }) := by
  have hlen : i < fs.childNodes.length := h.length.symm ▸ hi
  refine ⟨fs.childNodes[i], List.getElem?_eq_getElem hlen, ?_⟩
  have hsub : sub32 (i + 1) 1 = i := sub32_eq (Nat.succ_pos i)
  rw [readdir, if_neg fun he => absurd he.2 (Nat.succ_ne_zero i), if_neg (by omega), hsub,
    List.getElem?_eq_getElem hlen]
  simp only [Option.map_some, (h.ended _ (List.getElem_mem hlen)).copied_eq]

theorem readdir_past (h : Listed count fs) (d : NodePtr) (hi : count < index) :
    readdir fs d index = some (none, fs) := by
  rw [readdir, if_neg fun he => by omega, if_pos (h.length.symm ▸ hi)]

/-- At index zero only the root has an entry; for another node `childNodes_[-1]` is read. -/
theorem readdir_zero_outside (h : Listed count fs) {d : NodePtr} (hd : d ≠ .root) :
    readdir fs d 0 = none := by
  have hsmall := h.small
  have hout : fs.childNodes[sub32 0 1]? = none := by
    rw [List.getElem?_eq_none_iff, h.length]
    change count ≤ 4294967295
    exact Nat.le_of_lt_succ hsmall
  rw [readdir, if_neg (fun he => hd he.1), if_neg (Nat.not_lt_zero _), hout, Option.map_none]

theorem listsOnly_past (h : Listed count fs) (d : NodePtr) (hi : count < index) :
    ListsOnly fs d index :=
  ⟨none, fs, readdir_past h d hi, (fun _ he => nomatch he), fun _ => rfl⟩

theorem listsOnly_root (h : Listed count fs) (index : ℕ) : ListsOnly fs .root index := by
  have hlen : (children fs .root).length = count + 1 := by simp [children, h.length]
  rcases Nat.lt_or_ge count index with hi | hi
  · exact listsOnly_past h .root hi
  · cases index with
    | zero =>
      refine ⟨_, _, readdir_zero h, fun e he => ⟨.dev, List.mem_cons_self, fs.dev, rfl, ?_⟩,
        fun hle => by omega⟩
      exact (Option.some.inj he).symm
    | succ i =>
      obtain ⟨n, hn, hr⟩ := readdir_file h .root hi
      refine ⟨_, _, hr, fun e he => ⟨.child i, ?_, n, hn, (Option.some.inj he).symm⟩,
        fun hle => by omega⟩
      refine List.mem_cons_of_mem _ (List.mem_map_of_mem (List.mem_range.mpr ?_))
      exact h.length.symm ▸ hi

theorem listsOnly_dev (h : Listed count fs) (index : ℕ) :
    ListsOnly fs .dev index ↔ count < index := by
  refine ⟨fun hl => ?_, listsOnly_past h .dev⟩
  obtain ⟨r, fs', hr, -, hnone⟩ := hl
  obtain rfl := hnone (Nat.zero_le _)
  by_contra hle
  cases index with
  | zero =>
    have hout := readdir_zero_outside h (by decide : NodePtr.dev ≠ .root)
    cases hout.symm.trans hr
  | succ i =>
    obtain ⟨n, -, hs⟩ := readdir_file h .dev (not_lt.mp hle)
    cases hs.symm.trans hr

theorem findIdx?_lt {nodes : List FileNode} {p : FileNode → Bool} {i : ℕ}
    (h : nodes.findIdx? p = some i) : i < nodes.length :=
  (List.findIdx?_eq_some_iff_getElem.mp h).1

theorem findsOnly_root (h : Listed count fs) (hs : HoldsString s l) (hl : l.length < 0x80000000) :
    FindsOnly fs .root s l := by
  have heq := finddir_eq hs hl fun n hn => (h.ended n hn).nonzero
  constructor
  · intro c hc
    rw [heq] at hc
    split at hc
    · exact (Option.some.inj hc) ▸ List.mem_cons_self
    · obtain ⟨i, hi, rfl⟩ := Option.map_eq_some_iff.mp hc
      exact List.mem_cons_of_mem _ (List.mem_map_of_mem (List.mem_range.mpr (findIdx?_lt hi)))
  · intro hnone
    have hdev : l ≠ devName := fun he => by
      have := hnone .dev List.mem_cons_self fs.dev rfl
      rw [h.dev] at this
      exact this he.symm
    rw [heq, if_neg hdev, Option.map_eq_none_iff, List.findIdx?_eq_none_iff]
    intro n hn
    obtain ⟨i, hi, rfl⟩ := List.getElem_of_mem hn
    have hmem : NodePtr.child i ∈ children fs .root :=
      List.mem_cons_of_mem _ (List.mem_map_of_mem (List.mem_range.mpr hi))
    simpa using hnone _ hmem _ (List.getElem?_eq_getElem hi)

theorem findsOnly_dev (h : Listed count fs) (hs : HoldsString s l) (hl : l.length < 0x80000000) :
    FindsOnly fs .dev s l ↔ ∀ n ∈ fs.childNodes, n.name ≠ l := by
  have hroot : NodePtr.dev ≠ .root := by decide
  have heq : finddir fs .dev s =
      (fs.childNodes.findIdx? fun node => node.name = l).map fun j => NodePtr.child (0 + j) := by
    rw [finddir, if_neg (fun he => hroot he.1),
      findChild_eq hs hl 0 fs.childNodes fun n hn => (h.ended n hn).nonzero]
  have hnone : finddir fs .dev s = none ↔ ∀ n ∈ fs.childNodes, n.name ≠ l := by
    rw [heq, Option.map_eq_none_iff, List.findIdx?_eq_none_iff]
    simp
  constructor
  · exact fun hf => hnone.mp (hf.2 fun c hc => absurd hc List.not_mem_nil)
  · intro hn
    have he := hnone.mpr hn
    refine ⟨fun c hc => ?_, fun _ => he⟩
    exact absurd (he.symm.trans hc).symm (Option.some_ne_none c)

end Listed

/-- Listing and lookup keep to the directory just when they are asked about the root, or
past the files, or for a name that no file has. -/
theorem listing_of_directory (m : Mem) (location : ℕ) (d : Dirent) {dir : NodePtr}
    (hdir : dir = .root ∨ dir = .dev) :
    (∀ index, ListsOnly { init m location with currDirent := d } dir index ↔
      dir = .root ∨ read32 m location < index) ∧
    (∀ s l, HoldsString s l → l.length < 0x80000000 →
      (FindsOnly { init m location with currDirent := d } dir s l ↔
        dir = .root ∨ ∀ n ∈ (init m location).childNodes, n.name ≠ l)) := by
  have h := init_listed m location d
  rcases hdir with rfl | rfl
  · refine ⟨fun index => ?_, fun s l hs hl => ?_⟩
    · exact iff_of_true (listsOnly_root h index) (.inl rfl)
    · exact iff_of_true (findsOnly_root h hs hl) (.inl rfl)
  · refine ⟨fun index => ?_, fun s l hs hl => ?_⟩
    · rw [listsOnly_dev h]
      simp
    · rw [findsOnly_dev h hs hl]
      simp

theorem listing_of_directory_twoFiles :
    ListsOnly (init twoFiles 0x1000) .root 0 ∧ ListsOnly (init twoFiles 0x1000) .dev 3 ∧
    FindsOnly (init twoFiles 0x1000) .dev (chars devName) devName := by
  have hroot := listing_of_directory twoFiles 0x1000 ⟨[], 0⟩ (.inl rfl)
  have hdev := listing_of_directory twoFiles 0x1000 ⟨[], 0⟩ (.inr rfl)
  refine ⟨(hroot.1 0).mpr (.inl rfl), (hdev.1 3).mpr (.inr (by decide)), ?_⟩
  exact (hdev.2 _ _ (holdsString_chars (by decide)) (by decide)).mpr (.inr (by decide))

/-- `dev` shows the first file of the root, and before it reads outside `childNodes_`. -/
theorem listing_of_dev_shows_root :
    ((readdir (init twoFiles 0x1000) .dev 1).map Prod.fst = some (some ⟨[97], 1⟩) ∧
      ¬ ListsOnly (init twoFiles 0x1000) .dev 1) ∧
    (readdir (init twoFiles 0x1000) .dev 0).isNone ∧
    (finddir (init twoFiles 0x1000) .dev (chars [97]) = some (.child 0) ∧
      ¬ FindsOnly (init twoFiles 0x1000) .dev (chars [97]) [97]) := by
  have h := init_listed twoFiles 0x1000 ⟨[], 0⟩
  refine ⟨⟨?_, fun hl => ?_⟩, ?_, ?_, fun hf => ?_⟩
  · decide
  · exact absurd ((listsOnly_dev h 1).mp hl) (by decide)
  · decide
  · decide
  · exact absurd ((findsOnly_dev h (holdsString_chars (by decide)) (by decide)).mp hf) (by decide)

end ExperimentalKernel.Initrd
