import ExperimentalKernel.PageWalks
import ExperimentalKernel.BitmapOverrun

/-!
# Runs of the two walks

Directories and tables are made and pages get frames, in any order. While each search for a
frame ends in the bitmap the two walks stay together. The first one that goes on behind it
may find its clear bit in the directory itself.
-/

namespace ExperimentalKernel.Paging
open ByteMemory LabelledRuns Function

/-- The kernel's state and the directories it has made. -/
structure World where
  state : State
  directories : List ℕ

inductive Event where
  | getPage (physAddress directory ptr : ℕ)
  | allocFrame (page : ℕ) (isKernel isWriteable : Bool)
  | clonePageDirectory (src pDir : ℕ) (ptrs : List ℕ)
  | switchPaging (directory : ℕ)
  | enableHeap

/-- `frames_` is at `address`. -/
inductive World.Step (address : ℕ) : World → Event → World → Prop
  | getPage {w : World} {a directory ptr page : ℕ} {s' : State}
      (h : getPage w.state a true directory ptr = some (page, s')) :
      Step address w (.getPage a directory ptr) { w with state := s' }
  | allocFrame (w : World) (page : ℕ) (isKernel isWriteable : Bool) :
      Step address w (.allocFrame page isKernel isWriteable)
        { w with state :=
          (Bitmap.allocFrame ⟨address, w.directories⟩ w.state page isKernel isWriteable).2 }
  | clonePageDirectory {w : World} {src pDir : ℕ} {ptrs : List ℕ} {s' : State}
      (h : Bitmap.clonePageDirectory ⟨address, pDir :: w.directories⟩ w.state src (pDir :: ptrs) =
        some s') :
      Step address w (.clonePageDirectory src pDir ptrs) ⟨s', pDir :: w.directories⟩
  | switchPaging (w : World) (directory : ℕ) :
      Step address w (.switchPaging directory) { w with state := switchPaging w.state directory }
  | enableHeap (w : World) :
      Step address w .enableHeap { w with state := { w.state with heapEnabled := true } }

/-- The new mapping has the directories and tables where the old one has them. -/
def KernelKept (w : World) (directory : ℕ) : Prop :=
  ∀ v p, (v ∈ w.directories ∨
      ∃ d ∈ w.directories, ∃ i < 1024, (w.state.directories d).pageTables i = v) →
    Placed w.state v p → Placed (switchPaging w.state directory) v p

/-- The arguments are directories there are, and every `kmalloc` hands out memory. -/
def World.Granted (address : ℕ) (w : World) : Event → Prop
  | .getPage a directory ptr => orCurrent w.state directory ∈ w.directories ∧
      (findPage w.state a directory = none → Handed w.state w.directories ptr pageSize)
  | .allocFrame _ _ _ => True
  | .clonePageDirectory src pDir ptrs => orCurrent w.state src ∈ w.directories ∧
      CloneSupplied (Bitmap.allocUser ⟨address, pDir :: w.directories⟩) w.state w.directories
        (orCurrent w.state src) pDir ptrs
  | .switchPaging directory => directory ∈ w.directories ∧ KernelKept w directory
  | .enableHeap => True

/-- Each search for a frame finds a clear bit in the bitmap. -/
def World.InBitmap (w : World) : Event → Prop
  | .allocFrame page _ _ => (w.state.pages page).frame = 0 → HasFreeFrame w.state
  | .clonePageDirectory src _ _ =>
      framesNeeded w.state (orCurrent w.state src) 0 1024 ≤ freeFrames w.state
  | _ => True

/-- Paging is off and there is one directory, empty. -/
structure Booted (w : World) : Prop where
  number : w.state.frameNumber = 0x1000
  directories : w.directories = [w.state.pageDirectory]
  current : w.state.currentPageDirectory = w.state.pageDirectory
  paging : w.state.paging = false
  empty : w.state.directories w.state.pageDirectory =
    { PageDirectory.zero with physicalAddress := w.state.pageDirectory }
  nonnull : w.state.pageDirectory ≠ 0
  aligned : w.state.pageDirectory % 0x1000 = 0
  bounded : w.state.pageDirectory < wordSize

/-- Where the processor finds the entry for `a` once it has that of the directory. -/
def hardwareEntry (s : State) (d a : ℕ) : ℕ :=
  (tableFrame ((s.directories d).pageTablesPhysical (a / 0x400000))).toNat + 4 * (a / 0x1000 % 1024)

/-- Both walks use one entry of the directory, the table is present for both or for
neither, and they end in the same word. -/
def EndTogether (w : World) : Prop :=
  ∀ d ∈ w.directories, ∀ a < wordSize,
    ((w.state.directories d).pageTables (a / 0x400000) ≠ 0 ↔
      ((w.state.directories d).pageTablesPhysical (a / 0x400000)).getLsbD 0 = true) ∧
    ((w.state.directories d).pageTables (a / 0x400000) ≠ 0 →
      translate w.state (d + 4 * (a / 0x400000)) =
        (w.state.directories d).physicalAddress + 4 * (a / 0x400000) ∧
      ∃ page s', getPage w.state a false d 0 = some (page, s') ∧
        translate w.state page = hardwareEntry w.state d a)

theorem WalksAgree.endTogether {w : World} (h : WalksAgree w.state w.directories) : EndTogether w := by
  intro d hd a ha
  unfold wordSize at ha
  have hi : a / 0x400000 < 1024 := by omega
  have hdiv : a / 0x1000 / 1024 = a / 0x400000 := by rw [Nat.div_div_eq_div_mul]
  have hdir := h.agree d hd
  have hslot := hdir.slots _ hi
  refine ⟨hslot.present, fun h0 => ⟨?_, ?_⟩⟩
  · rw [translate_add _ hdir.placed.aligned (by omega), hdir.placed.translated]
  · have hfind : findPage w.state a d = some _ := if_pos (by
      rw [orCurrent, if_neg hdir.placed.nonnull, hdiv]
      exact h0)
    refine ⟨_, _, by rw [Paging.getPage, hfind], ?_⟩
    rw [orCurrent, if_neg hdir.placed.nonnull, hdiv,
      translate_add _ (hslot.placed h0).aligned (by omega), (hslot.placed h0).translated]
    rfl

section Clones

variable {s s' : State} {b : Bitmap} {ds ptrs rest : List ℕ} {src pDir i k ptr phys : ℕ}

theorem mapped_of_kmalloc (h : kmalloc s ptr = some (phys, s')) : Mapped s ptr := by
  intro hheap
  rw [kmalloc, if_pos hheap] at h
  obtain ⟨⟨page, s₁⟩, hfind, -⟩ := Option.map_eq_some_iff.mp h
  exact (findPage_cases hfind).1

/-- What the loop of `clonePageDirectory` relies on beside the heap. -/
structure LoopReady (s : State) (src pDir : ℕ) : Prop where
  number : s.frameNumber = 0x1000
  source : src ≠ pDir
  kernel : s.pageDirectory ≠ pDir
  current : s.currentPageDirectory ≠ pDir

theorem LoopReady.whole (h : LoopReady s src pDir) : WholeWords s := by
  rw [WholeWords, h.number]

theorem LoopReady.undisturbed {used : List ℕ} (h : LoopReady s src pDir)
    (hu : Undisturbed s s' pDir used) : LoopReady s' src pDir :=
  ⟨hu.grown.frameNumber.trans h.number, h.source, hu.pageDirectory ▸ h.kernel, hu.current ▸ h.current⟩

/-- A slot is cloned as if nothing lay behind the bitmap. -/
structure ClonedAlike (b : Bitmap) (s : State) (src pDir i : ℕ) (ptrs : List ℕ) : Prop where
  alike : cloneSlotWith b.allocUser s src pDir i ptrs = cloneSlot s src pDir i ptrs
  after : ∀ s' rest, cloneSlot s src pDir i ptrs = some (s', rest) → ∃ used,
    Undisturbed s s' pDir used ∧ freeFrames s' + framesNeeded s src i 1 = freeFrames s ∧
    ∀ ptr ∈ used, ∀ j < 1024, (s.directories src).pageTables j ≠ 0 →
      Apart ptr ((s.directories src).pageTables j)

/-- What the heap hands out for a slot is no table of the source. -/
theorem apart_of_slotSupplied (hf : SlotSupplied s ds src pDir i (ptr :: rest)) (hp : Private s src i)
    (hsrc : src ∈ ds) : ∀ j < 1024, (s.directories src).pageTables j ≠ 0 →
      Apart ptr ((s.directories src).pageTables j) := by
  intro j hj h0
  have htables := (hf hp ptr rfl).tables src (List.mem_cons_of_mem _ hsrc) j hj
  rw [orPresent_tables] at htables
  exact htables h0

theorem LoopReady.clonedAlike (h : LoopReady s src pDir) (hi : i < 1024) (hsrc : src ∈ ds)
    (hf : SlotSupplied s ds src pDir i ptrs) (hfree : framesNeeded s src i 1 ≤ freeFrames s) :
    ClonedAlike b s src pDir i ptrs := by
  by_cases hp : Private s src i
  · cases ptrs with
    | nil =>
      refine ⟨(if_neg hp.1).trans ((if_neg hp.2).trans (cloneSlot_nil hp).symm), fun s' rest hc => ?_⟩
      rw [cloneSlot_nil hp] at hc
      cases hc
    | cons ptr rest =>
      have hapart := apart_of_slotSupplied hf hp hsrc
      cases hk : kmalloc (s.setDirectory src ((s.directories src).orPresent i)) ptr with
      | none =>
        have hplain : cloneSlot s src pDir i (ptr :: rest) = none := by
          rw [cloneSlot_eq hp, hk, Option.map_none]
        refine ⟨?_, fun s' rest' hc => ?_⟩
        · rw [hplain, Bitmap.cloneSlot_private hp, hk, Option.map_none]
        · rw [hplain] at hc
          cases hc
      | some r =>
        have hmapped : Mapped s ptr := by
          intro hheap
          have htable := mapped_of_kmalloc hk hheap
          rwa [orPresent_tables] at htable
        have hready : SlotReady s src pDir i ptr :=
          ⟨by rw [h.number]; decide, h.source, h.current, hmapped, hapart i hi hp.1⟩
        obtain ⟨s₁, hplain, hrun, hu, hused⟩ := hready.cloned (b := b) h.whole hp hfree rest
        refine ⟨hrun.trans hplain.symm, fun s' rest' hc => ?_⟩
        obtain ⟨rfl, -⟩ := Prod.mk.inj (Option.some.inj (hplain.symm.trans hc))
        refine ⟨[ptr], hu, hused, fun q hq => ?_⟩
        rw [List.mem_singleton.mp hq]
        exact hapart
  · obtain ⟨s₁, hplain, hdone⟩ := @cloneSlot_not_private s src pDir i ptrs hp
    refine ⟨Bitmap.cloneSlot_eq hp ptrs, fun s' rest hc => ?_⟩
    obtain ⟨rfl, -⟩ := Prod.mk.inj (Option.some.inj (hplain.symm.trans hc))
    exact ⟨[], hdone.undisturbed, hdone.used, fun _ hq => absurd hq List.not_mem_nil⟩

/-- With enough frames in the bitmap the loop ends as if nothing lay behind it. -/
theorem LoopReady.cloneSlots_alike (k : ℕ) (h : LoopReady s src pDir) (hik : i + k ≤ 1024)
    (hsrc : src ∈ ds) (hf : LoopSupplied b.allocUser ds src pDir k s i ptrs)
    (hfree : framesNeeded s src i k ≤ freeFrames s) :
    LoopSupplied allocUser ds src pDir k s i ptrs ∧
      cloneSlotsWith b.allocUser s src pDir i ptrs k = cloneSlots s src pDir i ptrs k ∧
      ∀ s' rest, cloneSlots s src pDir i ptrs k = some (s', rest) → LoopReady s' src pDir ∧
        s'.pageDirectory = s.pageDirectory := by
  induction k generalizing s i ptrs with
  | zero =>
    refine ⟨trivial, rfl, fun s' rest hc => ?_⟩
    cases hc
    exact ⟨h, rfl⟩
  | succ k ih =>
    obtain ⟨hslot, hloop⟩ := hf
    rw [framesNeeded_succ] at hfree
    have hturn : ClonedAlike b s src pDir i ptrs := h.clonedAlike (by omega) hsrc hslot (by omega)
    have hrest : ∀ s₁ ptrs₁, cloneSlot s src pDir i ptrs = some (s₁, ptrs₁) →
        s₁.pageDirectory = s.pageDirectory ∧ LoopSupplied allocUser ds src pDir k s₁ (i + 1) ptrs₁ ∧
        cloneSlotsWith b.allocUser s₁ src pDir (i + 1) ptrs₁ k = cloneSlots s₁ src pDir (i + 1) ptrs₁ k ∧
        ∀ s' rest, cloneSlots s₁ src pDir (i + 1) ptrs₁ k = some (s', rest) → LoopReady s' src pDir ∧
          s'.pageDirectory = s₁.pageDirectory := by
      intro s₁ ptrs₁ hc
      obtain ⟨used, hu, hused, hapart⟩ := hturn.after s₁ ptrs₁ hc
      have hneed : framesNeeded s₁ src (i + 1) k = framesNeeded s src (i + 1) k :=
        hu.framesNeeded_eq h.source h.kernel (by omega) hapart
      exact ⟨hu.pageDirectory, ih (h.undisturbed hu) (by omega) (hloop s₁ ptrs₁ (hturn.alike ▸ hc))
        (by omega)⟩
    refine ⟨⟨hslot, fun s₁ ptrs₁ hc => (hrest s₁ ptrs₁ hc).2.1⟩, ?_, fun s' rest hc => ?_⟩
    · rw [cloneSlotsWith, cloneSlots_succ, hturn.alike]
      cases hc : cloneSlot s src pDir i ptrs with
      | none => rw [Option.bind_none, Option.bind_none]
      | some r =>
        obtain ⟨s₁, ptrs₁⟩ := r
        rw [Option.bind_some, Option.bind_some]
        exact (hrest s₁ ptrs₁ hc).2.2.1
    · rw [cloneSlots_succ] at hc
      obtain ⟨⟨s₁, ptrs₁⟩, hc₁, hc₂⟩ := Option.bind_eq_some_iff.mp hc
      obtain ⟨hkernel, -, -, hlast⟩ := hrest s₁ ptrs₁ hc₁
      obtain ⟨hready, hsame⟩ := hlast s' rest hc₂
      exact ⟨hready, hsame.trans hkernel⟩

theorem kmalloc_undisturbed (h : kmalloc s ptr = some (phys, s')) :
    Undisturbed s s' pDir [] ∧ s'.frames = s.frames := by
  rcases kmalloc_cases h with rfl | ⟨-, rfl⟩
  · exact ⟨Undisturbed.refl _ _ _, rfl⟩
  · exact ⟨undisturbed_orPresent _, rfl⟩

/-- A directory is cloned as if nothing lay behind the bitmap. -/
theorem clonePageDirectory_alike (hnum : s.frameNumber = 0x1000) (hsrc : orCurrent s src ∈ ds)
    (hkernel : s.pageDirectory ∈ ds) (hcurrent : s.currentPageDirectory ∈ ds)
    (hf : CloneSupplied b.allocUser s ds (orCurrent s src) pDir ptrs)
    (hfree : framesNeeded s (orCurrent s src) 0 1024 ≤ freeFrames s)
    (hc : b.clonePageDirectory s src (pDir :: ptrs) = some s') :
    CloneSupplied allocUser s ds (orCurrent s src) pDir ptrs ∧
      clonePageDirectory s src (pDir :: ptrs) = some s' ∧ s'.frameNumber = 0x1000 ∧
      s'.pageDirectory = s.pageDirectory := by
  obtain ⟨hhanded, hloop⟩ := hf
  obtain ⟨⟨phys, s₁⟩, hkm, hrest⟩ := Option.bind_eq_some_iff.mp hc
  obtain ⟨⟨s₃, ptrs₃⟩, hslots, rfl⟩ := Option.map_eq_some_iff.mp hrest
  have hnew : ∀ d ∈ ds, d ≠ pDir := by
    rintro d hd rfl
    have hregion := hhanded.directories d hd
    unfold directorySize at hregion
    omega
  obtain ⟨hu₁, hframes⟩ := @kmalloc_undisturbed s s₁ pDir _ _ hkm
  have hu : Undisturbed s (s₁.setDirectory pDir { PageDirectory.zero with physicalAddress := phys })
      pDir [] := hu₁.trans (undisturbed_setDirectory _)
  have hready : LoopReady s (orCurrent s src) pDir :=
    ⟨hnum, hnew _ hsrc, hnew _ hkernel, hnew _ hcurrent⟩
  have hneed : framesNeeded (s₁.setDirectory pDir { PageDirectory.zero with physicalAddress := phys })
      (orCurrent s src) 0 1024 = framesNeeded s (orCurrent s src) 0 1024 :=
    hu.framesNeeded_eq hready.source hready.kernel le_rfl fun _ hptr => absurd hptr List.not_mem_nil
  have hfree₁ : freeFrames (s₁.setDirectory pDir { PageDirectory.zero with physicalAddress := phys }) =
      freeFrames s := freeFrames_congr hu.grown.frameNumber hframes
  obtain ⟨hsupplied, halike, hlast⟩ := (hready.undisturbed hu).cloneSlots_alike 1024 le_rfl hsrc
    (hloop phys s₁ hkm) (by rw [hneed, hfree₁]; exact hfree)
  have hplain := halike.symm.trans hslots
  obtain ⟨hafter, hkernel'⟩ := hlast s₃ ptrs₃ hplain
  refine ⟨⟨hhanded, fun phys' s' hkm' => ?_⟩, ?_, hafter.number, hkernel'.trans hu.pageDirectory⟩
  · obtain ⟨rfl, rfl⟩ := Prod.mk.inj (Option.some.inj (hkm.symm.trans hkm'))
    exact hsupplied
  · rw [clonePageDirectory_eq hkm, hplain, Option.map_some]

end Clones

section Runs

variable {address : ℕ} {w w' : World} {e : Event}

/-- The walks agree, and the kernel's directory is among those made. -/
structure World.Sound (w : World) : Prop where
  walks : WalksAgree w.state w.directories
  number : w.state.frameNumber = 0x1000
  kernel : w.state.pageDirectory ∈ w.directories

theorem sound_booted (h : Booted w) : w.Sound := by
  refine ⟨?_, h.number, by rw [h.directories]; exact List.mem_singleton_self _⟩
  rw [h.directories]
  refine ⟨by rw [h.current]; exact List.mem_singleton_self _, fun d hd => ?_⟩
  obtain rfl := List.mem_singleton.mp hd
  refine ⟨fun i _ => ?_, h.nonnull, h.aligned, h.bounded, fun hp => ?_, ?_⟩
  · rw [h.empty]
    exact slotAgrees_null _
  · rw [h.paging] at hp
    cases hp
  · rw [h.empty, translate, if_neg (by simp [h.paging])]

/-- `getPage` leaves number and place of the frames and the kernel's directory alone. -/
theorem getPage_kept {s s' : State} {a directory ptr page : ℕ}
    (h : getPage s a true directory ptr = some (page, s')) :
    s'.frameNumber = s.frameNumber ∧ s'.pageDirectory = s.pageDirectory := by
  unfold getPage at h
  cases hfind : findPage s a directory with
  | some r =>
    rw [hfind] at h
    cases h
    obtain ⟨-, -, rfl⟩ := findPage_cases hfind
    exact ⟨rfl, rfl⟩
  | none =>
    rw [hfind] at h
    obtain ⟨⟨phys, s₁⟩, hk, heq⟩ := Option.map_eq_some_iff.mp h
    cases heq
    rcases kmalloc_cases hk with rfl | ⟨-, rfl⟩ <;> exact ⟨rfl, rfl⟩

theorem World.Sound.step (h : w.Sound)
    (hs : guarded (guarded (World.Step address) (World.Granted address)) World.InBitmap w e w') :
    w'.Sound := by
  obtain ⟨⟨hs, hg⟩, hin⟩ := hs
  cases hs with
  | getPage hget =>
    obtain ⟨hnumber, hkernel⟩ := getPage_kept hget
    exact ⟨h.walks.getPage hg.2 hget, hnumber.trans h.number, hkernel ▸ h.kernel⟩
  | allocFrame page isKernel isWriteable =>
    have hwhole : WholeWords w.state := by rw [WholeWords, h.number]
    rw [Bitmap.allocFrame_eq hwhole hin]
    have hextends := allocFrame_extends w.state page isKernel isWriteable
    have honly := (allocFrame_entriesOnly w.state page isKernel isWriteable).same
    generalize (allocFrame w.state page isKernel isWriteable).2 = s' at hextends honly
    obtain ⟨f, p, m, rfl⟩ := honly
    exact ⟨h.walks.of_directories hextends rfl, h.number, h.kernel⟩
  | clonePageDirectory hclone =>
    obtain ⟨hsupplied, hplain, hnumber, hkernel⟩ := clonePageDirectory_alike h.number hg.1 h.kernel
      h.walks.current hg.2 hin hclone
    exact ⟨h.walks.clonePageDirectory hg.1 hsupplied hplain, hnumber,
      List.mem_cons_of_mem _ (hkernel ▸ h.kernel)⟩
  | switchPaging directory =>
    obtain ⟨hmem, hkept⟩ := hg
    refine ⟨⟨hmem, fun d hd => ⟨fun i hi => ?_, hkept _ _ (.inl hd) (h.walks.agree d hd).placed⟩⟩,
      h.number, h.kernel⟩
    have hslot := (h.walks.agree d hd).slots i hi
    exact ⟨hslot.present, fun h0 => hkept _ _ (.inr ⟨d, hd, i, hi, rfl⟩) (hslot.placed h0)⟩
  | enableHeap => exact ⟨h.walks.of_directories ⟨rfl, rfl, fun _ _ h₁ _ => ⟨h₁, rfl⟩⟩ rfl, h.number, h.kernel⟩

/-- While every search for a frame ends in the bitmap the two walks end in the same word. -/
theorem walks_end_together {es : List Event} (hb : Booted w)
    (hr : Run (guarded (guarded (World.Step address) (World.Granted address)) World.InBitmap)
      w es w') : EndTogether w' :=
  (hr.invariant (P := World.Sound) (fun _ _ _ h hs => h.step hs) (sound_booted hb)).walks.endTogether

end Runs

/-- One empty directory at `0x10000`, right behind the bitmap. -/
def oneDirectory : World where
  state := { blank with
    pageDirectory := 0x10000
    currentPageDirectory := 0x10000
    directories := fun _ => { PageDirectory.zero with physicalAddress := 0x10000 } }
  directories := [0x10000]

/-- A table at `0x20000` is made for the page of `0x1000`, which then gets a frame. -/
theorem walks_end_together_table :
    ∃ w, Run (guarded (guarded (World.Step 0xFE00) (World.Granted 0xFE00)) World.InBitmap) oneDirectory
        [.getPage 0x1000 0 0x20000, .allocFrame 0x20004 false true] w ∧ EndTogether w := by
  have hhanded : Handed oneDirectory.state oneDirectory.directories 0x20000 pageSize :=
    { nonnull := by decide
      aligned := by decide
      bounded := by decide
      tables := fun _ _ _ _ h0 => absurd rfl h0
      directories := by decide
      backed := fun hp => by cases hp
      physical := fun _ _ hk => by cases hk; rfl }
  obtain ⟨w, hrun⟩ : ∃ w, Run (guarded (guarded (World.Step 0xFE00) (World.Granted 0xFE00))
      World.InBitmap) oneDirectory [.getPage 0x1000 0 0x20000, .allocFrame 0x20004 false true] w :=
    ⟨_, Run.cons ⟨⟨World.Step.getPage rfl, by decide, fun _ => hhanded⟩, trivial⟩
      (Run.single ⟨⟨World.Step.allocFrame _ 0x20004 false true, trivial⟩,
        fun _ => ⟨0, by decide, by decide⟩⟩)⟩
  exact ⟨w, hrun, walks_end_together
    ⟨by decide, rfl, rfl, rfl, rfl, by decide, by decide, by decide⟩ hrun⟩

section Overrun

variable {w w' : World} {n m : ℕ}

/-- The bitmap at `0x200E00` ends where the directory begins. The heap has `n` tables behind it,
and `m` of their pages have got a frame. -/
structure Exhausting (w : World) (n m : ℕ) : Prop where
  directories : w.directories = [0x201000]
  number : w.state.frameNumber = 0x1000
  current : w.state.currentPageDirectory = 0x201000
  paging : w.state.paging = false
  heap : w.state.heapEnabled = false
  tables : ∀ i, (w.state.directories 0x201000).pageTables i =
    if 768 ≤ i ∧ i < 768 + n then 0x204000 + 0x1000 * (i - 768) else 0
  first : (w.state.directories 0x201000).pageTablesPhysical 0 = 0
  pages : ∀ j, m ≤ j → (w.state.pages (0x204000 + 4 * j)).frame = 0
  bits : ∀ b < 0x1000, busy w.state.frames b = decide (b < m)

/-- The table for the next four megabytes of the heap is new. -/
theorem Exhausting.handed (h : Exhausting w n 0) (hn : n < 8) :
    Handed w.state w.directories (0x204000 + 0x1000 * n) pageSize := by
  have hk : kmalloc w.state (0x204000 + 0x1000 * n) = some (0x204000 + 0x1000 * n, w.state) :=
    if_neg (by rw [h.heap]; decide)
  refine ⟨by omega, by omega, by unfold pageSize wordSize; omega, fun d hd i _ h0 => .inr ?_,
    fun d hd => .inr ?_, fun hp => ?_, fun phys s' hk' => ?_⟩
  · rw [h.directories, List.mem_singleton] at hd
    rw [hd, h.tables] at h0 ⊢
    unfold pageSize
    split_ifs at h0 ⊢ <;> omega
  · rw [h.directories, List.mem_singleton] at hd
    rw [hd, directorySize]
    omega
  · rw [h.paging] at hp
    cases hp
  · rw [hk] at hk'
    cases hk'
    rw [translate, if_neg (by rw [h.paging]; decide)]

/-- The next table of the heap. -/
theorem Exhausting.table (h : Exhausting w n 0) (hn : n < 8) :
    ∃ w', guarded (World.Step 0x200E00) (World.Granted 0x200E00) w
      (.getPage (0xC0000000 + 0x400000 * n) 0 (0x204000 + 0x1000 * n)) w' ∧ Exhausting w' (n + 1) 0 := by
  have hcur : orCurrent w.state 0 = 0x201000 := h.current
  have hslot : (0xC0000000 + 0x400000 * n) / 0x1000 / 1024 = 768 + n := by omega
  have hnull : (w.state.directories 0x201000).pageTables (768 + n) = 0 := by
    rw [h.tables, if_neg (by omega)]
  have hfind : findPage w.state (0xC0000000 + 0x400000 * n) 0 = none := by
    refine if_neg fun h0 => h0 ?_
    rw [hcur, hslot]
    exact hnull
  have hk : kmalloc w.state (0x204000 + 0x1000 * n) = some (0x204000 + 0x1000 * n, w.state) :=
    if_neg (by rw [h.heap]; decide)
  have hget : getPage w.state (0xC0000000 + 0x400000 * n) true 0 (0x204000 + 0x1000 * n) = some
      (0x204000 + 0x1000 * n + 4 * ((0xC0000000 + 0x400000 * n) / 0x1000 % 1024),
        (w.state.setTable 0x201000 (768 + n) (0x204000 + 0x1000 * n) (0x204000 + 0x1000 * n)).clearTable
          (0x204000 + 0x1000 * n)) := by
    simp only [getPage, hfind, hk, hcur, hslot, if_true, Option.map_some]
  refine ⟨_, ⟨World.Step.getPage hget, by rw [hcur, h.directories]; exact List.mem_singleton_self _,
    fun _ => h.handed hn⟩, h.directories, h.number, h.current, h.paging, h.heap, fun i => ?_, ?_,
    fun j _ => ?_, h.bits⟩
  · simp only [State.clearTable, State.setTable, State.setDirectory_same]
    by_cases hi : i = 768 + n
    · subst hi
      rw [update_self, if_pos (by omega)]
      omega
    · rw [update_of_ne hi, h.tables]
      have hiff : (768 ≤ i ∧ i < 768 + n) ↔ (768 ≤ i ∧ i < 768 + (n + 1)) := by omega
      simp only [hiff]
  · simp only [State.clearTable, State.setTable, State.setDirectory_same]
    rw [update_of_ne (by omega)]
    exact h.first
  · simp only [State.clearTable]
    split
    · rfl
    · exact h.pages j (Nat.zero_le _)

/-- A page of the heap gets the next frame. -/
theorem Exhausting.frame (h : Exhausting w n m) (hm : m < 0x1000) :
    ∃ w', guarded (World.Step 0x200E00) (World.Granted 0x200E00) w
      (.allocFrame (0x204000 + 4 * m) false true) w' ∧ Exhausting w' n (m + 1) := by
  refine ⟨_, ⟨World.Step.allocFrame w _ false true, trivial⟩, ?_⟩
  have hempty := h.pages m le_rfl
  have hfree : busy w.state.frames m = false := by
    rw [h.bits m hm]
    simp
  have hfind : getFreeFrame w.state = some m := by
    refine freeFrameFrom_eq_some (by rw [h.number]; omega) hfree fun b hb => ?_
    rw [h.bits b (by omega)]
    exact decide_eq_true hb
  rw [Bitmap.allocFrame_eq (by rw [WholeWords, h.number]) fun _ => ⟨m, by rw [h.number]; exact hm, hfree⟩]
  simp only [allocFrame, hempty, ↓reduceIte, hfind]
  refine ⟨h.directories, h.number, h.current, h.paging, h.heap, h.tables, h.first, fun j hj => ?_,
    fun b hb => ?_⟩
  · exact (congrArg Page.frame (update_of_ne (by omega) _ _)).trans (h.pages j (by omega))
  · change busy (markBusy w.state.frames m) b = _
    rw [busy_markBusy, h.bits b hb, ← Bool.decide_or]
    exact decide_eq_decide.mpr (by omega)

/-- The bitmap is full: the next clear bit is the lowest one of the directory. -/
theorem Exhausting.overrun (h : Exhausting w n 0x1000) :
    ∃ w', guarded (World.Step 0x200E00) (World.Granted 0x200E00) w
      (.allocFrame (0x204000 + 4 * 0x1000) false true) w' ∧ w'.directories = [0x201000] ∧
      (w'.state.directories 0x201000).pageTables 0 = 0 ∧
      (w'.state.directories 0x201000).pageTablesPhysical 0 = 1 := by
  have hword : (Bitmap.objectWord ⟨0x200E00, w.directories⟩ w.state 0x201000) = 0 := by
    rw [h.directories]
    exact h.first
  have hclear : busy (Bitmap.word ⟨0x200E00, w.directories⟩ w.state) 0x1000 = false := by
    rw [busy, Bitmap.word, if_neg (by rw [h.number]; decide)]
    dsimp only
    rw [hword]
    simp
  have hfind : Bitmap.getFreeFrame ⟨0x200E00, w.directories⟩ w.state = some 0x1000 := by
    refine freeFrameFrom_eq_some (by rw [h.number]; decide) hclear fun b hb => ?_
    rw [Bitmap.busy_word (by rw [h.number]; omega), h.bits b hb]
    exact decide_eq_true hb
  have hset : Bitmap.set ⟨0x200E00, w.directories⟩ w.state 0x1000 =
      w.state.setDirectory 0x201000 ((w.state.directories 0x201000).setWord 0 1) := by
    rw [Bitmap.set, if_neg (by rw [h.number]; decide)]
    dsimp only
    rw [hword, h.directories]
    rfl
  refine ⟨_, ⟨World.Step.allocFrame w _ false true, trivial⟩, h.directories, ?_⟩
  simp only [Bitmap.allocFrame, h.pages 0x1000 le_rfl, ↓reduceIte, hfind, hset, State.setPage,
    State.setDirectory_same]
  rw [PageDirectory.setWord, if_pos (by decide)]
  exact ⟨(h.tables 0).trans (if_neg (by omega)), by simp⟩

/-- Frames are free, and the directory is empty. -/
def allFree : World where
  state := { blank with
    pageDirectory := 0x201000
    currentPageDirectory := 0x201000
    directories := fun _ => { PageDirectory.zero with physicalAddress := 0x201000 } }
  directories := [0x201000]

theorem exhausting_allFree : Exhausting allFree 0 0 := by
  refine ⟨rfl, by decide, rfl, rfl, rfl, fun i => ?_, rfl, fun _ _ => rfl, fun b _ => ?_⟩
  · rw [if_neg (by omega)]
    rfl
  · change (0#32).getLsbD (b % 32) = _
    simp

theorem exists_tables (n : ℕ) (hn : n ≤ 8) : ∃ w, Run (guarded (World.Step 0x200E00)
    (World.Granted 0x200E00)) allFree
      ((List.range n).map fun k => .getPage (0xC0000000 + 0x400000 * k) 0 (0x204000 + 0x1000 * k)) w ∧
    Exhausting w n 0 := by
  induction n with
  | zero => exact ⟨allFree, .nil _, exhausting_allFree⟩
  | succ n ih =>
    obtain ⟨w, hrun, h⟩ := ih (by omega)
    obtain ⟨w', hstep, h'⟩ := h.table (by omega)
    rw [List.range_succ, List.map_append]
    exact ⟨w', hrun.snoc hstep, h'⟩

theorem Exhausting.exists_frames (h : Exhausting w n 0) (m : ℕ) (hm : m ≤ 0x1000) :
    ∃ w', Run (guarded (World.Step 0x200E00) (World.Granted 0x200E00)) w
      ((List.range m).map fun k => .allocFrame (0x204000 + 4 * k) false true) w' ∧ Exhausting w' n m := by
  induction m with
  | zero => exact ⟨w, .nil _, h⟩
  | succ m ih =>
    obtain ⟨w₁, hrun, h₁⟩ := ih (by omega)
    obtain ⟨w', hstep, h'⟩ := h₁.frame (by omega)
    rw [List.range_succ, List.map_append]
    exact ⟨w', hrun.snoc hstep, h'⟩

/-- One frame more than there are makes a table present that the kernel does not have. -/
theorem walks_part : ¬ ∀ (address : ℕ) (w w' : World) (es : List Event), Booted w →
    w.state.frames = (fun _ => 0) →
    Run (guarded (World.Step address) (World.Granted address)) w es w' → EndTogether w' := by
  intro hall
  obtain ⟨w₁, hrun₁, h₁⟩ := exists_tables 5 (by decide)
  obtain ⟨w₂, hrun₂, h₂⟩ := h₁.exists_frames 0x1000 le_rfl
  obtain ⟨w₃, hstep, hdirs, htable, hphysical⟩ := h₂.overrun
  have hend := hall 0x200E00 allFree w₃ _
    ⟨by decide, rfl, rfl, rfl, rfl, by decide, by decide, by decide⟩ rfl
    ((hrun₁.append hrun₂).snoc hstep)
  have hslot := (hend 0x201000 (by rw [hdirs]; exact List.mem_singleton_self _) 0 (by decide)).1
  rw [Nat.zero_div, htable, hphysical] at hslot
  exact hslot.mpr (by decide) rfl

end Overrun

end ExperimentalKernel.Paging
