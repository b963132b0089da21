import ExperimentalKernel.BootIdentity
import ExperimentalKernel.FrameCycles

/-!
# What boot leaves of memory

The third loop of `initialisePaging` maps the pages of the heap, twice as many as there are
frames. When the bitmap is full the search goes on behind it, so the pages get the frames after
those of the identity mapping one by one, whether the machine has them or not. Afterwards none
of the machine's frames is free, and none ever becomes free again.
-/

namespace ExperimentalKernel.Paging
open ByteMemory Function LabelledRuns

/-- The first page of the heap. -/
def heapPage : ℕ := heapStart / 0x1000

/-- The words of the bitmap and those behind it that boot can come to. -/
def bootWords : ℕ := (memSize / 0x1000 + heapPages) / 32

/-- What lies between the bitmap and the directory is zero, and longer than the search goes. -/
structure Padded (b : Boot) : Prop where
  clear : ∀ i < bootWords, memSize / 0x1000 / 32 ≤ i → b.mmu.frames i = 0
  room : b.placementAddress + 4 * bootWords ≤ b.prepare.mmu.pageDirectory

/-- The first `n` frames are in use, and of the words behind none has changed. -/
structure HandedOut (b₀ b : Boot) (n : ℕ) : Prop where
  bits : ∀ f < 32 * bootWords, busy b.mmu.frames f = decide (f < n)
  words : ∀ i, bootWords ≤ i → b.mmu.frames i = b₀.mmu.frames i
  directory : b.mmu.pageDirectory = b₀.mmu.pageDirectory

section Frames

variable {b b' b₀ : Boot} {s : State} {n page : ℕ}

/-- The search finds the first frame that is free, in the bitmap or behind it. -/
theorem getFreeFrame_of_first (hn : n < searched s) (hfree : busy s.frames n = false)
    (hbelow : ∀ f < n, busy s.frames f = true) : getFreeFrame s = some n := by
  cases hfind : getFreeFrame s with
  | none =>
    have hbusy := (getFreeFrame_eq_none_iff s).mp hfind n hn
    exact absurd (hfree.symm.trans hbusy) Bool.false_ne_true
  | some f =>
    obtain ⟨hfree', hbelow'⟩ := getFreeFrame_some hfind
    rcases Nat.lt_trichotomy f n with hlt | rfl | hlt
    · exact absurd (hfree'.symm.trans (hbelow f hlt)) Bool.false_ne_true
    · rfl
    · exact absurd (hfree.symm.trans (hbelow' n hlt)) Bool.false_ne_true

theorem allocFrame_zero (hzero : s.pages page = Page.zero) (hfind : getFreeFrame s = some n) :
    (allocFrame s page false true).2 = { s with
      frames := markBusy s.frames n
      pages := update s.pages page (allocated Page.zero false true n) } := by
  simp only [allocFrame, hzero, hfind]
  rfl

theorem HandedOut.getFreeFrame (h : HandedOut b₀ b n) (hnum : b.mmu.frameNumber = memSize / 0x1000)
    (hn : n < 32 * bootWords) : getFreeFrame b.mmu = some n := by
  apply getFreeFrame_of_first
  · rw [searched, hnum]
    exact hn.trans (by decide)
  · rw [h.bits n hn]
    exact decide_eq_false (Nat.lt_irrefl n)
  · intro f hf
    rw [h.bits f (hf.trans hn)]
    exact decide_eq_true hf

theorem HandedOut.mark (h : HandedOut b₀ b n) (hn : n < 32 * bootWords)
    (hf : b'.mmu.frames = markBusy b.mmu.frames n)
    (hd : b'.mmu.pageDirectory = b.mmu.pageDirectory) : HandedOut b₀ b' (n + 1) where
  bits f hf' := by
    have hiff : f < n + 1 ↔ f < n ∨ f = n := Nat.lt_succ_iff_lt_or_eq
    rw [hf, busy_markBusy, h.bits f hf', ← Bool.decide_or]
    exact decide_eq_decide.mpr hiff.symm
  words i hi := by
    have hne : i ≠ n / 32 := by omega
    rw [hf, markBusy, update_of_ne hne]
    exact h.words i hi
  directory := hd.trans h.directory

end Frames

/-- Frames are as they were, and the directory of the kernel is where it was. -/
structure FramesKept (b b' : Boot) : Prop where
  frames : b'.mmu.frames = b.mmu.frames
  directory : b'.mmu.pageDirectory = b.mmu.pageDirectory

section Loops

variable {b b' b₀ b₁ : Boot} {a n page N k : ℕ}

theorem FramesKept.refl (b : Boot) : FramesKept b b := ⟨rfl, rfl⟩

theorem FramesKept.trans (h : FramesKept b b₁) (h' : FramesKept b₁ b') : FramesKept b b' :=
  ⟨h'.frames.trans h.frames, h'.directory.trans h.directory⟩

/-- Looking a page up takes no frame. -/
theorem Loading.getPage_kept {bound : ℕ} (h : Loading b bound) (hb : bound + tableRoom < 0x100000000)
    (he : b.getPage a = some (page, b₁)) : FramesKept b b₁ := by
  by_cases h0 : b.table (a / 0x1000 / 1024) = 0
  · obtain ⟨p, -, -, he'⟩ := h.getPage_made hb h0
    obtain ⟨-, rfl⟩ := Prod.mk.inj (Option.some.inj (he.symm.trans he'))
    exact ⟨rfl, rfl⟩
  · obtain ⟨-, rfl⟩ := Prod.mk.inj (Option.some.inj (he.symm.trans (h.getPage_found h0)))
    exact ⟨rfl, rfl⟩

theorem IdentityBelow.makeTables_kept (k : ℕ) {bound : ℕ} (h : IdentityBelow b n)
    (hle : b.placementAddress ≤ bound) (hb : bound + tableRoom * k < 0x100000000) (a : ℕ)
    (he : b.makeTables a k = some b') : FramesKept b b' := by
  induction k generalizing b bound a with
  | zero =>
    cases he
    exact .refl _
  | succ k ih =>
    rw [Nat.mul_succ] at hb
    have hroom : b.placementAddress + tableRoom < 0x100000000 := by omega
    obtain ⟨b₁, he₁, h₁, -⟩ := h.getPage hroom a
    obtain ⟨page, b₂, he₂, ht⟩ := h.loading.getPage hroom a
    obtain ⟨-, rfl⟩ := Prod.mk.inj (Option.some.inj (he₁.symm.trans he₂))
    have hle₁ : b₁.placementAddress ≤ bound + tableRoom :=
      ht.loading.bounded.trans (Nat.add_le_add_right hle _)
    rw [Boot.makeTables, he₁, Option.bind_some] at he
    exact (h.loading.getPage_kept hroom he₁).trans (ih h₁ hle₁ (by omega) _ he)

/-- A turn of the second loop marks the frame of its page. -/
theorem IdentityBelow.mapPage_marks (h : IdentityBelow b n) (hn : n < b.mmu.frameNumber)
    (hb : b.placementAddress + tableRoom < 0x100000000) (he : b.mapPage (pageSize * n) = some b') :
    b'.mmu.frames = markBusy b.mmu.frames n ∧ b'.mmu.pageDirectory = b.mmu.pageDirectory := by
  have hpage : pageSize * n / 0x1000 = n := Nat.mul_div_cancel_left n (by decide)
  obtain ⟨b₁, he₁, h₁, hfound⟩ := h.getPage hb (pageSize * n)
  have hkept := h.loading.getPage_kept hb he₁
  have hnum : b₁.mmu.frameNumber = b.mmu.frameNumber := h₁.loading.number.trans h.loading.number.symm
  rw [hpage] at he₁ hfound
  rw [Boot.mapPage, he₁] at he
  cases he
  have hzero : b₁.mmu.pages (entryAddress b₁.mmu b₁.mmu.pageDirectory n) = Page.zero :=
    (h₁.entries n hfound).trans (if_neg (Nat.lt_irrefl n))
  have halloc := allocFrame_zero hzero (h₁.getFreeFrame_eq (hnum ▸ hn))
  rw [← hkept.frames]
  exact ⟨congrArg State.frames halloc, (congrArg State.pageDirectory halloc).trans hkept.directory⟩

/-- The second loop stays inside the bitmap, and tables stay. -/
theorem IdentityBelow.mapPlaced_kept (k : ℕ) (h : IdentityBelow b n)
    (hreach : Reached b₀ (pageSize * n) b) (hbelow : PlacedBelow b₀)
    (he : b.mapPlaced (pageSize * n) k = some b') :
    (∀ i, memSize / 0x1000 / 32 ≤ i → b'.mmu.frames i = b.mmu.frames i) ∧
      b'.mmu.pageDirectory = b.mmu.pageDirectory ∧ ∀ i, b.table i ≠ 0 → b'.table i ≠ 0 := by
  induction k generalizing b n with
  | zero => cases he
  | succ k ih =>
    have hlow := h.lt_memSize hreach hbelow
    have hnum := h.loading.number
    have hsum : add32 b.placementAddress pageSize = b.placementAddress + pageSize :=
      add32_eq (hlow.trans (by decide))
    rw [Boot.mapPlaced] at he
    split at he
    · next hlt =>
      have hn : n < memSize / 0x1000 := by
        rw [hsum] at hlt
        simp only [memSize, pageSize] at hlt hlow ⊢
        omega
      have hroom : b.placementAddress + tableRoom < 0x100000000 := by
        simp only [memSize, pageSize] at hlow
        simp only [tableRoom]
        omega
      obtain ⟨b₁, hmap, h₁⟩ := h.mapPage (hnum ▸ hn) hroom
      obtain ⟨hmarks, hdirectory⟩ := h.mapPage_marks (hnum ▸ hn) hroom hmap
      obtain ⟨b₂, hmap₂, hturn⟩ := h.loading.mapPage hroom (pageSize * n)
      obtain rfl := Option.some.inj (hmap₂.symm.trans hmap)
      rw [hmap, Option.bind_some] at he
      obtain ⟨hwords, hdirectory', htables⟩ := ih h₁ (hreach.turn hlt hmap) he
      refine ⟨fun i hi => ?_, hdirectory'.trans hdirectory, fun i hi => htables i (hturn.kept i hi)⟩
      have hne : i ≠ n / 32 := by
        simp only [memSize] at hi hn
        omega
      rw [hwords i hi, hmarks, markBusy, update_of_ne hne]
    · cases he
      exact ⟨fun _ _ => rfl, rfl, fun _ hi => hi⟩

end Loops

/-- Before turn `k` of the third loop: behind the identity mapping of `N` pages the first `k` pages
of the heap have the next frames. -/
structure HeapMapped (b₀ b : Boot) (N k : ℕ) : Prop where
  loading : Loading b b.placementAddress
  placed : b.placementAddress + pageSize ≤ pageSize * N
  apart : ∀ i j, i ≠ j → b.table i ≠ 0 → b.table j ≠ 0 → Apart (b.table i) (b.table j)
  made : ∀ n < N, b.table (n / 1024) ≠ 0
  tables : ∀ j < heapPages, b.table ((heapPage + j) / 1024) ≠ 0
  identity : ∀ n < N, b.entry n = allocated Page.zero false true n
  heap : ∀ j < heapPages, b.entry (heapPage + j) =
    if j < k then allocated Page.zero false true (N + j) else Page.zero
  handedOut : HandedOut b₀ b (N + k)

section Heap

variable {b b' b₀ : Boot} {n m N k : ℕ}

theorem entryAddress_injective
    (hapart : ∀ i j, i ≠ j → b.table i ≠ 0 → b.table j ≠ 0 → Apart (b.table i) (b.table j))
    (hne : n ≠ m) (hn : b.table (n / 1024) ≠ 0) (hm : b.table (m / 1024) ≠ 0) :
    entryAddress b.mmu b.mmu.pageDirectory n ≠ entryAddress b.mmu b.mmu.pageDirectory m := by
  by_cases hi : n / 1024 = m / 1024
  · rw [entryAddress, entryAddress, hi]
    omega
  · have hout := (hapart _ _ hi hn hm).entry_outside m
    change b.table (n / 1024) + 4 * (n % 1024) ≠ b.table (m / 1024) + 4 * (m % 1024)
    unfold pageSize at hout
    omega

/-- Marking a table as present changes no entry. -/
theorem HeapMapped.found (h : HeapMapped b₀ b N k) (i : ℕ) :
    HeapMapped b₀ ⟨b.mmu.setDirectory b.mmu.pageDirectory
      ((b.mmu.directories b.mmu.pageDirectory).orPresent i), b.placementAddress⟩ N k := by
  have htable (x : ℕ) : Boot.table ⟨b.mmu.setDirectory b.mmu.pageDirectory
      ((b.mmu.directories b.mmu.pageDirectory).orPresent i), b.placementAddress⟩ x = b.table x :=
    congrFun (orPresent_tables b.mmu b.mmu.pageDirectory i b.mmu.pageDirectory) x
  have hentry (x : ℕ) : Boot.entry ⟨b.mmu.setDirectory b.mmu.pageDirectory
      ((b.mmu.directories b.mmu.pageDirectory).orPresent i), b.placementAddress⟩ x = b.entry x :=
    congrArg b.mmu.pages (congrArg (· + 4 * (x % 1024)) (htable (x / 1024)))
  have hl := h.loading
  refine ⟨⟨hl.heap, hl.directory, hl.current, hl.low, hl.number, hl.positive, hl.bounded⟩, h.placed, ?_,
    ?_, ?_, ?_, ?_, ⟨h.handedOut.bits, h.handedOut.words, h.handedOut.directory⟩⟩
  · simpa only [htable] using h.apart
  · simpa only [htable] using h.made
  · simpa only [htable] using h.tables
  · simpa only [hentry] using h.identity
  · simpa only [hentry] using h.heap

/-- A page of the heap gets the next frame. -/
theorem HeapMapped.allocFrame (h : HeapMapped b₀ b N k) (hN : N ≤ memSize / 0x1000)
    (hk : k < heapPages) :
    HeapMapped b₀ { b with mmu := (allocFrame b.mmu
      (entryAddress b.mmu b.mmu.pageDirectory (heapPage + k)) false true).2 } N (k + 1) := by
  have hzero : b.mmu.pages (entryAddress b.mmu b.mmu.pageDirectory (heapPage + k)) = Page.zero :=
    (h.heap k hk).trans (if_neg (Nat.lt_irrefl k))
  have hbound : N + k < 32 * bootWords := by
    have hwords : 32 * bootWords = memSize / 0x1000 + heapPages := by decide
    omega
  have hl := h.loading
  have hlow : memSize / 0x1000 < heapPage := by decide
  have hother {n : ℕ} (hn : b.table (n / 1024) ≠ 0) (hne : n ≠ heapPage + k) :=
    entryAddress_injective h.apart hne hn (h.tables k hk)
  rw [allocFrame_zero hzero (h.handedOut.getFreeFrame hl.number hbound)]
  refine ⟨⟨hl.heap, hl.directory, hl.current, hl.low, hl.number, hl.positive, hl.bounded⟩, h.placed, h.apart,
    h.made, h.tables, fun n hn => ?_, fun j hj => ?_, h.handedOut.mark hbound rfl rfl⟩
  · rw [← h.identity n hn]
    exact update_of_ne (hother (h.made n hn) (by omega)) _ _
  · rcases eq_or_ne j k with rfl | hne
    · rw [if_pos (Nat.lt_succ_self j)]
      exact update_self _ _ _
    · have hiff : j < k + 1 ↔ j < k := by omega
      rw [if_congr hiff rfl rfl, ← h.heap j hj]
      exact update_of_ne (hother (h.tables j hj) (by omega)) _ _

theorem HeapMapped.mapPage (h : HeapMapped b₀ b N k) (hN : N ≤ memSize / 0x1000) (hk : k < heapPages) :
    ∃ b', b.mapPage (heapStart + pageSize * k) = some b' ∧ HeapMapped b₀ b' N (k + 1) := by
  have hpage : (heapStart + pageSize * k) / 0x1000 = heapPage + k := by
    simp only [heapStart, pageSize, heapPage]
    omega
  have hfound : b.table ((heapStart + pageSize * k) / 0x1000 / 1024) ≠ 0 := by
    rw [hpage]
    exact h.tables k hk
  have hget := h.loading.getPage_found hfound
  rw [hpage] at hget
  refine ⟨_, by rw [Boot.mapPage, hget]; rfl, ?_⟩
  have hsame : entryAddress b.mmu b.mmu.pageDirectory (heapPage + k) =
      entryAddress (b.mmu.setDirectory b.mmu.pageDirectory
        ((b.mmu.directories b.mmu.pageDirectory).orPresent ((heapPage + k) / 1024)))
        b.mmu.pageDirectory (heapPage + k) :=
    congrArg (· + 4 * ((heapPage + k) % 1024))
      (congrFun (orPresent_tables b.mmu b.mmu.pageDirectory _ b.mmu.pageDirectory) _).symm
  dsimp only
  rw [hsame]
  exact (h.found ((heapPage + k) / 1024)).allocFrame hN hk

/-- The third loop ends with all pages of the heap mapped. -/
theorem HeapMapped.mapPages (r : ℕ) (h : HeapMapped b₀ b N k) (hN : N ≤ memSize / 0x1000)
    (hk : k + r = heapPages) :
    ∃ b', b.mapPages (heapStart + pageSize * k) r = some b' ∧ HeapMapped b₀ b' N heapPages := by
  induction r generalizing b k with
  | zero =>
    rw [Nat.add_zero] at hk
    exact ⟨b, rfl, hk ▸ h⟩
  | succ r ih =>
    obtain ⟨b₁, hmap, h₁⟩ := h.mapPage hN (by omega)
    obtain ⟨b', hrest, h'⟩ := ih h₁ (by omega)
    refine ⟨b', ?_, h'⟩
    rw [Boot.mapPages, hmap, Option.bind_some]
    rwa [Nat.mul_succ, ← Nat.add_assoc] at hrest

/-- What the second loop leaves is what the third one begins with. -/
theorem IdentityBelow.heapMapped (h : IdentityBelow b N) (hN : N ≤ memSize / 0x1000)
    (hplaced : b.placementAddress + pageSize ≤ pageSize * N)
    (htables : ∀ j < heapPages, b.table ((heapPage + j) / 1024) ≠ 0) (hh : HandedOut b₀ b N) :
    HeapMapped b₀ b N 0 where
  loading := h.loading
  placed := hplaced
  apart := h.apart
  made := h.made
  tables := htables
  identity n hn := (h.entries n (h.made n hn)).trans (if_pos hn)
  heap j hj := by
    have hlow : memSize / 0x1000 < heapPage := by decide
    rw [if_neg (Nat.not_lt_zero j), h.entries _ (htables j hj), identityEntry, if_neg (by omega)]
  handedOut := hh

end Heap

section Clone

variable {s : State} {pDir ptr : ℕ}

/-- A clone of the kernel directory has its tables, and nothing else changes. -/
structure SharesTables (s s' : State) (d pDir : ℕ) : Prop where
  pages : s'.pages = s.pages
  frames : s'.frames = s.frames
  number : s'.frameNumber = s.frameNumber
  directory : s'.pageDirectory = s.pageDirectory
  tables : ∀ i < 1024, (s'.directories pDir).pageTables i = (s.directories d).pageTables i

theorem cloneSlots_shares (k : ℕ) (h : pDir ≠ s.pageDirectory) (i : ℕ) (ptrs : List ℕ)
    (hdone : ∀ j < i, (s.directories pDir).pageTables j = (s.directories s.pageDirectory).pageTables j)
    (hrest : ∀ j, i ≤ j → (s.directories pDir).pageTables j = 0) (hk : i + k = 1024) :
    ∃ s', cloneSlots s s.pageDirectory pDir i ptrs k = some (s', ptrs) ∧
      SharesTables s s' s.pageDirectory pDir := by
  induction k generalizing s i with
  | zero =>
    rw [Nat.add_zero] at hk
    exact ⟨s, rfl, rfl, rfl, rfl, rfl, hk ▸ hdone⟩
  | succ k ih =>
    have hcount : i + 1 + k = 1024 := by omega
    by_cases h0 : (s.directories s.pageDirectory).pageTables i = 0
    · have hdone' : ∀ j < i + 1, (s.directories pDir).pageTables j =
          (s.directories s.pageDirectory).pageTables j := by
        intro j hj
        rcases Nat.lt_succ_iff_lt_or_eq.mp hj with hj | rfl
        · exact hdone j hj
        · rw [h0, hrest j le_rfl]
      obtain ⟨s', he, hs'⟩ := ih h (i + 1) hdone' (fun j hj => hrest j (by omega)) hcount
      exact ⟨s', by rw [cloneSlots_succ, cloneSlot_null h0]; exact he, hs'⟩
    · have hslot : cloneSlot s s.pageDirectory pDir i ptrs = some _ := cloneSlot_shared ⟨h0, rfl⟩ ptrs
      rw [cloneSlots_succ, hslot, Option.bind_some]
      generalize hs₁ : s.setDirectory pDir _ = s₁
      have hpd : s₁.pageDirectory = s.pageDirectory := by rw [← hs₁]; rfl
      have hkernel : s₁.directories s.pageDirectory = s.directories s.pageDirectory := by
        rw [← hs₁, State.setDirectory_of_ne _ _ h.symm]
      have hclone : (s₁.directories pDir).pageTables = update (s.directories pDir).pageTables i
          ((s.directories s.pageDirectory).pageTables i) := by
        rw [← hs₁, State.setDirectory_same]
      have hdone' : ∀ j < i + 1, (s₁.directories pDir).pageTables j =
          (s₁.directories s₁.pageDirectory).pageTables j := by
        intro j hj
        rw [hpd, hkernel, hclone]
        rcases Nat.lt_succ_iff_lt_or_eq.mp hj with hj | rfl
        · rw [update_of_ne (Nat.ne_of_lt hj)]
          exact hdone j hj
        · exact update_self _ _ _
      have hrest' : ∀ j, i + 1 ≤ j → (s₁.directories pDir).pageTables j = 0 := by
        intro j hj
        rw [hclone, update_of_ne (Nat.ne_of_gt hj)]
        exact hrest j (Nat.le_of_succ_le hj)
      obtain ⟨s', he, hs'⟩ := ih (hpd ▸ h) (i + 1) hdone' hrest' hcount
      rw [hpd] at he hs'
      have hsame : s₁.pages = s.pages ∧ s₁.frames = s.frames ∧ s₁.frameNumber = s.frameNumber := by
        rw [← hs₁]
        exact ⟨rfl, rfl, rfl⟩
      exact ⟨s', he, hs'.pages.trans hsame.1, hs'.frames.trans hsame.2.1, hs'.number.trans hsame.2.2,
        hs'.directory.trans hpd, fun j hj => (hs'.tables j hj).trans (by rw [hkernel])⟩

theorem clonePageDirectory_shares (hheap : s.heapEnabled = true) (hd : s.pageDirectory ≠ 0)
    (hc : s.currentPageDirectory = s.pageDirectory)
    (htable : (s.directories s.pageDirectory).pageTables (ptr / 0x1000 / 1024) ≠ 0)
    (hne : ptr ≠ s.pageDirectory) :
    ∃ s', clonePageDirectory s s.pageDirectory [ptr] = some s' ∧
      SharesTables s s' s.pageDirectory ptr := by
  have hmapped : Mapped s ptr := fun _ => hc.symm ▸ htable
  have hor : orCurrent s s.pageDirectory = s.pageDirectory := orCurrent_of_ne hd
  rw [clonePageDirectory_eq (kmalloc_enabled hheap hmapped), hor]
  generalize hs₁ : State.setDirectory _ ptr _ = s₁
  have hpd : s₁.pageDirectory = s.pageDirectory := by rw [← hs₁]; rfl
  have hzero : ∀ j, 0 ≤ j → (s₁.directories ptr).pageTables j = 0 := by
    intro j _
    rw [← hs₁, State.setDirectory_same]
    rfl
  have hkernel : (s₁.directories s.pageDirectory).pageTables =
      (s.directories s.pageDirectory).pageTables := by
    rw [← hs₁, State.setDirectory_of_ne _ _ hne.symm]
    exact orPresent_tables s s.currentPageDirectory (ptr / 0x1000 / 1024) s.pageDirectory
  obtain ⟨s', he, hs'⟩ := cloneSlots_shares 1024 (hpd ▸ hne) 0 []
    (fun j hj => absurd hj (Nat.not_lt_zero j)) hzero rfl
  rw [hpd] at he hs'
  have hsame : s₁.pages = s.pages ∧ s₁.frames = s.frames ∧ s₁.frameNumber = s.frameNumber := by
    rw [← hs₁]
    exact ⟨rfl, rfl, rfl⟩
  refine ⟨s', by rw [he, Option.map_some], hs'.pages.trans hsame.1, hs'.frames.trans hsame.2.1,
    hs'.number.trans hsame.2.2, hs'.directory.trans hpd, fun j hj => ?_⟩
  rw [hs'.tables j hj, hkernel]

end Clone

/-- The first `N` pages and all pages of the heap are mapped, to frames one after another, which
takes every frame of the machine and no word of the directory. -/
structure BootLeaves (b b' : Boot) (N : ℕ) : Prop where
  number : b'.mmu.frameNumber = memSize / 0x1000
  low : N ≤ b'.mmu.frameNumber
  placed : b'.placementAddress + pageSize ≤ pageSize * N
  table : ∀ n, n < N ∨ HeapPage n →
    (b'.mmu.directories b'.mmu.currentPageDirectory).pageTables (n / 1024) ≠ 0
  identity : ∀ n < N,
    entry b'.mmu b'.mmu.currentPageDirectory n = allocated Page.zero false true n
  heap : ∀ j < heapPages,
    entry b'.mmu b'.mmu.currentPageDirectory (heapPage + j) = allocated Page.zero false true (N + j)
  backed : ∀ j < heapPages,
    (entry b'.mmu b'.mmu.currentPageDirectory (heapPage + j)).frame.toNat < b'.mmu.frameNumber ↔
      N + j < b'.mmu.frameNumber
  full : ∀ f < b'.mmu.frameNumber, busy b'.mmu.frames f = true
  words : ∀ i, b'.mmu.frames i ≠ b.mmu.frames i →
    b.placementAddress + 4 * i + 4 ≤ b'.mmu.pageDirectory

section Boot

variable {b b' : Boot} {ptr : ℕ}

theorem Padded.handedOut (h : Padded b) : HandedOut b.prepare b.prepare 0 where
  bits f hf := by
    have hword : b.prepare.mmu.frames (f / 32) = 0 := by
      by_cases hi : f / 32 < memSize / 0x1000 / 32
      · exact if_pos hi
      · exact (if_neg hi).trans (h.clear _ (by omega) (Nat.not_lt.mp hi))
    rw [busy, hword, decide_eq_false (Nat.not_lt_zero f)]
    simp
  words _ _ := rfl
  directory := rfl

/-- The three loops. -/
theorem Padded.mapped (h : Padded b) (hheap : b.mmu.heapEnabled = false)
    (hp : b.placementAddress ≤ lowEnd) :
    ∃ b₁ b₂ b₃ N, b.prepare.makeTables heapStart heapPages = some b₁ ∧
      b₁.mapPlaced 0 0x100000 = some b₂ ∧ b₂.mapPages heapStart heapPages = some b₃ ∧
      HeapMapped b.prepare b₃ N heapPages ∧ N ≤ memSize / 0x1000 := by
  have hconsts : lowEnd = 0xFE0000 ∧ memSize = 0x1000000 ∧ heapPages = 8192 := ⟨rfl, rfl, rfl⟩
  have hroom : tableRoom * heapPages = 0x4000000 := rfl
  have hcount : tableRoom * ((0 + heapPages + 1023) / 1024) + tableRoom = 0x12000 := rfl
  have hp' : b.placementAddress < memSize := by omega
  have hloading := prepare_loading hheap hp'
  have hempty : Filling b.prepare 768 (b.placementAddress + 0x5000) 0 :=
    ⟨hloading, fun i hi => absurd hi (Nat.not_lt_zero _)⟩
  obtain ⟨b₁, h₁, hid⟩ := (prepare_identityBelow hheap hp').makeTables heapPages hloading.bounded
    (by omega) heapStart
  have hkept := (prepare_identityBelow hheap hp').makeTables_kept heapPages hloading.bounded
    (by omega) heapStart h₁
  have hfilled := hempty.makeTables heapPages (by omega) h₁
  have hnum := hid.loading.number
  have hk : b₁.mmu.frameNumber < 0 + 0x100000 := by
    rw [hnum]
    decide
  have hbelow := placedBelow_of_le hheap hp h₁
  obtain ⟨b₂, N, h₂, hid₂, hN, hplaced⟩ := hid.mapPlaced 0x100000 Reached.start hbelow (Nat.zero_le _) hk
  obtain ⟨hwords, hdirectory, htables⟩ := hid.mapPlaced_kept 0x100000 Reached.start hbelow h₂
  have hnum₂ := hid₂.loading.number
  rw [hnum₂] at hN
  have hh : HandedOut b.prepare b₂ N := by
    refine ⟨fun f hf => ?_, fun i hi => ?_, hdirectory.trans hkept.directory⟩
    · by_cases hlt : f < memSize / 0x1000
      · exact hid₂.bits f (hnum₂ ▸ hlt)
      · have hold := h.handedOut.bits f hf
        rw [busy, ← hkept.frames, ← hwords (f / 32) (by omega)] at hold
        exact hold.trans (decide_eq_decide.mpr (by omega))
    · rw [hwords i (le_trans (by decide) hi), hkept.frames]
  have hmade : ∀ j < heapPages, b₂.table ((heapPage + j) / 1024) ≠ 0 := by
    intro j hj
    have hslot : (heapPage + j) / 1024 = 768 + j / 1024 := by
      have hpage : heapPage = 768 * 1024 := by decide
      omega
    rw [hslot]
    exact htables _ (hfilled.tables (j / 1024) (by omega))
  obtain ⟨b₃, h₃, hmapped⟩ :=
    (hid₂.heapMapped hN hplaced hmade hh).mapPages heapPages hN (Nat.zero_add _)
  exact ⟨b₁, b₂, b₃, N, h₁, h₂, h₃, hmapped, hN⟩

theorem Padded.leaves (hpad : Padded b) (hheap : b.mmu.heapEnabled = false)
    (hp : b.placementAddress ≤ lowEnd) (hptr : HeapPage (ptr / 0x1000)) :
    ∃ b' N, initialisePaging b ptr = some b' ∧ BootLeaves b b' N := by
  obtain ⟨b₁, b₂, b₃, N, h₁, h₂, h₃, h, hN⟩ := hpad.mapped hheap hp
  have hl := h.loading
  have hfirst : heapPage = 768 * 1024 ∧ heapPages = 8192 ∧ memSize / 0x1000 = 4096 :=
    ⟨by decide, by decide, by decide⟩
  have hpage {n : ℕ} (hn : HeapPage n) : n = heapPage + (n - heapPage) ∧ n - heapPage < heapPages := by
    obtain ⟨hge, hlt⟩ := hn
    have hstart : heapStart / 0x1000 = heapPage := rfl
    omega
  have htable : ∀ n, n < N ∨ HeapPage n → b₃.table (n / 1024) ≠ 0 := by
    rintro n (hn | hn)
    · exact h.made n hn
    · obtain ⟨he, hlt⟩ := hpage hn
      rw [he]
      exact h.tables _ hlt
  have hne : ptr ≠ b₃.mmu.pageDirectory := by
    obtain ⟨hge, -⟩ := hptr
    have hlow := hl.low
    simp only [heapStart] at hge hlow
    omega
  obtain ⟨s', hclone, hs⟩ := clonePageDirectory_shares
    (s := { switchPaging b₃.mmu b₃.mmu.pageDirectory with heapEnabled := true }) rfl hl.directory rfl
    (htable _ (.inr hptr)) hne
  have hentry : ∀ n < 1024 * 1024, entry (switchPaging s' ptr) ptr n = b₃.entry n := by
    intro n hn
    have hslot := hs.tables (n / 1024) (by omega)
    change s'.pages ((s'.directories ptr).pageTables (n / 1024) + 4 * (n % 1024)) = _
    rw [hslot, hs.pages]
    rfl
  have hheapEntry : ∀ j < heapPages, entry (switchPaging s' ptr) ptr (heapPage + j) =
      allocated Page.zero false true (N + j) := by
    intro j hj
    rw [hentry _ (by omega), h.heap j hj, if_pos hj]
  have hnum : s'.frameNumber = 4096 := hs.number.trans hl.number
  refine ⟨{ b₃ with mmu := switchPaging s' ptr }, N, ?_, ⟨hnum, ?_, h.placed, fun n hn => ?_,
    fun n hn => ?_, hheapEntry, fun j hj => ?_, fun f hf => ?_, fun i hi => ?_⟩⟩
  · rw [initialisePaging, h₁, Option.bind_some, h₂, Option.bind_some, h₃, Option.bind_some]
    simp only [hclone]
    rfl
  · exact (hN.trans hfirst.2.2.le).trans hnum.ge
  · refine (hs.tables (n / 1024) ?_).trans_ne (htable n hn)
    rcases hn with hn | hn
    · omega
    · obtain ⟨he, hlt⟩ := hpage hn
      omega
  · exact (hentry n (by omega)).trans (h.identity n hn)
  · have hframe : (entry (switchPaging s' ptr) ptr (heapPage + j)).frame.toNat = N + j := by
      rw [hheapEntry j hj]
      exact Nat.mod_eq_of_lt (by omega)
    exact iff_of_eq (congrArg (· < s'.frameNumber) hframe)
  · have hwords : 32 * bootWords = 12288 := by decide
    have hf' : f < 4096 := hf.trans_le hnum.le
    change busy s'.frames f = true
    rw [hs.frames]
    exact (h.handedOut.bits f (by omega)).trans (decide_eq_true (by omega))
  · change s'.frames i ≠ _ at hi
    rw [hs.frames] at hi
    have hlt : i < bootWords := by
      by_contra hge
      have hsame : b.prepare.mmu.frames i = b.mmu.frames i :=
        if_neg (Nat.not_lt.mpr (le_trans (by decide) (Nat.not_lt.mp hge)))
      exact hi ((h.handedOut.words i (Nat.not_lt.mp hge)).trans hsame)
    have hroom := hpad.room
    change _ ≤ s'.pageDirectory
    rw [hs.directory]
    change _ ≤ b₃.mmu.pageDirectory
    rw [h.handedOut.directory]
    omega

end Boot

/-- What the kernel calls of `PagingManagement`. -/
inductive Use where
  | allocFrame (page : ℕ) (isKernel isWriteable : Bool)
  | freeFrame (page : ℕ)
  | getPage (a : ℕ) (makePageTable : Bool) (directory ptr : ℕ)
  | clonePageTable (src pTbl : ℕ)
  | clonePageDirectory (src : ℕ) (ptrs : List ℕ)
  | switchPaging (directory : ℕ)

inductive Used : State → Use → State → Prop
  | allocFrame (s : State) (page : ℕ) (isKernel isWriteable : Bool) :
      Used s (.allocFrame page isKernel isWriteable) (allocFrame s page isKernel isWriteable).2
  | freeFrame (s : State) (page : ℕ) : Used s (.freeFrame page) (freeFrame s page)
  | getPage {s s' : State} {a directory ptr page : ℕ} {makePageTable : Bool}
      (h : getPage s a makePageTable directory ptr = some (page, s')) :
      Used s (.getPage a makePageTable directory ptr) s'
  | clonePageTable (s : State) (src pTbl : ℕ) :
      Used s (.clonePageTable src pTbl) (clonePageTable s src pTbl)
  | clonePageDirectory {s s' : State} {src : ℕ} {ptrs : List ℕ}
      (h : clonePageDirectory s src ptrs = some s') : Used s (.clonePageDirectory src ptrs) s'
  | switchPaging (s : State) (directory : ℕ) :
      Used s (.switchPaging directory) (switchPaging s directory)

/-- All frames are in use, and an entry that has one of them had it in `s₀`. A word that has
changed has only set bits before it. -/
structure NoneGained (s₀ s : State) : Prop where
  number : s.frameNumber = s₀.frameNumber
  directory : s.pageDirectory = s₀.pageDirectory
  wide : searched s ≤ 2 ^ 20
  busy : ∀ f < s.frameNumber, busy s.frames f = true
  held : ∀ p, (s.pages p).frame ≠ 0 → (s.pages p).frame.toNat < s.frameNumber →
    (s.pages p).frame = (s₀.pages p).frame
  filled : ∀ i, s.frames i ≠ s₀.frames i → ∀ f < 32 * i, Paging.busy s.frames f = true

section Gone

variable {s₀ s s' : State} {page src pTbl pDir i k ptr : ℕ}

theorem NoneGained.refl (hwide : searched s ≤ 2 ^ 20)
    (hbusy : ∀ f < s.frameNumber, Paging.busy s.frames f = true) : NoneGained s s :=
  ⟨rfl, rfl, hwide, hbusy, fun _ _ _ => rfl, fun _ hi => absurd rfl hi⟩

/-- Entries that keep their frame or lose it. -/
theorem NoneGained.of_sub (h : NoneGained s₀ s) (hn : s'.frameNumber = s.frameNumber)
    (hd : s'.pageDirectory = s.pageDirectory) (hf : s'.frames = s.frames)
    (hp : ∀ p, (s'.pages p).frame ≠ 0 → (s'.pages p).frame = (s.pages p).frame) : NoneGained s₀ s' where
  number := hn.trans h.number
  directory := hd.trans h.directory
  wide := by
    rw [searched, hn]
    exact h.wide
  busy := by
    rw [hn, hf]
    exact h.busy
  held p h0 hlt := by
    have he := hp p h0
    rw [he] at h0 hlt ⊢
    exact h.held p h0 (hn ▸ hlt)
  filled := by
    rw [hf]
    exact h.filled

theorem NoneGained.allocFrame (h : NoneGained s₀ s) (page : ℕ) (isKernel isWriteable : Bool) :
    NoneGained s₀ (allocFrame s page isKernel isWriteable).2 := by
  by_cases h0 : (s.pages page).frame = 0
  · cases hfind : getFreeFrame s with
    | none =>
      simp only [Paging.allocFrame, h0, ↓reduceIte, hfind]
      exact h
    | some index =>
      -- The frame lies behind the bitmap.
      obtain ⟨hlt, hfree, -⟩ := freeFrameFrom_some hfind
      have hbelow := (getFreeFrame_some hfind).2
      have hge : s.frameNumber ≤ index := by
        by_contra hlow
        exact absurd (hfree.symm.trans (h.busy index (Nat.not_le.mp hlow))) Bool.false_ne_true
      have hnat : (BitVec.ofNat 20 index).toNat = index := by
        have hwide := h.wide
        unfold searched at hwide
        exact Nat.mod_eq_of_lt (by omega)
      simp only [Paging.allocFrame, h0, ↓reduceIte, hfind]
      refine ⟨h.number, h.directory, h.wide, fun f hf => ?_, fun p hp hlt => ?_, fun i hi f hf => ?_⟩
      · change Paging.busy (markBusy s.frames index) f = true
        rw [busy_markBusy, h.busy f hf, Bool.true_or]
      · rcases eq_or_ne p page with rfl | hne
        · simp only [State.setPage, update_self, hnat] at hlt
          exact absurd hlt (Nat.not_lt.mpr hge)
        · simp only [State.setPage, update_of_ne hne] at hp hlt ⊢
          exact h.held p hp hlt
      · change Paging.busy (markBusy s.frames index) f = true
        rw [busy_markBusy, Bool.or_eq_true]
        by_cases hword : i = index / 32
        · exact .inl (hbelow f (by omega))
        · refine .inl (h.filled i ?_ f hf)
          change markBusy s.frames index i ≠ s₀.frames i at hi
          rwa [markBusy, update_of_ne hword] at hi
  · rw [allocFrame_of_ne h0]
    exact h

theorem NoneGained.freeFrame (h : NoneGained s₀ s) (page : ℕ) : NoneGained s₀ (freeFrame s page) := by
  simp only [Paging.freeFrame]
  split
  · refine h.of_sub rfl rfl rfl fun p hp => ?_
    rcases eq_or_ne p page with rfl | hne
    · simp only [State.setPage, update_self] at hp
      exact absurd rfl hp
    · simp only [State.setPage, update_of_ne hne]
  · exact h

theorem NoneGained.setDirectory (h : NoneGained s₀ s) (d : ℕ) (e : PageDirectory) :
    NoneGained s₀ (s.setDirectory d e) :=
  h.of_sub rfl rfl rfl fun _ _ => rfl

theorem NoneGained.clearTable (h : NoneGained s₀ s) (table : ℕ) : NoneGained s₀ (s.clearTable table) := by
  refine h.of_sub rfl rfl rfl fun p hp => ?_
  simp only [State.clearTable] at hp ⊢
  split
  · next hin =>
    rw [if_pos hin] at hp
    exact absurd rfl hp
  · rfl

/-- The copy keeps the frame that it was given. -/
theorem NoneGained.cloneEntry (h : NoneGained s₀ s) (src pTbl i : ℕ) :
    NoneGained s₀ (cloneEntry s src pTbl i) := by
  unfold Paging.cloneEntry cloneEntryWith allocUser
  split
  · exact h
  · refine (h.allocFrame (pTbl + 4 * i) false true).of_sub rfl rfl rfl fun p _ => ?_
    rcases eq_or_ne p (pTbl + 4 * i) with rfl | hne
    · simp only [State.setPage, update_self]
    · simp only [State.setPage, update_of_ne hne]

theorem NoneGained.cloneEntries (k : ℕ) (h : NoneGained s₀ s) (src pTbl i : ℕ) :
    NoneGained s₀ (cloneEntries s src pTbl i k) := by
  induction k generalizing s i with
  | zero => exact h
  | succ k ih => exact ih (h.cloneEntry src pTbl i) (i + 1)

theorem NoneGained.clonePageTable (h : NoneGained s₀ s) (src pTbl : ℕ) :
    NoneGained s₀ (clonePageTable s src pTbl) :=
  (h.clearTable pTbl).cloneEntries 1024 src pTbl 0

theorem NoneGained.findPage (h : NoneGained s₀ s) {a directory : ℕ}
    (he : findPage s a directory = some (page, s')) : NoneGained s₀ s' := by
  simp only [Paging.findPage] at he
  split at he
  · cases he
    exact h.setDirectory _ _
  · cases he

theorem NoneGained.kmalloc (h : NoneGained s₀ s) {phys : ℕ} (he : kmalloc s ptr = some (phys, s')) :
    NoneGained s₀ s' := by
  simp only [Paging.kmalloc] at he
  split at he
  · obtain ⟨⟨page, s₁⟩, hfind, he⟩ := Option.map_eq_some_iff.mp he
    cases he
    exact h.findPage hfind
  · cases he
    exact h

theorem NoneGained.getPage (h : NoneGained s₀ s) {a directory : ℕ} {makePageTable : Bool}
    (he : getPage s a makePageTable directory ptr = some (page, s')) : NoneGained s₀ s' := by
  rw [Paging.getPage] at he
  cases hfind : Paging.findPage s a directory with
  | some r =>
    simp only [hfind, Option.some.injEq] at he
    subst he
    exact h.findPage hfind
  | none =>
    simp only [hfind] at he
    split at he
    · obtain ⟨⟨phys, s₁⟩, hk, he⟩ := Option.map_eq_some_iff.mp he
      cases he
      exact ((h.kmalloc hk).setDirectory _ _).clearTable ptr
    · cases he

theorem NoneGained.cloneSlot (h : NoneGained s₀ s) {ptrs rest : List ℕ}
    (he : cloneSlot s src pDir i ptrs = some (s', rest)) : NoneGained s₀ s' := by
  simp only [Paging.cloneSlot, cloneSlotWith] at he
  split at he
  · cases he
    exact h
  · split at he
    · cases he
      exact h.setDirectory _ _
    · cases ptrs with
      | nil => cases he
      | cons ptr ptrs =>
        obtain ⟨⟨phys, s₁⟩, hk, he⟩ := Option.map_eq_some_iff.mp he
        obtain ⟨rfl, -⟩ := Prod.mk.inj he
        exact (((h.setDirectory _ _).kmalloc hk).clonePageTable _ ptr).setDirectory _ _

theorem NoneGained.cloneSlots (k : ℕ) (h : NoneGained s₀ s) {ptrs rest : List ℕ}
    (he : cloneSlots s src pDir i ptrs k = some (s', rest)) : NoneGained s₀ s' := by
  induction k generalizing s i ptrs with
  | zero =>
    cases he
    exact h
  | succ k ih =>
    obtain ⟨⟨s₁, ptrs₁⟩, hslot, hrest⟩ := Option.bind_eq_some_iff.mp he
    exact ih (h.cloneSlot hslot) hrest

theorem NoneGained.clonePageDirectory (h : NoneGained s₀ s) {ptrs : List ℕ}
    (he : clonePageDirectory s src ptrs = some s') : NoneGained s₀ s' := by
  cases ptrs with
  | nil => cases he
  | cons pDir ptrs =>
    obtain ⟨⟨phys, s₁⟩, hk, he⟩ := Option.bind_eq_some_iff.mp he
    obtain ⟨⟨s₂, rest⟩, hslots, he⟩ := Option.map_eq_some_iff.mp he
    cases he
    exact ((h.kmalloc hk).setDirectory _ _).cloneSlots 1024 hslots

theorem NoneGained.used {u : Use} (h : NoneGained s₀ s) (hu : Used s u s') : NoneGained s₀ s' := by
  cases hu with
  | allocFrame page isKernel isWriteable => exact h.allocFrame page isKernel isWriteable
  | freeFrame page => exact h.freeFrame page
  | getPage he => exact h.getPage he
  | clonePageTable src pTbl => exact h.clonePageTable src pTbl
  | clonePageDirectory he => exact h.clonePageDirectory he
  | switchPaging directory => exact h.of_sub rfl rfl rfl fun _ _ => rfl

end Gone

section Runs

variable {b : Boot} {ptr : ℕ}

/-- The next search ends in front of the directory. -/
def GapLeft (b : Boot) (s : State) : Prop :=
  ∃ f, getFreeFrame s = some f ∧ b.placementAddress + 4 * (f / 32) + 4 ≤ s.pageDirectory

/-- So did all searches before it. -/
theorem NoneGained.words {b b' : Boot} {N : ℕ} {s : State} (h : NoneGained b'.mmu s)
    (hleaves : BootLeaves b b' N) (hgap : GapLeft b s) {i : ℕ} (hi : s.frames i ≠ b.mmu.frames i) :
    b.placementAddress + 4 * i + 4 ≤ s.pageDirectory := by
  by_cases hsame : s.frames i = b'.mmu.frames i
  · rw [h.directory]
    exact hleaves.words i (hsame ▸ hi)
  · obtain ⟨f, hfind, hroom⟩ := hgap
    have hfree := (getFreeFrame_some hfind).1
    have hle : 32 * i ≤ f := by
      by_contra hlt
      have hbusy := h.filled i hsame f (Nat.not_le.mp hlt)
      exact absurd (hfree.symm.trans hbusy) Bool.false_ne_true
    omega

/-- Boot maps the low pages and the heap to frames one after another, which uses up the machine's;
afterwards no page is ever given one of them, as long as the searches end in front of the directory. -/
theorem frames_gone (hheap : b.mmu.heapEnabled = false) (hp : b.placementAddress ≤ lowEnd)
    (hpad : Padded b) (hptr : HeapPage (ptr / 0x1000)) :
    ∃ b' N, initialisePaging b ptr = some b' ∧ BootLeaves b b' N ∧
      ∀ us s, Run Used b'.mmu us s → GapLeft b s → (∀ f < s.frameNumber, busy s.frames f = true) ∧
        (∀ i, s.frames i ≠ b.mmu.frames i → b.placementAddress + 4 * i + 4 ≤ s.pageDirectory) ∧
        ∀ p, (s.pages p).frame ≠ 0 → (s.pages p).frame.toNat < s.frameNumber →
          (s.pages p).frame = (b'.mmu.pages p).frame := by
  obtain ⟨b', N, hboot, hleaves⟩ := hpad.leaves hheap hp hptr
  have hwide : searched b'.mmu ≤ 2 ^ 20 := by
    rw [searched, hleaves.number]
    decide
  refine ⟨b', N, hboot, hleaves, fun us s hrun hgap => ?_⟩
  have hnone : NoneGained b'.mmu s := hrun.invariant (P := NoneGained b'.mmu)
    (fun _ _ _ h hu => h.used hu) (.refl hwide hleaves.full)
  exact ⟨hnone.busy, fun i hi => hnone.words hleaves hgap hi, hnone.held⟩

theorem padded_blank : Padded ⟨blank, 0x200000⟩ := ⟨fun _ _ _ => rfl, by decide⟩

theorem frames_gone_blank : ∃ b' N, initialisePaging ⟨blank, 0x200000⟩ 0xC0081000 = some b' ∧
    BootLeaves ⟨blank, 0x200000⟩ b' N ∧
    ∀ us s, Run Used b'.mmu us s → GapLeft ⟨blank, 0x200000⟩ s →
      (∀ f < s.frameNumber, busy s.frames f = true) ∧
      (∀ i, s.frames i ≠ blank.frames i → 0x200000 + 4 * i + 4 ≤ s.pageDirectory) ∧
      ∀ p, (s.pages p).frame ≠ 0 → (s.pages p).frame.toNat < s.frameNumber →
        (s.pages p).frame = (b'.mmu.pages p).frame :=
  frames_gone rfl (by decide) padded_blank ⟨by decide, by decide⟩

end Runs

end ExperimentalKernel.Paging
