import ExperimentalKernel.PageWalks
import Mathlib.Data.Fintype.Card

/-!
# Paging at boot

`initialisePaging` with the `kmalloc` that there is before the heap: it moves
`placement_address` upwards. The words `frames` go on past the bitmap, as the search
of `getFreeFrame` does; what memory holds there is unknown.

The heap is told that it owns twice as many pages as there are frames.
-/

namespace ExperimentalKernel.Paging
open ByteMemory Function

structure Boot where
  mmu : State
  placementAddress : ℕ

/-- `kmalloc` while there is no heap; the physical address is the one it returns. -/
def Boot.kmalloc (b : Boot) (size : ℕ) (align : Bool) : ℕ × Boot :=
  let p := b.placementAddress
  let a := if align ∧ p % 0x1000 ≠ 0 then add32 (p - p % 0x1000) pageSize else p
  (a, { b with placementAddress := add32 a size })

/-- `getPage(a, true, pageDirectory_)`. -/
def Boot.getPage (b : Boot) (a : ℕ) : Option (ℕ × Boot) :=
  match findPage b.mmu a b.mmu.pageDirectory with
  | some (page, s) => some (page, { b with mmu := s })
  | none =>
    let (ptr, b₁) := b.kmalloc pageSize true
    (Paging.getPage b₁.mmu a true b₁.mmu.pageDirectory ptr).map fun (page, s) =>
      (page, { b₁ with mmu := s })

/-- `k` turns of the first loop, which makes the tables of the heap, from address `a` on. -/
def Boot.makeTables (b : Boot) (a : ℕ) : ℕ → Option Boot
  | 0 => some b
  | k + 1 => (b.getPage a).bind fun (_, b₁) => b₁.makeTables (a + pageSize) k

/-- A turn of the other loops; whether `allocFrame` failed is not looked at. -/
def Boot.mapPage (b : Boot) (a : ℕ) : Option Boot :=
  (b.getPage a).map fun (page, b₁) => { b₁ with mmu := (allocFrame b₁.mmu page false true).2 }

/-- The second loop from address `a` on, if it ends within `k` turns; making a table
moves its bound. -/
def Boot.mapPlaced (b : Boot) (a : ℕ) : ℕ → Option Boot
  | 0 => none
  | k + 1 =>
    if a < add32 b.placementAddress pageSize then
      (b.mapPage a).bind fun b₁ => b₁.mapPlaced (a + pageSize) k
    else some b

def Boot.mapPages (b : Boot) (a : ℕ) : ℕ → Option Boot
  | 0 => some b
  | k + 1 => (b.mapPage a).bind fun b₁ => b₁.mapPages (a + pageSize) k

/-- `KernelHeap::START`. -/
def heapStart : ℕ := 0xC0000000

/-- The pages of `KernelHeap::INITIAL_SIZE`. -/
def heapPages : ℕ := 0x02000000 / 0x1000

def memSize : ℕ := 0x1000000

/-- The bitmap and the directory, both cleared. -/
def Boot.prepare (b : Boot) : Boot :=
  let frameNumber := memSize / 0x1000
  let (_, b₁) := b.kmalloc (frameNumber / 32 * 4) false
  let (directory, b₂) := b₁.kmalloc directorySize true
  let s := b₂.mmu.setDirectory directory { PageDirectory.zero with physicalAddress := directory }
  { b₂ with mmu := { s with
      frameNumber := frameNumber
      frames := fun i => if i < frameNumber / 32 then 0 else s.frames i
      pageDirectory := directory
      currentPageDirectory := directory } }

/-- `initialisePaging`; `ptr` is what the heap hands out for the cloned directory. -/
def initialisePaging (b : Boot) (ptr : ℕ) : Option Boot :=
  (b.prepare.makeTables heapStart heapPages).bind fun b₁ =>
  (b₁.mapPlaced 0 0x100000).bind fun b₂ =>
  (b₂.mapPages heapStart heapPages).bind fun b₃ =>
    let s := { switchPaging b₃.mmu b₃.mmu.pageDirectory with heapEnabled := true }
    (clonePageDirectory s s.pageDirectory [ptr]).map fun s₁ =>
      { b₃ with mmu := switchPaging s₁ ptr }

/-- Page `n` of the address space lies in the heap. -/
def HeapPage (n : ℕ) : Prop := heapStart / 0x1000 ≤ n ∧ n < heapStart / 0x1000 + heapPages

/-- In the directory in use all pages of the heap have frames of their own that the
machine has, and past the bitmap nothing changed. -/
structure HeapBacked (b b' : Boot) : Prop where
  table : ∀ n, HeapPage n →
    (b'.mmu.directories b'.mmu.currentPageDirectory).pageTables (n / 1024) ≠ 0
  present : ∀ n, HeapPage n → (entry b'.mmu b'.mmu.currentPageDirectory n).present = true
  nonzero : ∀ n, HeapPage n → (entry b'.mmu b'.mmu.currentPageDirectory n).frame ≠ 0
  inRange : ∀ n, HeapPage n →
    (entry b'.mmu b'.mmu.currentPageDirectory n).frame.toNat < b'.mmu.frameNumber
  own : ∀ n, HeapPage n → ∀ n', n' ≠ n →
    (b'.mmu.directories b'.mmu.currentPageDirectory).pageTables (n' / 1024) ≠ 0 →
    (entry b'.mmu b'.mmu.currentPageDirectory n').frame ≠
      (entry b'.mmu b'.mmu.currentPageDirectory n).frame
  outside : ∀ i, b'.mmu.frameNumber / 32 ≤ i → b'.mmu.frames i = b.mmu.frames i

/-- There are 8192 pages and 4096 frames. -/
theorem not_heapBacked {b b' : Boot} (hn : b'.mmu.frameNumber = memSize / 0x1000) :
    ¬ HeapBacked b b' := by
  intro h
  have hpage (i : Fin heapPages) : HeapPage (heapStart / 0x1000 + i) := ⟨by omega, by omega⟩
  let f (i : Fin heapPages) : Fin (memSize / 0x1000) :=
    ⟨(entry b'.mmu b'.mmu.currentPageDirectory (heapStart / 0x1000 + i)).frame.toNat,
      hn ▸ h.inRange _ (hpage i)⟩
  have hf : Injective f := by
    intro i j hij
    by_contra hne
    have hne' : heapStart / 0x1000 + i.val ≠ heapStart / 0x1000 + j.val :=
      fun he => hne (Fin.ext (by omega))
    apply h.own _ (hpage j) _ hne' (h.table _ (hpage i))
    exact BitVec.eq_of_toNat_eq (Fin.mk.inj hij)
  have hcard := Fintype.card_le_of_injective f hf
  rw [Fintype.card_fin, Fintype.card_fin] at hcard
  exact absurd hcard (by decide)

/-- Slot `i` of the kernel directory. -/
def Boot.table (b : Boot) (i : ℕ) : ℕ := (b.mmu.directories b.mmu.pageDirectory).pageTables i

/-- A table and the space before it. -/
def tableRoom : ℕ := 0x2000

/-- What the loops rely on: `kmalloc` still moves `placement_address`, which stays below
a bound. -/
structure Loading (b : Boot) (bound : ℕ) : Prop where
  heap : b.mmu.heapEnabled = false
  directory : b.mmu.pageDirectory ≠ 0
  current : b.mmu.currentPageDirectory = b.mmu.pageDirectory
  low : b.mmu.pageDirectory < heapStart
  number : b.mmu.frameNumber = memSize / 0x1000
  positive : 0 < b.placementAddress
  bounded : b.placementAddress ≤ bound

/-- A turn of a loop for the address `a`. -/
structure Turn (b b' : Boot) (a bound : ℕ) : Prop where
  loading : Loading b' (bound + tableRoom)
  kept : ∀ i, b.table i ≠ 0 → b'.table i ≠ 0
  found : b'.table (a / 0x1000 / 1024) ≠ 0
  same : b.table (a / 0x1000 / 1024) ≠ 0 → b'.placementAddress = b.placementAddress

variable {b b' b₁ : Boot} {a bound : ℕ}

theorem Loading.mono (h : Loading b bound) {bound' : ℕ} (hle : bound ≤ bound') : Loading b bound' :=
  ⟨h.heap, h.directory, h.current, h.low, h.number, h.positive, h.bounded.trans hle⟩

theorem orCurrent_of_ne {s : State} {d : ℕ} (h : d ≠ 0) : orCurrent s d = d := if_neg h

/-- Alignment skips less than a page. -/
theorem kmalloc_eq (b : Boot) (size : ℕ) (align : Bool)
    (h : b.placementAddress + 0x1000 + size < 0x100000000) :
    ∃ p, b.kmalloc size align = (p, ⟨b.mmu, p + size⟩) ∧
      b.placementAddress ≤ p ∧ p < b.placementAddress + 0x1000 := by
  have hadd {x y : ℕ} (hxy : x + y < 0x100000000) : add32 x y = x + y := add32_eq hxy
  have halign : add32 (b.placementAddress - b.placementAddress % 0x1000) pageSize =
      b.placementAddress - b.placementAddress % 0x1000 + 0x1000 :=
    hadd (by simp only [pageSize]; omega)
  rw [Boot.kmalloc]
  simp only [halign]
  split
  · exact ⟨_, by rw [hadd (by omega)], by omega, by omega⟩
  · exact ⟨_, by rw [hadd (by omega)], by omega, by omega⟩

theorem Loading.kmalloc (h : Loading b bound) (hb : bound + tableRoom < 0x100000000) :
    ∃ p, b.kmalloc pageSize true = (p, ⟨b.mmu, p + pageSize⟩) ∧ b.placementAddress ≤ p ∧
      p + pageSize ≤ bound + tableRoom := by
  have hle := h.bounded
  simp only [tableRoom] at hb ⊢
  obtain ⟨p, he, hlow, hhigh⟩ := kmalloc_eq b pageSize true (by simp only [pageSize]; omega)
  exact ⟨p, he, hlow, by simp only [pageSize]; omega⟩

theorem Loading.getPage_found (h : Loading b bound) (h0 : b.table (a / 0x1000 / 1024) ≠ 0) :
    b.getPage a = some (entryAddress b.mmu b.mmu.pageDirectory (a / 0x1000),
      ⟨b.mmu.setDirectory b.mmu.pageDirectory
        ((b.mmu.directories b.mmu.pageDirectory).orPresent (a / 0x1000 / 1024)),
        b.placementAddress⟩) := by
  have hfind : findPage b.mmu a b.mmu.pageDirectory =
      some (entryAddress b.mmu b.mmu.pageDirectory (a / 0x1000), b.mmu.setDirectory
        b.mmu.pageDirectory ((b.mmu.directories b.mmu.pageDirectory).orPresent (a / 0x1000 / 1024))) := by
    rw [findPage]
    simp only [orCurrent_of_ne h.directory]
    exact if_pos h0
  simp only [Boot.getPage, hfind]

theorem Loading.getPage_made (h : Loading b bound) (hb : bound + tableRoom < 0x100000000)
    (h0 : b.table (a / 0x1000 / 1024) = 0) :
    ∃ p, b.placementAddress ≤ p ∧ p + pageSize ≤ bound + tableRoom ∧
      b.getPage a = some (p + 4 * (a / 0x1000 % 1024),
        ⟨(b.mmu.setTable b.mmu.pageDirectory (a / 0x1000 / 1024) p p).clearTable p, p + pageSize⟩) := by
  have hor := orCurrent_of_ne (s := b.mmu) h.directory
  have hfind : findPage b.mmu a b.mmu.pageDirectory = none := by
    rw [findPage]
    simp only [hor]
    exact if_neg (not_not.mpr h0)
  obtain ⟨p, hk, hp, hle⟩ := h.kmalloc hb
  have hk' : Paging.kmalloc b.mmu p = some (p, b.mmu) := by
    rw [Paging.kmalloc, h.heap]
    rfl
  refine ⟨p, hp, hle, ?_⟩
  rw [Boot.getPage]
  simp only [hfind, hk, Paging.getPage, hor, hk', ↓reduceIte, Option.map_some]

theorem setTable_table (b : Boot) (i p phys : ℕ) (x : ℕ) :
    ((b.mmu.setTable b.mmu.pageDirectory i p phys).directories b.mmu.pageDirectory).pageTables x =
      update (b.mmu.directories b.mmu.pageDirectory).pageTables i p x := by
  rw [State.setTable, State.setDirectory_same]

/-- The table is there. -/
theorem Loading.foundPage (h : Loading b bound) (h0 : b.table (a / 0x1000 / 1024) ≠ 0) :
    ∃ page b', b.getPage a = some (page, b') ∧ Turn b b' a bound := by
  refine ⟨_, _, h.getPage_found h0, ?_⟩
  have htables (x : ℕ) := orPresent_tables b.mmu b.mmu.pageDirectory (a / 0x1000 / 1024) x
  have hbound := h.bounded.trans (Nat.le_add_right bound tableRoom)
  refine ⟨⟨h.heap, h.directory, h.current, h.low, h.number, h.positive, hbound⟩, ?_, ?_, ?_⟩
  · intro i hi
    exact (congrFun (htables b.mmu.pageDirectory) i).trans_ne hi
  · exact (congrFun (htables b.mmu.pageDirectory) _).trans_ne h0
  · exact fun _ => rfl

/-- The table is made. -/
theorem Loading.madePage (h : Loading b bound) (hb : bound + tableRoom < 0x100000000)
    (h0 : b.table (a / 0x1000 / 1024) = 0) :
    ∃ page b', b.getPage a = some (page, b') ∧ Turn b b' a bound := by
  obtain ⟨p, hp, hle, he⟩ := h.getPage_made hb h0
  have hpos : 0 < p := h.positive.trans_le hp
  refine ⟨_, _, he, ⟨h.heap, h.directory, h.current, h.low, h.number,
    Nat.add_pos_left hpos pageSize, hle⟩, ?_, ?_, ?_⟩
  · intro i hi
    refine (setTable_table b _ p p i).trans_ne ?_
    have hne : i ≠ a / 0x1000 / 1024 := by
      rintro rfl
      exact hi h0
    rw [update_of_ne hne]
    exact hi
  · refine (setTable_table b _ p p _).trans_ne ?_
    rw [update_self]
    exact hpos.ne'
  · exact fun hne => absurd h0 hne

theorem Loading.getPage (h : Loading b bound) (hb : bound + tableRoom < 0x100000000) (a : ℕ) :
    ∃ page b', b.getPage a = some (page, b') ∧ Turn b b' a bound := by
  by_cases h0 : b.table (a / 0x1000 / 1024) = 0
  · exact h.madePage hb h0
  · exact h.foundPage h0

theorem Loading.mapPage (h : Loading b bound) (hb : bound + tableRoom < 0x100000000) (a : ℕ) :
    ∃ b', b.mapPage a = some b' ∧ Turn b b' a bound := by
  obtain ⟨page, b₁, he, ht⟩ := h.getPage hb a
  obtain ⟨f, p, m, hs⟩ := (allocFrame_entriesOnly b₁.mmu page false true).same
  refine ⟨{ b₁ with mmu := (allocFrame b₁.mmu page false true).2 },
    by rw [Boot.mapPage, he, Option.map_some], ?_⟩
  rw [hs]
  obtain ⟨hl, hkept, hfound, hsame⟩ := ht
  exact ⟨⟨hl.heap, hl.directory, hl.current, hl.low, hl.number, hl.positive, hl.bounded⟩, hkept,
    hfound, hsame⟩

/-- The loops over the heap, whose turns may move the bound. -/
theorem Loading.makeTables (k : ℕ) (h : Loading b bound)
    (hb : bound + tableRoom * k < 0x100000000) (a : ℕ) :
    ∃ b', b.makeTables a k = some b' ∧ Loading b' (bound + tableRoom * k) := by
  induction k generalizing b bound a with
  | zero => exact ⟨b, rfl, h⟩
  | succ k ih =>
    rw [Nat.mul_succ] at hb ⊢
    obtain ⟨page, b₁, he, ht⟩ := h.getPage (by omega) a
    obtain ⟨b', hmap, hl⟩ := ih ht.loading (by omega) (a + pageSize)
    refine ⟨b', by rw [Boot.makeTables, he]; exact hmap, hl.mono (by omega)⟩

theorem Loading.mapPages (k : ℕ) (h : Loading b bound)
    (hb : bound + tableRoom * k < 0x100000000) (a : ℕ) :
    ∃ b', b.mapPages a k = some b' ∧ Loading b' (bound + tableRoom * k) ∧
      (∀ i, b.table i ≠ 0 → b'.table i ≠ 0) ∧
      ∀ j < k, b'.table ((a + pageSize * j) / 0x1000 / 1024) ≠ 0 := by
  induction k generalizing b bound a with
  | zero => exact ⟨b, rfl, h, fun _ hi => hi, fun j hj => absurd hj (Nat.not_lt_zero j)⟩
  | succ k ih =>
    rw [Nat.mul_succ] at hb ⊢
    obtain ⟨b₁, he, ht⟩ := h.mapPage (by omega) a
    obtain ⟨b', hmap, hl, hkept, hfound⟩ := ih ht.loading (by omega) (a + pageSize)
    refine ⟨b', by rw [Boot.mapPages, he]; exact hmap, hl.mono (by omega),
      fun i hi => hkept i (ht.kept i hi), fun j hj => ?_⟩
    cases j with
    | zero => exact hkept _ ht.found
    | succ j =>
      have hadd : a + pageSize * (j + 1) = a + pageSize + pageSize * j := by
        rw [Nat.mul_succ, Nat.add_right_comm, Nat.add_assoc]
      rw [hadd]
      exact hfound j (Nat.lt_of_succ_lt_succ hj)

/-- Before turn `n` of a loop that starts at slot `base` one table was made for every 1024
turns. -/
structure Filling (b : Boot) (base start n : ℕ) : Prop where
  loading : Loading b (start + tableRoom * ((n + 1023) / 1024))
  tables : ∀ i, 1024 * i < n → b.table (base + i) ≠ 0

theorem Filling.turn {base start n : ℕ} (h : Filling b base start n)
    (ht : Turn b b' (pageSize * (1024 * base + n)) (start + tableRoom * ((n + 1023) / 1024))) :
    Filling b' base start (n + 1) := by
  have hpage : pageSize * (1024 * base + n) / 0x1000 / 1024 = base + n / 1024 := by
    rw [show pageSize = 0x1000 from rfl, Nat.mul_div_cancel_left _ (by decide)]
    omega
  obtain ⟨hl, hkept, hfound, hsame⟩ := ht
  rw [hpage] at hfound hsame
  refine ⟨?_, fun i hi => ?_⟩
  · by_cases hn : n % 1024 = 0
    · have hceil : (n + 1 + 1023) / 1024 = (n + 1023) / 1024 + 1 := by omega
      have hmul : tableRoom * ((n + 1 + 1023) / 1024) = tableRoom * ((n + 1023) / 1024) + tableRoom :=
        (congrArg (tableRoom * ·) hceil).trans (Nat.mul_succ tableRoom _)
      exact hl.mono (by omega)
    · -- the table for this turn was made in an earlier one
      have hceil : (n + 1 + 1023) / 1024 = (n + 1023) / 1024 := by omega
      have hp := hsame (h.tables (n / 1024) (by omega))
      rw [hceil]
      exact ⟨hl.heap, hl.directory, hl.current, hl.low, hl.number, hl.positive,
        hp.le.trans h.loading.bounded⟩
  · rcases Nat.lt_succ_iff_lt_or_eq.mp hi with hi | hi
    · exact hkept _ (h.tables i hi)
    · rw [← hi, Nat.mul_div_cancel_left i (by decide)] at hfound
      exact hfound

/-- The second loop starts at slot 0. -/
structure Placing (b : Boot) (start n : ℕ) : Prop where
  loading : Loading b (start + tableRoom * ((n + 1023) / 1024))
  tables : ∀ i, 1024 * i < n → b.table i ≠ 0

theorem Placing.filling {start n : ℕ} (h : Placing b start n) : Filling b 0 start n :=
  ⟨h.loading, fun i hi => (Nat.zero_add i).symm ▸ h.tables i hi⟩

theorem Filling.placing {start n : ℕ} (h : Filling b 0 start n) : Placing b start n :=
  ⟨h.loading, fun i hi => Nat.zero_add i ▸ h.tables i hi⟩

theorem Placing.turn {start n : ℕ} (h : Placing b start n)
    (hb : start + tableRoom * ((n + 1023) / 1024) + tableRoom < 0x100000000) :
    ∃ b', b.mapPage (pageSize * n) = some b' ∧ Placing b' start (n + 1) := by
  obtain ⟨b', he, ht⟩ := h.loading.mapPage hb (pageSize * n)
  have hfill := @Filling.turn b b' 0 start n h.filling (by rwa [Nat.mul_zero, Nat.zero_add])
  exact ⟨b', he, hfill.placing⟩

/-- The second loop ends: 1024 turns move its bound by two pages at most. -/
theorem Placing.mapPlaced (k : ℕ) {start n : ℕ} (h : Placing b start n) (hn : n ≤ 0x8000)
    (hk : 0x8000 < n + k) (hs : start ≤ 0x6000000) :
    ∃ b', b.mapPlaced (pageSize * n) k = some b' ∧ Loading b' 0x8000000 := by
  induction k generalizing b n with
  | zero => exact absurd hk (by omega)
  | succ k ih =>
    have hbound := h.loading.bounded
    have hroom : tableRoom * ((n + 1023) / 1024) ≤ tableRoom * 32 :=
      Nat.mul_le_mul_left tableRoom (by omega)
    have htable : tableRoom = 0x2000 := rfl
    rw [Boot.mapPlaced]
    split
    · next hlt =>
      have hn' : n < 0x8000 := by
        by_contra hge
        obtain rfl : n = 0x8000 := by omega
        have hadd : add32 b.placementAddress pageSize = b.placementAddress + pageSize :=
          add32_eq (by simp only [pageSize, wordSize]; omega)
        rw [hadd] at hlt
        simp only [pageSize] at hlt
        omega
      obtain ⟨b₁, he, h₁⟩ := h.turn (by omega)
      rw [he, Option.bind_some]
      exact ih h₁ (by omega) (by omega)
    · exact ⟨b, rfl, h.loading.mono (by omega)⟩

/-- Before the loops: the bitmap takes 512 bytes and the directory the next pages. -/
theorem prepare_loading (hheap : b.mmu.heapEnabled = false)
    (hp : b.placementAddress < memSize) : Loading b.prepare (b.placementAddress + 0x5000) := by
  simp only [memSize] at hp
  have hsize : memSize / 0x1000 / 32 * 4 = 512 := rfl
  obtain ⟨p, h₁, -, hp₁⟩ := kmalloc_eq b 512 false (by omega)
  obtain ⟨d, h₂, hd, hd₂⟩ := kmalloc_eq ⟨b.mmu, p + 512⟩ directorySize true
    (by simp only [directorySize]; omega)
  simp only at hd hd₂
  simp only [Boot.prepare, hsize, h₁, h₂]
  refine ⟨hheap, ?_, rfl, ?_, rfl, ?_, ?_⟩
  · exact Nat.ne_of_gt (lt_of_lt_of_le (Nat.succ_pos _) hd)
  · simp only [heapStart]
    omega
  · simp only [directorySize]
    omega
  · simp only [directorySize]
    omega

/-- A clone of the kernel directory shares every table, so it needs no memory. -/
theorem cloneSlots_kernel (k : ℕ) {s : State} {pDir : ℕ} (h : pDir ≠ s.pageDirectory) (i : ℕ)
    (ptrs : List ℕ) : ∃ s', cloneSlots s s.pageDirectory pDir i ptrs k = some (s', ptrs) ∧
      s'.frameNumber = s.frameNumber := by
  induction k generalizing s i with
  | zero => exact ⟨s, rfl, rfl⟩
  | succ k ih =>
    by_cases h0 : (s.directories s.pageDirectory).pageTables i = 0
    · obtain ⟨s', he, hn⟩ := ih h (i + 1)
      exact ⟨s', by rw [cloneSlots_succ, cloneSlot_null h0]; exact he, hn⟩
    · obtain ⟨s', he, hn⟩ := ih (s := s.setDirectory pDir _) h (i + 1)
      exact ⟨s', by rw [cloneSlots_succ, cloneSlot_shared ⟨h0, rfl⟩]; exact he, hn⟩

/-- The clone lies in the heap, whose tables the kernel directory has. -/
theorem clonePageDirectory_kernel {s : State} (hheap : s.heapEnabled = true)
    (hd : s.pageDirectory ≠ 0) (hc : s.currentPageDirectory = s.pageDirectory) {ptr : ℕ}
    (htable : (s.directories s.pageDirectory).pageTables (ptr / 0x1000 / 1024) ≠ 0)
    (hne : ptr ≠ s.pageDirectory) :
    ∃ s', clonePageDirectory s s.pageDirectory [ptr] = some s' ∧ s'.frameNumber = s.frameNumber := by
  have hmapped : Mapped s ptr := fun _ => hc.symm ▸ htable
  have hor : orCurrent s s.pageDirectory = s.pageDirectory := orCurrent_of_ne hd
  rw [clonePageDirectory_eq (kmalloc_enabled hheap hmapped), hor]
  generalize hs : State.setDirectory _ ptr _ = s₁
  have hpd : s₁.pageDirectory = s.pageDirectory := by rw [← hs]; rfl
  have hnum : s₁.frameNumber = s.frameNumber := by rw [← hs]; rfl
  obtain ⟨s', he, hn⟩ := cloneSlots_kernel 1024 (s := s₁) (hpd ▸ hne) 0 []
  refine ⟨s', ?_, hn.trans hnum⟩
  rw [hpd] at he
  rw [he, Option.map_some]

/-- `initialisePaging` ends; `ptr` lies in the heap. -/
theorem initialisePaging_ends (hheap : b.mmu.heapEnabled = false)
    (hp : b.placementAddress < memSize) {ptr : ℕ} (hptr : HeapPage (ptr / 0x1000)) :
    ∃ b', initialisePaging b ptr = some b' ∧ b'.mmu.frameNumber = memSize / 0x1000 := by
  have hbound : b.placementAddress + 0x5000 ≤ 0x1010000 := by
    simp only [memSize] at hp
    omega
  have h₀ : Loading b.prepare 0x1010000 := (prepare_loading hheap hp).mono hbound
  obtain ⟨b₁, h₁, hl₁⟩ := h₀.makeTables heapPages (by decide) heapStart
  have hplacing : Placing b₁ (0x1010000 + tableRoom * heapPages) 0 :=
    ⟨hl₁.mono (Nat.le_add_right _ _), fun i hi => absurd hi (Nat.not_lt_zero _)⟩
  obtain ⟨b₂, h₂, hl₂⟩ := hplacing.mapPlaced 0x100000 (Nat.zero_le _) (by decide) (by decide)
  rw [Nat.mul_zero] at h₂
  obtain ⟨b₃, h₃, hl₃, -, hfound⟩ := hl₂.mapPages heapPages (by decide) heapStart
  obtain ⟨hge, hlt⟩ := hptr
  have htable : b₃.table (ptr / 0x1000 / 1024) ≠ 0 := by
    have hpage : (heapStart + pageSize * (ptr / 0x1000 - heapStart / 0x1000)) / 0x1000 = ptr / 0x1000 := by
      simp only [heapStart, pageSize] at hge ⊢
      omega
    have := hfound (ptr / 0x1000 - heapStart / 0x1000) (by omega)
    rwa [hpage] at this
  have hne : ptr ≠ b₃.mmu.pageDirectory := by
    have hlow := hl₃.low
    simp only [heapStart] at hge hlow
    omega
  obtain ⟨s', hclone, hnum⟩ := clonePageDirectory_kernel
    (s := { switchPaging b₃.mmu b₃.mmu.pageDirectory with heapEnabled := true }) rfl
    hl₃.directory rfl htable hne
  refine ⟨{ b₃ with mmu := switchPaging s' ptr }, ?_, hnum.trans hl₃.number⟩
  rw [initialisePaging, h₁, Option.bind_some, h₂, Option.bind_some, h₃, Option.bind_some]
  simp only [hclone]
  rfl

/-- After boot the heap is never backed by the memory that the machine has. -/
theorem heap_never_backed (b : Boot) (hheap : b.mmu.heapEnabled = false)
    (hp : b.placementAddress < memSize) {ptr : ℕ} (hptr : HeapPage (ptr / 0x1000)) :
    ∃ b', initialisePaging b ptr = some b' ∧ ¬ HeapBacked b b' := by
  obtain ⟨b', he, hn⟩ := initialisePaging_ends hheap hp hptr
  exact ⟨b', he, not_heapBacked hn⟩

/-- With the placement address `0x200000`. -/
theorem heap_never_backed_blank :
    ∃ b', initialisePaging ⟨blank, 0x200000⟩ 0xC0081000 = some b' ∧
      ¬ HeapBacked ⟨blank, 0x200000⟩ b' :=
  heap_never_backed ⟨blank, 0x200000⟩ rfl (by decide) ⟨by decide, by decide⟩

theorem heap_not_backed_at_boot :
    ¬ ∀ b, b.mmu.heapEnabled = false → b.placementAddress < memSize →
      ∀ b', initialisePaging b 0xC0081000 = some b' → HeapBacked b b' := by
  intro h
  have hptr : HeapPage (0xC0081000 / 0x1000) := ⟨by decide, by decide⟩
  have hplace : (Boot.mk blank 0x200000).placementAddress < memSize := by decide
  obtain ⟨b', he, hn⟩ := initialisePaging_ends rfl hplace hptr
  exact not_heapBacked hn (h _ rfl hplace b' he)

end ExperimentalKernel.Paging
