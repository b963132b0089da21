import ExperimentalKernel.BootPaging

/-!
# The identity mapping at boot

The second loop of `initialisePaging` visits the pages from address 0 on and the search
hands out the frames in the same order, so each page gets the frame of its own number.
The loop chases a bound that it moves itself when it makes a table.
-/

namespace ExperimentalKernel.Paging
open ByteMemory Function

/-- The entry for page `n` in the kernel directory. -/
def Boot.entry (b : Boot) (n : ℕ) : Page := Paging.entry b.mmu b.mmu.pageDirectory n

/-- The entry for page `m` when the pages below `n` are mapped. -/
def identityEntry (n m : ℕ) : Page := if m < n then allocated Page.zero false true m else Page.zero

/-- Of the pages with a table those below `n` are mapped, each to the frame of its own
number, and no other frame is in use. The tables lie below `placement_address`. -/
structure IdentityBelow (b : Boot) (n : ℕ) : Prop where
  loading : Loading b b.placementAddress
  placed : ∀ i, b.table i ≠ 0 → b.table i + pageSize ≤ b.placementAddress
  apart : ∀ i j, i ≠ j → b.table i ≠ 0 → b.table j ≠ 0 → Apart (b.table i) (b.table j)
  made : ∀ m < n, b.table (m / 1024) ≠ 0
  entries : ∀ m, b.table (m / 1024) ≠ 0 → b.entry m = identityEntry n m
  bits : ∀ f < b.mmu.frameNumber, busy b.mmu.frames f = decide (f < n)

section Turns

variable {b b' b₁ : Boot} {a n p : ℕ}

theorem IdentityBelow.found (h : IdentityBelow b n) (i : ℕ) :
    IdentityBelow ⟨b.mmu.setDirectory b.mmu.pageDirectory
      ((b.mmu.directories b.mmu.pageDirectory).orPresent i), b.placementAddress⟩ n := by
  have htables := orPresent_tables b.mmu b.mmu.pageDirectory i b.mmu.pageDirectory
  have htable (x : ℕ) : Boot.table ⟨b.mmu.setDirectory b.mmu.pageDirectory
      ((b.mmu.directories b.mmu.pageDirectory).orPresent i), b.placementAddress⟩ x = b.table x :=
    congrFun htables x
  have hl := h.loading
  refine ⟨⟨hl.heap, hl.directory, hl.current, hl.low, hl.number, hl.positive, hl.bounded⟩,
    ?_, ?_, ?_, ?_, h.bits⟩
  · simpa only [htable] using h.placed
  · simpa only [htable] using h.apart
  · simpa only [htable] using h.made
  · intro m hm
    rw [htable] at hm
    rw [← h.entries m hm, Boot.entry, Boot.entry, Paging.entry, Paging.entry]
    exact congrArg b.mmu.pages (congrArg (· + 4 * (m % 1024)) (htable (m / 1024)))

/-- The new table lies behind all others and is empty. -/
theorem IdentityBelow.added (h : IdentityBelow b n) {i : ℕ} (h0 : b.table i = 0)
    (hp : b.placementAddress ≤ p) :
    IdentityBelow ⟨(b.mmu.setTable b.mmu.pageDirectory i p p).clearTable p, p + pageSize⟩ n := by
  have hsame : Boot.table ⟨(b.mmu.setTable b.mmu.pageDirectory i p p).clearTable p,
      p + pageSize⟩ i = p := (setTable_table b i p p i).trans (update_self _ _ _)
  have hother : ∀ x, x ≠ i → Boot.table ⟨(b.mmu.setTable b.mmu.pageDirectory i p p).clearTable p,
      p + pageSize⟩ x = b.table x :=
    fun x hx => (setTable_table b i p p x).trans (update_of_ne hx _ _)
  have hl := h.loading
  have hbelow : ∀ x, b.table x ≠ 0 → b.table x + pageSize ≤ p := fun x hx => (h.placed x hx).trans hp
  refine ⟨⟨hl.heap, hl.directory, hl.current, hl.low, hl.number,
    Nat.add_pos_left (hl.positive.trans_le hp) _, le_rfl⟩, ?_, ?_, ?_, ?_, h.bits⟩
  · intro x hx
    rcases eq_or_ne x i with rfl | hne
    · exact (congrArg (· + pageSize) hsame).le
    · rw [hother x hne] at hx ⊢
      exact (hbelow x hx).trans (Nat.le_add_right p pageSize)
  · intro x y hxy hx hy
    rcases eq_or_ne x i with rfl | hxi
    · rw [hother y hxy.symm] at hy ⊢
      rw [hsame]
      exact .inr (hbelow y hy)
    · rw [hother x hxi] at hx ⊢
      rcases eq_or_ne y i with rfl | hyi
      · rw [hsame]
        exact .inl (hbelow x hx)
      · rw [hother y hyi] at hy ⊢
        exact h.apart x y hxy hx hy
  · intro m hm
    have hmade := h.made m hm
    have hne : m / 1024 ≠ i := by
      intro hi
      exact hmade (hi ▸ h0)
    rw [hother _ hne]
    exact hmade
  · intro m hm
    rcases eq_or_ne (m / 1024) i with rfl | hne
    · -- no page of this table was mapped so far
      have hge : ¬ m < n := fun hlt => h.made m hlt h0
      rw [identityEntry, if_neg hge]
      refine (congrArg (State.pages _) (congrArg (· + 4 * (m % 1024)) hsame)).trans ?_
      exact clearTable_inside _ p (Nat.mod_lt m (by decide))
    · rw [hother _ hne] at hm
      rw [← h.entries m hm]
      refine (congrArg (State.pages _) (congrArg (· + 4 * (m % 1024)) (hother _ hne))).trans ?_
      have hapart : Apart p (b.table (m / 1024)) := .inr (hbelow _ hm)
      exact (clearTable_entriesOnly _ p).others _ (hapart.entry_outside m)

/-- Looking a page up, which may make its table. -/
theorem IdentityBelow.getPage (h : IdentityBelow b n)
    (hb : b.placementAddress + tableRoom < 0x100000000) (a : ℕ) :
    ∃ b₁, b.getPage a = some (entryAddress b₁.mmu b₁.mmu.pageDirectory (a / 0x1000), b₁) ∧
      IdentityBelow b₁ n ∧ b₁.table (a / 0x1000 / 1024) ≠ 0 := by
  by_cases h0 : b.table (a / 0x1000 / 1024) = 0
  · obtain ⟨p, hp, -, he⟩ := h.loading.getPage_made hb h0
    have hsame := (setTable_table b (a / 0x1000 / 1024) p p (a / 0x1000 / 1024)).trans
      (update_self _ _ _)
    refine ⟨_, he.trans ?_, h.added h0 hp, ?_⟩
    · exact congrArg some (Prod.ext (congrArg (· + 4 * (a / 0x1000 % 1024)) hsame.symm) rfl)
    · exact hsame.trans_ne (h.loading.positive.trans_le hp).ne'
  · have htables := congrFun (orPresent_tables b.mmu b.mmu.pageDirectory (a / 0x1000 / 1024)
      b.mmu.pageDirectory) (a / 0x1000 / 1024)
    refine ⟨_, (h.loading.getPage_found h0).trans ?_, h.found (a / 0x1000 / 1024), ?_⟩
    · exact congrArg some (Prod.ext (congrArg (· + 4 * (a / 0x1000 % 1024)) htables.symm) rfl)
    · exact htables.trans_ne h0

/-- Different pages have different entries. -/
theorem IdentityBelow.entryAddress_ne (h : IdentityBelow b n) {m m' : ℕ} (hne : m ≠ m')
    (hm : b.table (m / 1024) ≠ 0) (hm' : b.table (m' / 1024) ≠ 0) :
    entryAddress b.mmu b.mmu.pageDirectory m ≠ entryAddress b.mmu b.mmu.pageDirectory m' := by
  by_cases hi : m / 1024 = m' / 1024
  · rw [entryAddress, entryAddress, hi]
    omega
  · have hapart := h.apart _ _ hi hm hm'
    have hout := hapart.entry_outside m'
    change b.table (m / 1024) + 4 * (m % 1024) ≠ b.table (m' / 1024) + 4 * (m' % 1024)
    unfold pageSize at hout
    omega

/-- The search finds the frame whose turn it is. -/
theorem IdentityBelow.getFreeFrame_eq (h : IdentityBelow b n) (hn : n < b.mmu.frameNumber) :
    getFreeFrame b.mmu = some n := by
  have hfree : busy b.mmu.frames n = false := by rw [h.bits n hn]; simp
  obtain ⟨f, hf, hfind, hbit⟩ := getFreeFrame_of_hasFreeFrame ⟨n, hn, hfree⟩
  rw [hfind]
  congr 1
  apply le_antisymm
  · by_contra hlt
    have hbusy := (getFreeFrame_some hfind).2 n (Nat.not_le.mp hlt)
    rw [hfree] at hbusy
    cases hbusy
  · rw [h.bits f hf] at hbit
    exact Nat.not_lt.mp (of_decide_eq_false hbit)

theorem IdentityBelow.allocFrame (h : IdentityBelow b n) (hn : n < b.mmu.frameNumber)
    (h0 : b.table (n / 1024) ≠ 0) :
    IdentityBelow { b with mmu := (allocFrame b.mmu
      (entryAddress b.mmu b.mmu.pageDirectory n) false true).2 } (n + 1) := by
  have hzero : b.mmu.pages (entryAddress b.mmu b.mmu.pageDirectory n) = Page.zero := by
    have he := h.entries n h0
    rw [identityEntry, if_neg (Nat.lt_irrefl n)] at he
    exact he
  have he : (Paging.allocFrame b.mmu (entryAddress b.mmu b.mmu.pageDirectory n) false true).2 =
      { b.mmu with
        frames := markBusy b.mmu.frames n
        pages := update b.mmu.pages (entryAddress b.mmu b.mmu.pageDirectory n)
          (allocated Page.zero false true n) } := by
    simp only [Paging.allocFrame, hzero, h.getFreeFrame_eq hn]
    rfl
  rw [he]
  have hl := h.loading
  refine ⟨⟨hl.heap, hl.directory, hl.current, hl.low, hl.number, hl.positive, hl.bounded⟩,
    h.placed, h.apart, ?_, ?_, ?_⟩
  · intro m hm
    rcases Nat.lt_succ_iff_lt_or_eq.mp hm with hlt | rfl
    · exact h.made m hlt
    · exact h0
  · intro m hm
    rcases eq_or_ne m n with rfl | hne
    · rw [identityEntry, if_pos (Nat.lt_succ_self m)]
      exact update_self _ _ _
    · have hiff : m < n + 1 ↔ m < n := by omega
      rw [identityEntry, if_congr hiff rfl rfl]
      refine Eq.trans ?_ (h.entries m hm)
      exact update_of_ne (h.entryAddress_ne hne hm h0) _ _
  · intro f hf
    rw [busy_markBusy, h.bits f hf]
    by_cases hfn : f = n
    · simp [hfn]
    · have hiff : f < n + 1 ↔ f < n := by omega
      simp [hfn, hiff]

/-- A turn of the loop: page `n` gets frame `n`. -/
theorem IdentityBelow.mapPage (h : IdentityBelow b n) (hn : n < b.mmu.frameNumber)
    (hb : b.placementAddress + tableRoom < 0x100000000) :
    ∃ b', b.mapPage (pageSize * n) = some b' ∧ IdentityBelow b' (n + 1) := by
  have hpage : pageSize * n / 0x1000 = n := Nat.mul_div_cancel_left n (by decide)
  obtain ⟨b₁, he, h₁, hfound⟩ := h.getPage hb (pageSize * n)
  rw [hpage] at he hfound
  have hnum : b₁.mmu.frameNumber = b.mmu.frameNumber := h₁.loading.number.trans h.loading.number.symm
  exact ⟨_, by rw [Boot.mapPage, he]; rfl, h₁.allocFrame (hnum ▸ hn) hfound⟩

end Turns

section Loops

variable {b b' b₀ b₁ : Boot} {a n bound : ℕ}

/-- The first loop maps nothing. -/
theorem IdentityBelow.makeTables (k : ℕ) (h : IdentityBelow b n) (hle : b.placementAddress ≤ bound)
    (hb : bound + tableRoom * k < 0x100000000) (a : ℕ) :
    ∃ b', b.makeTables a k = some b' ∧ IdentityBelow b' n := by
  induction k generalizing b bound a with
  | zero => exact ⟨b, rfl, h⟩
  | succ k ih =>
    rw [Nat.mul_succ] at hb
    have hroom : b.placementAddress + tableRoom < 0x100000000 := by omega
    obtain ⟨b₁, he, h₁, -⟩ := h.getPage hroom a
    obtain ⟨page, b₂, he₂, ht⟩ := h.loading.getPage hroom a
    rw [he] at he₂
    cases he₂
    have hle₁ : b₁.placementAddress ≤ bound + tableRoom :=
      ht.loading.bounded.trans (Nat.add_le_add_right hle _)
    obtain ⟨b', hmap, h'⟩ := ih h₁ hle₁ (by omega) (a + pageSize)
    exact ⟨b', by rw [Boot.makeTables, he]; exact hmap, h'⟩

/-- The directory is empty and no frame is in use. -/
theorem prepare_identityBelow (hheap : b.mmu.heapEnabled = false)
    (hp : b.placementAddress < memSize) : IdentityBelow b.prepare 0 := by
  have hl := prepare_loading hheap hp
  have htable (i : ℕ) : b.prepare.table i = 0 := by
    simp [Boot.prepare, Boot.table, PageDirectory.zero]
  refine ⟨⟨hl.heap, hl.directory, hl.current, hl.low, hl.number, hl.positive, le_rfl⟩, ?_, ?_, ?_,
    ?_, fun f hf => ?_⟩
  · exact fun i hi => absurd (htable i) hi
  · exact fun i j _ hi _ => absurd (htable i) hi
  · exact fun m hm => absurd hm (Nat.not_lt_zero m)
  · exact fun m hm => absurd (htable _) hm
  · have hword : b.prepare.mmu.frames (f / 32) = 0 := by
      refine if_pos ?_
      rw [hl.number] at hf
      simp only [memSize] at hf ⊢
      omega
    rw [busy, hword]
    simp

/-- The states that the second loop goes through, each with the address it has come to. -/
inductive Reached (b : Boot) : ℕ → Boot → Prop
  | start : Reached b 0 b
  | turn {a : ℕ} {b' b'' : Boot} (h : Reached b a b') (hlt : a < add32 b'.placementAddress pageSize)
      (hmap : b'.mapPage a = some b'') : Reached b (a + pageSize) b''

/-- Whatever is placed until the loop ends lies below the last frame. -/
def PlacedBelow (b : Boot) : Prop :=
  ∀ a b', Reached b a b' → b'.placementAddress < b'.mmu.frameNumber * pageSize - pageSize

theorem IdentityBelow.lt_memSize (h : IdentityBelow b n) (hreach : Reached b₀ a b)
    (hbelow : PlacedBelow b₀) : b.placementAddress + pageSize < memSize := by
  have hlt := hbelow a b hreach
  rw [h.loading.number] at hlt
  simp only [memSize, pageSize] at hlt ⊢
  omega

/-- The loop ends, at the latest when there is a turn for every frame. -/
theorem IdentityBelow.mapPlaced (k : ℕ) (h : IdentityBelow b n)
    (hreach : Reached b₀ (pageSize * n) b) (hbelow : PlacedBelow b₀)
    (hn : n ≤ b.mmu.frameNumber) (hk : b.mmu.frameNumber < n + k) :
    ∃ b' N, b.mapPlaced (pageSize * n) k = some b' ∧ IdentityBelow b' N ∧
      N ≤ b'.mmu.frameNumber ∧ b'.placementAddress + pageSize ≤ pageSize * N := by
  induction k generalizing b n with
  | zero => exact absurd hk (Nat.not_lt.mpr hn)
  | succ k ih =>
    have hlow := h.lt_memSize hreach hbelow
    have hnum := h.loading.number
    have hsum : add32 b.placementAddress pageSize = b.placementAddress + pageSize :=
      add32_eq (hlow.trans (by decide))
    rw [Boot.mapPlaced]
    split
    · next hlt =>
      have hn' : n < b.mmu.frameNumber := by
        rw [hsum] at hlt
        rw [hnum]
        simp only [memSize, pageSize] at hlt hlow ⊢
        omega
      have hroom : b.placementAddress + tableRoom < 0x100000000 := by
        simp only [memSize, pageSize] at hlow
        simp only [tableRoom]
        omega
      obtain ⟨b₁, he, h₁⟩ := h.mapPage hn' hroom
      have hnum₁ : b₁.mmu.frameNumber = b.mmu.frameNumber := h₁.loading.number.trans hnum.symm
      rw [he, Option.bind_some]
      exact ih h₁ (hreach.turn hlt he) (by omega) (by omega)
    · next hge =>
      rw [hsum] at hge
      exact ⟨b, n, rfl, h, hn, Nat.not_lt.mp hge⟩

/-- What lies below `placement_address` is mapped to itself and writable, and the frames
in use are the mapped ones. -/
structure IdentityMapped (b : Boot) : Prop where
  table : ∀ n, n * pageSize < b.placementAddress → b.table (n / 1024) ≠ 0
  present : ∀ n, n * pageSize < b.placementAddress → (b.entry n).present = true
  writeable : ∀ n, n * pageSize < b.placementAddress → (b.entry n).rw = true
  frame : ∀ n, n * pageSize < b.placementAddress → (b.entry n).frame.toNat = n
  exact : ∀ f < b.mmu.frameNumber, busy b.mmu.frames f = true ↔
    ∃ n, b.table (n / 1024) ≠ 0 ∧ (b.entry n).present = true ∧ (b.entry n).frame.toNat = f

theorem IdentityBelow.identityMapped {N : ℕ} (h : IdentityBelow b N)
    (hN : N ≤ b.mmu.frameNumber) (hend : b.placementAddress + pageSize ≤ pageSize * N) :
    IdentityMapped b := by
  have hbits : N ≤ 2 ^ 20 := hN.trans (h.loading.number.trans_le (by decide))
  have hlt : ∀ n, n * pageSize < b.placementAddress → n < N := by
    intro n hn
    simp only [pageSize] at hn hend
    omega
  have hentry : ∀ n < N, b.entry n = allocated Page.zero false true n :=
    fun n hn => (h.entries n (h.made n hn)).trans (if_pos hn)
  have hframe : ∀ n < N, (b.entry n).frame.toNat = n := by
    intro n hn
    rw [hentry n hn]
    exact Nat.mod_eq_of_lt (hn.trans_le hbits)
  refine ⟨fun n hn => h.made n (hlt n hn), fun n hn => ?_, fun n hn => ?_,
    fun n hn => hframe n (hlt n hn), fun f hf => ?_⟩
  · rw [hentry n (hlt n hn)]
    rfl
  · rw [hentry n (hlt n hn)]
    rfl
  · rw [h.bits f hf, decide_eq_true_iff]
    constructor
    · intro hfN
      exact ⟨f, h.made f hfN, by rw [hentry f hfN]; rfl, hframe f hfN⟩
    · rintro ⟨n, hn, hpresent, rfl⟩
      by_cases hnN : n < N
      · rwa [hframe n hnN]
      · rw [h.entries n hn, identityEntry, if_neg hnN] at hpresent
        cases hpresent

/-- At boot the second loop ends, and then everything that was placed is mapped to itself. -/
theorem boot_identity (b : Boot) (hheap : b.mmu.heapEnabled = false)
    (hp : b.placementAddress < memSize)
    (hbelow : ∀ b₁, b.prepare.makeTables heapStart heapPages = some b₁ → PlacedBelow b₁) :
    ∃ b₁ b', b.prepare.makeTables heapStart heapPages = some b₁ ∧
      b₁.mapPlaced 0 0x100000 = some b' ∧ IdentityMapped b' := by
  have hloading := prepare_loading hheap hp
  have hbound : b.placementAddress + 0x5000 + tableRoom * heapPages < 0x100000000 := by
    simp only [memSize] at hp
    have hroom : tableRoom * heapPages = 0x4000000 := rfl
    omega
  obtain ⟨b₁, h₁, hid⟩ := (prepare_identityBelow hheap hp).makeTables heapPages hloading.bounded
    hbound heapStart
  have hnum := hid.loading.number
  have hk : b₁.mmu.frameNumber < 0 + 0x100000 := by
    rw [hnum]
    decide
  obtain ⟨b', N, h₂, hid', hN, hend⟩ :=
    hid.mapPlaced 0x100000 Reached.start (hbelow b₁ h₁) (Nat.zero_le _) hk
  exact ⟨b₁, b', h₁, h₂, hid'.identityMapped hN hend⟩

/-- The first loop makes one table for every 1024 pages. -/
theorem Filling.makeTables (k : ℕ) {base start : ℕ} (h : Filling b base start n)
    (hb : start + tableRoom * ((n + k + 1023) / 1024) + tableRoom < 0x100000000)
    (he : b.makeTables (pageSize * (1024 * base + n)) k = some b') : Filling b' base start (n + k) := by
  induction k generalizing b n with
  | zero =>
    cases he
    exact h
  | succ k ih =>
    have hmono : tableRoom * ((n + 1023) / 1024) ≤ tableRoom * ((n + (k + 1) + 1023) / 1024) :=
      Nat.mul_le_mul_left tableRoom (by omega)
    obtain ⟨page, b₁, hget, ht⟩ := h.loading.getPage (by omega) (pageSize * (1024 * base + n))
    rw [Boot.makeTables, hget, Option.bind_some] at he
    have hcount : n + 1 + k = n + (k + 1) := by omega
    have hrest := ih (h.turn ht) (by rw [hcount]; exact hb) he
    rwa [hcount] at hrest

/-- How far the tables of the heap and of the low pages can move the bound. -/
def lowEnd : ℕ := 0xFE0000

theorem Filling.reached {start : ℕ} (h : Filling b₀ 0 start 0)
    (hstart : start + tableRoom * 4 + 2 * pageSize ≤ memSize) (hreach : Reached b₀ a b) :
    ∃ n ≤ memSize / 0x1000, a = pageSize * n ∧ Filling b 0 start n := by
  have hconsts : tableRoom = 0x2000 ∧ pageSize = 0x1000 ∧ memSize = 0x1000000 := ⟨rfl, rfl, rfl⟩
  induction hreach with
  | start => exact ⟨0, Nat.zero_le _, rfl, h⟩
  | @turn a b' b'' _ hlt hmap ih =>
    obtain ⟨n, hn, rfl, hfill⟩ := ih
    have hbounded := hfill.loading.bounded
    have htables : tableRoom * ((n + 1023) / 1024) ≤ tableRoom * 4 :=
      Nat.mul_le_mul_left tableRoom (by omega)
    have hsum : add32 b'.placementAddress pageSize = b'.placementAddress + pageSize :=
      add32_eq (by unfold wordSize; omega)
    rw [hsum, show pageSize * n = 0x1000 * n from rfl] at hlt
    have hn' : n < memSize / 0x1000 := by omega
    obtain ⟨b₁, he, ht⟩ := hfill.loading.mapPage (by omega) (pageSize * n)
    rw [he] at hmap
    cases hmap
    exact ⟨n + 1, hn', rfl, hfill.turn (by rwa [Nat.mul_zero, Nat.zero_add])⟩

/-- A kernel and a ramdisk that leave a little of the memory are low enough. -/
theorem placedBelow_of_le (hheap : b.mmu.heapEnabled = false) (hp : b.placementAddress ≤ lowEnd)
    (h₁ : b.prepare.makeTables heapStart heapPages = some b₁) : PlacedBelow b₁ := by
  have hlow : lowEnd = 0xFE0000 ∧ tableRoom = 0x2000 := ⟨rfl, rfl⟩
  have hloading := prepare_loading hheap (b := b) (by simp only [memSize]; omega)
  have hempty : Filling b.prepare 768 (b.placementAddress + 0x5000) 0 :=
    ⟨hloading, fun i hi => absurd hi (Nat.not_lt_zero _)⟩
  have hcount : (0 + heapPages + 1023) / 1024 = 8 := by decide
  have hfilled := hempty.makeTables heapPages (by rw [hcount]; omega) h₁
  have hstart : Filling b₁ 0 (b.placementAddress + 0x5000 + tableRoom * 8) 0 :=
    ⟨hfilled.loading.mono (by rw [hcount, Nat.zero_add]; exact le_rfl),
      fun i hi => absurd hi (Nat.not_lt_zero _)⟩
  intro a b' hreach
  obtain ⟨n, hn, -, hfill⟩ := hstart.reached (by simp only [memSize, pageSize]; omega) hreach
  have hbounded := hfill.loading.bounded
  have htables : tableRoom * ((n + 1023) / 1024) ≤ tableRoom * 4 :=
    Nat.mul_le_mul_left tableRoom (by simp only [memSize] at hn; omega)
  rw [hfill.loading.number]
  simp only [memSize, pageSize]
  omega

/-- With the placement address `0x200000`. -/
theorem boot_identity_blank :
    ∃ b₁ b', (Boot.mk blank 0x200000).prepare.makeTables heapStart heapPages = some b₁ ∧
      b₁.mapPlaced 0 0x100000 = some b' ∧ IdentityMapped b' :=
  boot_identity ⟨blank, 0x200000⟩ rfl (by decide) fun _ h₁ =>
    placedBelow_of_le rfl (by decide) h₁

end Loops

end ExperimentalKernel.Paging
