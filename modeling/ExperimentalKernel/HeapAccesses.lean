import ExperimentalKernel.HeapFusion
import ExperimentalKernel.TracedMemory

/-!
# The memory that `free` touches

`free` and what it calls, each access to memory traced. The value is that of the
untraced function.
-/

namespace ExperimentalKernel.Heap
open ByteMemory PointerArray TracedMemory LabelledRuns

section Traced

def subscriptT (a : PtrArray) (m : Mem) (i : ℕ) : Traced ℕ :=
  if i < a.size then get32 m (a.array + 4 * i) else pure 0

def eraseLoopT (m : Mem) (base i : ℕ) : ℕ → Traced Mem
  | 0 => pure m
  | k + 1 => do
    let next ← get32 m (base + 4 * (i + 1))
    let m₁ ← put32 m (base + 4 * i) next
    eraseLoopT m₁ base (i + 1) k

def eraseT (a : PtrArray) (m : Mem) (position : ℕ) : Traced (PtrArray × Mem) := do
  let m₁ ← eraseLoopT m a.array position (sub32 a.size 1 - position)
  pure ({ a with size := sub32 a.size 1 }, m₁)

def findSlotT (m : Mem) (base item i : ℕ) : ℕ → Traced ℕ
  | 0 => pure i
  | k + 1 => do
    let entry ← get32 m (base + 4 * i)
    if entry < item then findSlotT m base item (i + 1) k else pure i

def shiftLoopT (m : Mem) (base tmp i : ℕ) : ℕ → Traced Mem
  | 0 => pure m
  | k + 1 => do
    let tmp₂ ← get32 m (base + 4 * (i + 1))
    let m₁ ← put32 m (base + 4 * (i + 1)) tmp
    shiftLoopT m₁ base tmp₂ (i + 1) k

def orderedAddT (a : PtrArray) (m : Mem) (item : ℕ) : Traced (PtrArray × Mem) := do
  let i ← findSlotT m a.array item 0 a.size
  if i = a.size then
    let m₁ ← put32 m (a.array + 4 * i) item
    pure ({ a with size := add32 a.size 1 }, m₁)
  else
    let tmp ← get32 m (a.array + 4 * i)
    let m₁ ← put32 m (a.array + 4 * i) item
    let m₂ ← shiftLoopT m₁ a.array tmp i (a.size - i)
    pure ({ a with size := add32 a.size 1 }, m₂)

def headerMagicT (m : Mem) (a : ℕ) : Traced ℕ := get32 m a

def headerIsHoleT (m : Mem) (a : ℕ) : Traced Bool := do
  let flag ← get8 m (a + 4)
  pure (flag != 0)

def headerSizeT (m : Mem) (a : ℕ) : Traced ℕ := get32 m (a + 8)

def footerMagicT (m : Mem) (a : ℕ) : Traced ℕ := get32 m a

def footerHeaderT (m : Mem) (a : ℕ) : Traced ℕ := get32 m (a + 4)

def searchFromT (index : PtrArray) (m : Mem) (item i : ℕ) : ℕ → Traced ℕ
  | 0 => pure i
  | k + 1 => do
    let entry ← subscriptT index m i
    if entry ≠ item then searchFromT index m item (i + 1) k else pure i

def searchT (index : PtrArray) (m : Mem) (item : ℕ) : Traced ℕ := searchFromT index m item 0 index.size

def mergeLeftT (m : Mem) (header footer : ℕ) : Traced (ℕ × Bool × Mem) := do
  let testFooter := sub32 header 8
  let magic ← footerMagicT m testFooter
  if magic = heapMagic then
    let left ← footerHeaderT m testFooter
    let isHole ← headerIsHoleT m left
    if isHole = true then
      let cacheSize ← headerSizeT m header
      let header' ← footerHeaderT m testFooter
      let m₁ ← put32 m (footer + 4) header'
      let size ← headerSizeT m₁ header'
      let m₂ ← put32 m₁ (header' + 8) (add32 size cacheSize)
      pure (header', false, m₂)
    else pure (header, true, m)
  else pure (header, true, m)

/-- The size of the right hole is read a second time, for the address of its footer. -/
def mergeRightT (h : KernelHeap) (m : Mem) (header testHeader : ℕ) : Traced (Option State) := do
  let magic ← headerMagicT m testHeader
  if magic = heapMagic then
    let isHole ← headerIsHoleT m testHeader
    if isHole = true then
      let size ← headerSizeT m header
      let testSize ← headerSizeT m testHeader
      let m₁ ← put32 m (header + 8) (add32 size testSize)
      let _ ← headerSizeT m₁ testHeader
      let i ← searchT h.index m₁ testHeader
      if h.index.size ≤ i then pure none
      else
        let r ← eraseT h.index m₁ i
        pure (some ⟨{ h with index := r.1 }, r.2⟩)
    else pure (some ⟨h, m⟩)
  else pure (some ⟨h, m⟩)

def dropEntryT (s : State) (testHeader : ℕ) : Traced State := do
  let i ← searchT s.heap.index s.mem testHeader
  if i < s.heap.index.size then
    let r ← eraseT s.heap.index s.mem i
    pure ⟨{ s.heap with index := r.1 }, r.2⟩
  else pure s

def addEntryT (s : State) (header : ℕ) : Traced State := do
  let r ← orderedAddT s.heap.index s.mem header
  pure ⟨{ s.heap with index := r.1 }, r.2⟩

/-- The end of `free`: the index after the merges. -/
def finishT (s : State) (testHeader header : ℕ) (addHole : Bool) : Traced State := do
  let s₁ ← dropEntryT s testHeader
  if addHole = true then addEntryT s₁ header else pure s₁

/-- The part of `free` after both magic numbers were checked. -/
def releaseT (s : State) (header footer : ℕ) : Traced (Option State) := do
  let m₁ ← put8 s.mem (header + 4) 1
  let l ← mergeLeftT m₁ header footer
  let testHeader := add32 footer 8
  let merged ← mergeRightT s.heap l.2.2 l.1 testHeader
  match merged with
  | none => pure none
  | some s₁ => do
    let s₂ ← finishT s₁ testHeader l.1 l.2.1
    pure (some s₂)

def freeT (s : State) (ptr : ℕ) : Traced (Option State) := do
  if ptr = 0 then pure (some s)
  else
    let header := sub32 ptr 12
    let size ← headerSizeT s.mem header
    let footer := sub32 (add32 header size) 8
    let magic ← headerMagicT s.mem header
    if magic ≠ heapMagic then pure none
    else
      let magic' ← footerMagicT s.mem footer
      if magic' ≠ heapMagic then pure none else releaseT s header footer

end Traced

section Value
variable (a : PtrArray) (m : Mem)

@[simp] theorem value_subscriptT (i : ℕ) : (subscriptT a m i).value = subscript a m i := by
  simp [subscriptT, subscript]

@[simp] theorem value_eraseLoopT (base i k : ℕ) :
    (eraseLoopT m base i k).value = eraseLoop m base i k := by
  induction k generalizing m i with
  | zero => rfl
  | succ k ih => simp [eraseLoopT, eraseLoop, ih]

@[simp] theorem value_eraseT (i : ℕ) : (eraseT a m i).value = erase a m i := by
  simp [eraseT, erase]

@[simp] theorem value_findSlotT (base item i k : ℕ) :
    (findSlotT m base item i k).value = findSlot m base item i k := by
  induction k generalizing i with
  | zero => rfl
  | succ k ih =>
    by_cases h : read32 m (base + 4 * i) < item
    · simp [findSlotT, findSlot, h, ih]
    · simp [findSlotT, findSlot, h]

@[simp] theorem value_shiftLoopT (base tmp i k : ℕ) :
    (shiftLoopT m base tmp i k).value = shiftLoop m base tmp i k := by
  induction k generalizing m tmp i with
  | zero => rfl
  | succ k ih => simp [shiftLoopT, shiftLoop, ih]

@[simp] theorem value_orderedAddT (item : ℕ) :
    (orderedAddT a m item).value = orderedAdd a m item := by
  simp [orderedAddT, orderedAdd]

@[simp] theorem value_headerMagicT (x : ℕ) : (headerMagicT m x).value = headerMagic m x := rfl

@[simp] theorem value_headerIsHoleT (x : ℕ) : (headerIsHoleT m x).value = headerIsHole m x := rfl

@[simp] theorem value_headerSizeT (x : ℕ) : (headerSizeT m x).value = headerSize m x := rfl

@[simp] theorem value_footerMagicT (x : ℕ) : (footerMagicT m x).value = footerMagic m x := rfl

@[simp] theorem value_footerHeaderT (x : ℕ) : (footerHeaderT m x).value = footerHeader m x := rfl

@[simp] theorem value_searchT (item : ℕ) : (searchT a m item).value = search a m item := by
  have hloop : ∀ i k, (searchFromT a m item i k).value = searchFrom a m item i k := by
    intro i k
    induction k generalizing i with
    | zero => rfl
    | succ k ih => simp [searchFromT, searchFrom, ih]
  exact hloop 0 a.size

@[simp] theorem value_mergeLeftT (header footer : ℕ) :
    (mergeLeftT m header footer).value = mergeLeft m header footer := by
  by_cases hm : footerMagic m (sub32 header 8) = heapMagic
  · by_cases hh : headerIsHole m (footerHeader m (sub32 header 8)) = true
    · simp [mergeLeftT, mergeLeft, hm, hh]
    · simp [mergeLeftT, mergeLeft, hm, hh]
  · simp [mergeLeftT, mergeLeft, hm]

@[simp] theorem value_mergeRightT (h : KernelHeap) (header testHeader : ℕ) :
    (mergeRightT h m header testHeader).value = mergeRight h m header testHeader := by
  by_cases hm : headerMagic m testHeader = heapMagic
  · by_cases hh : headerIsHole m testHeader = true
    · simp [mergeRightT, mergeRight, hm, hh]
    · simp [mergeRightT, mergeRight, hm, hh]
  · simp [mergeRightT, mergeRight, hm]

variable (s : State)

@[simp] theorem value_dropEntryT (item : ℕ) : (dropEntryT s item).value = dropEntry s item := by
  simp [dropEntryT, dropEntry]

@[simp] theorem value_addEntryT (item : ℕ) : (addEntryT s item).value = addEntry s item := by
  simp [addEntryT, addEntry]

@[simp] theorem value_finishT (testHeader header : ℕ) (addHole : Bool) :
    (finishT s testHeader header addHole).value =
      if addHole then addEntry (dropEntry s testHeader) header else dropEntry s testHeader := by
  cases addHole <;> simp [finishT]

theorem value_releaseT (header footer : ℕ) :
    (releaseT s header footer).value =
      let l := mergeLeft (write8 s.mem (header + 4) 1) header footer
      (mergeRight s.heap l.2.2 l.1 (add32 footer 8)).map fun s₁ =>
        if l.2.1 then addEntry (dropEntry s₁ (add32 footer 8)) l.1
        else dropEntry s₁ (add32 footer 8) := by
  simp only [releaseT, value_bind, value_put8, value_mergeLeftT, value_mergeRightT]
  cases mergeRight s.heap (mergeLeft (write8 s.mem (header + 4) 1) header footer).2.2
      (mergeLeft (write8 s.mem (header + 4) 1) header footer).1 (add32 footer 8) with
  | none => rfl
  | some s₁ => simp

/-- Tracing does not change what `free` does. -/
theorem value_freeT (ptr : ℕ) : (freeT s ptr).value = free s ptr := by
  by_cases hp : ptr = 0
  · simp [freeT, free, hp]
  by_cases hm : headerMagic s.mem (sub32 ptr 12) = heapMagic
  · by_cases hf : footerMagic s.mem
        (sub32 (add32 (sub32 ptr 12) (headerSize s.mem (sub32 ptr 12))) 8) = heapMagic
    · simp [freeT, free, hp, hm, hf, value_releaseT]
    · simp [freeT, free, hp, hm, hf]
  · simp [freeT, free, hp, hm]

end Value

section Bounds
variable {P : ℕ → Prop} {a : PtrArray} {m : Mem}

theorem within_subscriptT (h : ∀ y, a.array ≤ y → y < a.array + 4 * a.size → P y) (i : ℕ) :
    Within P (subscriptT a m i) := by
  rw [subscriptT, within_ite, within_get32]
  exact ⟨fun hi j hj => h _ (by omega) (by omega), fun _ => within_pure _⟩

theorem within_searchT (h : ∀ y, a.array ≤ y → y < a.array + 4 * a.size → P y) (item : ℕ) :
    Within P (searchT a m item) := by
  have hloop : ∀ k i, Within P (searchFromT a m item i k) := by
    intro k
    induction k with
    | zero => exact fun i => within_pure i
    | succ k ih =>
      intro i
      rw [searchFromT, within_bind, within_ite]
      exact ⟨within_subscriptT h i, fun _ => ih (i + 1), fun _ => within_pure _⟩
  exact hloop a.size 0

theorem within_eraseLoopT {base : ℕ} (k i : ℕ) (m : Mem)
    (h : ∀ y, base + 4 * i ≤ y → y < base + 4 * (i + k + 1) → P y) :
    Within P (eraseLoopT m base i k) := by
  induction k generalizing i m with
  | zero => exact within_pure m
  | succ k ih =>
    rw [eraseLoopT, within_bind, within_bind, within_get32, within_put32]
    exact ⟨fun j hj => h _ (by omega) (by omega), fun j hj => h _ (by omega) (by omega),
      ih (i + 1) _ fun y hy hy' => h y (by omega) (by omega)⟩

theorem within_eraseT (h : ∀ y, a.array ≤ y → y < a.array + 4 * a.size → P y) {i : ℕ}
    (hi : i < a.size) : Within P (eraseT a m i) := by
  have hsub : sub32 a.size 1 = a.size - 1 := sub32_eq (by omega)
  rw [eraseT, within_bind, hsub]
  exact ⟨within_eraseLoopT _ i m fun y hy hy' => h y (by omega) (by omega), within_pure _⟩

theorem within_findSlotT {base item : ℕ} (k i : ℕ)
    (h : ∀ y, base + 4 * i ≤ y → y < base + 4 * (i + k) → P y) :
    Within P (findSlotT m base item i k) := by
  induction k generalizing i with
  | zero => exact within_pure i
  | succ k ih =>
    rw [findSlotT, within_bind, within_get32, within_ite]
    exact ⟨fun j hj => h _ (by omega) (by omega),
      fun _ => ih (i + 1) fun y hy hy' => h y (by omega) (by omega), fun _ => within_pure _⟩

theorem within_shiftLoopT {base : ℕ} (k i tmp : ℕ) (m : Mem)
    (h : ∀ y, base + 4 * (i + 1) ≤ y → y < base + 4 * (i + k + 1) → P y) :
    Within P (shiftLoopT m base tmp i k) := by
  induction k generalizing i tmp m with
  | zero => exact within_pure m
  | succ k ih =>
    rw [shiftLoopT, within_bind, within_bind, within_get32, within_put32]
    exact ⟨fun j hj => h _ (by omega) (by omega), fun j hj => h _ (by omega) (by omega),
      ih (i + 1) _ _ fun y hy hy' => h y (by omega) (by omega)⟩

/-- An entry more than there were is read and written, whatever the capacity. -/
theorem within_orderedAddT (h : ∀ y, a.array ≤ y → y < a.array + 4 * (a.size + 1) → P y) (item : ℕ) :
    Within P (orderedAddT a m item) := by
  have hle : findSlot m a.array item 0 a.size ≤ a.size := by
    rw [findSlot_eq, Nat.zero_add]
    exact (List.takeWhile_sublist _).length_le.trans (words_length _ _ _).le
  rw [orderedAddT, within_bind, value_findSlotT, within_ite]
  refine ⟨within_findSlotT _ _ fun y hy hy' => h y (by omega) (by omega), fun _ => ?_, fun hne => ?_⟩
  · rw [within_bind, within_put32]
    exact ⟨fun j hj => h _ (by omega) (by omega), within_pure _⟩
  · simp only [within_bind, within_get32, within_put32, within_pure, and_true]
    refine ⟨fun j hj => h _ (by omega) (by omega), fun j hj => h _ (by omega) (by omega), ?_⟩
    exact within_shiftLoopT _ _ _ _ fun y hy hy' => h y (by omega) (by omega)

@[simp] theorem within_headerMagicT (x : ℕ) : Within P (headerMagicT m x) ↔ ∀ i < 4, P (x + i) :=
  within_get32 _ _

@[simp] theorem within_headerIsHoleT (x : ℕ) : Within P (headerIsHoleT m x) ↔ P (x + 4) := by
  simp [headerIsHoleT]

@[simp] theorem within_headerSizeT (x : ℕ) : Within P (headerSizeT m x) ↔ ∀ i < 4, P (x + 8 + i) :=
  within_get32 _ _

@[simp] theorem within_footerMagicT (x : ℕ) : Within P (footerMagicT m x) ↔ ∀ i < 4, P (x + i) :=
  within_get32 _ _

@[simp] theorem within_footerHeaderT (x : ℕ) : Within P (footerHeaderT m x) ↔ ∀ i < 4, P (x + 4 + i) :=
  within_get32 _ _

/-- What the merge on the left touches. -/
theorem within_mergeLeftT (header footer : ℕ) :
    Within P (mergeLeftT m header footer) ↔
      (∀ i < 4, P (sub32 header 8 + i)) ∧
      (footerMagic m (sub32 header 8) = heapMagic →
        (∀ i < 4, P (sub32 header 8 + 4 + i)) ∧ P (footerHeader m (sub32 header 8) + 4) ∧
        (headerIsHole m (footerHeader m (sub32 header 8)) = true →
          (∀ i < 4, P (header + 8 + i)) ∧ (∀ i < 4, P (footer + 4 + i)) ∧
            ∀ i < 4, P (footerHeader m (sub32 header 8) + 8 + i))) := by
  by_cases hm : footerMagic m (sub32 header 8) = heapMagic
  · by_cases hh : headerIsHole m (footerHeader m (sub32 header 8)) = true
    · simp [mergeLeftT, hm, hh]
      tauto
    · simp [mergeLeftT, hm, hh]
  · simp [mergeLeftT, hm]

/-- What the merge on the right touches, if it is all in the heap and the index. -/
theorem within_mergeRightT (h : KernelHeap) {header testHeader : ℕ}
    (hidx : ∀ y, h.index.array ≤ y → y < h.index.array + 4 * h.index.size → P y)
    (htest : ∀ i < 12, P (testHeader + i)) (hhead : ∀ i < 4, P (header + 8 + i)) :
    Within P (mergeRightT h m header testHeader) := by
  have hsize : ∀ i < 4, P (testHeader + 8 + i) := fun i hi => by
    rw [Nat.add_assoc]
    exact htest _ (by omega)
  have hsearch : ∀ m' item, Within P (searchT h.index m' item) := fun _ => within_searchT hidx
  rw [mergeRightT, within_bind, within_headerMagicT]
  refine ⟨fun i hi => htest i (by omega), ?_⟩
  by_cases hm : headerMagic m testHeader = heapMagic
  · by_cases hh : headerIsHole m testHeader = true
    · simp only [value_headerMagicT, hm, ↓reduceIte, within_bind, within_headerIsHoleT,
        value_headerIsHoleT, hh, within_headerSizeT, within_put32, value_searchT, hsearch]
      refine ⟨htest 4 (by omega), hhead, hsize, hhead, hsize, trivial, ?_⟩
      rw [within_ite, within_bind]
      exact ⟨fun _ => within_pure _, fun hlt => ⟨within_eraseT hidx (not_le.mp hlt), within_pure _⟩⟩
    · simp [hm, hh, htest 4]
  · simp [hm]

/-- The fields of the heap object that stay, and an index that has not grown. -/
structure IndexKept (s s' : State) : Prop where
  bounds : SameBounds s s'
  size : s'.heap.index.size ≤ s.heap.index.size

theorem IndexKept.refl (s : State) : IndexKept s s := ⟨.refl s, le_rfl⟩

theorem IndexKept.trans {s s' s'' : State} (h : IndexKept s s') (h' : IndexKept s' s'') :
    IndexKept s s'' :=
  ⟨h.bounds.trans h'.bounds, h'.size.trans h.size⟩

/-- An entry that is there was erased. -/
theorem indexKept_erase (s : State) (m' : Mem) {i : ℕ} (hi : i < s.heap.index.size) :
    IndexKept s ⟨{ s.heap with index := (erase s.heap.index m i).1 }, m'⟩ :=
  ⟨⟨rfl, rfl, rfl, rfl⟩, (erase_size m hi).le.trans (Nat.sub_le _ _)⟩

theorem mergeRight_kept {s s' : State} {header testHeader : ℕ}
    (h : mergeRight s.heap m header testHeader = some s') : IndexKept s s' := by
  simp only [mergeRight] at h
  split at h
  · split at h
    · cases h
    · next hlt =>
      cases h
      exact indexKept_erase s _ (not_le.mp hlt)
  · cases h
    exact ⟨⟨rfl, rfl, rfl, rfl⟩, le_rfl⟩

theorem dropEntry_kept (s : State) (item : ℕ) : IndexKept s (dropEntry s item) := by
  simp only [dropEntry]
  split
  · next hlt => exact indexKept_erase s _ hlt
  · exact .refl s

/-- The end of `free` stays in the index and one word more. -/
theorem within_finishT {s : State} (testHeader header : ℕ) (addHole : Bool)
    (hidx : ∀ y, s.heap.index.array ≤ y →
      y < s.heap.index.array + 4 * (s.heap.index.size + 1) → P y) :
    Within P (finishT s testHeader header addHole) := by
  have hkept := dropEntry_kept s testHeader
  have hsize := hkept.size
  have harray := hkept.bounds.array
  have hold : ∀ y, s.heap.index.array ≤ y → y < s.heap.index.array + 4 * s.heap.index.size → P y :=
    fun y hy hy' => hidx y hy (by omega)
  rw [finishT, within_bind, value_dropEntryT, within_ite]
  refine ⟨?_, fun _ => ?_, fun _ => within_pure _⟩
  · rw [dropEntryT, within_bind, value_searchT, within_ite, within_bind]
    exact ⟨within_searchT hold _, fun hi => ⟨within_eraseT hold hi, within_pure _⟩,
      fun _ => within_pure _⟩
  · rw [addEntryT, within_bind]
    exact ⟨within_orderedAddT (fun y hy hy' => hidx y (by omega) (by omega)) _, within_pure _⟩

/-- What `free` touches once it has checked both magic numbers. -/
theorem within_releaseT {s : State} {header footer : ℕ}
    (hidx : ∀ y, s.heap.index.array ≤ y →
      y < s.heap.index.array + 4 * (s.heap.index.size + 1) → P y)
    (hflag : P (header + 4)) (htest : ∀ i < 12, P (add32 footer 8 + i))
    (hleft : Within P (mergeLeftT (write8 s.mem (header + 4) 1) header footer))
    (hhead : ∀ i < 4, P ((mergeLeft (write8 s.mem (header + 4) 1) header footer).1 + 8 + i)) :
    Within P (releaseT s header footer) := by
  simp only [releaseT, within_bind, within_put8, value_put8, value_mergeLeftT, value_mergeRightT]
  refine ⟨hflag, hleft, within_mergeRightT _ (fun y hy hy' => hidx y hy (by omega)) htest hhead, ?_⟩
  split
  · exact within_pure _
  · next s₁ hs₁ =>
    have hkept := mergeRight_kept hs₁
    have hsize := hkept.size
    have harray := hkept.bounds.array
    rw [within_bind]
    exact ⟨within_finishT _ _ _ fun y hy hy' => hidx y (by omega) (by omega), within_pure _⟩

end Bounds

end ExperimentalKernel.Heap
