import ExperimentalKernel.HeapFusion
import ExperimentalKernel.FirstMatches

/-!
# What `findSmallestHole` finds

The search returns the first entry that passes its test. With alignment the test is
coarser than it should be: the size that is left behind the alignment gap is compared
as an unsigned number, so a hole smaller than its gap passes for a very large one.
Without alignment the test is exact, but the first hole that passes need not be the
smallest.
-/

namespace ExperimentalKernel.Heap
open ByteMemory PointerArray FirstMatches LabelledRuns

/-- The distance from the payload of the header `x` up to the next page boundary. -/
def gap (x : ℕ) : ℕ := (pageSize - (x + 12) % pageSize) % pageSize

theorem gap_lt (x : ℕ) : gap x < pageSize := Nat.mod_lt _ (by decide)

theorem gap_aligned (x : ℕ) : (x + gap x + 12) % pageSize = 0 := by
  simp only [gap, pageSize]
  omega

/-- The hole at `x` has room for `need` bytes, behind the gap if a page is asked for. -/
def Qualifies (m : Mem) (need : ℕ) (pageAlign : Bool) (x : ℕ) : Prop :=
  (if pageAlign then gap x else 0) + need ≤ headerSize m x

/-- The hole at `x` is smaller than its gap, and the difference reads as a size of at
least `need`. -/
def Misread (m : Mem) (need : ℕ) (pageAlign : Bool) (x : ℕ) : Prop :=
  pageAlign = true ∧ headerSize m x < gap x ∧ need + gap x ≤ headerSize m x + wordSize

section Entry
variable {m : Mem} {need x : ℕ} {pageAlign : Bool}

theorem add32_mod_pageSize (x : ℕ) : add32 x 12 % pageSize = (x + 12) % pageSize := by
  simp only [add32, wordSize, pageSize]
  omega

theorem offset_eq_gap (x : ℕ) :
    (if add32 x 12 % pageSize ≠ 0 then pageSize - add32 x 12 % pageSize else 0) = gap x := by
  rw [add32_mod_pageSize, gap]
  have hlt : (x + 12) % pageSize < pageSize := Nat.mod_lt _ (by decide)
  generalize (x + 12) % pageSize = r at hlt ⊢
  by_cases h : r = 0
  · rw [if_neg (by simpa using h), h, Nat.sub_zero, Nat.mod_self]
  · rw [if_pos h, Nat.mod_eq_of_lt (by omega)]

theorem Qualifies.not_misread (h : Qualifies m need pageAlign x) : ¬ Misread m need pageAlign x := by
  rintro ⟨rfl, hlt, -⟩
  simp only [Qualifies, ↓reduceIte] at h
  omega

/-- The test accepts a hole that has room, and one that is misread. -/
theorem holeFits_iff (hx : headerIsHole m x = true) :
    holeFits m need pageAlign x = true ↔ Qualifies m need pageAlign x ∨ Misread m need pageAlign x := by
  cases pageAlign with
  | false => simp [holeFits, hx, Qualifies, Misread]
  | true =>
    have hgap : gap x < pageSize := gap_lt x
    have hpage : pageSize < wordSize := by decide
    simp only [holeFits, hx, ↓reduceIte, offset_eq_gap, Qualifies, Misread, Bool.true_and,
      Bool.not_eq_true', decide_eq_false_iff_not, not_lt, true_and]
    by_cases hle : gap x ≤ headerSize m x
    · rw [sub32_eq hle]
      omega
    · rw [sub32, if_neg hle]
      omega

end Entry

/-- The search is exact if and only if an entry with room stands before every
misread one. -/
theorem findSmallestHole_exact_iff {s : State} (need : ℕ) (pageAlign : Bool)
    (hs : ∀ x ∈ s.heap.index.elems s.mem, headerIsHole s.mem x = true) :
    IsFirst (Qualifies s.mem need pageAlign) (s.heap.index.elems s.mem)
        (findSmallestHole s need pageAlign) ↔
      ∀ (i x : ℕ), (s.heap.index.elems s.mem)[i]? = some x → Misread s.mem need pageAlign x →
        ∃ j < i, ∃ y, (s.heap.index.elems s.mem)[j]? = some y ∧ Qualifies s.mem need pageAlign y := by
  rw [findSmallestHole_eq, isFirst_findIdx?_iff fun x hx hq => (holeFits_iff (hs x hx)).mpr (.inl hq)]
  refine forall_congr' fun i => forall_congr' fun x => forall_congr' fun hx => ?_
  have hfits : holeFits s.mem need pageAlign x = true ↔ _ := holeFits_iff (hs x (List.mem_of_getElem? hx))
  constructor
  · exact fun h hmis => h (hfits.mpr (.inr hmis)) fun hq => hq.not_misread hmis
  · exact fun h hfit hq => h ((hfits.mp hfit).resolve_left hq)

/-- A hole that the search without alignment accepts. -/
def Large (m : Mem) (need x : ℕ) : Prop := headerIsHole m x = true ∧ need ≤ headerSize m x

instance (m : Mem) (need x : ℕ) : Decidable (Large m need x) := by
  unfold Large
  infer_instance

/-- If a hole of the index is large enough, the search returns one, and none that is
large enough is smaller. -/
def BestFit (s : State) (need : ℕ) : Prop :=
  (∃ x ∈ s.heap.index.elems s.mem, Large s.mem need x) →
    ∃ i x, findSmallestHole s need false = some i ∧ (s.heap.index.elems s.mem)[i]? = some x ∧
      Large s.mem need x ∧
      ∀ y ∈ s.heap.index.elems s.mem, Large s.mem need y → headerSize s.mem x ≤ headerSize s.mem y

/-- The fit is the best one exactly if, of the holes that are large enough, the one at
the lowest address is the smallest. -/
theorem bestFit_iff (s : State) (need : ℕ) :
    BestFit s need ↔
      ∀ x ∈ ((s.heap.index.elems s.mem).filter (Large s.mem need)).head?,
        ∀ y ∈ (s.heap.index.elems s.mem).filter (Large s.mem need),
          headerSize s.mem x ≤ headerSize s.mem y := by
  have htest : holeFits s.mem need false = fun x => decide (Large s.mem need x) := by
    funext x
    cases hx : headerIsHole s.mem x <;> simp [holeFits, Large, hx]
  rw [← findIdx?_smallest_iff, BestFit, findSmallestHole_eq, htest]
  simp only [decide_eq_true_eq]

/-- The requests `ns` made one after another; whoever got a pointer owns it. -/
theorem run_allocateAll {ns : List ℕ} (hn : ∀ n ∈ ns, n + 20 < wordSize) (w : World) :
    ∃ as live, Run (guarded Step anyStep) w as ⟨(allocateAll w.state ns).2, live⟩ ∧
      w.live ⊆ live ∧ ∀ p ∈ (allocateAll w.state ns).1.zip ns, p.1 ≠ 0 → p ∈ live := by
  induction ns generalizing w with
  | nil => exact ⟨[], w.live, .nil _, List.Subset.refl _, by simp [allocateAll]⟩
  | cons n ns ih =>
    rw [List.forall_mem_cons] at hn
    obtain ⟨as, live, hrun, hsub, hnew⟩ := ih hn.2 ⟨(allocate w.state n false).2,
      granted (allocate w.state n false).1 n ++ w.live⟩
    refine ⟨_, live, .cons ⟨.allocate hn.1, trivial⟩ hrun, fun p hp => hsub (by simp [hp]), ?_⟩
    simp only [allocateAll, List.zip_cons_cons, List.forall_mem_cons]
    refine ⟨fun hp => hsub ?_, hnew⟩
    simp [granted, if_neg hp]

/-- A heap that a run reaches, with a hole of 120 bytes before one of 32. -/
theorem exists_scattered :
    ∃ w, Reached anyStep w ∧
      BootLayout w.state [⟨true, 120, 120, bootStart⟩, ⟨false, 32, 32, bootStart + 120⟩,
        ⟨true, 32, 32, bootStart + 152⟩, ⟨false, 32, 32, bootStart + 184⟩,
        ⟨true, bootSize - 216, bootSize - 216, bootStart + 216⟩] := by
  obtain ⟨s₀, hinit, h₀⟩ := exists_init
  have hserved := (served_wellFormed [100, 12, 12, 12] h₀ (by decide)).1
  have hptrs := ((allocated_of_fits [100, 12, 12, 12] h₀ (by decide)).grouped h₀).1
  obtain ⟨as, live, hrun, -, hlive⟩ := run_allocateAll
    (by decide : ∀ n ∈ [100, 12, 12, 12], n + 20 < wordSize) ⟨s₀, []⟩
  rw [hptrs] at hlive
  generalize (allocateAll s₀ [100, 12, 12, 12]).2 = s at hserved hrun
  have hlay : BootLayout s [⟨false, 120, 120, bootStart⟩, ⟨false, 32, 32, bootStart + 120⟩,
    ⟨false, 32, 32, bootStart + 152⟩, ⟨false, 32, 32, bootStart + 184⟩,
    ⟨true, bootSize - 216, bootSize - 216, bootStart + 216⟩] := hserved
  obtain ⟨s₁, e₁, h₁⟩ := BootLayout.free [] _ _ hlay rfl (.alone _ _ (by simp)) (.alone _ _ (by simp))
    (by simp) (.inr (.inr (by simp [holes, indexSize])))
  obtain ⟨s₂, e₂, h₂⟩ := BootLayout.free [_, _] _ _ h₁ rfl (.alone _ _ (by simp)) (.alone _ _ (by simp))
    (by simp) (.inr (.inr (by simp [holes, indexSize])))
  have hfirst : (bootStart + 12, 100) ∈ live := hlive _ (by simp [pointersFrom]) (by simp)
  have hthird : (bootStart + 152 + 12, 12) ∈ live.erase (bootStart + 12, 100) :=
    (List.mem_erase_of_ne (by simp)).mpr (hlive _ (by simp [pointersFrom]) (by simp))
  exact ⟨⟨s₂, _⟩, ⟨_, _, _, _, _, _, hinit, hrun.append
    (.cons ⟨.free hfirst e₁, trivial⟩ (.single ⟨.free hthird e₂, trivial⟩))⟩, h₂⟩

/-- Its index and what the headers of the holes say. -/
theorem exists_scattered_index :
    ∃ w, Reached anyStep w ∧
      w.state.heap.index.elems w.state.mem = [bootStart, bootStart + 152, bootStart + 216] ∧
      HeaderAt w.state.mem bootStart true 120 ∧ HeaderAt w.state.mem (bootStart + 152) true 32 ∧
      HeaderAt w.state.mem (bootStart + 216) true (bootSize - 216) := by
  obtain ⟨w, hreach, h⟩ := exists_scattered
  obtain ⟨h₁, -, h₃, -, h₅, -⟩ := h.segments
  have hindex := h.represents.index
  rw [h.startAddress] at hindex
  exact ⟨w, hreach, by simpa [holes] using hindex, h₁.header, h₃.header, h₅.header⟩

/-- Without alignment no entry is misread. -/
theorem findSmallestHole_exact_scattered :
    ∃ w, Reached anyStep w ∧ IsFirst (Qualifies w.state.mem 32 false)
      (w.state.heap.index.elems w.state.mem) (findSmallestHole w.state 32 false) := by
  obtain ⟨w, hreach, hindex, h₁, h₂, h₃⟩ := exists_scattered_index
  refine ⟨w, hreach, (findSmallestHole_exact_iff 32 false ?_).mpr fun i x _ h => ?_⟩
  · rw [hindex]
    simp [h₁.flag, h₂.flag, h₃.flag]
  · exact absurd h.1 (by simp)

/-- The first hole has 120 bytes and a gap of 4084, but passes for a page of 12. -/
theorem not_findSmallestHole_exact :
    ∃ w, Reached anyStep w ∧
      (∀ x ∈ w.state.heap.index.elems w.state.mem, headerIsHole w.state.mem x = true ∧
        headerSize w.state.mem x < 2 ^ 31) ∧
      ¬ IsFirst (Qualifies w.state.mem 32 true) (w.state.heap.index.elems w.state.mem)
        (findSmallestHole w.state 32 true) := by
  obtain ⟨w, hreach, hindex, h₁, h₂, h₃⟩ := exists_scattered_index
  have hgap : gap bootStart = 4084 := by decide
  refine ⟨w, hreach, ?_, fun hfirst => ?_⟩
  · rw [hindex]
    simp only [List.forall_mem_cons, h₁.flag, h₁.sized, h₂.flag, h₂.sized, h₃.flag, h₃.sized, true_and]
    refine ⟨by decide, by decide, by decide, by simp⟩
  · have hfits : holeFits w.state.mem 32 true bootStart = true :=
      (holeFits_iff h₁.flag).mpr (.inr ⟨rfl, by rw [h₁.sized, hgap]; decide, by
        rw [h₁.sized, hgap]
        decide⟩)
    have hfind : findSmallestHole w.state 32 true = some 0 := by
      rw [findSmallestHole_eq, hindex, List.findIdx?_cons, hfits]
      rfl
    obtain ⟨x, hx, hq, -⟩ := hfirst.found 0 hfind
    rw [hindex, List.getElem?_cons_zero, Option.some.injEq] at hx
    rw [← hx, Qualifies, h₁.sized, hgap] at hq
    exact absurd hq (by decide)

/-- A request of 12 bytes is cut from the hole of 120 although one of 32 is there. -/
theorem not_bestFit : ∃ w, Reached anyStep w ∧ ¬ BestFit w.state 32 := by
  obtain ⟨w, hreach, hindex, h₁, h₂, h₃⟩ := exists_scattered_index
  refine ⟨w, hreach, fun hbest => ?_⟩
  have hfits : holeFits w.state.mem 32 false bootStart = true := by
    simp [holeFits, h₁.flag, h₁.sized]
  have hfind : findSmallestHole w.state 32 false = some 0 := by
    rw [findSmallestHole_eq, hindex, List.findIdx?_cons, hfits]
    rfl
  have hsmall : Large w.state.mem 32 (bootStart + 152) := ⟨h₂.flag, h₂.sized.ge⟩
  have hmem : bootStart + 152 ∈ w.state.heap.index.elems w.state.mem := by simp [hindex]
  obtain ⟨i, x, hi, hx, -, hmin⟩ := hbest ⟨_, hmem, hsmall⟩
  rw [hfind, Option.some.injEq] at hi
  rw [← hi, hindex, List.getElem?_cons_zero, Option.some.injEq] at hx
  have hle := hmin _ hmem hsmall
  rw [← hx, h₁.sized, h₂.sized] at hle
  exact absurd hle (by decide)

end ExperimentalKernel.Heap
