import ExperimentalKernel.HeapAligned
import ExperimentalKernel.HeapFootprint

/-!
# Page-aligned requests over runs

Page directories and page tables are requested with alignment, also from a heap in which
blocks were freed. Where the gap in front of the block and the rest behind it have room for
their tags, such a request is served as safely as any other.
-/

namespace ExperimentalKernel.Heap
open ByteMemory PointerArray LabelledRuns

section Placing

variable {s : State} {pre post front : List Segment} {t : Segment} {index : PtrArray} {m : Mem}
  {b n r size : ℕ}

/-- `Staged`, and the words of the index area are old ones or addresses in the heap. -/
structure StagedIn (s : State) (pre : List Segment) (t : Segment) (post front : List Segment)
    (index : PtrArray) (m : Mem) : Prop extends Staged s pre t post front index m where
  words : WordsFrom s.heap.index.array s.heap.index.maxSize s.heap.startAddress s.mem m

/-- Nothing is left after the block. -/
theorem StagedIn.exact (hr : Represents s (pre ++ t :: post)) (hleak : t.extent = t.size)
    (hs : StagedIn s pre t post front index m) (hb : b = s.heap.startAddress + span pre + span front)
    (hn : 20 ≤ n) (hend : span front + n = t.size) :
    let s' : State := ⟨{ s.heap with index := index }, writeFooter (writeHeader m b false n) (b + n - 8) b⟩
    Represents s' (pre ++ ((front ++ [⟨false, n, n, b⟩]) ++ post)) ∧ SameArena s s' ∧
      ChangesOnly s s' (s.heap.startAddress + span pre) (s.heap.startAddress + span pre + t.size) := by
  intro s'
  have htop := hr.top
  have hbelow := hr.below
  have hroom := hs.room
  have harray := hs.array
  have hsum := hr.tiles
  rw [span_append, span_cons, hleak] at hsum
  have hspan' : span [t] = t.size := by rw [span_cons, span_nil, hleak, Nat.add_zero]
  have hspan : span (front ++ [⟨false, n, n, b⟩]) = span [t] := by
    rw [hspan', span_append, span_cons, span_nil, Nat.add_zero]
    exact hend
  have hwrite := written_agreeOff m false (a := b) hn
  have hch : ChangesOnly s s' (s.heap.startAddress + span pre)
      (s.heap.startAddress + span pre + t.size) :=
    fun y hy hy' => (hwrite y (by omega)).trans (hs.change y (by omega) hy')
  have ha : SameArena s s' := ⟨rfl, rfl, hs.array, hs.maxSize,
    hs.words.trans (wordsFrom_of_agreeOn (hwrite.agreeOn (by omega)))⟩
  refine ⟨hr.replace [t] hspan ?_ ha (by rw [hspan']; exact hch) ?_ hs.room, ha, hch⟩
  · refine segmentsAt_append.mpr ⟨?_, ?_, trivial⟩
    · exact (hs.fronts.segmentsAt (by omega) _).frame (hwrite.agreeOn (by omega))
    · rw [← hb]
      exact segmentAt_written m false hn (by omega)
  · have hel : index.elems s'.mem = index.elems m := index.elems_congr (hwrite.agreeOn (by omega))
    have hblock : holes (s.heap.startAddress + span pre + span front) [⟨false, n, n, b⟩] = [] := rfl
    change index.elems s'.mem = _
    rw [hel, hs.elems, holes_append, holes_append, holes_append, hblock, List.append_nil, hspan, hspan']

/-- A hole is left after the block. -/
theorem StagedIn.split (hr : Represents s (pre ++ t :: post)) (hleak : t.extent = t.size)
    (hs : StagedIn s pre t post front index m) (hb : b = s.heap.startAddress + span pre + span front)
    (hn : 20 ≤ n) (hrest : 20 ≤ r) (hend : span front + n + r = t.size)
    (hroom : index.size < s.heap.index.maxSize) :
    let m₂ := writeFooter (writeHeader m b false n) (b + n - 8) b
    let m₄ := writeFooter (writeHeader m₂ (b + n) true r) (b + n + r - 8) (b + n)
    let s' : State := ⟨{ s.heap with index := (orderedAdd index m₄ (b + n)).1 },
      (orderedAdd index m₄ (b + n)).2⟩
    Represents s' (pre ++ ((front ++ [⟨false, n, n, b⟩, ⟨true, r, r, b + n⟩]) ++ post)) ∧
      SameArena s s' ∧
      ChangesOnly s s' (s.heap.startAddress + span pre) (s.heap.startAddress + span pre + t.size) := by
  intro m₂ m₄ s'
  have htop := hr.top
  have hbelow := hr.below
  have harray := hs.array
  have hsum := hr.tiles
  rw [span_append, span_cons, hleak] at hsum
  have hspan' : span [t] = t.size := by rw [span_cons, span_nil, hleak, Nat.add_zero]
  have hspan : span (front ++ [⟨false, n, n, b⟩, ⟨true, r, r, b + n⟩]) = span [t] := by
    rw [hspan', span_append, span_cons, span_cons, span_nil, Nat.add_zero, ← Nat.add_assoc]
    exact hend
  have hw₂ : AgreeOff m m₂ b (b + n) := written_agreeOff m false hn
  have hw₄ : AgreeOff m₂ m₄ (b + n) (b + n + r) := written_agreeOff m₂ true hrest
  have hadd := orderedAdd_agreeOff index m₄ (b + n)
  have hch : ChangesOnly s s' (s.heap.startAddress + span pre)
      (s.heap.startAddress + span pre + t.size) :=
    fun y hy hy' => (hadd y (by omega)).trans ((hw₄ y (by omega)).trans
      ((hw₂ y (by omega)).trans (hs.change y (by omega) hy')))
  have hwords : WordsFrom s.heap.index.array s.heap.index.maxSize s.heap.startAddress m₄
      (orderedAdd index m₄ (b + n)).2 := by
    rw [← harray]
    exact orderedAdd_wordsFrom index m₄ (by omega) (by omega)
  have ha : SameArena s s' :=
    ⟨rfl, rfl, (orderedAdd_array _ _ _).trans hs.array, (orderedAdd_maxSize _ _ _).trans hs.maxSize,
      (hs.words.trans (wordsFrom_of_agreeOn ((hw₂.agreeOn (by omega)).trans
        (hw₄.agreeOn (by omega))))).trans hwords⟩
  have hsize : (orderedAdd index m₄ (b + n)).1.size = index.size + 1 :=
    orderedAdd_size m₄ _ (by omega)
  obtain ⟨hpre, -, hpost⟩ := segmentsAt_append.mp hr.segments
  refine ⟨hr.replace [t] hspan ?_ ha (by rw [hspan']; exact hch) ?_ (hsize.le.trans hroom), ha, hch⟩
  · refine segmentsAt_append.mpr ⟨?_, ?_, ?_, trivial⟩
    · exact (hs.fronts.segmentsAt (by omega) _).frame ((hw₂.agreeOn (by omega)).trans
        ((hw₄.agreeOn (by omega)).trans (hadd.agreeOn (by omega))))
    · rw [← hb]
      have hblock : SegmentAt m₂ s.heap.endAddress b ⟨false, n, n, b⟩ :=
        segmentAt_written m false hn (by omega)
      exact hblock.frame ((hw₄.agreeOn (by simp)).trans (hadd.agreeOn (by omega)))
    · rw [← hb]
      have hhole : SegmentAt m₄ s.heap.endAddress (b + n) ⟨true, r, r, b + n⟩ :=
        segmentAt_written m₂ true hrest (by omega)
      exact hhole.frame (hadd.agreeOn (by omega))
  · have hel : index.elems m₄ = index.elems m :=
      index.elems_congr ((hw₂.agreeOn (by omega)).trans (hw₄.agreeOn (by omega)))
    have htail : holes (s.heap.startAddress + span pre + span front)
        [⟨false, n, n, b⟩, ⟨true, r, r, b + n⟩] = [b + n] := by
      simp [holes, hb]
    rw [hleak] at hpost
    change (orderedAdd index m₄ (b + n)).1.elems (orderedAdd index m₄ (b + n)).2 = _
    rw [orderedAdd_elems m₄ (by omega) (by omega), hel, hs.elems, ← List.append_assoc,
      orderedInsert_between, holes_append, holes_append, hspan, hspan', holes_append, htail]
    · simp
    · intro x hx
      rcases List.mem_append.mp hx with hx | hx
      · have := mem_holes_bounds hpre hx
        omega
      · have := hs.fronts.hole_bounds hx
        omega
    · intro y hy
      have := mem_holes_bounds hpost hy
      omega

/-- Placing a block of `n` bytes so that `r` are left. -/
theorem StagedIn.placeBlock (hr : Represents s (pre ++ t :: post)) (hleak : t.extent = t.size)
    (hs : StagedIn s pre t post front index m) (hb : b = s.heap.startAddress + span pre + span front)
    (hn : size + 20 = n) (hend : span front + n + r = t.size)
    (hrest : r = 0 ∨ 20 ≤ r ∧ index.size < s.heap.index.maxSize) :
    let s' := Heap.placeBlock { s.heap with index := index } m b (n + r) size n
    Represents s' (pre ++ ((front ++ ⟨false, n, n, b⟩ :: leftOver (b + n) r) ++ post)) ∧
      SameArena s s' ∧
      ChangesOnly s s' (s.heap.startAddress + span pre) (s.heap.startAddress + span pre + t.size) := by
  intro s'
  have htop := hr.top
  have hsum := hr.tiles
  rw [span_append, span_cons, hleak] at hsum
  rcases hrest with rfl | ⟨hrest, hroom⟩
  · have heq : s' = _ := placeBlock_exact { s.heap with index := index } m hn (by omega)
    rw [heq]
    exact hs.exact hr hleak hb (by omega) (by omega)
  · have hfit : b + (n + r) ≤ s.heap.endAddress := by omega
    have heq : s' = _ := placeBlock_split { s.heap with index := index } m hn
      (by omega : n + 20 ≤ n + r) hfit htop
    rw [Nat.add_sub_cancel_left, ← Nat.add_assoc] at heq
    rw [heq, leftOver_pos _ (by omega)]
    exact hs.split hr hleak hb (by omega) hrest hend hroom

/-- The entry of the chosen hole is erased. -/
theorem Represents.staged_erase (hr : Represents s (pre ++ t :: post)) (ht : t.isHole = true)
    (hleak : t.extent = t.size) :
    let i := (holes s.heap.startAddress pre).length
    subscript s.heap.index s.mem i = s.heap.startAddress + span pre ∧
      StagedIn s pre t post [] (erase s.heap.index s.mem i).1 (erase s.heap.index s.mem i).2 ∧
      (erase s.heap.index s.mem i).1.size < s.heap.index.maxSize := by
  intro i
  obtain ⟨hsub, hu⟩ := unlisted_erase hr ht
  refine ⟨hsub, ⟨⟨hu.array, hu.maxSize, hu.room.le, trivial, fun y _ hy => hu.agree y hy, ?_⟩,
    hu.words⟩, hu.room⟩
  rw [hu.elems, hleak]
  rfl

/-- The gap becomes a hole that keeps the entry of the old one. -/
theorem Represents.staged_front (hr : Represents s (pre ++ t :: post)) (ht : t.isHole = true)
    (hleak : t.extent = t.size) (hg : 20 ≤ gap (s.heap.startAddress + span pre))
    (hroom : gap (s.heap.startAddress + span pre) ≤ t.size) :
    let x := s.heap.startAddress + span pre
    StagedIn s pre t post [⟨true, gap x, gap x, x⟩] s.heap.index (frontMem s.mem x) := by
  intro x
  have htop := hr.top
  have hbelow := hr.below
  have hsize := hr.room
  have hsum := hr.tiles
  rw [span_append, span_cons, hleak] at hsum
  have hag := frontMem_agreeOff s.mem hg
  refine ⟨⟨rfl, rfl, hsize, ⟨frontMem_intact _ _ hg (by omega), trivial⟩,
    fun y hy _ => hag y (by simpa using hy), ?_⟩, wordsFrom_of_agreeOn (hag.agreeOn (by omega))⟩
  rw [s.heap.index.elems_congr (hag.agreeOn (by omega)), hr.index, holes_append]
  simp [holes, ht, hleak]

/-- A page is placed behind a gap that has room for tags. -/
theorem Represents.allocate_behind (hr : Represents s (pre ++ t :: post)) (ht : t.isHole = true)
    (hleak : t.extent = t.size)
    (hfind : findSmallestHole s (size + 20) true = some (holes s.heap.startAddress pre).length)
    (hg : 20 ≤ gap (s.heap.startAddress + span pre)) (hle : gap (s.heap.startAddress + span pre) ≤ 4084)
    (hsize : gap (s.heap.startAddress + span pre) + (size + 20) + r = t.size)
    (hrest : r = 0 ∨ 20 ≤ r ∧ s.heap.index.size < s.heap.index.maxSize) :
    let x := s.heap.startAddress + span pre
    let b := x + gap x
    ∃ s', allocate s size true = (b + 12, s') ∧
      Represents s' (pre ++ (([⟨true, gap x, gap x, x⟩] ++
        ⟨false, size + 20, size + 20, b⟩ :: leftOver (b + (size + 20)) r) ++ post)) ∧
      SameArena s s' ∧ ChangesOnly s s' x (x + t.size) := by
  intro x b
  have htop := hr.top
  have hsum := hr.tiles
  rw [span_append, span_cons, hleak] at hsum
  have hsized := (segmentsAt_append.mp hr.segments).2.1.header.sized
  obtain ⟨hsub, -, -⟩ := hr.staged_erase ht hleak
  have hfront := hr.staged_front ht hleak hg (by omega)
  have hfound := allocate_behind_gap rfl (by omega) hfind hsub hsized (by omega)
  rw [splitFront_eq _ _ hg hle (by omega) (add_pageSize_lt (by omega)), absorb_gap hg (by omega)] at hfound
  have hsplit : t.size - gap (s.heap.startAddress + span pre) = size + 20 + r := by omega
  have hb : s.heap.startAddress + span pre + gap (s.heap.startAddress + span pre) + 12 < wordSize := by
    omega
  simp only at hfound
  rw [add32_eq hb, hsplit] at hfound
  have hend : span [⟨true, gap x, gap x, x⟩] + (size + 20) + r = t.size := by
    rw [span_cons, span_nil]
    exact hsize
  obtain ⟨hrep, ha, hch⟩ := hfront.placeBlock hr hleak (b := x + gap x) (by rw [span_cons, span_nil]; rfl)
    rfl hend hrest
  exact ⟨_, hfound, hrep, ha, hch⟩

/-- A block takes in less than the tags of a hole. -/
theorem absorb_lt {size holeSize : ℕ} (hsize : size + 20 ≤ holeSize) :
    (absorb size (size + 20) holeSize).2 < size + 40 := by
  rw [absorb, sub32_eq hsize]
  split
  · simp only
    omega
  · simp only
    omega

/-- A page is placed in a hole whose gap and rest have room for their tags. -/
theorem Represents.allocate_page (hr : Represents s (pre ++ t :: post)) (ht : t.isHole = true)
    (hleak : t.extent = t.size)
    (hfind : findSmallestHole s (size + 20) true = some (holes s.heap.startAddress pre).length)
    (hroom : gap (s.heap.startAddress + span pre) + (size + 20) ≤ t.size)
    (hgap : gap (s.heap.startAddress + span pre) = 0 ∨
      20 ≤ gap (s.heap.startAddress + span pre) ∧ gap (s.heap.startAddress + span pre) ≤ 4084 ∧
        (gap (s.heap.startAddress + span pre) + (size + 20) = t.size ∨
          gap (s.heap.startAddress + span pre) + (size + 20) + 20 ≤ t.size ∧
            s.heap.index.size < s.heap.index.maxSize)) :
    let x := s.heap.startAddress + span pre
    ∃ f n r s', allocate s size true = (x + f + 12, s') ∧ (x + f + 12) % pageSize = 0 ∧
      size + 20 ≤ n ∧ n < size + 40 ∧ f + n + r = t.size ∧
      Represents s' (pre ++ ((leftOver x f ++ ⟨false, n, n, x + f⟩ :: leftOver (x + f + n) r) ++ post)) ∧
      SameArena s s' ∧ ChangesOnly s s' x (x + t.size) := by
  intro x
  have htop := hr.top
  have hsum := hr.tiles
  rw [span_append, span_cons, hleak] at hsum
  have haligned := gap_aligned (s.heap.startAddress + span pre)
  rcases hgap with hgap | ⟨hg, hle, hrest⟩
  · obtain ⟨hsub, hstaged, hless⟩ := hr.staged_erase ht hleak
    have hsized := (segmentsAt_append.mp hr.segments).2.1.header.sized
    rw [hgap, Nat.zero_add] at hroom
    have hfound := allocate_at_boundary rfl (by omega) hfind hsub hsized (by omega) hgap
    obtain ⟨n, r, habs, hn, hsum', hr'⟩ := absorb_cases hroom (by omega)
    have hlt := absorb_lt hroom
    rw [habs] at hlt
    rw [habs, ← hsum'] at hfound
    have hn' : n - 20 + 20 = n := by omega
    have hend : span [] + n + r = t.size := by rw [span_nil, Nat.zero_add, hsum']
    obtain ⟨hrep, ha, hch⟩ :=
      hstaged.placeBlock hr hleak rfl hn' hend (hr'.imp_right fun h => ⟨h, hless⟩)
    rw [hgap] at haligned
    exact ⟨0, n, r, _, hfound, haligned, hn, hlt, by rw [Nat.zero_add, hsum'], hrep, ha, hch⟩
  · obtain ⟨r, hr'⟩ := Nat.exists_eq_add_of_le hroom
    obtain ⟨s', hs', hrep, ha, hch⟩ := hr.allocate_behind ht hleak hfind hg hle hr'.symm (by omega)
    have hpos : gap x ≠ 0 := Nat.ne_of_gt (lt_of_lt_of_le (Nat.succ_pos 19) hg)
    rw [← leftOver_pos x hpos] at hrep
    exact ⟨gap x, size + 20, r, s', hs', haligned, le_rfl, by omega, hr'.symm, hrep, ha, hch⟩

/-- The entry that `findSmallestHole` returns is that of a hole. -/
theorem Represents.found {segs : List Segment} (hr : Represents s segs) {need i : ℕ}
    {pageAlign : Bool} (hfind : findSmallestHole s need pageAlign = some i) :
    ∃ pre t post, segs = pre ++ t :: post ∧ t.isHole = true ∧
      i = (holes s.heap.startAddress pre).length := by
  rw [findSmallestHole_eq, List.findIdx?_eq_some_iff_getElem, hr.index] at hfind
  obtain ⟨hi, -, -⟩ := hfind
  obtain ⟨pre, t, post, rfl, ht, -, hlen⟩ := holes_getElem (List.getElem?_eq_getElem hi)
  exact ⟨pre, t, post, rfl, ht, hlen⟩

theorem noLeak_leftOver (a r : ℕ) : NoLeak (leftOver a r) := by
  intro u hu
  by_cases hr : r = 0
  · rw [hr] at hu
    cases hu
  · rw [leftOver_pos a hr] at hu
    obtain rfl := List.mem_singleton.mp hu
    exact fun _ => rfl

end Placing

/-- The hole that a request for a page takes has room for the gap in front, and the gap and the
rest are empty or have room for their tags. -/
def Placeable (s : State) (size : ℕ) : Prop :=
  ∀ i, findSmallestHole s (size + 20) true = some i →
    let x := subscript s.heap.index s.mem i
    let n := headerSize s.mem x
    gap x + (size + 20) ≤ n ∧ (gap x = 0 ∨ 20 ≤ gap x ∧ gap x ≤ 4084 ∧
      (gap x + (size + 20) = n ∨
        gap x + (size + 20) + 20 ≤ n ∧ s.heap.index.size < s.heap.index.maxSize))

/-- What the heap is asked for: the actions of a world, and pages. -/
inductive Service where
  | plain (a : Action)
  | page (size : ℕ)

/-- `allocate`, and the world after it. -/
def World.request (w : World) (size : ℕ) (pageAlign : Bool) : ℕ × World :=
  let (ptr, s) := Heap.allocate w.state size pageAlign
  (ptr, ⟨s, granted ptr size ++ w.live⟩)

inductive Serve : World → Service → World → Prop
  | plain {w w' : World} {a : Action} (h : Step w a w') : Serve w (.plain a) w'
  | page {w : World} {size : ℕ} (h : size + 20 < wordSize) :
      Serve w (.page size) (w.request size true).2

def Servable (w : World) : Service → Prop
  | .plain a => Admissible w a
  | .page size => Placeable w.state size

/-- A service leaves alone the payloads that are live before and after it, and a page begins at a
page boundary. -/
def ServedSafely (w : World) : Service → World → Prop
  | .plain a, w' => KeepsPayloads w a w'
  | .page size, w' => (∀ p ∈ w.live, PayloadKept w.state.mem w'.state.mem p) ∧
      (w.request size true).1 % pageSize = 0

section Runs

variable {w w' : World} {size : ℕ}

theorem worldInv_page (hw : WorldInv w) (h : size + 20 < wordSize)
    (hplace : Placeable w.state size) :
    WorldInv (w.request size true).2 ∧
      (∀ p ∈ w.live, PayloadKept w.state.mem (w.request size true).2.state.mem p) ∧
      (w.request size true).1 % pageSize = 0 := by
  obtain ⟨hclean, segs, hr, hleak, ho⟩ := hw
  have hadd : add32 size 20 = size + 20 := add32_eq h
  cases hfind : findSmallestHole w.state (size + 20) true with
  | none =>
    have hrefused : Heap.allocate w.state size true = (0, w.state) := by
      simp only [Heap.allocate, hadd, hfind]
    simp only [World.request, hrefused, granted, ↓reduceIte, List.nil_append]
    exact ⟨⟨hclean, segs, hr, hleak, ho⟩, fun p _ => AgreeOn.refl _ _ _, rfl⟩
  | some i =>
    obtain ⟨pre, t, post, rfl, ht, rfl⟩ := hr.found hfind
    have hext := hleak t (by simp) ht
    obtain ⟨hsub, -, -⟩ := hr.staged_erase ht hext
    obtain ⟨hroom, hgap⟩ := hplace _ hfind
    simp only [hsub, (segmentsAt_append.mp hr.segments).2.1.header.sized] at hroom hgap
    obtain ⟨f, n, r, s', hs', haligned, hn, -, hsum, hr', ha, hch⟩ :=
      hr.allocate_page ht hext hfind hroom hgap
    have hspan : span (leftOver (w.state.heap.startAddress + span pre) f ++
        ⟨false, n, n, w.state.heap.startAddress + span pre + f⟩ ::
          leftOver (w.state.heap.startAddress + span pre + f + n) r) = span [t] := by
      simp only [span_append, span_cons, span_nil, span_leftOver, hext]
      omega
    have hplaced : (w.state.heap.startAddress + span pre, t) ∈
        placed w.state.heap.startAddress (pre ++ t :: post) := by simp
    have hapart : ∀ y u, (y, u) ∈ placed w.state.heap.startAddress (pre ++ t :: post) →
        u.isHole = false → y + u.extent ≤ w.state.heap.startAddress + span pre ∨
          w.state.heap.startAddress + span pre + t.extent ≤ y := by
      intro y u hu hb
      refine placed_disjoint hu hplaced fun he => ?_
      rw [Prod.mk.injEq] at he
      rw [he.2, ht] at hb
      simp at hb
    simp only [World.request, hs', granted, Nat.add_eq_zero_iff, OfNat.ofNat_ne_zero, and_false, ↓reduceIte,
      List.singleton_append]
    refine ⟨⟨hclean.transfer ha, _, hr', ?_, ?_⟩, ?_, haligned⟩
    · refine (hleak.of_sublist (by simp)).append (NoLeak.append ?_ (hleak.of_sublist (by simp)))
      refine (noLeak_leftOver _ _).append fun u hu => ?_
      rcases List.mem_cons.mp hu with rfl | hu
      · exact fun h => absurd h Bool.false_ne_true
      · exact noLeak_leftOver _ _ u hu
    · rw [ha.startAddress]
      have hmono := ho.mono (List.Sublist.refl _) fun y u hu hb _ =>
        mem_placed_replace hspan (by simpa using ht) hb (hu : _ ∈ placed _ (pre ++ ([t] ++ post)))
      refine ⟨List.pairwise_cons.mpr ⟨fun p hp => ?_, ho.distinct⟩, fun p hp => ?_⟩
      · obtain ⟨y, v, hv, hb, hy, -⟩ := ho.block p hp
        have hsv := (hr.segments.at_placed hv).size_ge
        have hlv := (hr.segments.at_placed hv).size_le
        have := hapart y v hv hb
        simp only at hsv hlv ⊢
        omega
      · rcases List.mem_cons.mp hp with rfl | hp
        · exact ⟨_, ⟨false, n, n, w.state.heap.startAddress + span pre + f⟩, by simp, rfl, rfl, hn⟩
        · exact hmono.block p hp
    · intro p hp
      refine ho.kept hr hch hp fun y u hu hb _ => ?_
      have := hapart y u hu hb
      omega

/-- One service keeps the invariant and the payloads. -/
theorem worldInv_serve {a : Service} (hw : WorldInv w) (h : Serve w a w') (ha : Servable w a) :
    WorldInv w' ∧ ServedSafely w a w' := by
  cases h with
  | plain h => exact worldInv_step hw h ha
  | page h => exact worldInv_page hw h ha

/-- A payload stays live until it is freed. -/
theorem Serve.live {a : Service} {p : ℕ × ℕ} (h : Serve w a w') (hp : p ∈ w.live)
    (hfree : a ≠ .plain (.free p.1)) : p ∈ w'.live := by
  cases h with
  | plain h =>
    cases h with
    | allocate h => exact List.mem_append_right _ hp
    | @free ptr size s' h hf =>
      refine (List.mem_erase_of_ne ?_).mpr hp
      rintro rfl
      exact hfree rfl
    | write h hl hh => exact hp
  | page h => exact List.mem_append_right _ hp

theorem Serve.bounds {a : Service} (h : Serve w a w') : SameBounds w.state w'.state := by
  cases h with
  | plain h =>
    cases h with
    | allocate h => exact allocate_bounds _ _ _
    | free h hf => exact free_bounds hf
    | write h hl hh => exact ⟨rfl, rfl, rfl, rfl⟩
  | page h => exact allocate_bounds _ _ _

theorem worldInv_request {pageAlign : Bool} (hw : WorldInv w) (h : size + 20 < wordSize)
    (hplace : pageAlign = true → Placeable w.state size) :
    WorldInv (w.request size pageAlign).2 ∧
      (∀ p ∈ w.live, PayloadKept w.state.mem (w.request size pageAlign).2.state.mem p) ∧
      (pageAlign = true → (w.request size pageAlign).1 % pageSize = 0) := by
  cases pageAlign with
  | false =>
    obtain ⟨hinv, hkept⟩ := worldInv_allocate hw h
    exact ⟨hinv, hkept, fun he => nomatch he⟩
  | true =>
    obtain ⟨hinv, hkept, haligned⟩ := worldInv_page hw h (hplace rfl)
    exact ⟨hinv, hkept, fun _ => haligned⟩

theorem World.request_live {pageAlign : Bool} (h : (w.request size pageAlign).1 ≠ 0) :
    (w.request size pageAlign).2.live = ((w.request size pageAlign).1, size) :: w.live :=
  congrArg (· ++ w.live) (if_neg h)

/-- Requests one after another, each with its size and alignment: the payloads and the world
after them. -/
def World.requests (w : World) : List (ℕ × Bool) → List (ℕ × ℕ) × World
  | [] => ([], w)
  | (size, pageAlign) :: rs =>
    let (ptr, w₁) := w.request size pageAlign
    let (ps, w₂) := w₁.requests rs
    ((ptr, size) :: ps, w₂)

/-- Every request is granted, and the pages can be placed. -/
def World.Grants (w : World) : List (ℕ × Bool) → Prop
  | [] => True
  | (size, pageAlign) :: rs => size + 20 < wordSize ∧ (w.request size pageAlign).1 ≠ 0 ∧
      (pageAlign = true → Placeable w.state size) ∧ (w.request size pageAlign).2.Grants rs

/-- What is known of the payloads `ps` that the requests `rs` were granted. -/
structure Granting (w : World) (rs : List (ℕ × Bool)) (ps : List (ℕ × ℕ)) (w' : World) : Prop where
  inv : WorldInv w'
  live : w'.live = ps.reverse ++ w.live
  length : ps.length = rs.length
  payload : ∀ p ∈ ps, p.1 ≠ 0 ∧ ∃ r ∈ rs, p.2 = r.1 ∧ (r.2 = true → p.1 % pageSize = 0)
  bounds : SameBounds w.state w'.state
  kept : ∀ p ∈ w.live, PayloadKept w.state.mem w'.state.mem p

theorem WorldInv.requests {rs : List (ℕ × Bool)} {ps : List (ℕ × ℕ)} (hw : WorldInv w)
    (hg : w.Grants rs) (h : w.requests rs = (ps, w')) : Granting w rs ps w' := by
  induction rs generalizing w ps with
  | nil =>
    obtain ⟨rfl, rfl⟩ := Prod.mk.inj h
    exact ⟨hw, rfl, rfl, fun _ hp => (nomatch hp), .refl _, fun _ _ => AgreeOn.refl _ _ _⟩
  | cons r rs ih =>
    obtain ⟨size, pageAlign⟩ := r
    obtain ⟨hsize, hnull, hplace, hrest⟩ := hg
    obtain ⟨hinv, hkept, haligned⟩ := worldInv_request hw hsize hplace
    have hlive := World.request_live hnull
    have hbounds : SameBounds w.state (w.request size pageAlign).2.state := allocate_bounds _ _ _
    rw [World.requests] at h
    generalize w.request size pageAlign = q at *
    obtain ⟨rfl, rfl⟩ := Prod.mk.inj h
    have htail := ih hinv hrest rfl
    refine ⟨htail.inv, ?_, congrArg (· + 1) htail.length, fun p hp => ?_, hbounds.trans htail.bounds,
      fun p hp => ?_⟩
    · rw [htail.live, hlive, List.reverse_cons, List.append_assoc, List.singleton_append]
    · rcases List.mem_cons.mp hp with rfl | hp
      · exact ⟨hnull, _, List.mem_cons_self, rfl, haligned⟩
      · obtain ⟨h0, r, hr, hrp⟩ := htail.payload p hp
        exact ⟨h0, r, List.mem_cons_of_mem _ hr, hrp⟩
    · have hp₁ : p ∈ q.2.live := hlive ▸ List.mem_cons_of_mem _ hp
      exact (hkept p hp).trans (htail.kept p hp₁)

section Granting

variable {rs : List (ℕ × Bool)} {ps : List (ℕ × ℕ)} (h : Granting w rs ps w')
include h

/-- New payloads do not overlap old ones. -/
theorem Granting.fresh {p q : ℕ × ℕ} (hp : p ∈ ps) (hq : q ∈ w.live) :
    p.1 + p.2 ≤ q.1 ∨ q.1 + q.2 ≤ p.1 := by
  have hd := h.inv.apart.disjoint
  rw [h.live, List.pairwise_append] at hd
  exact hd.2.2 p (List.mem_reverse.mpr hp) q hq

theorem Granting.apart : ps.Pairwise fun p q => p.1 + p.2 ≤ q.1 ∨ q.1 + q.2 ≤ p.1 := by
  have hd := h.inv.apart.disjoint
  rw [h.live, List.pairwise_append, List.pairwise_reverse] at hd
  exact hd.1.imp Or.symm

theorem Granting.inside {p : ℕ × ℕ} (hp : p ∈ ps) :
    w.state.heap.startAddress ≤ p.1 ∧ p.1 + p.2 ≤ w.state.heap.endAddress := by
  rw [← h.bounds.startAddress, ← h.bounds.endAddress]
  apply h.inv.apart.inside
  rw [h.live]
  exact List.mem_append_left _ (List.mem_reverse.mpr hp)

end Granting

/-- Live payloads other than `p` do not overlap it. -/
theorem PayloadsApart.apart {p q : ℕ × ℕ} (h : PayloadsApart w) (hp : p ∈ w.live) (hq : q ∈ w.live)
    (hne : p ≠ q) : p.1 + p.2 ≤ q.1 ∨ q.1 + q.2 ≤ p.1 := by
  have hsymm : Std.Symm fun p q : ℕ × ℕ => p.1 + p.2 ≤ q.1 ∨ q.1 + q.2 ≤ p.1 := ⟨fun _ _ => Or.symm⟩
  exact h.disjoint.forall hp hq hne

theorem World.requests_cons (w : World) (size : ℕ) (pageAlign : Bool) (rs : List (ℕ × Bool)) :
    w.requests ((size, pageAlign) :: rs) =
      (((w.request size pageAlign).1, size) :: ((w.request size pageAlign).2.requests rs).1,
        ((w.request size pageAlign).2.requests rs).2) := rfl

theorem World.requests_append (w : World) (rs rs' : List (ℕ × Bool)) : w.requests (rs ++ rs') =
    ((w.requests rs).1 ++ ((w.requests rs).2.requests rs').1, ((w.requests rs).2.requests rs').2) := by
  induction rs generalizing w with
  | nil => rfl
  | cons r rs ih => rw [List.cons_append, requests_cons, requests_cons, ih, List.cons_append]

theorem World.requests_replicate (w : World) (size : ℕ) (pageAlign : Bool) (k : ℕ) :
    ∃ ptrs : List ℕ, (w.requests (List.replicate k (size, pageAlign))).1 = ptrs.map (·, size) := by
  induction k generalizing w with
  | zero => exact ⟨[], rfl⟩
  | succ k ih =>
    obtain ⟨ptrs, hptrs⟩ := ih (w.request size pageAlign).2
    refine ⟨(w.request size pageAlign).1 :: ptrs, ?_⟩
    rw [List.replicate_succ, requests_cons, List.map_cons, ← hptrs]

/-- A world that services lead to from the boot heap. -/
def Served (w : World) : Prop :=
  ∃ m maxAddress supervisor readOnly s as,
    init m start (start + initialSize) maxAddress supervisor readOnly = some s ∧
      Run (guarded Serve Servable) ⟨s, []⟩ as w

theorem worldInv_served (h : Served w) : WorldInv w := by
  obtain ⟨m, maxAddress, supervisor, readOnly, s, as, hinit, hrun⟩ := h
  exact hrun.invariant (P := WorldInv)
    (fun w a w' hw hstep => (worldInv_serve hw hstep.1 hstep.2).1)
    (worldInv_boot (init_bootLayout hinit))

/-- Pages among the requests do no harm to any payload. -/
theorem payloads_served (h : Served w) :
    PayloadsApart w ∧ ∀ a w', Serve w a w' → Servable w a → ServedSafely w a w' :=
  have hw := worldInv_served h
  ⟨hw.apart, fun _ _ hserve ha => (worldInv_serve hw hserve ha).2⟩

theorem Represents.placeable {s : State} {pre post : List Segment} {t : Segment}
    (hr : Represents s (pre ++ t :: post)) (ht : t.isHole = true) (hleak : t.extent = t.size)
    (hfind : findSmallestHole s (size + 20) true = some (holes s.heap.startAddress pre).length)
    (hroom : gap (s.heap.startAddress + span pre) + (size + 20) ≤ t.size)
    (hgap : let x := s.heap.startAddress + span pre
      gap x = 0 ∨ 20 ≤ gap x ∧ gap x ≤ 4084 ∧ (gap x + (size + 20) = t.size ∨
        gap x + (size + 20) + 20 ≤ t.size ∧ s.heap.index.size < s.heap.index.maxSize)) :
    Placeable s size := by
  intro i hi
  obtain rfl := Option.some.inj (hfind.symm.trans hi)
  obtain ⟨hsub, -, -⟩ := hr.staged_erase ht hleak
  simp only [hsub, (segmentsAt_append.mp hr.segments).2.1.header.sized]
  exact ⟨hroom, hgap⟩

/-- No hole of the segments has room for `need` bytes in a page, and none is misread. -/
def Tight (a need : ℕ) (segs : List Segment) : Prop :=
  ∀ x u, (x, u) ∈ placed a segs → u.isHole = true → gap x ≤ u.size ∧ u.size < gap x + need

theorem findSmallestHole_page {s : State} {pre post : List Segment} {t : Segment} {need : ℕ}
    (hr : Represents s (pre ++ t :: post)) (ht : t.isHole = true)
    (hroom : gap (s.heap.startAddress + span pre) + need ≤ t.size)
    (hpre : Tight s.heap.startAddress need pre) :
    findSmallestHole s need true = some (holes s.heap.startAddress pre).length := by
  obtain ⟨hsegs, hseg, -⟩ := segmentsAt_append.mp hr.segments
  have hnone : (holes s.heap.startAddress pre).findIdx? (holeFits s.mem need true) = none := by
    rw [List.findIdx?_eq_none_iff]
    intro x hx
    obtain ⟨p, u, q, rfl, hu, rfl⟩ := mem_holes_iff.mp hx
    obtain ⟨hle, hlt⟩ := hpre (s.heap.startAddress + span p) u (by simp) hu
    have hhead := (segmentsAt_append.mp hsegs).2.1.header
    rw [Bool.eq_false_iff, ne_eq, holeFits_iff (hhead.flag.trans hu), Qualifies, Misread, hhead.sized]
    simp only [↓reduceIte, true_and]
    omega
  have hfits : holeFits s.mem need true (s.heap.startAddress + span pre) = true :=
    (holeFits_iff (hseg.header.flag.trans ht)).mpr (.inl (hroom.trans hseg.header.sized.ge))
  rw [findSmallestHole_eq, hr.index, holes_append, List.findIdx?_append, hnone]
  simp [holes, ht, List.findIdx?_cons, hfits]

/-- A page that is cut from the last hole of the boot heap. -/
theorem BootLayout.page_last {s : State} {bs : List Segment} {n g : ℕ} (size : ℕ)
    (h : BootLayout s (bs ++ [⟨true, n, n, bootStart + span bs⟩]))
    (hg : gap (bootStart + span bs) = g) (hlow : 20 ≤ g) (hhigh : g ≤ 4084)
    (hroom : g + (size + 20) + 20 ≤ n) (hindex : (holes bootStart bs).length + 1 < indexSize)
    (hbs : Tight bootStart (size + 20) bs) :
    let cs := bs ++ [⟨true, g, g, bootStart + span bs⟩, ⟨false, size + 20, size + 20, bootStart + span bs + g⟩]
    ∃ s', allocate s size true = (bootStart + span bs + g + 12, s') ∧ Placeable s size ∧
      BootLayout s' (cs ++ [⟨true, n - (g + (size + 20)), n - (g + (size + 20)), bootStart + span cs⟩]) ∧
      span cs = span bs + (g + (size + 20)) := by
  intro cs
  have hr := h.represents
  have hspan : span cs = span bs + (g + (size + 20)) := by simp [cs]
  have hsize := hr.index_size
  rw [holes_append, h.startAddress, List.length_append] at hsize
  have hone : (holes (bootStart + span bs) [⟨true, n, n, bootStart + span bs⟩]).length = 1 := rfl
  rw [hone] at hsize
  rw [← h.startAddress] at hg hbs
  have hfits : gap (s.heap.startAddress + span bs) + (size + 20) ≤ n := by omega
  have hspare : s.heap.index.size < s.heap.index.maxSize := by rw [h.maxSize]; omega
  have hfind := findSmallestHole_page hr rfl hfits hbs
  obtain ⟨s', hs', hrep, ha, -⟩ := hr.allocate_behind (r := n - (g + (size + 20))) rfl rfl hfind
    (hg ▸ hlow) (hg ▸ hhigh) (by simp only; omega) (.inr ⟨by omega, hspare⟩)
  refine ⟨s', ?_, ?_, ?_, hspan⟩
  · rw [hs', hg, h.startAddress]
  · exact hr.placeable rfl rfl hfind hfits
      (.inr ⟨hg ▸ hlow, hg ▸ hhigh, .inr ⟨by simp only; omega, hspare⟩⟩)
  · rw [hg, h.startAddress, leftOver_pos _ (by omega)] at hrep
    refine ⟨ha.startAddress.trans h.startAddress, ha.endAddress.trans h.endAddress,
      ha.maxSize.trans h.maxSize, ?_, h.clean.transfer ha⟩
    rw [hspan]
    simpa [cs, Nat.add_assoc] using hrep

/-- A request that is cut from the first hole with room. -/
theorem BootLayout.allocate_cut {s : State} {pre post : List Segment} {t : Segment} (size : ℕ)
    (h : BootLayout s (pre ++ t :: post)) (ht : t.isHole = true) (hleak : t.extent = t.size)
    (hneed : size + 20 ≤ t.size) (hpre : ∀ u ∈ pre, u.isHole = true → u.size < size + 20) :
    ∃ s', allocate s size false = (bootStart + span pre + 12, s') ∧
      BootLayout s' (pre ++ (cut (bootStart + span pre) (size + 20) t ++ post)) := by
  obtain ⟨s', hs', hr, ha, -⟩ := allocate_represents h.represents ht hleak hneed
    (findSmallestHole_first h.represents ht hneed hpre)
  rw [h.startAddress] at hs' hr
  exact ⟨s', hs', ha.startAddress.trans h.startAddress, ha.endAddress.trans h.endAddress,
    ha.maxSize.trans h.maxSize, hr, h.clean.transfer ha⟩

/-- A granted request makes one more payload live. -/
theorem World.request_eq {w : World} {pageAlign : Bool} {ptr : ℕ} {s' : State}
    (h : Heap.allocate w.state size pageAlign = (ptr, s')) (hp : ptr ≠ 0) :
    w.request size pageAlign = (ptr, ⟨s', (ptr, size) :: w.live⟩) := by
  simp only [request, h, granted, if_neg hp, List.singleton_append]

/-- The first page of the boot heap. -/
theorem exists_served_page : ∃ w : World, w.live = [(bootStart + 4096, 12)] ∧ Served w := by
  obtain ⟨s, hinit, h⟩ := exists_init
  obtain ⟨s', hs', hplace, -⟩ := BootLayout.page_last (g := 4084) 12
    (by simpa using h : BootLayout s ([] ++ [⟨true, bootSize, bootSize, bootStart + span []⟩])) (by decide) (by decide) (by decide) (by decide) (by decide)
    (fun _ _ hu => absurd hu List.not_mem_nil)
  have hserve : Serve ⟨s, []⟩ (.page 12) (World.request ⟨s, []⟩ 12 true).2 := .page (by decide)
  rw [World.request_eq hs' (by simp)] at hserve
  exact ⟨_, rfl, _, _, _, _, _, _, hinit, .single ⟨hserve, hplace⟩⟩

theorem payloads_served_page : ∃ w : World, (bootStart + 4096, 12) ∈ w.live ∧ PayloadsApart w ∧
    ∀ a w', Serve w a w' → Servable w a → ServedSafely w a w' := by
  obtain ⟨w, hlive, hserved⟩ := exists_served_page
  exact ⟨w, hlive ▸ List.mem_cons_self, payloads_served hserved⟩

end Runs

end ExperimentalKernel.Heap
