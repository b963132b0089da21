import ExperimentalKernel.HeapFree

/-!
# Coalescing to the right and the result of `free`

The join with the right neighbour keeps that neighbour's footer as it is, so the
footer of the joined hole is stale from then on.
-/

namespace ExperimentalKernel.Heap
open ByteMemory PointerArray

section Right
variable {s s₁ : State} {pre post : List Segment} {t r : Segment} {listed : Bool}

/-- An entry of the index lies before the pending segment, is its header, or lies
after it. -/
theorem Pending.mem_cases (hp : Pending s s₁ pre t post listed) {y : ℕ}
    (hy : y ∈ s₁.heap.index.elems s₁.mem) :
    y + 20 ≤ s.heap.startAddress + span pre ∨ y = s.heap.startAddress + span pre ∨
      y ∈ holes (s.heap.startAddress + span pre + t.extent) post := by
  rw [hp.index, List.mem_append, List.mem_append] at hy
  rcases hy with hy | hy | hy
  · exact Or.inl (mem_holes_bounds (segmentsAt_append.mp hp.segments).1 hy).2
  · cases listed with
    | false => cases hy
    | true => exact Or.inr (Or.inl (List.mem_singleton.mp hy))
  · exact Or.inr (Or.inr hy)

/-- The segment after the freed one: no entry of the index lies on its header
unless it is a hole. -/
theorem Pending.not_listed (hp : Pending s s₁ pre t post listed)
    (hr : ∀ r ∈ post.head?, r.isHole = false) :
    s.heap.startAddress + span pre + t.extent ∉ s₁.heap.index.elems s₁.mem := by
  obtain ⟨-, hseg, hpost⟩ := segmentsAt_append.mp hp.segments
  have hge := hseg.size_ge
  have hle := hseg.size_le
  intro h
  rcases hp.mem_cases h with h | h | h
  · omega
  · omega
  · cases post with
    | nil => simp at h
    | cons q post =>
      have hq := hr q (by simp)
      simp only [holes, hq, Bool.false_eq_true, ↓reduceIte] at h
      have h₁ := mem_holes_bounds hpost.2 h
      have h₂ := hpost.1.size_ge
      have h₃ := hpost.1.size_le
      omega

theorem search_of_notMem {a : PtrArray} {m : Mem} {item : ℕ} (h : item ∉ a.elems m) :
    search a m item = a.size := by
  rw [search_eq, List.idxOf_eq_length_iff.mpr h, PtrArray.elems_length]

theorem dropEntry_of_notMem {s : State} {item : ℕ} (h : item ∉ s.heap.index.elems s.mem) :
    dropEntry s item = s := by
  simp only [dropEntry, search_of_notMem h, lt_irrefl, ↓reduceIte]

/-- A block on the right, or the end of the heap, is left alone. -/
theorem mergeRight_alone (hp : Pending s s₁ pre t post listed)
    (hr : ∀ r ∈ post.head?, r.isHole = false)
    (hend : post = [] → ¬ (headerMagic s₁.mem s.heap.endAddress = heapMagic ∧
      headerIsHole s₁.mem s.heap.endAddress = true)) (header : ℕ) :
    mergeRight s₁.heap s₁.mem header (s.heap.startAddress + span pre + t.extent) = some s₁ := by
  obtain ⟨-, -, hpost⟩ := segmentsAt_append.mp hp.segments
  have hno : ¬ (headerMagic s₁.mem (s.heap.startAddress + span pre + t.extent) = heapMagic ∧
      headerIsHole s₁.mem (s.heap.startAddress + span pre + t.extent) = true) := by
    cases post with
    | nil =>
      have ht := hp.tiles
      simp only [span_append, span_cons, span_nil] at ht
      have he : s.heap.startAddress + span pre + t.extent = s.heap.endAddress := by omega
      rw [he]
      exact hend rfl
    | cons q post =>
      rintro ⟨-, hq⟩
      rw [hpost.1.header.flag, hr q (by simp)] at hq
      simp at hq
  simp only [mergeRight, if_neg hno]

/-- Bytes after the heap that look like a hole header send `free` into the endless
loop: the index has no entry for them. -/
theorem mergeRight_hangs (hp : Pending s s₁ pre t [] listed)
    (hend : headerMagic s₁.mem s.heap.endAddress = heapMagic ∧
      headerIsHole s₁.mem s.heap.endAddress = true) {header : ℕ}
    (hh : s.heap.startAddress ≤ header) :
    mergeRight s₁.heap s₁.mem header (s.heap.startAddress + span pre + t.extent) = none := by
  have ht := hp.tiles
  simp only [span_append, span_cons, span_nil] at ht
  have he : s.heap.startAddress + span pre + t.extent = s.heap.endAddress := by omega
  have hroom := hp.room
  have harray := hp.arena.array
  have hbelow := hp.below
  have hmiss := hp.not_listed (by simp)
  rw [he] at hmiss ⊢
  have hmiss' : ∀ v, s.heap.endAddress ∉
      s₁.heap.index.elems (write32 s₁.mem (header + 8) v) := by
    intro v
    rw [s₁.heap.index.elems_congr (agreeOn_write32 _ _ (by omega))]
    exact hmiss
  simp only [mergeRight, hend, and_self, ↓reduceIte, search_of_notMem (hmiss' _), le_refl]

/-- The segment that holds both holes, once the size of the right one has been
added to the header that the footer of the left one named. -/
theorem segmentAt_joined {m : Mem} {e x : ℕ} (ht : SegmentAt m e x t)
    (hr : SegmentAt m e (x + t.extent) r) (htl : t.isHole = true) (hrl : r.isHole = true)
    (hlt : x + t.extent + r.extent ≤ e) (he : e < wordSize) :
    let m' := write32 m (t.tag + 8) (add32 (headerSize m t.tag) (headerSize m (x + t.extent)))
    AgreeOff m m' x (x + t.extent) ∧ SegmentAt m' e x
      ⟨true, if t.tag = x then t.size + r.size else t.size, t.extent + r.extent, r.tag⟩ := by
  intro m'
  have hge := ht.size_ge
  have hle := ht.size_le
  have hge' := hr.size_ge
  have hle' := hr.size_le
  have hname := ht.hole htl (by omega)
  have hbounds : x ≤ t.tag ∧ t.tag + 20 ≤ x + t.extent := by
    rcases hname with h | h
    · omega
    · have := h.above
      exact ⟨by omega, h.below⟩
  have hag : AgreeOff m m' (t.tag + 8) (t.tag + 12) := agreeOff_write32 _ _ (by omega) (by omega)
  have hfoot : x + t.extent + r.extent < e → FooterAt m' (x + (t.extent + r.extent) - 8) r.tag := by
    intro h
    rw [← Nat.add_assoc]
    exact (hr.footer (Or.inr h)).frame (hag.agreeOn (by omega))
  have hstale : x + t.extent + r.extent < e → Stale m' x
      ⟨true, if t.tag = x then t.size + r.size else t.size, t.extent + r.extent, r.tag⟩ := by
    intro h
    rcases hr.hole hrl h with h' | h'
    · have htag := h'.1
      refine ⟨by simp only; omega, by simp only; omega, ?_⟩
      have hflag : headerIsHole m' r.tag = headerIsHole m r.tag :=
        headerIsHole_congr (hag.agreeOn (by omega))
      exact hflag.trans (by rw [htag, hr.header.flag, hrl])
    · have h₁ := h'.above
      have h₂ := h'.below
      refine ⟨by simp only; omega, by simp only; omega, ?_⟩
      have hflag : headerIsHole m' r.tag = headerIsHole m r.tag :=
        headerIsHole_congr (hag.agreeOn (by omega))
      exact hflag.trans h'.flag
  refine ⟨hag.mono (by omega) (by omega), ?_, ?_, ?_, fun h => by simp at h, ?_, ?_⟩
  · by_cases htag : t.tag = x
    · simp only [htag, ↓reduceIte]
      have hv : add32 (headerSize m t.tag) (headerSize m (x + t.extent)) = t.size + r.size := by
        rw [htag, ht.header.sized, hr.header.sized, add32_eq (by omega)]
      change HeaderAt (write32 m (t.tag + 8) _) x true _
      rw [hv, htag]
      have hh := ht.header
      rw [htl] at hh
      exact hh.resize (by omega)
    · simp only [htag, ↓reduceIte]
      have hab : x + 20 ≤ t.tag := by
        rcases hname with h | h
        · exact absurd h.1 htag
        · exact h.above
      have hh := ht.header
      rw [htl] at hh
      exact hh.frame (hag.agreeOn (by omega))
  · simp only
    split <;> omega
  · simp only
    split <;> omega
  · rintro (h | h)
    · simp at h
    · exact hfoot (by simp only at h; omega)
  · exact fun _ h => Or.inr (hstale (by simp only at h; omega))

/-- Erasing the entry at `y` from the index. -/
theorem erase_at {a : PtrArray} {m : Mem} {xs ys : List ℕ} {y : ℕ} (h : a.elems m = xs ++ y :: ys)
    (hx : y ∉ xs) :
    search a m y < a.size ∧
      (erase a m (search a m y)).1.elems (erase a m (search a m y)).2 = xs ++ ys := by
  have hfound : search a m y = xs.length := by
    rw [search_eq, h, List.idxOf_append_of_notMem hx, List.idxOf_cons_self, Nat.add_zero]
  rw [hfound]
  obtain ⟨hlt, -, herased⟩ := erase_entry h
  exact ⟨hlt, herased⟩

/-- The memory after the size of the right hole has been added at `header`. -/
def rightMem (m : Mem) (header testHeader : ℕ) : Mem :=
  write32 m (header + 8) (add32 (headerSize m header) (headerSize m testHeader))

theorem mergeRight_found {h : KernelHeap} {m : Mem} (header : ℕ) {testHeader : ℕ}
    (hmagic : headerMagic m testHeader = heapMagic) (hhole : headerIsHole m testHeader = true)
    (hlt : search h.index (rightMem m header testHeader) testHeader < h.index.size) :
    let m' := rightMem m header testHeader
    let i := search h.index m' testHeader
    mergeRight h m header testHeader =
      some ⟨{ h with index := (erase h.index m' i).1 }, (erase h.index m' i).2⟩ := by
  intro m' i
  simp only [mergeRight, hmagic, hhole, and_self, ↓reduceIte]
  exact if_neg (Nat.not_le.mpr hlt)

/-- A hole on the right is absorbed and its entry leaves the index. -/
theorem mergeRight_joined (hp : Pending s s₁ pre t (r :: post) listed) (hr : r.isHole = true) :
    ∃ s₂, mergeRight s₁.heap s₁.mem t.tag (s.heap.startAddress + span pre + t.extent) = some s₂ ∧
      Pending s s₂ pre ⟨true, if t.tag = s.heap.startAddress + span pre then t.size + r.size
        else t.size, t.extent + r.extent, r.tag⟩ post listed ∧
      s₂.heap.index.size < s.heap.index.maxSize := by
  obtain ⟨hpre, ht, hr', hpost⟩ := segmentsAt_append.mp hp.segments
  have hsum := hp.tiles
  simp only [span_append, span_cons] at hsum
  have hroom := hp.room
  have hbelow := hp.below
  have harray := hp.arena.array
  have hge := ht.size_ge
  have hle := ht.size_le
  obtain ⟨hag, hseg⟩ := segmentAt_joined ht hr' hp.hole hr (by omega) hp.top
  change AgreeOff s₁.mem (rightMem s₁.mem t.tag (s.heap.startAddress + span pre + t.extent)) _ _ at hag
  change SegmentAt (rightMem s₁.mem t.tag (s.heap.startAddress + span pre + t.extent)) _ _ _ at hseg
  have hfound := mergeRight_found (h := s₁.heap) t.tag hr'.header.magic
    (hr'.header.flag.trans hr)
  have hchange := hp.change
  generalize rightMem s₁.mem t.tag (s.heap.startAddress + span pre + t.extent) = m' at hag hseg hfound
  have hidx : s₁.heap.index.elems m' = _ :=
    (s₁.heap.index.elems_congr (hag.agreeOn (by omega))).trans hp.index
  simp only [holes, hr, ↓reduceIte] at hidx
  rw [← List.append_assoc] at hidx
  obtain ⟨hlt, herase⟩ := erase_at hidx (by
    intro h
    rcases List.mem_append.mp h with h | h
    · have := mem_holes_bounds hpre h
      omega
    · cases listed <;> simp at h
      omega)
  refine ⟨_, hfound hlt, ?_, ?_⟩
  · have hea := erase_agreeOff m' hlt
    generalize search s₁.heap.index m' (s.heap.startAddress + span pre + t.extent) = i at *
    have hall : ∀ {lo hi : ℕ}, s.heap.startAddress ≤ lo → AgreeOn m' (erase s₁.heap.index m' i).2 lo hi :=
      fun h => hea.agreeOn (by omega)
    have hwords : WordsFrom s.heap.index.array s.heap.index.maxSize s.heap.startAddress m'
        (erase s₁.heap.index m' i).2 := by
      rw [← harray]
      exact erase_wordsFrom m' hlt hroom
    refine ⟨⟨hp.arena.startAddress, hp.arena.endAddress, harray, hp.arena.maxSize,
      (hp.arena.words.trans (wordsFrom_of_agreeOn (hag.agreeOn (by omega)))).trans hwords⟩,
      segmentsAt_append.mpr ⟨?_, ?_, ?_⟩, ?_, rfl, ?_, ?_, ?_, hbelow, hp.top⟩
    · exact hpre.frame ((hag.agreeOn (by omega)).trans (hall (by omega)))
    · exact hseg.frame (hall (by omega))
    · simp only
      rw [← Nat.add_assoc]
      exact hpost.frame ((hag.agreeOn (by omega)).trans (hall (by omega)))
    · simp only [span_append, span_cons]
      omega
    · intro y hy hy'
      simp only at hy
      exact (hea y (by omega)).trans ((hag y (by omega)).trans (hchange y (by omega) hy'))
    · simp only
      rw [herase, List.append_assoc, ← Nat.add_assoc]
    · exact (erase_size m' hlt).le.trans (by omega)
  · have := erase_size m' hlt
    simp only
    omega

/-- An address inside the pending segment is not in the index. -/
theorem Pending.interior (hp : Pending s s₁ pre t post listed) {y : ℕ}
    (hlo : s.heap.startAddress + span pre < y)
    (hhi : y < s.heap.startAddress + span pre + t.extent) :
    y ∉ s₁.heap.index.elems s₁.mem := by
  intro h
  rcases hp.mem_cases h with h | h | h
  · omega
  · omega
  · have := mem_holes_bounds (segmentsAt_append.mp hp.segments).2.2 h
    omega

/-- A hole that the index already lists: the state is complete. -/
theorem Pending.represents_listed (hp : Pending s s₁ pre t post true) :
    Represents s₁ (pre ++ t :: post) := by
  have ha := hp.arena
  refine ⟨?_, ?_, ?_, ?_, ?_, ?_⟩
  · rw [ha.startAddress, ha.endAddress]
    exact hp.segments
  · rw [ha.startAddress, ha.endAddress]
    exact hp.tiles
  · rw [hp.index, ha.startAddress, holes_append]
    simp [holes, hp.hole]
  · rw [ha.maxSize]
    exact hp.room
  · rw [ha.array, ha.maxSize, ha.startAddress]
    exact hp.below
  · rw [ha.endAddress]
    exact hp.top

/-- A hole that the index does not list yet is inserted. -/
theorem Pending.addEntry (hp : Pending s s₁ pre t post false)
    (hcap : s₁.heap.index.size < s.heap.index.maxSize) :
    Pending s (addEntry s₁ (s.heap.startAddress + span pre)) pre t post true := by
  have hbelow := hp.below
  have harray := hp.arena.array
  have hsum := hp.tiles
  have htop := hp.top
  simp only [span_append, span_cons] at hsum
  obtain ⟨hpre, hseg, hpost⟩ := segmentsAt_append.mp hp.segments
  have hge := hseg.size_ge
  have hle := hseg.size_le
  have hadd := orderedAdd_agreeOff s₁.heap.index s₁.mem (s.heap.startAddress + span pre)
  have hall : AgreeOn s₁.mem
      (orderedAdd s₁.heap.index s₁.mem (s.heap.startAddress + span pre)).2
      s.heap.startAddress s.heap.endAddress := hadd.agreeOn (by omega)
  refine ⟨⟨hp.arena.startAddress, hp.arena.endAddress, ?_, ?_, ?_⟩, ?_, hp.tiles, hp.hole, ?_, ?_, ?_,
    hbelow, htop⟩
  · exact (orderedAdd_array _ _ _).trans harray
  · exact (orderedAdd_maxSize _ _ _).trans hp.arena.maxSize
  · refine hp.arena.words.trans ?_
    rw [← harray]
    exact orderedAdd_wordsFrom _ _ (by omega) (by omega)
  · refine hp.segments.frame (hall.mono (Nat.le_refl _) ?_)
    simp only [span_append, span_cons]
    omega
  · exact fun y hy hy' => (hadd y (by omega)).trans (hp.change y hy hy')
  · change (orderedAdd s₁.heap.index s₁.mem _).1.elems (orderedAdd s₁.heap.index s₁.mem _).2 = _
    rw [orderedAdd_elems s₁.mem (by omega) (by omega), hp.index]
    simp only [Bool.false_eq_true, ↓reduceIte, List.nil_append]
    exact holes_insert hpre hpost (Nat.le_refl _) (by omega)
  · exact (orderedAdd_size s₁.mem _ (by omega)).le.trans hcap

end Right

section Free
variable {s : State} {pre post pre' post' : List Segment} {t t₀ t' : Segment} {listed : Bool}

theorem LeftJoin.length_eq (hl : LeftJoin a pre t pre' t₀ listed) :
    a + span pre' + t₀.extent = a + span pre + t.extent := by
  cases hl <;> simp <;> omega

theorem LeftJoin.start_le {m : Mem} {e : ℕ} (hl : LeftJoin a pre t pre' t₀ listed)
    (hs : SegmentsAt m e a (pre ++ t :: post)) (he : a + span (pre ++ t :: post) ≤ e) :
    a ≤ t₀.tag := by
  cases hl with
  | alone _ _ h => simp
  | fresh _ l _ h htag => simp [htag]
  | stale _ l _ h htag =>
    rw [List.append_assoc] at hs
    obtain ⟨-, hl, ht, -⟩ := segmentsAt_append.mp hs
    have hge := ht.size_ge
    have hle := ht.size_le
    simp only [span_append, span_cons, span_nil] at he
    rcases hl.hole h (by omega) with h' | h'
    · exact absurd h'.1 htag
    · have := h'.above
      simp only
      omega

/-- The left half of `free`: the block is marked and joined to a hole before it. -/
theorem pending_left (hc : Guarded s) (hr : Represents s (pre ++ t :: post))
    (ht : t.isHole = false) (hl : LeftJoin s.heap.startAddress pre t pre' t₀ listed) :
    let x := s.heap.startAddress + span pre
    ∃ m, mergeLeft (write8 s.mem (x + 4) 1) x (x + t.size - 8) = (t₀.tag, !listed, m) ∧
      Pending s ⟨s.heap, m⟩ pre' t₀ post listed := by
  cases hl with
  | alone _ _ h => exact ⟨_, mergeLeft_alone hc hr h _, pending_mark hr ht⟩
  | fresh _ l _ h htag =>
    rw [List.append_assoc] at hr
    have hx : s.heap.startAddress + span (pre' ++ [l]) =
        s.heap.startAddress + span pre' + l.extent := by simp; omega
    rw [hx]
    exact ⟨_, mergeLeft_hole hr h, pending_fresh hr h ht htag⟩
  | stale _ l _ h htag =>
    rw [List.append_assoc] at hr
    have hx : s.heap.startAddress + span (pre' ++ [l]) =
        s.heap.startAddress + span pre' + l.extent := by simp; omega
    rw [hx]
    exact ⟨_, mergeLeft_hole hr h, pending_stale hr h ht htag⟩

/-- The right half: the joined hole takes in a hole after it. -/
theorem pending_right {s₁ : State} (hp : Pending s s₁ pre t₀ post listed)
    (hj : RightJoin (s.heap.startAddress + span pre) t₀ post t' post')
    (hend : post = [] → ¬ (headerMagic s₁.mem s.heap.endAddress = heapMagic ∧
      headerIsHole s₁.mem s.heap.endAddress = true)) :
    ∃ s₂, mergeRight s₁.heap s₁.mem t₀.tag (s.heap.startAddress + span pre + t₀.extent) = some s₂ ∧
      Pending s s₂ pre t' post' listed ∧
      (s.heap.startAddress + span pre + t₀.extent ∉ s₂.heap.index.elems s₂.mem) ∧
      (s₂.heap.index.size < s.heap.index.maxSize ∨ post' = post ∧ s₂ = s₁) := by
  cases hj with
  | alone post h =>
    exact ⟨_, mergeRight_alone hp h hend _, hp, hp.not_listed h, Or.inr ⟨rfl, rfl⟩⟩
  | joined r post h =>
    obtain ⟨s₂, hm, hp₂, hsize⟩ := mergeRight_joined hp h
    obtain ⟨-, ht, hr, -⟩ := segmentsAt_append.mp hp.segments
    have h₁ := ht.size_ge
    have h₂ := ht.size_le
    have h₃ := hr.size_ge
    have h₄ := hr.size_le
    exact ⟨s₂, hm, hp₂, hp₂.interior (by omega) (by simp only; omega), Or.inl hsize⟩

theorem free_eq {x n : ℕ} (hn : x + n < wordSize) (hge : 20 ≤ n)
    (hsized : headerSize s.mem x = n) (hmagic : headerMagic s.mem x = heapMagic)
    (hfoot : footerMagic s.mem (x + n - 8) = heapMagic) {h : ℕ} {add : Bool} {m : Mem}
    (hl : mergeLeft (write8 s.mem (x + 4) 1) x (x + n - 8) = (h, add, m)) :
    free s (x + 12) = (mergeRight s.heap m h (x + n)).map fun s₁ =>
      if add then addEntry (dropEntry s₁ (x + n)) h else dropEntry s₁ (x + n) := by
  have h₁ : sub32 (x + 12) 12 = x := sub32_eq (by omega)
  have h₂ : sub32 (add32 x n) 8 = x + n - 8 := by
    rw [add32_eq hn, sub32_eq (by omega)]
  have h₃ : add32 (x + n - 8) 8 = x + n := by
    rw [add32_eq (by omega)]
    omega
  rw [free, if_neg (by omega)]
  simp only [h₁, hsized, h₂, h₃, hmagic, hfoot, hl, ne_eq, not_true_eq_false, ↓reduceIte]

/-- `free` up to the right half; nothing behind the heap has changed. -/
theorem free_left (hc : Guarded s) (hr : Represents s (pre ++ t :: post)) (ht : t.isHole = false)
    (hl : LeftJoin s.heap.startAddress pre t pre' t₀ listed) :
    let y := s.heap.startAddress + span pre' + t₀.extent
    ∃ m, Pending s ⟨s.heap, m⟩ pre' t₀ post listed ∧
      AgreeOn s.mem m s.heap.endAddress (s.heap.endAddress + 8) ∧
      free s (s.heap.startAddress + span pre + 12) =
        (mergeRight s.heap m t₀.tag y).map fun s₁ =>
          if !listed then addEntry (dropEntry s₁ y) t₀.tag else dropEntry s₁ y := by
  intro y
  have hseg := (segmentsAt_append.mp hr.segments).2.1
  have hge := hseg.size_ge
  obtain ⟨hext, htag⟩ := hseg.block ht
  have hsum := hr.tiles
  have htop := hr.top
  have hbelow := hr.below
  simp only [span_append, span_cons] at hsum
  obtain ⟨m, hm, hp⟩ := pending_left hc hr ht hl
  have hlen := hl.length_eq
  have hy : s.heap.startAddress + span pre + t.size = y := by omega
  have hag : AgreeOn s.mem m s.heap.endAddress (s.heap.endAddress + 8) :=
    hp.change.agreeOn (by omega) (by omega)
  refine ⟨m, hp, hag, ?_⟩
  rw [← hy]
  exact free_eq (by omega) hge hseg.header.sized hseg.header.magic
    (hext ▸ (hseg.footer (Or.inl ht)).magic) hm

/-- Freeing a block leaves the layout in which the block is joined to the holes
next to it; only the joined segment and the index change. -/
theorem free_represents (hc : Guarded s) (hr : Represents s (pre ++ t :: post))
    (ht : t.isHole = false) (hl : LeftJoin s.heap.startAddress pre t pre' t₀ listed)
    (hj : RightJoin (s.heap.startAddress + span pre') t₀ post t' post')
    (hcap : listed = true ∨ post' ≠ post ∨ s.heap.index.size < s.heap.index.maxSize)
    (hend : post = [] → ¬ (headerMagic s.mem s.heap.endAddress = heapMagic ∧
      headerIsHole s.mem s.heap.endAddress = true)) :
    ∃ s', free s (s.heap.startAddress + span pre + 12) = some s' ∧
      Represents s' (pre' ++ t' :: post') ∧ SameArena s s' ∧
      ChangesOnly s s' (s.heap.startAddress + span pre')
        (s.heap.startAddress + span pre' + t'.extent) := by
  obtain ⟨m, hp, hag, hfree⟩ := free_left hc hr ht hl
  have hend' : post = [] → ¬ (headerMagic m s.heap.endAddress = heapMagic ∧
      headerIsHole m s.heap.endAddress = true) := by
    rw [headerMagic, read32_congr (hag.mono (Nat.le_refl _) (by omega)),
      headerIsHole_congr (hag.mono (by omega) (by omega))]
    exact hend
  obtain ⟨s₂, hright, hp₂, hnot, hsize⟩ := pending_right hp hj hend'
  rw [hright, Option.map_some, dropEntry_of_notMem hnot] at hfree
  cases listed with
  | true => exact ⟨s₂, hfree, hp₂.represents_listed, hp₂.arena, hp₂.change⟩
  | false =>
    have hroom : s₂.heap.index.size < s.heap.index.maxSize := by
      rcases hsize with h | ⟨h, rfl⟩
      · exact h
      · rcases hcap with h' | h' | h'
        · simp at h'
        · exact absurd h h'
        · exact h'
    have hp₃ := hp₂.addEntry hroom
    have htag₀ : t₀.tag = s.heap.startAddress + span pre' := by
      cases hl
      rfl
    simp only [Bool.not_false, ↓reduceIte, htag₀] at hfree
    exact ⟨_, hfree, hp₃.represents_listed, hp₃.arena, hp₃.change⟩

/-- A block at the end of the heap, followed by bytes that look like a hole, is
never freed. -/
theorem free_hangs (hc : Guarded s) (hr : Represents s (pre ++ [t])) (ht : t.isHole = false)
    (hl : LeftJoin s.heap.startAddress pre t pre' t₀ listed)
    (hend : headerMagic s.mem s.heap.endAddress = heapMagic ∧
      headerIsHole s.mem s.heap.endAddress = true) :
    free s (s.heap.startAddress + span pre + 12) = none := by
  obtain ⟨m, hp, hag, hfree⟩ := free_left hc hr ht hl
  have hend' : headerMagic m s.heap.endAddress = heapMagic ∧
      headerIsHole m s.heap.endAddress = true := by
    rw [headerMagic, read32_congr (hag.mono (Nat.le_refl _) (by omega)),
      headerIsHole_congr (hag.mono (by omega) (by omega))]
    exact hend
  have htag₀ := hl.start_le hr.segments hr.tiles.le
  rw [hfree, mergeRight_hangs hp hend' htag₀]
  rfl

end Free

end ExperimentalKernel.Heap
