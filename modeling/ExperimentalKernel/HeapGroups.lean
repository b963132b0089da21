import ExperimentalKernel.HeapPayloads

/-!
# Layouts as groups of cells

A cell is a block as it was handed out, with a flag that says whether it has been
freed. When no two holes are adjacent, the layout groups the cells: a block is one
cell, a hole is a maximal run of free cells. Freeing a cell and joining it to the
holes beside it keeps the layout the grouping of the cells.
-/

namespace ExperimentalKernel.Heap
open ByteMemory PointerArray

abbrev Cell := ℕ × Bool

def total (cs : List Cell) : ℕ := (cs.map Prod.fst).sum

@[simp] theorem total_nil : total [] = 0 := rfl

@[simp] theorem total_cons (c : Cell) (cs : List Cell) : total (c :: cs) = c.1 + total cs := rfl

@[simp] theorem total_append (cs ds : List Cell) : total (cs ++ ds) = total cs + total ds := by
  simp [total]

/-- The cells that make up one segment. -/
inductive Covers : List Cell → Segment → Prop
  | block (n tag : ℕ) : Covers [(n, false)] ⟨false, n, n, tag⟩
  | hole (run : List Cell) (t : Segment) (hne : run ≠ []) (hfree : ∀ c ∈ run, c.2 = true)
      (ht : t.isHole = true) (hext : t.extent = total run) : Covers run t

inductive Groups : List Cell → List Segment → Prop
  | nil : Groups [] []
  | cons {run cs : List Cell} {t : Segment} {segs : List Segment} (h : Covers run t)
      (hs : Groups cs segs) : Groups (run ++ cs) (t :: segs)

/-- No two holes are adjacent. -/
def Separated (segs : List Segment) : Prop :=
  segs.IsChain fun s t => s.isHole = true → t.isHole = false

theorem Covers.extent_eq {run : List Cell} {t : Segment} (h : Covers run t) :
    t.extent = total run := by
  cases h with
  | block n tag => simp
  | hole _ _ _ _ _ hext => exact hext

theorem Covers.free_of_isHole {run : List Cell} {t : Segment} (h : Covers run t)
    (ht : t.isHole = true) : ∀ c ∈ run, c.2 = true := by
  cases h with
  | block n tag => simp at ht
  | hole _ _ _ hfree _ _ => exact hfree

theorem Groups.span_eq {cs : List Cell} {segs : List Segment} (h : Groups cs segs) :
    span segs = total cs := by
  induction h with
  | nil => rfl
  | cons h _ ih => rw [span_cons, total_append, ih, h.extent_eq]

theorem Groups.append {cs ds : List Cell} {xs ys : List Segment} (h : Groups cs xs)
    (h' : Groups ds ys) : Groups (cs ++ ds) (xs ++ ys) := by
  induction h with
  | nil => exact h'
  | cons h _ ih =>
    rw [List.append_assoc]
    exact .cons h ih

theorem Groups.split {cs : List Cell} {xs ys : List Segment} (h : Groups cs (xs ++ ys)) :
    ∃ cx cy, cs = cx ++ cy ∧ Groups cx xs ∧ Groups cy ys := by
  induction xs generalizing cs with
  | nil => exact ⟨[], cs, rfl, .nil, h⟩
  | cons x xs ih =>
    rw [List.cons_append] at h
    cases h with
    | cons hx hs =>
      obtain ⟨cx, cy, rfl, hcx, hcy⟩ := ih hs
      exact ⟨_, cy, (List.append_assoc _ _ _).symm, .cons hx hcx, hcy⟩

theorem Groups.eq_nil {cs : List Cell} (h : Groups cs []) : cs = [] := by
  cases h
  rfl

theorem Groups.single {run : List Cell} {t : Segment} (h : Covers run t) : Groups run [t] := by
  have := Groups.cons h .nil
  rwa [List.append_nil] at this

theorem Groups.covers {cs : List Cell} {t : Segment} (h : Groups cs [t]) : Covers cs t := by
  cases h with
  | cons h hs =>
    cases hs
    rwa [List.append_nil]

/-- A cell that is in use is a segment of its own. -/
theorem Groups.split_block {cx cy : List Cell} {n : ℕ} {segs : List Segment}
    (h : Groups (cx ++ (n, false) :: cy) segs) :
    ∃ xs tag ys, segs = xs ++ ⟨false, n, n, tag⟩ :: ys ∧ Groups cx xs ∧ Groups cy ys := by
  generalize hcs : cx ++ (n, false) :: cy = cs at h
  induction h generalizing cx with
  | nil => simp at hcs
  | cons h hs ih =>
    rcases List.append_eq_append_iff.mp hcs with ⟨ds, hr, hc⟩ | ⟨ds, hr, hc⟩
    · cases ds with
      | nil =>
        simp only [List.append_nil] at hr
        obtain ⟨xs, tag, ys, he, hx, hy⟩ := ih (by simpa using hc : [] ++ (n, false) :: cy = _)
        refine ⟨_ :: xs, tag, ys, by rw [he]; rfl, ?_, hy⟩
        have := Groups.cons h hx
        rwa [hr, List.append_nil] at this
      | cons d ds =>
        rw [List.cons_append, List.cons.injEq] at hc
        obtain ⟨rfl, hc⟩ := hc
        cases h with
        | block m tag =>
          have hcx : cx = [] := by
            have := congrArg List.length hr
            simp at this
            exact List.eq_nil_of_length_eq_zero (by omega)
          subst hcx
          simp only [List.nil_append, List.cons.injEq, Prod.mk.injEq, and_true] at hr
          obtain ⟨rfl, hds⟩ := hr
          subst hds
          exact ⟨[], tag, _, rfl, .nil, by simpa using hc ▸ hs⟩
        | hole _ _ _ hfree _ _ =>
          have := hfree (n, false) (by rw [hr]; simp)
          simp at this
    · obtain ⟨xs, tag, ys, he, hx, hy⟩ := ih hc.symm
      refine ⟨_ :: xs, tag, ys, by rw [he]; rfl, ?_, hy⟩
      rw [hr]
      exact .cons h hx

section Free
variable {a x : ℕ} {cx cy : List Cell} {pre post pre' post' : List Segment} {t t₀ t' : Segment}
  {listed : Bool} {n tag : ℕ}

theorem exists_left (a : ℕ) (pre : List Segment) (t : Segment) :
    ∃ pre' t₀ listed, LeftJoin a pre t pre' t₀ listed := by
  rcases List.eq_nil_or_concat pre with rfl | ⟨p, l, rfl⟩
  · exact ⟨_, _, _, .alone [] t (by simp)⟩
  · rw [List.concat_eq_append]
    cases hl : l.isHole with
    | false => exact ⟨_, _, _, .alone _ t (by simpa using hl)⟩
    | true =>
      by_cases htag : l.tag = a + span p
      · exact ⟨_, _, _, .fresh p l t hl htag⟩
      · exact ⟨_, _, _, .stale p l t hl htag⟩

/-- The freed cell and the cells of the hole before it. -/
theorem groups_left (hg : Groups cx pre) (hs : Separated pre)
    (hl : LeftJoin a pre ⟨false, n, n, tag⟩ pre' t₀ listed) :
    ∃ cx' run, cx = cx' ++ run ∧ Groups cx' pre' ∧ Covers (run ++ [(n, true)]) t₀ ∧
      Separated pre' ∧ ∀ l ∈ pre'.getLast?, l.isHole = false := by
  have hjoined : ∀ (l : Segment) (size : ℕ), pre = pre' ++ [l] → l.isHole = true →
      ∃ cx' run, cx = cx' ++ run ∧ Groups cx' pre' ∧
        Covers (run ++ [(n, true)]) ⟨true, size, l.extent + n, l.tag⟩ ∧
        Separated pre' ∧ ∀ l ∈ pre'.getLast?, l.isHole = false := by
    rintro l size rfl h
    obtain ⟨cx', run, rfl, hx, hr⟩ := hg.split
    have hc := hr.covers
    obtain ⟨hs₁, -, hs₂⟩ := List.isChain_append.mp hs
    refine ⟨cx', run, rfl, hx, .hole _ _ (by simp) ?_ rfl ?_, hs₁, fun q hq => ?_⟩
    · intro c hmem
      rcases List.mem_append.mp hmem with hmem | hmem
      · exact hc.free_of_isHole h c hmem
      · simp at hmem
        simp [hmem]
    · simp [hc.extent_eq]
    · by_contra hne
      have := hs₂ q hq l (by simp) (by simpa using hne)
      simp [h] at this
  cases hl with
  | alone _ _ h =>
    exact ⟨cx, [], by simp, hg, .hole _ _ (by simp) (by simp) rfl (by simp), hs, h⟩
  | fresh _ l _ h htag => exact hjoined l _ rfl h
  | stale _ l _ h htag => exact hjoined l _ rfl h

/-- The cells of the hole after it. -/
theorem groups_right {run : List Cell} (hc : Covers run t₀) (ht : t₀.isHole = true)
    (hg : Groups cy post) (hs : Separated post) (hj : RightJoin x t₀ post t' post') :
    ∃ run' cy', cy = run' ++ cy' ∧ Groups cy' post' ∧ Covers (run ++ run') t' ∧
      Separated post' ∧ ∀ r ∈ post'.head?, r.isHole = false := by
  cases hj with
  | alone _ h => exact ⟨[], cy, rfl, hg, by rwa [List.append_nil], hs, h⟩
  | joined r _ h =>
    cases hg with
    | cons hr hg =>
      have hne : run ≠ [] := by
        cases hc <;> simp_all
      refine ⟨_, _, rfl, hg, .hole _ _ (by simp [hne]) ?_ rfl ?_, hs.tail, fun q hq => ?_⟩
      · intro c hmem
        rcases List.mem_append.mp hmem with hmem | hmem
        · exact hc.free_of_isHole ht c hmem
        · exact hr.free_of_isHole h c hmem
      · simp [hc.extent_eq, hr.extent_eq]
      · exact List.IsChain.rel_head? hs hq h

/-- Freeing a cell: the new layout groups the cells with this one free. -/
theorem groups_free (hx : Groups cx pre) (hy : Groups cy post) (hsx : Separated pre)
    (hsy : Separated post) (hl : LeftJoin a pre ⟨false, n, n, tag⟩ pre' t₀ listed)
    (hj : RightJoin x t₀ post t' post') :
    Groups (cx ++ (n, true) :: cy) (pre' ++ t' :: post') ∧ Separated (pre' ++ t' :: post') := by
  obtain ⟨cx', run, rfl, hx', hc, hsx', hlast⟩ := groups_left hx hsx hl
  have ht : t₀.isHole = true := by cases hl <;> rfl
  obtain ⟨run', cy', rfl, hy', hc', hsy', hhead⟩ := groups_right hc ht hy hsy hj
  constructor
  · have := hx'.append (.cons hc' hy')
    simpa using this
  · refine List.isChain_append.mpr ⟨hsx', List.isChain_cons.mpr ⟨fun q hq _ => hhead q hq, hsy'⟩, ?_⟩
    intro p hp q hq hole
    simp [hlast p hp] at hole

end Free

/-- The number of maximal runs of `true`. -/
def freeRuns : List Bool → ℕ
  | [] => 0
  | [b] => b.toNat
  | b :: c :: bs => (b && !c).toNat + freeRuns (c :: bs)

theorem freeRuns_false (bs : List Bool) : freeRuns (false :: bs) = freeRuns bs := by
  cases bs <;> simp [freeRuns]

theorem freeRuns_run {run bs : List Bool} (hne : run ≠ []) (hrun : ∀ b ∈ run, b = true)
    (hbs : ∀ b ∈ bs.head?, b = false) : freeRuns (run ++ bs) = 1 + freeRuns bs := by
  induction run with
  | nil => simp at hne
  | cons b run ih =>
    have hb := hrun b (by simp)
    subst hb
    cases run with
    | nil =>
      cases bs with
      | nil => rfl
      | cons c bs =>
        have hc := hbs c (by simp)
        subst hc
        rfl
    | cons c run =>
      have hc := hrun c (by simp)
      have := ih (by simp) fun b hb => hrun b (by simp [hb])
      rw [hc, List.cons_append] at this
      rw [hc, List.cons_append, List.cons_append, freeRuns, this]
      simp

theorem holes_length (a : ℕ) (segs : List Segment) :
    (holes a segs).length = segs.countP Segment.isHole := by
  induction segs generalizing a with
  | nil => rfl
  | cons t segs ih =>
    cases ht : t.isHole <;> simp [holes, ht, ih]

/-- The holes are the runs of free cells. -/
theorem Groups.countP_eq {cs : List Cell} {segs : List Segment} (h : Groups cs segs)
    (hs : Separated segs) : segs.countP Segment.isHole = freeRuns (cs.map Prod.snd) := by
  induction h with
  | nil => rfl
  | @cons run cs t segs h hg ih =>
    have ih := ih hs.tail
    rw [List.countP_cons, ih, List.map_append]
    cases h with
    | block n tag => simp [freeRuns_false]
    | hole _ _ hne hfree ht _ =>
      rw [freeRuns_run (by simpa using hne) (by simpa using hfree), ht]
      · simp
        omega
      · intro b hb
        cases hg with
        | nil => simp at hb
        | cons h' _ =>
          have hblock := List.isChain_cons.mp hs |>.1 _ rfl ht
          cases h' with
          | block n tag => simpa using hb.symm
          | hole _ _ _ _ ht' _ => simp [ht'] at hblock

/-- A layout that starts with a hole starts with a free cell. -/
theorem Groups.head_free {cs : List Cell} {r : Segment} {segs : List Segment}
    (h : Groups cs (r :: segs)) (hr : r.isHole = true) : ∀ c ∈ cs.head?, c.2 = true := by
  cases h with
  | cons hc hg =>
    cases hc with
    | block n tag => simp at hr
    | hole run _ hne hfree _ _ =>
      obtain ⟨d, run, rfl⟩ := List.exists_cons_of_ne_nil hne
      intro c hc
      simp at hc
      exact hc ▸ hfree d (by simp)

/-- A layout that starts with a block starts with a cell in use. -/
theorem Groups.head_used {cs : List Cell} {r : Segment} {segs : List Segment}
    (h : Groups cs (r :: segs)) (hr : r.isHole = false) : ∀ c ∈ cs.head?, c.2 = false := by
  cases h with
  | cons hc hg =>
    cases hc with
    | block n tag => simp
    | hole run _ hne hfree ht _ => simp [ht] at hr

/-- Free cells only: one hole. -/
theorem Groups.eq_single {cs : List Cell} {segs : List Segment} (h : Groups cs segs)
    (hs : Separated segs) (hfree : ∀ c ∈ cs, c.2 = true) (hne : cs ≠ []) :
    ∃ t, segs = [t] ∧ t.isHole = true := by
  have hhole : ∀ {cs : List Cell} {t : Segment}, Covers cs t → (∀ c ∈ cs, c.2 = true) →
      t.isHole = true := by
    intro cs t h hfree
    cases h with
    | block n tag => simp at hfree
    | hole _ _ _ _ ht _ => exact ht
  cases h with
  | nil => simp at hne
  | cons hc hg =>
    have ht := hhole hc fun c hc' => hfree c (by simp [hc'])
    cases hg with
    | nil => exact ⟨_, rfl, ht⟩
    | cons hc' _ =>
      have hblock := (List.isChain_cons.mp hs).1 _ rfl ht
      rw [hhole hc' fun c hc' => hfree c (by simp [hc'])] at hblock
      simp at hblock

end ExperimentalKernel.Heap
