import ExperimentalKernel.LabelledRuns
import Mathlib.Data.List.Nodup
import Mathlib.Data.List.Count

/-!
# Taking turns

A list whose members take turns in its order, from the last on to the first, while
others may join at its end. Between two turns of a member all that were there at the
first have had one turn, and those who joined at most one. Nothing here belongs to a
particular program.
-/

namespace ExperimentalKernel.RoundRobin
open LabelledRuns

variable {α : Type*}

/-- The turn passes from `a` to `b`. -/
inductive Follows : List α → α → α → Prop
  | next (l r : List α) (a b : α) : Follows (l ++ a :: b :: r) a b
  | wrap {l r : List α} {a b : α} (h : l ++ [a] = b :: r) : Follows (l ++ [a]) a b

structure Roster (α : Type*) where
  order : List α
  current : α

/-- A step and whose turn it begins. -/
inductive Step : Roster α → List α → Roster α → Prop
  | turn {order : List α} {a b : α} (h : Follows order a b) : Step ⟨order, a⟩ [b] ⟨order, b⟩
  | join {order : List α} {b : α} (a : α) (h : b ∉ order) : Step ⟨order, a⟩ [] ⟨order ++ [b], a⟩
  | stay (r : Roster α) : Step r [] r

theorem Follows.eq_next {l r : List α} {a b c : α} (hn : (l ++ a :: b :: r).Nodup)
    (h : Follows (l ++ a :: b :: r) a c) : c = b := by
  obtain ⟨hl, hr⟩ : a ∉ l ∧ a ∉ b :: r := by
    have := List.nodup_middle.mp hn
    simpa using (List.nodup_cons.mp this).1
  generalize ho : l ++ a :: b :: r = order at h
  cases h with
  | next l' r' =>
    obtain ⟨-, -, he⟩ := (List.append_cons_inj_of_notMem hl hr).mp ho
    exact (List.cons.inj he).1.symm
  | wrap =>
    obtain ⟨-, -, he⟩ := (List.append_cons_inj_of_notMem hl hr).mp ho
    cases he

theorem Follows.eq_first {l r : List α} {a b c : α} (hn : (l ++ [a]).Nodup)
    (hb : l ++ [a] = b :: r) (h : Follows (l ++ [a]) a c) : c = b := by
  have hl : a ∉ l := by
    have := List.nodup_middle.mp hn
    simpa using (List.nodup_cons.mp this).1
  generalize ho : l ++ [a] = order at h
  cases h with
  | next l' r' =>
    obtain ⟨-, -, he⟩ := (List.append_cons_inj_of_notMem hl List.not_mem_nil).mp ho
    cases he
  | wrap hc =>
    rw [← ho, hb] at hc
    exact (List.cons.inj hc).1.symm

theorem Step.nodup {r r' : Roster α} {l : List α} (h : Step r l r') (hn : r.order.Nodup) :
    r'.order.Nodup := by
  cases h with
  | turn => exact hn
  | join a hb =>
    exact List.nodup_middle.mpr (by simpa using ⟨hb, hn⟩)
  | stay => exact hn

/-- The turns since that of `p`, which stood between `pre` and `post`: first those after
it, then those from the first on. -/
inductive Since (p : α) (pre post : List α) : Roster α → List α → Prop
  | ahead {as rest : List α} {a : α} (hpost : post <+: as ++ rest)
      (hlast : (p :: as).getLast? = some a) :
      Since p pre post ⟨pre ++ p :: (as ++ rest), a⟩ as
  | wrapped {done left seen later : List α} {a : α} (hpre : pre = done ++ a :: left)
      (hpost : post <+: seen) :
      Since p pre post ⟨pre ++ p :: (seen ++ later), a⟩ (seen ++ (done ++ [a]))

/-- All turns between two of `p`. -/
structure Round (p : α) (pre post : List α) (order as : List α) : Prop where
  eq : ∃ seen later, order = pre ++ p :: (seen ++ later) ∧ post <+: seen ∧ as = seen ++ pre

variable {p : α} {pre post as : List α} {r r' : Roster α}

theorem Since.join (h : Since p pre post r as) (b : α) :
    Since p pre post ⟨r.order ++ [b], r.current⟩ as := by
  cases h with
  | @ahead _ rest a hpost hlast =>
    have he : pre ++ p :: (as ++ rest) ++ [b] = pre ++ p :: (as ++ (rest ++ [b])) := by simp
    rw [he]
    apply Since.ahead _ hlast
    rw [← List.append_assoc]
    exact hpost.trans (List.prefix_append _ _)
  | @wrapped done left seen later a hpre hpost =>
    have he : pre ++ p :: (seen ++ later) ++ [b] = pre ++ p :: (seen ++ (later ++ [b])) := by simp
    rw [he]
    exact Since.wrapped hpre hpost

/-- One turn more, or the turn of `p` again. -/
theorem Since.turn {b : α} (h : Since p pre post r as) (hn : r.order.Nodup)
    (hf : Follows r.order r.current b) :
    Since p pre post ⟨r.order, b⟩ (as ++ [b]) ∨ b = p ∧ Round p pre post r.order as := by
  cases h with
  | @ahead _ rest a hpost hlast =>
    obtain ⟨front, hfront⟩ := List.getLast?_eq_some_iff.mp hlast
    have he : pre ++ p :: (as ++ rest) = (pre ++ front) ++ a :: rest := by
      rw [← List.cons_append, hfront]
      simp
    cases rest with
    | cons c rest =>
      -- Somebody after the current one still waits.
      dsimp only at hn hf ⊢
      rw [he] at hn hf
      obtain rfl := Follows.eq_next hn hf
      left
      have ho : pre ++ p :: (as ++ b :: rest) = pre ++ p :: ((as ++ [b]) ++ rest) := by simp
      rw [ho]
      apply Since.ahead
      · simpa using hpost
      · rw [← List.cons_append]
        exact List.getLast?_concat
    | nil =>
      -- The current one is the last, the turn goes to the first.
      dsimp only at hn hf ⊢
      cases pre with
      | nil =>
        have hb : [] ++ p :: (as ++ []) = p :: as := by simp
        rw [he] at hn hf hb
        exact Or.inr ⟨Follows.eq_first hn hb hf, as, [], rfl, by simpa using hpost, by simp⟩
      | cons c left =>
        have hb : c :: left ++ p :: (as ++ []) = c :: (left ++ p :: as) := by simp
        rw [he] at hn hf hb
        obtain rfl := Follows.eq_first hn hb hf
        have hpre : b :: left = [] ++ b :: left := rfl
        exact Or.inl (Since.wrapped hpre (by simpa using hpost))
  | @wrapped done left seen later a hpre hpost =>
    dsimp only at hn hf ⊢
    cases left with
    | nil =>
      have he : pre ++ p :: (seen ++ later) = done ++ a :: p :: (seen ++ later) := by simp [hpre]
      rw [he] at hn hf
      exact Or.inr ⟨Follows.eq_next hn hf, seen, later, rfl, hpost, by rw [hpre]⟩
    | cons c left =>
      have he : pre ++ p :: (seen ++ later) = done ++ a :: c :: (left ++ p :: (seen ++ later)) := by
        simp [hpre]
      have hpre' : pre = (done ++ [a]) ++ c :: left := by simp [hpre]
      rw [he] at hn hf
      obtain rfl := Follows.eq_next hn hf
      rw [List.append_assoc]
      exact Or.inl (Since.wrapped hpre' hpost)

theorem Since.notMem (h : Since p pre post r as) (hn : r.order.Nodup) : p ∉ as := by
  cases h with
  | ahead hpost hlast =>
    have := (List.nodup_cons.mp (List.nodup_middle.mp hn)).1
    simp only [List.mem_append, not_or] at this
    exact this.2.1
  | wrapped hpre hpost =>
    subst hpre
    have := (List.nodup_cons.mp (List.nodup_middle.mp hn)).1
    simp only [List.mem_append, List.mem_cons, not_or] at this
    simpa using ⟨this.2.1, this.1.1, this.1.2.1⟩

/-- Over a run without a turn of `p`. -/
theorem Since.run {ls : List (List α)} (hr : Run Step r ls r') (h : Since p pre post r as)
    (hn : r.order.Nodup) (hp : p ∉ ls.flatten) :
    Since p pre post r' (as ++ ls.flatten) ∧ r'.order.Nodup := by
  induction hr generalizing as with
  | nil => exact ⟨by simpa using h, hn⟩
  | @cons r r₁ r' l ls hs _ ih =>
    have hn₁ := hs.nodup hn
    rw [List.flatten_cons, List.mem_append, not_or] at hp
    have h₁ : Since p pre post r₁ (as ++ l) := by
      cases hs with
      | turn hf =>
        rcases h.turn hn hf with h | ⟨rfl, -⟩
        · exact h
        · exact absurd (List.mem_singleton_self _) hp.1
      | join a hb => simpa using h.join _
      | stay => simpa using h
    obtain ⟨h', hn'⟩ := ih h₁ hn₁ hp.2
    exact ⟨by simpa using h', hn'⟩

theorem Round.nodup {order : List α} (h : Round p pre post order as) (hn : order.Nodup) :
    as.Nodup := by
  obtain ⟨seen, later, ho, -, rfl⟩ := h.eq
  rw [ho] at hn
  refine List.nodup_append_comm.mp (hn.sublist ?_)
  exact List.Sublist.append_left ((List.sublist_append_left seen later).cons p) pre

theorem Round.mem {order : List α} {q : α} (h : Round p pre post order as)
    (hq : q ∈ pre ++ p :: post) (hne : q ≠ p) : q ∈ as := by
  obtain ⟨seen, later, -, hpost, rfl⟩ := h.eq
  rcases List.mem_append.mp hq with hq | hq
  · exact List.mem_append_right _ hq
  · rcases List.mem_cons.mp hq with rfl | hq
    · exact absurd rfl hne
    · exact List.mem_append_left _ (hpost.subset hq)

/-- Between two turns of `r.current`. -/
theorem fair [DecidableEq α] {ls : List (List α)} {r'' : Roster α} {q : α} (hn : r.order.Nodup)
    (hc : r.current ∈ r.order) (hr : Run Step r ls r') (hp : r.current ∉ ls.flatten)
    (hs : Step r' [r.current] r'') (hq : q ≠ r.current) :
    (q ∈ r.order → ls.flatten.count q = 1) ∧ ls.flatten.count q ≤ 1 := by
  obtain ⟨pre, post, ho⟩ := List.append_of_mem hc
  have h₀ : Since r.current pre post r [] := by
    have : r = ⟨pre ++ r.current :: ([] ++ post), r.current⟩ := by
      rw [List.nil_append, ← ho]
    rw [this]
    exact Since.ahead (by simp) rfl
  obtain ⟨h', hn'⟩ := h₀.run hr hn hp
  rw [List.nil_append] at h'
  have hround : Round r.current pre post r'.order ls.flatten := by
    generalize hl : [r.current] = l at hs
    cases hs with
    | turn hf =>
      obtain rfl := (List.cons.inj hl).1
      rcases h'.turn hn' hf with h | ⟨-, h⟩
      · exact absurd (List.mem_append_right _ (List.mem_singleton_self _)) (h.notMem hn')
      · exact h
    | join => cases hl
    | stay => cases hl
  have hnodup := hround.nodup hn'
  refine ⟨fun hmem => ?_, List.nodup_iff_count_le_one.mp hnodup q⟩
  exact List.count_eq_one_of_mem hnodup (hround.mem (ho ▸ hmem) hq)

end ExperimentalKernel.RoundRobin
