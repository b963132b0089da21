import Mathlib.Data.List.Basic

/-!
# First matches in a list

What it means that a search returns the first element with a property, and when a
search with a coarser test, or a search for the smallest match, comes to the same.
Nothing here belongs to a particular program.
-/

namespace ExperimentalKernel.FirstMatches

variable {α : Type*} {p : α → Bool} {q : α → Prop} {l : List α}

/-- The answer `o` is the position of the first element of `l` with the property. -/
structure IsFirst (q : α → Prop) (l : List α) (o : Option ℕ) : Prop where
  found : ∀ i, o = some i → ∃ x, l[i]? = some x ∧ q x ∧ ∀ j < i, ∀ y, l[j]? = some y → ¬ q y
  missing : o = none ↔ ∀ x ∈ l, ¬ q x

theorem findIdx?_isFirst (p : α → Bool) (l : List α) : IsFirst (p · = true) l (l.findIdx? p) where
  found i hi := by
    obtain ⟨hlt, hp, hfirst⟩ := List.findIdx?_eq_some_iff_getElem.mp hi
    refine ⟨l[i], List.getElem?_eq_getElem hlt, hp, fun j hj y hy => ?_⟩
    obtain ⟨hjl, rfl⟩ := List.getElem?_eq_some_iff.mp hy
    exact hfirst j hj
  missing := by simp [List.findIdx?_eq_none_iff]

/-- A test that accepts more than the property finds the first element with the
property exactly if such an element stands before every one accepted wrongly. -/
theorem isFirst_findIdx?_iff (h : ∀ x ∈ l, q x → p x = true) :
    IsFirst q l (l.findIdx? p) ↔
      ∀ (i : ℕ) (x : α), l[i]? = some x → p x = true → ¬ q x →
        ∃ j < i, ∃ y, l[j]? = some y ∧ q y := by
  have hp := findIdx?_isFirst p l
  constructor
  · intro hq i x hx hpx hqx
    cases ho : l.findIdx? p with
    | none => exact absurd hpx (hp.missing.mp ho x (List.mem_of_getElem? hx))
    | some k =>
      obtain ⟨y, hy, hqy, -⟩ := hq.found k ho
      obtain ⟨-, -, -, hfirst⟩ := hp.found k ho
      rcases Nat.lt_trichotomy k i with hlt | rfl | hgt
      · exact ⟨k, hlt, y, hy, hqy⟩
      · rw [hx, Option.some.injEq] at hy
        exact absurd (hy ▸ hqy) hqx
      · exact absurd hpx (hfirst i hgt x hx)
  · intro hbefore
    have hexact : ∀ (i : ℕ) (x : α), l[i]? = some x → p x = true →
        (∀ j < i, ∀ y, l[j]? = some y → ¬ p y = true) → q x := by
      intro i x hx hpx hfirst
      by_contra hqx
      obtain ⟨j, hj, y, hy, hqy⟩ := hbefore i x hx hpx hqx
      exact hfirst j hj y hy (h y (List.mem_of_getElem? hy) hqy)
    refine ⟨fun i hi => ?_, fun ho x hx hqx => hp.missing.mp ho x hx (h x hx hqx), fun hno => ?_⟩
    · obtain ⟨x, hx, hpx, hfirst⟩ := hp.found i hi
      exact ⟨x, hx, hexact i x hx hpx hfirst, fun j hj y hy hqy =>
        hfirst j hj y hy (h y (List.mem_of_getElem? hy) hqy)⟩
    · cases ho : l.findIdx? p with
      | none => rfl
      | some i =>
        obtain ⟨x, hx, hpx, hfirst⟩ := hp.found i ho
        exact absurd (hexact i x hx hpx hfirst) (hno x (List.mem_of_getElem? hx))

/-- The match that is found is the smallest one exactly if the first of all matches is. -/
theorem findIdx?_smallest_iff (size : α → ℕ) :
    ((∃ x ∈ l, p x = true) → ∃ i x, l.findIdx? p = some i ∧ l[i]? = some x ∧ p x = true ∧
      ∀ y ∈ l, p y = true → size x ≤ size y) ↔
    ∀ x ∈ (l.filter p).head?, ∀ y ∈ l.filter p, size x ≤ size y := by
  have hhead : (l.filter p).head? = (l.findIdx? p).bind fun i => l[i]? := by
    rw [List.head?_filter, List.find?_eq_bind_findIdx?_getElem?]
  rw [hhead]
  constructor
  · intro hbest x hx y hy
    obtain ⟨hyl, hpy⟩ := List.mem_filter.mp hy
    obtain ⟨i, z, hi, hz, -, hmin⟩ := hbest ⟨y, hyl, hpy⟩
    rw [hi, Option.bind_some, hz] at hx
    exact Option.some.inj hx ▸ hmin y hyl hpy
  · rintro hfirst ⟨y, hyl, hpy⟩
    cases ho : l.findIdx? p with
    | none => exact absurd hpy ((findIdx?_isFirst p l).missing.mp ho y hyl)
    | some i =>
      obtain ⟨x, hx, hpx, -⟩ := (findIdx?_isFirst p l).found i ho
      refine ⟨i, x, rfl, hx, hpx, fun z hz hpz => hfirst x ?_ z (List.mem_filter.mpr ⟨hz, hpz⟩)⟩
      rw [ho]
      exact hx

end ExperimentalKernel.FirstMatches
