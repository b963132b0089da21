import Mathlib.Data.List.Basic

/-!
# Runs of a labelled transition system

A run lists the labels of its steps. An invariant of the steps is an invariant of
the runs; a guard restricts the steps a run may take. Nothing here belongs to a
particular program.
-/

namespace ExperimentalKernel.LabelledRuns

variable {σ τ α β : Type*}

inductive Run (step : σ → α → σ → Prop) : σ → List α → σ → Prop
  | nil (s : σ) : Run step s [] s
  | cons {s s' s'' : σ} {a : α} {as : List α} (h : step s a s') (hr : Run step s' as s'') :
      Run step s (a :: as) s''

variable {step : σ → α → σ → Prop}

theorem Run.single {s s' : σ} {a : α} (h : step s a s') : Run step s [a] s' :=
  Run.cons h (Run.nil s')

theorem Run.append {s s' s'' : σ} {as bs : List α} (h : Run step s as s')
    (h' : Run step s' bs s'') : Run step s (as ++ bs) s'' := by
  induction h with
  | nil => exact h'
  | cons hs _ ih => exact Run.cons hs (ih h')

theorem Run.snoc {s s' s'' : σ} {as : List α} {a : α} (h : Run step s as s')
    (h' : step s' a s'') : Run step s (as ++ [a]) s'' :=
  h.append (Run.single h')

theorem Run.mono {step' : σ → α → σ → Prop} (hstep : ∀ s a s', step s a s' → step' s a s')
    {s s' : σ} {as : List α} (h : Run step s as s') : Run step' s as s' := by
  induction h with
  | nil s => exact Run.nil s
  | cons h _ ih => exact Run.cons (hstep _ _ _ h) ih

/-- What every step preserves holds at the end of every run. -/
theorem Run.invariant {P : σ → Prop} (hstep : ∀ s a s', P s → step s a s' → P s') {s s' : σ}
    {as : List α} (h : Run step s as s') (hs : P s) : P s' := by
  induction h with
  | nil => exact hs
  | cons h _ ih => exact ih (hstep _ _ _ hs h)

/-- The steps whose label the guard admits in the state they start from. -/
def guarded (step : σ → α → σ → Prop) (guard : σ → α → Prop) (s : σ) (a : α) (s' : σ) : Prop :=
  step s a s' ∧ guard s a

/-- `P` holds of every step of the runs with these labels, in the state the step starts from. -/
def Along (step : σ → α → σ → Prop) (P : σ → α → Prop) : σ → List α → Prop
  | _, [] => True
  | s, a :: as => P s a ∧ ∀ s', step s a s' → Along step P s' as

/-- Two properties of steps that agree where the invariant holds agree along the runs, if
the steps with the one preserve the invariant. -/
theorem along_iff {I : σ → Prop} {P Q : σ → α → Prop} (hiff : ∀ s a, I s → (P s a ↔ Q s a))
    (hstep : ∀ s a s', I s → P s a → step s a s' → I s') {s : σ} (as : List α) (hs : I s) :
    Along step P s as ↔ Along step Q s as := by
  induction as generalizing s with
  | nil => exact Iff.rfl
  | cons a as ih =>
    rw [Along, Along, ← hiff s a hs]
    exact and_congr_right fun hP => forall₂_congr fun s' h => ih (hstep s a s' hs hP h)

/-- Where every label has a step, a property of the labels alone holds of all of them. -/
theorem along_labels {Q : α → Prop} (htotal : ∀ s a, ∃ s', step s a s') (s : σ) (as : List α) :
    Along step (fun _ => Q) s as ↔ ∀ a ∈ as, Q a := by
  induction as generalizing s with
  | nil => simp [Along]
  | cons a as ih =>
    rw [Along, List.forall_mem_cons]
    refine and_congr_right fun _ => ⟨fun h => ?_, fun h s' _ => (ih s').mpr h⟩
    obtain ⟨s', hs'⟩ := htotal s a
    exact (ih s').mp (h s' hs')

/-- A step that another system can follow gives a run that it can follow. -/
theorem Run.simulate {R : σ → τ → Prop} {step' : τ → β → τ → Prop} {f : α → β}
    (hstep : ∀ s a s' t, R s t → step s a s' → ∃ t', step' t (f a) t' ∧ R s' t') {s s' : σ}
    {as : List α} {t : τ} (h : Run step s as s') (hR : R s t) :
    ∃ t', Run step' t (as.map f) t' ∧ R s' t' := by
  induction h generalizing t with
  | nil => exact ⟨t, Run.nil t, hR⟩
  | cons h _ ih =>
    obtain ⟨t₁, h₁, hR₁⟩ := hstep _ _ _ _ hR h
    obtain ⟨t₂, h₂, hR₂⟩ := ih hR₁
    exact ⟨t₂, Run.cons h₁ h₂, hR₂⟩

end ExperimentalKernel.LabelledRuns
