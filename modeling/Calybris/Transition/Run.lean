import Mathlib.Logic.Relation
import Mathlib.Data.List.Basic
import Mathlib.Data.List.Induction

/-!
# Runs of a transition system

A system is a partial step function: `step s e` is the state after the event `e`,
or `none` where `e` cannot happen. A run takes a list of events. Invariants are
shown for one step and hold of runs; a system that does, step by step, what some
run of another system does is simulated by it, and so are its runs.
-/

namespace Calybris.Transition

variable {σ τ ε δ : Type*}

def run (step : σ → ε → Option σ) : σ → List ε → Option σ
  | s, [] => some s
  | s, e :: es => (step s e).bind fun s' => run step s' es

section Run

variable {step : σ → ε → Option σ} {s s' s'' : σ} {e : ε} {es es' : List ε}

@[simp] theorem run_nil : run step s [] = some s := rfl

theorem run_cons_eq_some_iff :
    run step s (e :: es) = some s'' ↔ ∃ s', step s e = some s' ∧ run step s' es = some s'' := by
  rw [run, Option.bind_eq_some_iff]

theorem run_singleton_eq_some_iff : run step s [e] = some s' ↔ step s e = some s' := by
  simp [run_cons_eq_some_iff]

theorem run_append (h : run step s es = some s') :
    run step s (es ++ es') = run step s' es' := by
  induction es generalizing s with
  | nil =>
    cases h
    rfl
  | cons e es ih =>
    obtain ⟨t, hstep, hrest⟩ := run_cons_eq_some_iff.1 h
    rw [List.cons_append, run, hstep, Option.bind_some, ih hrest]

theorem run_append_singleton_eq_some_iff :
    run step s (es ++ [e]) = some s'' ↔ ∃ s', run step s es = some s' ∧ step s' e = some s'' := by
  induction es generalizing s with
  | nil => simp [run_cons_eq_some_iff]
  | cons e' es ih =>
    simp only [List.cons_append, run_cons_eq_some_iff, ih]
    constructor
    · rintro ⟨t, ht, t', hrun, hlast⟩
      exact ⟨t', ⟨t, ht, hrun⟩, hlast⟩
    · rintro ⟨t', ⟨t, ht, hrun⟩, hlast⟩
      exact ⟨t, ht, t', hrun, hlast⟩

def Passes (step : σ → ε → Option σ) (s : σ) (es : List ε) (u : σ) : Prop :=
  ∃ es', es' <+: es ∧ run step s es' = some u

theorem Passes.append (h : Passes step s es s') (es' : List ε) : Passes step s (es ++ es') s' :=
  h.imp fun _ hes => ⟨hes.1.trans (List.prefix_append es es'), hes.2⟩

theorem passes_end (h : run step s es = some s') : Passes step s es s' :=
  ⟨es, List.prefix_rfl, h⟩

theorem run_history {P : List ε → σ → Prop} (hnil : P [] s)
    (hstep : ∀ {es e s' s''}, P es s' → step s' e = some s'' → P (es ++ [e]) s'')
    (h : run step s es = some s') : P es s' := by
  induction es using List.reverseRecOn generalizing s' with
  | nil =>
    cases h
    exact hnil
  | append_singleton es e ih =>
    obtain ⟨t, hrun, hlast⟩ := run_append_singleton_eq_some_iff.1 h
    exact hstep (ih hrun) hlast

theorem run_invariant {I : σ → Prop}
    (hstep : ∀ {s e s'}, I s → step s e = some s' → I s') (hs : I s)
    (h : run step s es = some s') : I s' := by
  induction es generalizing s with
  | nil =>
    cases h
    exact hs
  | cons e es ih =>
    obtain ⟨t, ht, hrest⟩ := run_cons_eq_some_iff.1 h
    exact ih (hstep hs ht) hrest

/-- What holds between the states before and after each step of an invariant, and is
a preorder, holds between the ends of every run. -/
theorem run_monotone {I : σ → Prop} {R : σ → σ → Prop}
    (hinv : ∀ {s e s'}, I s → step s e = some s' → I s')
    (hrefl : ∀ s, R s s) (htrans : ∀ {s s' s''}, R s s' → R s' s'' → R s s'')
    (hstep : ∀ {s e s'}, I s → step s e = some s' → R s s') (hs : I s)
    (h : run step s es = some s') : R s s' := by
  induction es generalizing s with
  | nil =>
    obtain rfl : s = s' := Option.some.inj h
    exact hrefl s
  | cons e es ih =>
    obtain ⟨t, ht, hrest⟩ := run_cons_eq_some_iff.1 h
    exact htrans (hstep hs ht) (ih (hinv hs ht) hrest)

/-- Every event of the list is taken in a state where it meets the condition. -/
def EachStep (step : σ → ε → Option σ) (C : σ → ε → Prop) : σ → List ε → Prop
  | _, [] => True
  | s, e :: es => C s e ∧ ∀ s', step s e = some s' → EachStep step C s' es

/-- What a step keeps exactly under a condition, and what is not regained, holds at the end
exactly when every step met the condition. -/
theorem eachStep_iff {I Q : σ → Prop} {C : σ → ε → Prop}
    (hinv : ∀ {s e s'}, I s → step s e = some s' → I s')
    (hstep : ∀ {s e s'}, I s → Q s → step s e = some s' → (Q s' ↔ C s e))
    (hback : ∀ {s e s'}, I s → step s e = some s' → Q s' → Q s) (hs : I s) (hQ : Q s)
    (h : run step s es = some s') : EachStep step C s es ↔ Q s' := by
  induction es generalizing s with
  | nil =>
    cases h
    exact iff_of_true trivial hQ
  | cons e es ih =>
    obtain ⟨t, ht, hrest⟩ := run_cons_eq_some_iff.1 h
    have hIt : I t := hinv hs ht
    constructor
    · rintro ⟨hC, hes⟩
      exact (ih hIt ((hstep hs hQ ht).2 hC) hrest).1 (hes t ht)
    · intro hend
      have hQt : Q t := run_monotone (R := fun s s' => Q s' → Q s) hinv (fun _ h => h)
        (fun h h' hQ => h (h' hQ)) hback hIt hrest hend
      refine ⟨(hstep hs hQ ht).1 hQt, fun t' ht' => ?_⟩
      cases ht.symm.trans ht'
      exact (ih hIt hQt hrest).2 hend

theorem run_simulates {step' : τ → δ → Option τ} {R : σ → τ → Prop}
    (hstep : ∀ {s e s' t}, R s t → step s e = some s' →
      ∃ ds t', run step' t ds = some t' ∧ R s' t')
    {t : τ} (hR : R s t) (h : run step s es = some s') :
    ∃ ds t', run step' t ds = some t' ∧ R s' t' := by
  induction es generalizing s t with
  | nil =>
    cases h
    exact ⟨[], t, rfl, hR⟩
  | cons e es ih =>
    obtain ⟨u, hu, hrest⟩ := run_cons_eq_some_iff.1 h
    obtain ⟨ds, t', hds, hR'⟩ := hstep hR hu
    obtain ⟨ds', t'', hds', hR''⟩ := ih hR' hrest
    exact ⟨ds ++ ds', t'', by rw [run_append hds, hds'], hR''⟩

end Run

end Calybris.Transition
