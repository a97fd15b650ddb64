/-
  Foundation/Run.lean --- runs of a deterministic step function.

  A system is a step function `step : S → E → S`; a run is a list of events and
  the state it reaches is `List.foldl step`.  The results of this development
  are about every state of a run, or about every run whose steps avoid one
  branch, so the induction rules are stated once here:

      run_invariant                a step that keeps `Inv` keeps it along a run
      run_invariant_of_stepsMeet   the same when only guarded steps keep it
      run_invariant_of_forall      the same for a guard on the events alone
      forall_prefix_iff_stepsMeet  a guard that is exact at one step is exact
                                   along the whole run
-/
import Mathlib.Data.List.Infix

namespace LokiVlProxy.Foundation

open List

variable {S E : Type} {step : S → E → S}

/-- Every step of the run meets the guard in the state it starts from. -/
def StepsMeet (step : S → E → S) (ok : S → E → Prop) : S → List E → Prop
  | _, [] => True
  | s, e :: es => ok s e ∧ StepsMeet step ok (step s e) es

variable {s : S} {es : List E} {ok : S → E → Prop}

/-- A condition on the steps of a run, over two runs in sequence. -/
theorem stepsMeet_append {es' : List E} :
    StepsMeet step ok s (es ++ es') ↔
      StepsMeet step ok s es ∧ StepsMeet step ok (es.foldl step s) es' := by
  induction es generalizing s with
  | nil => simp [StepsMeet]
  | cons e es ih => simp [StepsMeet, ih, and_assoc]

theorem StepsMeet.and_forall {p : E → Prop} (h : StepsMeet step ok s es)
    (hp : ∀ e ∈ es, p e) : StepsMeet step (fun s e => ok s e ∧ p e) s es := by
  induction es generalizing s with
  | nil => trivial
  | cons e es ih =>
    refine ⟨⟨h.1, hp e mem_cons_self⟩, ih h.2 fun e' he' => ?_⟩
    exact hp e' (mem_cons_of_mem e he')

variable {Inv : S → Prop}

/-- What every step keeps, every run keeps. -/
theorem run_invariant (hstep : ∀ s e, Inv s → Inv (step s e)) (h0 : Inv s)
    (es : List E) : Inv (es.foldl step s) := by
  induction es generalizing s with
  | nil => exact h0
  | cons e es ih => exact ih (hstep s e h0)

/-- An invariant kept by the steps that meet a condition is kept by the runs of such steps. -/
theorem run_invariant_of_stepsMeet
    (hstep : ∀ s e, Inv s → ok s e → Inv (step s e)) (h0 : Inv s) (hes : StepsMeet step ok s es) :
    Inv (es.foldl step s) := by
  induction es generalizing s with
  | nil => exact h0
  | cons e es ih => exact ih (hstep s e h0 hes.1) hes.2

/-- The same with a condition on the events alone. -/
theorem run_invariant_of_forall {p : E → Prop}
    (hstep : ∀ s e, Inv s → p e → Inv (step s e)) (h0 : Inv s) (hes : ∀ e ∈ es, p e) :
    Inv (es.foldl step s) := by
  induction es generalizing s with
  | nil => exact h0
  | cons e es ih =>
    exact ih (hstep s e h0 (hes e mem_cons_self)) fun e' he' =>
      hes e' (mem_cons_of_mem e he')

/-- Where a step keeps a property exactly under a condition, all the states of a run have it exactly
when all its steps meet the condition. -/
theorem forall_prefix_iff_stepsMeet {Inv P : S → Prop}
    (hinv : ∀ s e, Inv s → Inv (step s e)) (hexact : ∀ s e, Inv s → P s → (P (step s e) ↔ ok s e))
    (h0 : Inv s) (hP : P s) (es : List E) :
    (∀ pre, pre <+: es → P (pre.foldl step s)) ↔ StepsMeet step ok s es := by
  induction es generalizing s with
  | nil =>
    refine ⟨fun _ => trivial, fun _ pre hpre => ?_⟩
    rw [prefix_nil.mp hpre]
    exact hP
  | cons e es ih =>
    constructor
    · intro hall
      -- the first step is a run of its own, so it met the guard
      have hfirst : P (step s e) := hall [e] (by simp)
      refine ⟨(hexact s e h0 hP).mp hfirst, ?_⟩
      refine (ih (hinv s e h0) hfirst).mp fun pre hpre => ?_
      exact hall (e :: pre) (cons_prefix_cons.mpr ⟨rfl, hpre⟩)
    · rintro ⟨hok, hrest⟩ pre hpre
      have hfirst : P (step s e) := (hexact s e h0 hP).mpr hok
      cases pre with
      | nil => exact hP
      | cons e' pre =>
        obtain ⟨rfl, hpre'⟩ := cons_prefix_cons.mp hpre
        exact (ih (hinv s e' h0) hfirst).mpr hrest pre hpre'

end LokiVlProxy.Foundation
