/-
  Middleware/Coalescer.lean --- request coalescing behind a guard.

  Source: internal/middleware/coalescer.go: Coalescer, Do, DoWithGuard, callDirect.

  The model follows one key.  A caller of `DoWithGuard` takes these steps:

      enter    under `inflightMu`: read the count, ask the guard when it is zero, and
               increment, or return `ErrGuardRejected`
      join     `group.Do`: join the call in progress for the key, or start one
      leave    under `inflightMu`, once its call has returned: decrement
-/
import LokiVlProxy.Foundation.Run

namespace LokiVlProxy.Middleware

open Foundation List

/-- A caller of a flight, with what its guard answered: `none` when it was let in without
asking. -/
structure Member where
  caller : Nat
  guard : Option Bool
  deriving DecidableEq, Repr

/-- Where a caller is inside `DoWithGuard`. -/
inductive Position where
  | outside
  /-- counted in `inflight`, on its way to `group.Do` -/
  | entered (guard : Option Bool)
  /-- in `group.Do`, as a caller of this flight -/
  | inFlight (flight : Nat)
  /-- in `callDirect` -/
  | direct
  deriving DecidableEq, Repr

/-- The coalescer as one key sees it. -/
structure Coalescer where
  disabled : Bool
  /-- `inflight[key]`; a missing entry counts as zero -/
  inflight : Int
  /-- the call of `group` for the key, by its number in `flights` -/
  current : Option Nat
  position : Nat → Position
  /-- the callers of every flight begun so far; no step reads it -/
  flights : List (List Member)

/-- What can happen next; `guard` is what the caller's guard answers if it is asked. -/
inductive CoalescerEvent where
  | enter (i : Nat) (guard : Bool)
  | join (i : Nat)
  | finish
  | leave (i : Nat)
  deriving DecidableEq, Repr

namespace Coalescer

/-- `NewCoalescer` and `NewCoalescerDisabled`. -/
def new (disabled : Bool) : Coalescer where
  disabled := disabled
  inflight := 0
  current := none
  position := fun _ => .outside
  flights := []

/-- Move caller `i`. -/
def move (c : Coalescer) (i : Nat) (p : Position) : Coalescer :=
  { c with position := Function.update c.position i p }

def step (c : Coalescer) : CoalescerEvent → Coalescer
  | .enter i guard =>
      match c.position i with
      | .outside =>
          if c.disabled then
            if guard then { c.move i .direct with flights := c.flights ++ [[⟨i, some guard⟩]] }
            else c
          else if c.inflight = 0 ∧ guard = false then c
          else
            { c.move i (.entered (if c.inflight = 0 then some guard else none)) with
              inflight := c.inflight + 1 }
      | _ => c
  | .join i =>
      match c.position i with
      | .entered guard =>
          match c.current with
          | some k =>
              { c.move i (.inFlight k) with flights := c.flights.modify k (· ++ [⟨i, guard⟩]) }
          | none =>
              { c.move i (.inFlight c.flights.length) with
                current := some c.flights.length
                flights := c.flights ++ [[⟨i, guard⟩]] }
      | _ => c
  | .finish => { c with current := none }
  | .leave i =>
      match c.position i with
      | .inFlight k =>
          if c.current = some k then c
          else { c.move i .outside with inflight := c.inflight - 1 }
      | .direct => c.move i .outside
      | _ => c

/-- The coalescer after a list of events. -/
def run (disabled : Bool) (events : List CoalescerEvent) : Coalescer :=
  events.foldl step (new disabled)

/-- Every execution of `fn` belongs to a flight with a caller that its guard let in. -/
def Guarded (c : Coalescer) : Prop :=
  ∀ flight ∈ c.flights, ∃ m ∈ flight, m.guard = some true
  deriving Decidable

/-- A caller that reaches the group while no call is in progress was let in by its guard. -/
def StartsAdmitted (c : Coalescer) : CoalescerEvent → Prop
  | .join i =>
      match c.position i with
      | .entered guard => c.current = none → guard = some true
      | _ => True
  | _ => True

/-! ## What a step does to the flights -/

/-- A step adds nothing to the flights, a caller to the one in progress, or a flight of one
caller: of one that `callDirect` runs after its guard let it in, or of one that found no
call in progress. -/
inductive Change (c : Coalescer) : CoalescerEvent → List (List Member) → Prop where
  | same (e : CoalescerEvent) (hnone : ∀ i guard, e = .join i → c.position i ≠ .entered guard) :
      Change c e c.flights
  | direct (i : Nat) : Change c (.enter i true) (c.flights ++ [[⟨i, some true⟩]])
  | joins (i k : Nat) (guard : Option Bool) (hcurrent : c.current = some k) :
      Change c (.join i) (c.flights.modify k (· ++ [⟨i, guard⟩]))
  | starts (i : Nat) (guard : Option Bool) (hentered : c.position i = .entered guard)
      (hcurrent : c.current = none) : Change c (.join i) (c.flights ++ [[⟨i, guard⟩]])

/-- What one event does to the flights. -/
theorem change_step (c : Coalescer) (e : CoalescerEvent) : Change c e (c.step e).flights := by
  cases e with
  | enter i guard =>
    have hsame : Change c (.enter i guard) c.flights := .same _ fun _ _ h => by cases h
    simp only [step]
    split
    · split
      · split
        · rename_i hguard
          rw [hguard]
          exact .direct i
        · exact hsame
      · split <;> exact hsame
    · exact hsame
  | join i =>
    simp only [step]
    split
    · rename_i guard hentered
      split
      · rename_i k hcurrent
        exact .joins i k guard hcurrent
      · rename_i hcurrent
        exact .starts i guard hentered hcurrent
    · rename_i hnot
      refine .same _ fun j guard hj hentered => ?_
      cases hj
      exact hnot guard hentered
  | finish => exact .same _ fun _ _ h => by cases h
  | leave i =>
    have hsame : Change c (.leave i) c.flights := .same _ fun _ _ h => by cases h
    simp only [step]
    split
    · split <;> exact hsame
    · exact hsame
    · exact hsame

variable {flights : List (List Member)} {c : Coalescer}

theorem getElem?_modify_snoc {k j : Nat} {m : Member} {flight : List Member}
    (h : (flights.modify k (· ++ [m]))[j]? = some flight) :
    ∃ old, flights[j]? = some old ∧ old ⊆ flight := by
  rw [getElem?_modify] at h
  obtain ⟨old, hold, rfl⟩ := Option.map_eq_some_iff.mp h
  refine ⟨old, hold, ?_⟩
  split
  · exact subset_append_left old [m]
  · exact List.Subset.refl old

theorem guarded_snoc {m : Member} (h : ∀ flight ∈ flights, ∃ m ∈ flight, m.guard = some true) :
    (∀ flight ∈ flights ++ [[m]], ∃ m ∈ flight, m.guard = some true) ↔ m.guard = some true := by
  constructor
  · intro hall
    simpa using hall [m] (by simp)
  · intro hm flight hflight
    rcases mem_append.mp hflight with hold | hnew
    · exact h flight hold
    · rw [mem_singleton.mp hnew]
      exact ⟨m, mem_singleton_self m, hm⟩

/-- An event keeps every flight guarded exactly when it starts none that was not admitted. -/
theorem guarded_step_iff (h : c.Guarded) (e : CoalescerEvent) :
    (c.step e).Guarded ↔ c.StartsAdmitted e := by
  have hchange := change_step c e
  unfold Guarded
  generalize (c.step e).flights = flights at hchange ⊢
  cases hchange with
  | same _ hnone =>
    refine ⟨fun _ => ?_, fun _ => h⟩
    cases e with
    | join i =>
      simp only [StartsAdmitted]
      split
      · rename_i guard hentered
        exact absurd hentered (hnone i guard rfl)
      · trivial
    | _ => trivial
  | direct i => exact iff_of_true ((guarded_snoc h).mpr rfl) trivial
  | joins i k guard hcurrent =>
    refine iff_of_true (fun flight hflight => ?_) ?_
    · obtain ⟨j, hj⟩ := mem_iff_getElem?.mp hflight
      obtain ⟨old, hold, hsub⟩ := getElem?_modify_snoc hj
      obtain ⟨m, hm, hguard⟩ := h old (mem_of_getElem? hold)
      exact ⟨m, hsub hm, hguard⟩
    · simp only [StartsAdmitted]
      split
      · simp [hcurrent]
      · trivial
  | starts i guard hentered hcurrent =>
    rw [guarded_snoc h]
    simp [StartsAdmitted, hentered, hcurrent]

/-! ## After the guard has closed -/

/-- Seen from an earlier state `c0`: whoever its guard has let in was let in by then, and so
was a caller of every flight begun since. -/
structure AdmittedBy (c0 c : Coalescer) : Prop where
  entered : ∀ i, c.position i = .entered (some true) → c0.position i = .entered (some true)
  grows : c0.flights.length ≤ c.flights.length
  flights : ∀ k flight, c0.flights.length ≤ k → c.flights[k]? = some flight →
    ∃ m ∈ flight, m.guard = some true ∧ c0.position m.caller = .entered (some true)

theorem AdmittedBy.refl (c : Coalescer) : AdmittedBy c c where
  entered := fun _ h => h
  grows := Nat.le_refl _
  flights := fun k flight hk hflight => by
    rw [getElem?_eq_none hk] at hflight
    cases hflight

/-- The guard answers no. -/
def Refuses : CoalescerEvent → Prop
  | .enter _ guard => guard = false
  | _ => True

theorem entered_of_move {i j : Nat} {p : Position} (hp : p ≠ .entered (some true))
    (h : (c.move i p).position j = .entered (some true)) : c.position j = .entered (some true) := by
  have hupdate : Function.update c.position i p j = .entered (some true) := h
  by_cases hj : j = i
  · subst hj
    rw [Function.update_self] at hupdate
    exact absurd hupdate hp
  · rwa [Function.update_of_ne hj] at hupdate

theorem entered_of_step {e : CoalescerEvent} (hrefuses : Refuses e) {j : Nat}
    (h : (c.step e).position j = .entered (some true)) : c.position j = .entered (some true) := by
  cases e with
  | enter i guard =>
    obtain rfl : guard = false := hrefuses
    simp only [step] at h
    split at h
    · split at h
      · exact h
      · split at h
        · exact h
        · refine entered_of_move ?_ h
          split <;> simp
    · exact h
  | join i =>
    simp only [step] at h
    split at h
    · split at h
      all_goals exact entered_of_move (by simp) h
    · exact h
  | finish => exact h
  | leave i =>
    simp only [step] at h
    split at h
    · split at h
      · exact h
      · exact entered_of_move (by simp) h
    · exact entered_of_move (by simp) h
    · exact h

/-- A refusing event admits nobody that was not admitted before. -/
theorem AdmittedBy.step {c0 : Coalescer} (h : AdmittedBy c0 c) {e : CoalescerEvent}
    (hstarts : c.StartsAdmitted e) (hrefuses : Refuses e) : AdmittedBy c0 (c.step e) := by
  refine ⟨fun i hi => h.entered i (entered_of_step hrefuses hi), ?_, ?_⟩
  · have hchange := change_step c e
    generalize (c.step e).flights = flights at hchange ⊢
    have hgrows := h.grows
    cases hchange <;> simp <;> omega
  · have hchange := change_step c e
    generalize (c.step e).flights = flights at hchange ⊢
    intro k flight hk hflight
    cases hchange with
    | same => exact h.flights k flight hk hflight
    | direct i => cases hrefuses
    | joins i k' guard hcurrent =>
      obtain ⟨old, hold, hsub⟩ := getElem?_modify_snoc hflight
      obtain ⟨m, hm, hadmitted⟩ := h.flights k old hk hold
      exact ⟨m, hsub hm, hadmitted⟩
    | starts i guard hentered hcurrent =>
      obtain rfl : guard = some true := by
        simpa [StartsAdmitted, hentered, hcurrent] using hstarts
      rcases Nat.lt_or_ge k c.flights.length with hlt | hge
      · rw [getElem?_append_left hlt] at hflight
        exact h.flights k flight hk hflight
      · -- the flight that the caller has just started
        have hmem := mem_of_getElem? ((getElem?_append_right hge).symm.trans hflight)
        rw [mem_singleton.mp hmem]
        exact ⟨⟨i, some true⟩, mem_singleton_self _, rfl, h.entered i hentered⟩

/-- Every execution of `fn` belongs to a flight with a caller that its guard let in, in every
state of a run, exactly when no caller that was let in without asking ever reaches the group
while no call is in progress.  In such a run, once the guard answers no to everybody, every
flight that begins has a caller that the guard had let in before. -/
theorem flights_guarded_iff (disabled : Bool) (events : List CoalescerEvent) :
    ((∀ pre, pre <+: events → (run disabled pre).Guarded) ↔
        StepsMeet step StartsAdmitted (new disabled) events) ∧
      (StepsMeet step StartsAdmitted (new disabled) events →
        ∀ pre post, events = pre ++ post → (∀ i guard, .enter i guard ∈ post → guard = false) →
          AdmittedBy (run disabled pre) (run disabled events)) := by
  constructor
  · have hstart : (new disabled).Guarded := fun flight hflight => by cases hflight
    exact @forall_prefix_iff_stepsMeet _ _ step (new disabled) StartsAdmitted (fun _ => True) Guarded
      (fun _ _ _ => trivial) (fun c e _ h => guarded_step_iff h e) trivial hstart events
  · rintro hmeet pre post rfl hclosed
    rw [stepsMeet_append] at hmeet
    have hrefuses : ∀ e ∈ post, Refuses e := by
      intro e he
      cases e with
      | enter i guard => exact hclosed i guard he
      | _ => trivial
    have hsplit : run disabled (pre ++ post) = post.foldl step (run disabled pre) :=
      foldl_append
    rw [hsplit]
    exact run_invariant_of_stepsMeet (fun c e h hok => h.step hok.1 hok.2)
      (AdmittedBy.refl (run disabled pre)) (hmeet.2.and_forall hrefuses)

/-- A caller that arrives during a flight joins it. -/
theorem flights_guarded_joined :
    let events : List CoalescerEvent :=
      [.enter 0 true, .join 0, .enter 1 false, .join 1, .finish, .leave 0, .leave 1]
    StepsMeet step StartsAdmitted (new false) events ∧
      (∀ pre, pre <+: events → (run false pre).Guarded) ∧
      AdmittedBy (run false (events.take 1)) (run false events) := by
  intro events
  have hmeet : StepsMeet step StartsAdmitted (new false) events := by
    simp [events, StepsMeet, StartsAdmitted, step, new, move]
  refine ⟨hmeet, (flights_guarded_iff false events).1.mpr hmeet, ?_⟩
  refine (flights_guarded_iff false events).2 hmeet _ (events.drop 1) rfl ?_
  simp [events]

/-- A caller that arrives after the flight has ended and before its caller has left is let
in without asking, and starts a flight of its own. -/
theorem late_caller_bypasses_guard :
    let pre : List CoalescerEvent := [.enter 0 true, .join 0, .finish]
    let post : List CoalescerEvent := [.enter 1 false, .join 1]
    (∀ i guard, .enter i guard ∈ post → guard = false) ∧
      (∀ i, (run false pre).position i ≠ .entered (some true)) ∧
      (run false pre).flights.length < (run false (pre ++ post)).flights.length ∧
      ¬ (run false (pre ++ post)).Guarded := by
  refine ⟨by simp, fun i => ?_, by decide, by decide⟩
  cases i with
  | zero => decide
  | succ i => simp [run, step, new, move]

end Coalescer

end LokiVlProxy.Middleware
