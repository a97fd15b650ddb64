/-
  Proxy/IndexPersistence.lean --- the label value index on disk.

  Source: internal/proxy/label_index.go: buildLabelValuesIndexSnapshot, updateLabelValuesIndex,
  persistLabelValuesIndexNow.

  A snapshot that is on disk already is not written again; either way the disk then has it.  The
  path of the file is set: without one nothing is persisted and the flag stays.
-/
import LokiVlProxy.Foundation.Run
import LokiVlProxy.Proxy.LabelIndex

namespace LokiVlProxy.Proxy.LabelValues

open Foundation List

/-- `StatesByKey` of a snapshot. -/
abbrev Snapshot : Type := List (Text × Index)

def buildLabelValuesIndexSnapshot (states : States) : Snapshot :=
  states.toList.filter fun state => state.2.size ≠ 0

/-- Where the periodic persist is. -/
inductive Stage where
  | idle
  | checked
  | copied (snapshot : Snapshot)
  | wrote

/-- The index, the dirty flag, the persist and the last snapshot written. -/
structure Persistence where
  states : States
  dirty : Bool
  stage : Stage
  written : Snapshot

/-- The atomic steps. -/
inductive PersistEvent where
  | update (r : Recording)
  | check
  | copy
  | write (ok : Bool)
  | reset

namespace Config

variable (c : Config)

/-- `structuralChange`: a new key, a new value, or entries that are cut off. -/
def structuralChange (states : States) (r : Recording) : Bool :=
  c.indexed && !r.values.isEmpty && match states.find? (c.labelValuesIndexKey r.pair) with
    | none => true
    | some index =>
        r.values.any (fun value => (index.find? value).isNone) ||
          !decide (c.maxEntries ≤ 0 ∨ (r.values.foldl (note r.now) index).size ≤ c.maxEntries)

/-- One step of an update or of the periodic `persistLabelValuesIndexNow`; a step that is not
next does nothing. -/
def step (s : Persistence) (e : PersistEvent) : Persistence :=
  match e, s.stage with
  | .update r, _ =>
      { s with states := c.record s.states r, dirty := s.dirty || c.structuralChange s.states r }
  | .check, .idle => if s.dirty then { s with stage := .checked } else s
  | .copy, .checked => { s with stage := .copied (buildLabelValuesIndexSnapshot s.states) }
  | .write true, .copied snapshot => { s with stage := .wrote, written := snapshot }
  | .write false, .copied _ => { s with stage := .idle }
  | .reset, .wrote => { s with stage := .idle, dirty := false }
  | _, _ => s

end Config

namespace Persistence

variable {c : Config}

/-- While a persist is under way the flag is set. -/
def Flagged (s : Persistence) : Prop := s.stage ≠ .idle → s.dirty = true

/-- Every event keeps the flag set while a persist is under way. -/
theorem Flagged.step {s : Persistence} (h : s.Flagged) (e : PersistEvent) : (c.step s e).Flagged := by
  fun_cases Config.step c s e with
  | case1 r =>
    intro hstage
    simp [h hstage]
  | case2 hidle hdirty => exact fun _ => hdirty
  | case3 hidle hdirty => exact h
  | case4 hstage | case5 _ hstage => exact fun _ => h (by simp [hstage])
  | case6 | case7 => exact fun hidle => absurd rfl hidle
  | case8 => exact h

/-- A proxy that starts without a snapshot. -/
def fresh : Persistence := ⟨∅, false, .idle, []⟩

end Persistence

end LokiVlProxy.Proxy.LabelValues
