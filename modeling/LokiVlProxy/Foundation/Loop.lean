/-
  Foundation/Loop.lean --- loops that fuel bounds.

  A program that may fail is an `Except`; a model of its loops may also run out of fuel, which
  `Halt` keeps apart from the program's own failures.
-/
import Mathlib.Order.Defs.PartialOrder

namespace LokiVlProxy.Foundation

variable {ε β σ : Type}

/-- Why there is no result. -/
inductive Halt (ε : Type) where
  | failed (why : ε)
  | outOfFuel
  deriving DecidableEq, Repr

/-- A computation that may fail and has its own bound on steps. -/
abbrev Bounded (ε α : Type) : Type := Except (Halt ε) α

instance : MonadLift (Except ε) (Bounded ε) := ⟨Except.mapError .failed⟩

/-- Runs the body of a loop until it leaves the loop. -/
def loop (body : σ → Except ε (σ ⊕ β)) : Nat → σ → Bounded ε β
  | 0, _ => .error .outOfFuel
  | fuel + 1, s => do
      match ← body s with
      | .inl s' => loop body fuel s'
      | .inr b => return b

end LokiVlProxy.Foundation
