/-
  Foundation/Float64.lean --- floating point numbers that are scaled and made whole.

  A number is its value; of rounding only the rules are kept that say which results leave the
  range of 64 bit integers.
-/
import Mathlib.Data.Rat.Floor

namespace LokiVlProxy.Foundation

open Int64

/-- A floating point number. -/
inductive Float64 where
  | nan
  | infinite (negative : Bool)
  | finite (q : ℚ)
  deriving DecidableEq

/-- How products are rounded, and what numbers beyond 64 bits are converted to. -/
structure FloatRules where
  round : ℚ → ℚ
  indefinite : Float64 → Int64
  round_mono : Monotone round
  round_top : round 18446744073709551616 = 18446744073709551616
  round_bottom : round (-18446744073709551616) = -18446744073709551616

/-- Rounding towards zero. -/
def truncate (q : ℚ) : Int := if 0 ≤ q then ⌊q⌋ else ⌈q⌉

/-- Whether an integer is one of 64 bits. -/
def Within64 (n : Int) : Prop := -9223372036854775808 ≤ n ∧ n ≤ 9223372036854775807
  deriving Decidable

namespace Float64

variable (rules : FloatRules)

/-- `math.Abs(f) < c`. -/
def absLt (c : ℚ) : Float64 → Bool
  | .finite q => |q| < c
  | _ => false

/-- `math.Abs(f) >= c`. -/
def absGe (c : ℚ) : Float64 → Bool
  | .nan => false
  | .infinite _ => true
  | .finite q => c ≤ |q|

/-- The product with a positive constant. -/
def scale (f : Float64) (c : ℚ) : Float64 :=
  match f with
  | .finite q => .finite (rules.round (q * c))
  | f => f

/-- The whole number that a conversion stands for. -/
def whole : Float64 → Option Int
  | .finite q => some (truncate q)
  | _ => none

/-- `int64(f)`. -/
def toInt64 (f : Float64) : Int64 :=
  match f.whole with
  | some n => if Within64 n then Int64.ofInt n else rules.indefinite f
  | none => rules.indefinite f

end Float64

/-! ## The range -/

/-- An integer survives the conversion to an int64 exactly when an int64 holds it. -/
theorem toInt_ofInt_iff {n : Int} : (ofInt n).toInt = n ↔ Within64 n := by
  constructor
  · intro h
    have hlow := le_toInt (ofInt n)
    have hhigh := toInt_lt (ofInt n)
    rw [h] at hlow hhigh
    exact ⟨by omega, by omega⟩
  · rintro ⟨hlow, hhigh⟩
    exact toInt_ofInt_of_le (by omega) (by omega)

/-- Two integers wrap to one int64 exactly when they differ by a multiple of `2 ^ 64`. -/
theorem ofInt_eq_iff {a b : Int} :
    ofInt a = ofInt b ↔ (18446744073709551616 : Int) ∣ a - b := by
  rw [← toInt_inj, toInt_ofInt, toInt_ofInt, Int.bmod_eq_bmod_iff_bmod_sub_eq_zero,
    ← Int.dvd_iff_bmod_eq_zero]
  rfl

theorem within64_toInt (v : Int64) : Within64 v.toInt := by
  have hlow := le_toInt v
  have hhigh := toInt_lt v
  exact ⟨by omega, by omega⟩

theorem truncate_ge {q : ℚ} {n : Int} (hn : 0 ≤ n) (h : (n : ℚ) ≤ q) : n ≤ truncate q := by
  have hq : 0 ≤ q := le_trans (by exact_mod_cast hn) h
  rw [truncate, if_pos hq]
  exact Int.le_floor.mpr h

theorem truncate_le {q : ℚ} {n : Int} (hn : n < 0) (h : q ≤ n) : truncate q ≤ n := by
  have hq : ¬ 0 ≤ q := by
    intro h0
    have : (0 : ℚ) ≤ n := le_trans h0 h
    exact absurd (by exact_mod_cast this : (0 : Int) ≤ n) (not_le.mpr hn)
  rw [truncate, if_neg hq]
  exact Int.ceil_le.mpr h

/-- No rounding brings a number of that size back into an int64. -/
theorem not_within64_round (rules : FloatRules) {q : ℚ} (h : 18446744073709551616 ≤ |q|) :
    ¬ Within64 (truncate (rules.round q)) := by
  rintro ⟨hlow, hhigh⟩
  rcases le_abs.mp h with hpos | hneg
  · have hround := rules.round_mono hpos
    rw [rules.round_top] at hround
    have := truncate_ge (n := 18446744073709551616) (by decide) (by exact_mod_cast hround)
    omega
  · have hround := rules.round_mono (le_neg.mpr hneg)
    rw [rules.round_bottom] at hround
    have := truncate_le (n := -18446744073709551616) (by decide) (by exact_mod_cast hround)
    omega

end LokiVlProxy.Foundation
