/-
  Proxy/DrilldownExpansion.lean --- a coarse matrix at a finer step.

  Source: internal/proxy/metric_binary.go: expandDrilldownStep.

  Steps and the end are nanoseconds, timestamps seconds; a value is the number that its text
  stands for.  A timestamp that is not cut is too small for the sums to leave 64 bits.
-/
import Mathlib.Data.List.TakeWhile
import Mathlib.Tactic.Linarith

namespace LokiVlProxy.Proxy

open List

variable {ν : Type}

/-- The sub-points of a coarse point, up to the first one behind the end. -/
def subPoints (factor fineStepSec endSec : Int) (p : Int × ν) : List (Int × ν) :=
  ((range factor.toNat).map fun (i : Nat) => (p.1 + i * fineStepSec, p.2)).takeWhile
    fun q => !(endSec > 0 && q.1 > endSec)

/-- `expandDrilldownStep`, on the points of a series; its labels are copied. -/
def expandDrilldownStep (fineStep coarseStep endNs : Int) (points : List (Int × ν)) :
    List (Int × ν) :=
  let factor := coarseStep / fineStep
  if fineStep ≤ 0 ∨ coarseStep ≤ fineStep ∨ factor ≤ 1 ∨ factor > 120 then points
  else points.flatMap (subPoints factor (fineStep / 10 ^ 9) (endNs.tdiv (10 ^ 9)))

/-- Points in order whose timestamps are at least a step apart. -/
structure Spaced (coarseStep : Int) (points : List (Int × ν)) : Prop where
  sorted : points.Pairwise fun p q => p.1 < q.1
  apart : ∀ p ∈ points, ∀ q ∈ points, p.1 < q.1 → coarseStep ≤ (q.1 - p.1) * 10 ^ 9

/-- A time axis up to the end, on which each point has the value of the latest coarse point. -/
structure ProperAxis (endNs : Int) (coarse points : List (Int × ν)) : Prop where
  increasing : points.Pairwise fun p q => p.1 < q.1
  ends : ∀ p ∈ points, p.1 * 10 ^ 9 ≤ endNs
  full : ∀ q ∈ coarse, q.1 * 10 ^ 9 ≤ endNs → q ∈ points
  latest : ∀ p ∈ points, ∃ q ∈ coarse, p.2 = q.2 ∧ q.1 ≤ p.1 ∧
    ∀ q' ∈ coarse, q'.1 ≤ p.1 → q'.1 ≤ q.1

variable {fineStep coarseStep endNs factor fineStepSec endSec : Int} {p q r : Int × ν}

/-- The points that one coarse point is expanded to. -/
theorem mem_subPoints (h : q ∈ subPoints factor fineStepSec endSec p) :
    ∃ i : Nat, i < factor ∧ q = (p.1 + i * fineStepSec, p.2) ∧ (endSec ≤ 0 ∨ q.1 ≤ endSec) := by
  obtain ⟨i, hi, rfl⟩ := mem_map.mp ((takeWhile_sublist _).subset h)
  have hend := mem_takeWhile_imp h
  rw [mem_range] at hi
  exact ⟨i, by omega, rfl, by simpa using hend⟩

theorem self_mem_subPoints (hfactor : 0 < factor) (hend : endSec ≤ 0 ∨ p.1 ≤ endSec) :
    p ∈ subPoints factor fineStepSec endSec p := by
  obtain ⟨n, hn⟩ : ∃ n, factor.toNat = n + 1 := ⟨factor.toNat - 1, by omega⟩
  rw [subPoints, hn, range_succ_eq_map, map_cons, takeWhile_cons_of_pos (by simpa using hend)]
  simp

theorem pairwise_subPoints (hfine : 0 < fineStepSec) :
    (subPoints factor fineStepSec endSec p).Pairwise fun p q => p.1 < q.1 := by
  refine Pairwise.sublist (takeWhile_sublist _) (pairwise_map.mpr ?_)
  refine pairwise_lt_range.imp fun hij => ?_
  have := mul_lt_mul_of_pos_right (Int.ofNat_lt.mpr hij) hfine
  dsimp only
  omega

/-- Sub-points come before the next coarse point. -/
theorem subPoints_before (hfine : 0 < fineStep)
    (hfactor : factor * fineStep ≤ coarseStep) (hapart : coarseStep ≤ (q.1 - p.1) * 10 ^ 9)
    (hr : r ∈ subPoints factor (fineStep / 10 ^ 9) endSec p) : r.1 < q.1 := by
  obtain ⟨i, hi, rfl, -⟩ := mem_subPoints hr
  have hsec : fineStep / 10 ^ 9 * 10 ^ 9 ≤ fineStep := Int.ediv_mul_le _ (by decide)
  have hsub := mul_le_mul_of_nonneg_left hsec (Int.natCast_nonneg i)
  have hlast := mul_lt_mul_of_pos_right hi hfine
  dsimp only
  nlinarith

/-- The expansion of spaced points has a proper axis. -/
theorem properAxis_expanded {points : List (Int × ν)} (hfine : 10 ^ 9 ≤ fineStep)
    (hpos : 0 < factor) (hfactor : factor * fineStep ≤ coarseStep) (hend : 10 ^ 9 ≤ endNs)
    (h : Spaced coarseStep points) :
    ProperAxis endNs points
      (points.flatMap (subPoints factor (fineStep / 10 ^ 9) (endNs.tdiv (10 ^ 9)))) := by
  have hsec : endNs.tdiv (10 ^ 9) = endNs / 10 ^ 9 := Int.tdiv_eq_ediv_of_nonneg (by omega)
  have hstep : 0 < fineStep / 10 ^ 9 := by omega
  have hlater (i : Nat) : 0 ≤ (i : Int) * (fineStep / 10 ^ 9) := by positivity
  have hbefore {p q r : Int × ν} (hp : p ∈ points) (hq : q ∈ points) (hlt : p.1 < q.1) :=
    @subPoints_before _ _ _ _ (endNs.tdiv (10 ^ 9)) p q r (by omega) hfactor (h.apart p hp q hq hlt)
  refine ⟨?_, ?_, ?_, ?_⟩
  · refine pairwise_flatMap.mpr ⟨fun p _ => pairwise_subPoints hstep, ?_⟩
    refine h.sorted.imp_of_mem fun hp hq hlt r hr s hs => ?_
    obtain ⟨i, -, rfl, -⟩ := mem_subPoints hs
    exact (hbefore hp hq hlt hr).trans_le (Int.le_add_of_nonneg_right (hlater i))
  · intro p hp
    obtain ⟨q, -, hq⟩ := mem_flatMap.mp hp
    obtain ⟨i, -, -, hle⟩ := mem_subPoints hq
    omega
  · intro q hq hle
    exact mem_flatMap.mpr ⟨q, hq, self_mem_subPoints hpos (by omega)⟩
  · intro p hp
    obtain ⟨q, hq, hsub⟩ := mem_flatMap.mp hp
    obtain ⟨i, -, rfl, -⟩ := mem_subPoints hsub
    refine ⟨q, hq, rfl, Int.le_add_of_nonneg_right (hlater i), fun q' hq' hle => ?_⟩
    by_contra hlt
    exact absurd hle (not_le.mpr (hbefore hq hq' (not_le.mp hlt) hsub))

/-- The time axis of every series is proper exactly for a step of a second or more that goes
two to 120 times into the coarse one, and an end of a second or more. -/
theorem expandDrilldownStep_proper_iff [Inhabited ν] (fineStep coarseStep endNs : Int) :
    (∀ points : List (Int × ν), Spaced coarseStep points →
      ProperAxis endNs points (expandDrilldownStep fineStep coarseStep endNs points)) ↔
      10 ^ 9 ≤ fineStep ∧ 2 ≤ coarseStep / fineStep ∧ coarseStep / fineStep ≤ 120 ∧
        10 ^ 9 ≤ endNs := by
  constructor
  · intro h
    have hone (t : Int) := h [(t, default)] ⟨pairwise_singleton _ _, by simp⟩
    unfold expandDrilldownStep at hone
    dsimp only at hone
    split at hone
    · have hlate := (hone (endNs / 10 ^ 9 + 1)).ends _ mem_cons_self
      dsimp only at hlate
      omega
    · simp only [flatMap_singleton] at hone
      have hsec : 10 ^ 9 ≤ endNs := by
        by_contra hsmall
        have hzero : endNs.tdiv (10 ^ 9) ≤ 0 := by
          rw [Int.tdiv_eq_ediv]
          split <;> [skip; rw [Int.sign_eq_one_of_pos (by decide)]] <;> omega
        have hlate := (hone (endNs / 10 ^ 9 + 1)).ends _
          (self_mem_subPoints (by omega) (.inl hzero))
        dsimp only at hlate
        omega
      refine ⟨?_, by omega, by omega, hsec⟩
      by_contra hsmall
      have hzero : fineStep / 10 ^ 9 = 0 := by omega
      obtain ⟨n, hn⟩ : ∃ n, (coarseStep / fineStep).toNat = n + 2 :=
        ⟨(coarseStep / fineStep).toNat - 2, by omega⟩
      have htwice := (hone 0).increasing
      have hnonneg : 0 ≤ endNs.tdiv (10 ^ 9) := Int.tdiv_nonneg (by omega) (by decide)
      generalize endNs.tdiv (10 ^ 9) = endSec at htwice hnonneg
      rw [hzero, subPoints, hn] at htwice
      simp [range_succ_eq_map, hnonneg] at htwice
  · rintro ⟨hfine, htwo, hmany, hend⟩ points hspaced
    have hfactor : coarseStep / fineStep * fineStep ≤ coarseStep := Int.ediv_mul_le _ (by omega)
    rw [expandDrilldownStep, if_neg (by rintro (h | h | h | h) <;> nlinarith)]
    exact properAxis_expanded hfine (by omega) hfactor hend hspaced

/-- Steps of half a second and a second: each timestamp comes twice. -/
theorem expandDrilldownStep_repeats :
    ¬ ProperAxis 2000000000 [(0, 7)] (expandDrilldownStep 500000000 (10 ^ 9) 2000000000 [(0, 7)]) :=
  fun h => absurd h.increasing (by decide)

end LokiVlProxy.Proxy
