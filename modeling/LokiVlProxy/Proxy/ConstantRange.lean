/-
  Proxy/ConstantRange.lean --- a constant over a range of evaluation points.

  Source: internal/proxy/binary_scalar.go: binaryConstantResponse (the matrix);
  internal/proxy/binary_budget.go: checkBinaryOutputSample.

  A point is given by its instant; the constant's text is the same at every point.
-/
import LokiVlProxy.Proxy.QueryWindows
import LokiVlProxy.Proxy.TimeParsers

namespace LokiVlProxy.Proxy

open Foundation MetadataKey List

/-- What ends an evaluation early. -/
structure EvaluationContext where
  /-- what is left of `outputSamples` -/
  budget : Nat
  /-- whether the context has ended when so much of the budget is left -/
  cancelled : Nat → Bool
  /-- the label and byte budgets of `encodeBinarySeriesContext` -/
  encodes : List Int64 → Bool

inductive ConstantAnswer where
  | error
  /-- `make` on a negative capacity -/
  | panic
  | points (instants : List Int64)
  deriving DecidableEq, Repr

/-- The loop over the evaluation points; `none` is an error of `checkBinaryOutputSample`. -/
def constantPoints (cancelled : Nat → Bool) (stop step : Int64) :
    Nat → Int64 → Option (List Int64)
  | 0, ts => if ts ≤ stop then none else some []
  | budget + 1, ts =>
      if ts ≤ stop then
        if cancelled (budget + 1) then none
        else if stop - ts < step then some [ts]
        else (constantPoints cancelled stop step budget (ts + step)).map (ts :: ·)
      else some []

/-- `binaryConstantResponse` with result type `matrix`; `step` is what
`parsePositiveStepDuration` reads. -/
def binaryConstantResponse (lib : InstantLib) (ctx : EvaluationContext) (nowStart nowEnd : Int64)
    (startRaw endRaw : Text) (step : Option Int64) : ConstantAnswer :=
  match lib.times.parseLokiTimeToUnixNano nowStart startRaw,
    lib.times.parseLokiTimeToUnixNano nowEnd endRaw, step with
  | some start, some stop, some step =>
      if stop < start ∨ (stop - start) / step ≥ 1000000 then .error
      else
        let count := 1 + (stop - start) / step
        if count.toInt > ctx.budget then .error
        else if count < 0 then .panic
        else
          match constantPoints ctx.cancelled stop step ctx.budget start with
          | none => .error
          | some points => if ctx.encodes points then .points points else .error
  | _, _, _ => .error

/-- The instants from `start` to `stop`, one step apart. -/
def evaluationInstants (start stop step : Int) : List Int :=
  (List.range (1 + (stop - start) / step).toNat).map fun k : Nat => start + k * step

/-- A range shorter than the step is evaluated at its start. -/
theorem evaluationInstants_single {start stop step : Int} (hle : start ≤ stop)
    (hlt : stop - start < step) : evaluationInstants start stop step = [start] := by
  rw [evaluationInstants, Int.ediv_eq_zero_of_lt (by omega) hlt]
  simp

/-- The instants of a range are its start and those of the rest. -/
theorem evaluationInstants_cons {start stop step : Int} (hstep : 0 < step)
    (hle : step ≤ stop - start) :
    evaluationInstants start stop step =
      start :: evaluationInstants (start + step) stop step := by
  have hdiv := Window.ediv_sub_self (stop - start) hstep
  have hnonneg := Int.ediv_nonneg (by omega : 0 ≤ stop - start - step) hstep.le
  rw [evaluationInstants, evaluationInstants, hdiv, Int.sub_sub] at *
  rw [show (1 + ((stop - (start + step)) / step + 1)).toNat =
    (1 + (stop - (start + step)) / step).toNat + 1 by omega, range_succ_eq_map,
    map_cons, map_map]
  congr 1
  · simp
  · refine map_congr_left fun k _ => ?_
    simp only [Function.comp, Nat.succ_eq_add_one]
    push_cast
    ring

theorem toInt_sub_of_small {a b : Int64} (hle : a ≤ b) (h : b.toInt - a.toInt < 2 ^ 63) :
    (b - a).toInt = b.toInt - a.toInt := by
  have hle' := Int64.le_iff_toInt_le.mp hle
  rw [Int64.toInt_sub, Window.bmod_of_small (by omega) h]

/-- Where the difference of the bounds fits, the loop visits every instant once. -/
theorem constantPoints_exact {cancelled : Nat → Bool} {start stop step : Int64} {budget : Nat}
    {points : List Int64} (hstep : 0 < step.toInt) (hle : start ≤ stop)
    (hfits : stop.toInt - start.toInt < 2 ^ 63)
    (h : constantPoints cancelled stop step budget start = some points) :
    points.map Int64.toInt = evaluationInstants start.toInt stop.toInt step.toInt := by
  have hle' := Int64.le_iff_toInt_le.mp hle
  induction budget generalizing start points with
  | zero =>
    rw [constantPoints, if_pos hle] at h
    cases h
  | succ budget ih =>
    rw [constantPoints, if_pos hle] at h
    split at h
    · cases h
    have hdiff := toInt_sub_of_small hle hfits
    split at h
    · next hlast =>
      rw [Int64.lt_iff_toInt_lt, hdiff] at hlast
      obtain rfl := Option.some.inj h
      exact (evaluationInstants_single hle' hlast).symm
    · next hmore =>
      rw [Int64.lt_iff_toInt_lt, hdiff] at hmore
      obtain ⟨rest, hrest, rfl⟩ := Option.map_eq_some_iff.mp h
      have hnext : (start + step).toInt = start.toInt + step.toInt := by
        have hlo := start.le_toInt
        have hhi := stop.toInt_lt
        rw [Int64.toInt_add, Window.bmod_of_small (by omega) (by omega)]
      have hle'' : start + step ≤ stop := Int64.le_iff_toInt_le.mpr (by omega)
      rw [map_cons, ih hle'' (by omega) hrest (by omega), hnext,
        ← evaluationInstants_cons hstep (by omega)]

/-- Nothing can be put out: no sample is left, the context has ended, or even the first point
exceeds the budgets of the encoder. -/
def EvaluationContext.Refuses (ctx : EvaluationContext) (start : Int64) : Prop :=
  ctx.budget = 0 ∨ ctx.cancelled ctx.budget = true ∨ ctx.encodes [start] = false

section

variable (lib : InstantLib) (ctx : EvaluationContext)
  {nowStart nowEnd start stop step : Int64} {startRaw endRaw : Text}
  (hstart : lib.times.parseLokiTimeToUnixNano nowStart startRaw = some start)
  (hstop : lib.times.parseLokiTimeToUnixNano nowEnd endRaw = some stop) (hle : start ≤ stop)
  (hpos : 0 < step)
include hstart hstop hle hpos

/-- Where the difference of the bounds fits, the answer is an error or every instant. -/
theorem binaryConstantResponse_of_fits (hfits : stop.toInt - start.toInt < 2 ^ 63) :
    let answer := binaryConstantResponse lib ctx nowStart nowEnd startRaw endRaw (some step)
    answer = .error ∨ ∃ points, answer = .points points ∧
      points.map Int64.toInt = evaluationInstants start.toInt stop.toInt step.toInt := by
  simp only [binaryConstantResponse, hstart, hstop]
  split
  · exact .inl rfl
  next hrange =>
  split
  · exact .inl rfl
  split
  · next hneg =>
    -- the longest range of single nanoseconds is refused before
    rw [Int64.add_comm] at hneg
    obtain ⟨hall, hone⟩ | hwraps := (Window.capacity_neg_iff hpos hle).mp hneg
    · obtain rfl : step = 1 := Int64.toInt_inj.mp hone
      refine absurd (.inr ?_) hrange
      rw [Int64.div_one, ge_iff_le, Int64.le_iff_toInt_le, toInt_sub_of_small hle hfits, hall]
      decide
    · omega
  split
  · exact .inl rfl
  next points hpoints =>
  split
  · exact .inr ⟨points, rfl, constantPoints_exact (Window.pos_of_pos hpos) hle hfits hpoints⟩
  · exact .inl rfl

/-- Where it wraps, the count is at most one: `make` panics, or the loop stops behind its first
point. -/
theorem binaryConstantResponse_of_wraps (hwraps : 2 ^ 63 ≤ stop.toInt - start.toInt) :
    let answer := binaryConstantResponse lib ctx nowStart nowEnd startRaw endRaw (some step)
    (answer = .error ↔ 2 ^ 64 - (stop.toInt - start.toInt) < 2 * step.toInt ∧ ctx.Refuses start) ∧
      ∀ points, answer = .points points → points = [start] := by
  have hstep := Window.pos_of_pos hpos
  have hlo := start.le_toInt
  have hhi := stop.toInt_lt
  have hzero : (0 : Int64).toInt = 0 := rfl
  have hdiff : (stop - start).toInt = stop.toInt - start.toInt - 2 ^ 64 := by
    rw [Int64.toInt_sub, Int.bmod_def]
    split <;> omega
  have hlast : stop - start < step := Int64.lt_iff_toInt_lt.mpr (by omega)
  have hcapacity := Window.capacity_neg_iff hpos hle
  rw [Int64.add_comm] at hcapacity
  have hnonneg := Int.ediv_nonneg (by omega : 0 ≤ 2 ^ 64 - (stop.toInt - start.toInt)) hstep.le
  have hself := Int.ediv_le_self step.toInt (by omega : 0 ≤ 2 ^ 64 - (stop.toInt - start.toInt))
  have hquot : ((stop - start) / step).toInt =
      -((2 ^ 64 - (stop.toInt - start.toInt)) / step.toInt) := by
    rw [Int64.toInt_div, hdiff, show stop.toInt - start.toInt - 2 ^ 64 =
      -(2 ^ 64 - (stop.toInt - start.toInt)) by omega, Int.neg_tdiv,
      Int.tdiv_eq_ediv_of_nonneg (by omega), Window.bmod_of_small (by omega) (by omega)]
  have hcount : (1 + (stop - start) / step).toInt ≤ 1 := by
    rw [Int64.toInt_add, hquot, show (1 : Int64).toInt = 1 from rfl,
      Window.bmod_of_small (by omega) (by omega)]
    omega
  have hrange : ¬ (stop < start ∨ (stop - start) / step ≥ 1000000) := by
    rw [ge_iff_le, Int64.le_iff_toInt_le, hquot, Int64.lt_iff_toInt_lt,
      show (1000000 : Int64).toInt = 1000000 from rfl]
    omega
  have hloop : constantPoints ctx.cancelled stop step ctx.budget start =
      if ctx.budget = 0 ∨ ctx.cancelled ctx.budget = true then none else some [start] := by
    cases ctx.budget with
    | zero => simp [constantPoints, hle]
    | succ budget => simp [constantPoints, hle, hlast]
  simp only [binaryConstantResponse, hstart, hstop, if_neg hrange, hloop, EvaluationContext.Refuses]
  by_cases hneg : 1 + (stop - start) / step < 0
  · have hpanic := hcapacity.mp hneg
    rw [Int64.lt_iff_toInt_lt, hzero] at hneg
    rw [if_neg (by omega), if_pos (Int64.lt_iff_toInt_lt.mpr hneg)]
    exact ⟨iff_of_false nofun (by omega), nofun⟩
  · have hroom : 2 ^ 64 - (stop.toInt - start.toInt) < 2 * step.toInt := by
      have := mt hcapacity.mpr hneg
      omega
    rw [and_iff_right hroom, if_neg hneg]
    split
    · have hbudget : ctx.budget = 0 := by omega
      exact ⟨iff_of_true rfl (.inl hbudget), nofun⟩
    · split_ifs with hended
      · exact ⟨iff_of_true rfl (hended.imp_right .inl), nofun⟩
      · cases hencodes : ctx.encodes [start] <;> simp_all

end

/-- A range is answered with an error or with the constant at every instant, exactly if the
difference of its bounds fits into 64 bits, or if it wraps to less than two steps and nothing can
be put out. -/
theorem binaryConstantResponse_exact_iff (lib : InstantLib) (ctx : EvaluationContext)
    {nowStart nowEnd start stop step : Int64} {startRaw endRaw : Text}
    (hstart : lib.times.parseLokiTimeToUnixNano nowStart startRaw = some start)
    (hstop : lib.times.parseLokiTimeToUnixNano nowEnd endRaw = some stop) (hle : start ≤ stop)
    (hpos : 0 < step) :
    let answer := binaryConstantResponse lib ctx nowStart nowEnd startRaw endRaw (some step)
    (answer = .error ∨ ∃ points, answer = .points points ∧
        points.map Int64.toInt = evaluationInstants start.toInt stop.toInt step.toInt) ↔
      stop.toInt - start.toInt < 2 ^ 63 ∨
        2 ^ 64 - (stop.toInt - start.toInt) < 2 * step.toInt ∧ ctx.Refuses start := by
  intro answer
  by_cases hfits : stop.toInt - start.toInt < 2 ^ 63
  · exact iff_of_true (binaryConstantResponse_of_fits lib ctx hstart hstop hle hpos hfits)
      (.inl hfits)
  · obtain ⟨herror, hpoints⟩ :=
      binaryConstantResponse_of_wraps lib ctx hstart hstop hle hpos (not_lt.mp hfits)
    rw [or_iff_right hfits, ← herror]
    refine or_iff_left ?_
    rintro ⟨points, heq, hexact⟩
    -- one point is not enough for a range that is longer than any step
    have hstep := Window.pos_of_pos hpos
    have hmany : 1 ≤ (stop.toInt - start.toInt) / step.toInt :=
      (Int.le_ediv_iff_mul_le hstep).mpr (by have := step.toInt_lt; omega)
    have hlength := congrArg List.length hexact
    rw [hpoints points heq] at hlength
    simp only [evaluationInstants, length_map, length_range, length_singleton] at hlength
    omega

/-- An evaluation with its budget untouched. -/
def freshEvaluation : EvaluationContext := ⟨1000000, fun _ => false, fun _ => true⟩

theorem binaryConstantResponse_exact_seconds :
    ∃ points, binaryConstantResponse oneDecimal freshEvaluation 0 0 ['8'] ['9'] (some 400000000) =
      .points points ∧
      points.map Int64.toInt = evaluationInstants 8000000000 9000000000 400000000 :=
  have hexact := @binaryConstantResponse_exact_iff oneDecimal freshEvaluation 0 0 8000000000
    9000000000 400000000 ['8'] ['9'] (by decide +kernel) (by decide +kernel) (by decide) (by decide)
  (hexact.mpr (.inl (by decide))).resolve_left (by decide +kernel)

/-- Both bounds are read as seconds, 584 years apart, and half a second makes the count -2. -/
theorem not_binaryConstantResponse_exact :
    oneDecimal.times.parseLokiTimeToUnixNano 0 "-9223372036".toList = some (-9223372036000000000) ∧
    oneDecimal.times.parseLokiTimeToUnixNano 0 "9223372036".toList = some 9223372036000000000 ∧
    binaryConstantResponse oneDecimal freshEvaluation 0 0 "-9223372036".toList
      "9223372036".toList (some 500000000) = .panic := by
  decide +kernel

end LokiVlProxy.Proxy
