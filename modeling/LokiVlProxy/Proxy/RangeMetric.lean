/-
  Proxy/RangeMetric.lean --- range metrics from samples and from buckets.

  Source: internal/proxy/range_metric_compat.go: aggregateManualWindow, manualWindowValues,
  buildManualRangeMetricMatrixContext, buildHitsRangeMetricMatrix; internal/proxy/
  binary_budget.go: checkBinaryOutputSample.

  Instants and durations are in nanoseconds.
-/
import LokiVlProxy.Proxy.StreamLabels

namespace LokiVlProxy.Proxy.RangeMetric

open Foundation List

/-! ## Values -/

/-- The functions whose value depends on more than counts, sums and extremes. -/
inductive SliceFunction where
  | quantile
  | stddev
  | stdvar
  | rateCounter
  deriving DecidableEq, Repr

/-- The range functions. -/
inductive RangeFunction where
  | slice (f : SliceFunction)
  | countOverTime
  | rate
  | bytesOverTime
  | sum
  | bytesRate
  | avg
  | min
  | max
  | first
  | last
  | unknown
  deriving DecidableEq, Repr

/-- Arithmetic on values. -/
structure Arithmetic (α : Type) where
  ofNat : Nat → α
  add : α → α → α
  sub : α → α → α
  div : α → α → α
  less : α → α → Bool
  isZero : α → Bool
  /-- `Duration.Seconds` -/
  seconds : Int → α
  /-- a slice function with its quantile and window, on values that are not none -/
  slice : SliceFunction → α → Int → List α → α
  /-- the length of a value's text -/
  width : α → Nat
  /-- the text of a 64-bit float has at most 400 bytes -/
  width_le : ∀ v, width v ≤ 400

variable {α : Type}

/-- `rangeMetricSample`. -/
structure Sample (α : Type) where
  ts : Int
  value : α

/-- `manualSeriesSamples`. -/
structure SeriesSamples (α : Type) where
  metric : Labels
  samples : List (Sample α)
  presentBuckets : Option (List Int)

/-- One series of a matrix: whole seconds and values. -/
structure MatrixSeries (α : Type) where
  metric : Labels
  points : List (Int × α)

/-- The series of a matrix. -/
abbrev Matrix (α : Type) : Type := List (MatrixSeries α)

/-- `sort.Slice` by time: any order of samples of the same time. -/
structure TimeSort (α : Type) where
  sort : List (Sample α) → List (Sample α)
  perm : ∀ samples, (sort samples).Perm samples
  ordered : ∀ samples, (sort samples).Pairwise fun a b => a.ts ≤ b.ts

/-- `t.Unix()`. -/
def unixSeconds (t : Int) : Int := t / 1000000000

/-- `stop.Sub(start)`, which stops at the longest duration. -/
def subTime (stop start : Int) : Int := max (-2 ^ 63) (min (2 ^ 63 - 1) (stop - start))

/-- The points of a loop from `start` to `stop`. -/
def evalPoints (start stop step : Int) : List Int :=
  if stop < start then []
  else (List.range (((stop - start) / step).toNat + 1)).map fun k : Nat => start + k * step

/-! ## Windows -/

def manualWindowValues (samples : List (Sample α)) (windowStart windowEnd : Int) : List α :=
  (samples.filter fun sample => windowStart < sample.ts && sample.ts ≤ windowEnd).map Sample.value

/-- The value that comparing keeps. -/
def extreme (better : α → α → Bool) : List α → Option α
  | [] => none
  | v :: vs => some (vs.foldl (fun kept v => if better v kept then v else kept) v)

variable (ar : Arithmetic α)

def aggregateManualWindow (f : RangeFunction) (quantile : α)
    (samples : List (Sample α)) (windowStart windowEnd window : Int) : Option α :=
  let values := manualWindowValues samples windowStart windowEnd
  let count := ar.ofNat values.length
  let sum := values.foldl ar.add (ar.ofNat 0)
  if values.isEmpty then none
  else
    match f with
    | .slice .rateCounter =>
        if window ≤ 0 then none
        else if values.length = 1 then some (ar.ofNat 0)
        else some (ar.slice .rateCounter quantile window values)
    | .slice g => some (ar.slice g quantile window values)
    | .countOverTime => some count
    | .rate => if window ≤ 0 then none else some (ar.div count (ar.seconds window))
    | .bytesOverTime | .sum => some sum
    | .bytesRate => if window ≤ 0 then none else some (ar.div sum (ar.seconds window))
    | .avg => some (ar.div sum count)
    | .min => extreme ar.less values
    | .max => extreme (fun v kept => ar.less kept v) values
    | .first => values.head?
    | .last => values.getLast?
    | .unknown => none

/-- `sort.SliceIsSorted` by time. -/
def sortedByTime (samples : List (Sample α)) : Bool :=
  decide (samples.Pairwise fun a b => a.ts ≤ b.ts)

/-- The part of ordered samples that two binary searches leave for a window. -/
def narrow (samples : List (Sample α)) (windowStart windowEnd : Int) : List (Sample α) :=
  if sortedByTime samples then
    let rest := samples.drop (samples.findIdx fun sample => windowStart ≤ sample.ts)
    rest.take (rest.findIdx fun sample => windowEnd < sample.ts)
  else samples

/-- The value of a series of samples at an evaluation point. -/
def manualValue (f : RangeFunction) (quantile : α) (window : Int)
    (series : SeriesSamples α) (t : Int) : Option α :=
  aggregateManualWindow ar f quantile (narrow series.samples (t - window) t) (t - window) t window

/-- `prefix[i]`. -/
def sumBefore (samples : List (Sample α)) (i : Nat) : α :=
  ((samples.take i).map Sample.value).foldl ar.add (ar.ofNat 0)

variable (order : TimeSort α)

/-- The samples in the order of their times. -/
def byTime (samples : List (Sample α)) : List (Sample α) :=
  if sortedByTime samples then samples else order.sort samples

/-- The value of a series of buckets at an evaluation point. -/
def hitsValue (f : RangeFunction) (window : Int)
    (series : SeriesSamples α) (t : Int) : Option α :=
  let samples := byTime order series.samples
  let lo := samples.findIdx fun sample => t - window ≤ sample.ts
  let hi := samples.findIdx fun sample => t ≤ sample.ts
  let sum := ar.sub (sumBefore ar samples hi) (sumBefore ar samples lo)
  let hasLines :=
    match series.presentBuckets with
    | none => !ar.isZero sum
    | some present => (present.find? fun edge => t - window ≤ edge).any fun edge => edge < t
  if hasLines then
    match f with
    | .rate | .bytesRate => some (ar.div sum (ar.seconds window))
    | _ => some sum
  else none

/-! ## Matrices -/

/-- Why there is no matrix. -/
inductive MetricError where
  /-- manual metric series limit exceeded (%d); narrow the query -/
  | seriesLimit (maxSeries : Int)
  /-- invalid or excessive manual metric evaluation points -/
  | evaluationPoints
  /-- binary expression output sample budget exceeded -/
  | sampleBudget
  /-- a budget for labels or bytes of the encoded answer is exceeded -/
  | encoderBudget
  /-- manual metric response exceeds %d bytes -/
  | responseBytes (limit : Nat)
  deriving DecidableEq, Repr

def maxBufferedBackendBodyBytes : Nat := 67108864

variable (value : SeriesSamples α → Int → Option α)

/-- The points that the loops over evaluation points and series meet. -/
def metPoints (series : List (Bytes × SeriesSamples α))
    (points : List Int) : List (Bytes × Int × α) :=
  points.flatMap fun t => series.filterMap fun e =>
    (value e.2 t).map fun v => (e.1, unixSeconds t, v)

/-- `perSeries`. -/
def perSeriesPoints
    (series : List (Bytes × SeriesSamples α)) (points : List Int) : KeyMap Bytes (List (Int × α)) :=
  KeyMap.gather Prod.fst (fun x => [x.2]) (fun ps x => ps ++ [x.2]) (metPoints value series points)

variable (encodes : Matrix α → Bool)

/-- The budgets that `buildManualRangeMetricMatrixContext` keeps. -/
def withinBudgets (matrix : Matrix α) : Except MetricError (Matrix α) :=
  if 1000000 < (matrix.map fun s => s.points.length).sum then .error .sampleBudget
  else if encodes matrix then .ok matrix
  else .error .encoderBudget

/-- The matrix of `perSeries` in the order of the keys. -/
def encodeSeries (series : List (Bytes × SeriesSamples α))
    (perSeries : KeyMap Bytes (List (Int × α))) : Matrix α :=
  series.filterMap fun e => (perSeries.find? e.1).map fun points => ⟨e.2.metric, points⟩

/-- `buildManualRangeMetricMatrixContext`; `encodes` are the label and byte budgets. -/
def buildManualRangeMetricMatrixContext
    (f : RangeFunction) (quantile : α) (series : SortedMap Bytes (SeriesSamples α))
    (start stop step window maxSeries : Int) : Except MetricError (Matrix α) :=
  if 0 < maxSeries ∧ maxSeries < series.entries.length then .error (.seriesLimit maxSeries)
  else if stop < start then withinBudgets encodes []
  else if step ≤ 0 ∨ 1000000 ≤ (subTime stop start).tdiv step then .error .evaluationPoints
  else
    withinBudgets encodes (encodeSeries series.entries
      (perSeriesPoints (manualValue ar f quantile window) series.entries
        (evalPoints start stop step)))

/-- The points at which a series has a value. -/
def seriesPoints (value : Int → Option α) (points : List Int) : List (Int × α) :=
  points.filterMap fun t => (value t).map fun v => (unixSeconds t, v)

/-- The series that have points. -/
def emitted (rows : Matrix α) : Matrix α := rows.filter fun s => !s.points.isEmpty

/-- What a series adds to the estimated size. -/
def encodedBytes (s : MatrixSeries α) : Nat :=
  (s.metric.entries.map fun e => e.1.length + e.2.length + 6).sum +
    (s.points.map fun p => ar.width p.2 + 26).sum

/-- Whether the estimate, already at `size`, passes the bound at a point. -/
def tooLarge (ar : Arithmetic α) (size : Nat) : Matrix α → Bool
  | [] => false
  | s :: rows =>
      let size := size + encodedBytes ar s
      (!s.points.isEmpty && maxBufferedBackendBodyBytes < size) || tooLarge ar size rows

def buildHitsRangeMetricMatrix (f : RangeFunction)
    (series : SortedMap Bytes (SeriesSamples α)) (start stop step window : Int) :
    Except MetricError (Matrix α) :=
  if stop < start ∨ step ≤ 0 then .ok []
  else
    let rows := series.entries.map fun e =>
      ⟨e.2.metric, seriesPoints (hitsValue ar order f window e.2) (evalPoints start stop step)⟩
    if tooLarge ar 0 rows then .error (.responseBytes maxBufferedBackendBodyBytes)
    else .ok (emitted rows)

/-! ## Evaluation points -/

variable {start stop step : Int} {e : Bytes × SeriesSamples α}
  {series : SortedMap Bytes (SeriesSamples α)}

theorem lt_pointCount_iff (hstep : 0 < step) (hspan : start ≤ stop) (k : Nat) :
    k < ((stop - start) / step).toNat + 1 ↔ start + k * step ≤ stop := by
  have hdiv : (k : Int) ≤ (stop - start) / step ↔ k * step ≤ stop - start :=
    Int.le_ediv_iff_mul_le hstep
  have hnonneg : 0 ≤ (stop - start) / step := Int.ediv_nonneg (by omega) hstep.le
  omega

/-- The evaluation points are the steps from the start up to the end. -/
theorem mem_evalPoints {t : Int} (hstep : 0 < step) :
    t ∈ evalPoints start stop step ↔ ∃ k : Nat, t = start + k * step ∧ t ≤ stop := by
  unfold evalPoints
  split
  · next h =>
    constructor
    · intro ht
      cases ht
    · rintro ⟨k, rfl, hk⟩
      have := Int.mul_nonneg (Int.natCast_nonneg k) hstep.le
      omega
  · next h =>
    rw [mem_map]
    constructor
    · rintro ⟨k, hk, rfl⟩
      exact ⟨k, rfl, (lt_pointCount_iff hstep (by omega) k).mp (mem_range.mp hk)⟩
    · rintro ⟨k, rfl, hk⟩
      exact ⟨k, mem_range.mpr ((lt_pointCount_iff hstep (by omega) k).mpr hk), rfl⟩

/-- Two evaluation points are a step apart. -/
theorem pairwise_evalPoints (hstep : 0 < step) :
    (evalPoints start stop step).Pairwise fun t t' => t + step ≤ t' := by
  unfold evalPoints
  split
  · exact List.Pairwise.nil
  · rw [pairwise_map]
    refine pairwise_lt_range.imp ?_
    intro a b hab
    have := Int.mul_le_mul_of_nonneg_right (show (a : Int) + 1 ≤ b by omega) hstep.le
    rw [Int.add_mul] at this
    omega

theorem evalPoints_next (hstep : 0 < step) {R : Int → Int → Prop}
    (h : (evalPoints start stop step).Pairwise R) {k : Nat} (hk : start + (k + 1) * step ≤ stop) :
    R (start + k * step) (start + (k + 1) * step) := by
  have hspan : start ≤ stop := by
    have := Int.mul_nonneg (Int.natCast_nonneg (k + 1)) hstep.le
    push_cast at this
    omega
  have hcount : k + 1 < ((stop - start) / step).toNat + 1 :=
    (lt_pointCount_iff hstep hspan (k + 1)).mpr (by push_cast; exact hk)
  rw [evalPoints, if_neg (by omega), pairwise_map, pairwise_iff_getElem] at h
  have := h k (k + 1) (by rw [length_range]; omega) (by rw [length_range]; omega)
    (by omega)
  rw [getElem_range, getElem_range] at this
  push_cast at this
  exact this

/-! ## What the builders answer -/

/-- The matrix of the series that have a value at some of the points. -/
def matrixOf (series : List (Bytes × SeriesSamples α)) (points : List Int) : Matrix α :=
  emitted (series.map fun e => ⟨e.2.metric, seriesPoints (value e.2) points⟩)

theorem mem_matrixOf {value : SeriesSamples α → Int → Option α}
    {series : List (Bytes × SeriesSamples α)} {points : List Int} (he : e ∈ series) {p : Int × α}
    (hp : p ∈ seriesPoints (value e.2) points) :
    ⟨e.2.metric, seriesPoints (value e.2) points⟩ ∈ matrixOf value series points := by
  refine mem_filter.mpr ⟨mem_map_of_mem he, ?_⟩
  rw [Bool.not_eq_true', isEmpty_eq_false_iff]
  exact ne_nil_of_mem hp

/-- The points that the loops meet for a series. -/
theorem filter_metPoints (points : List Int) (he : e ∈ series.entries) :
    ((metPoints value series.entries points).filter fun x => decide (x.1 = e.1)) =
      (seriesPoints (value e.2) points).map fun p => (e.1, p) := by
  have hround : ∀ t, ((series.entries.filterMap fun e' =>
      (value e'.2 t).map fun v => (e'.1, unixSeconds t, v)).filter fun x => decide (x.1 = e.1)) =
      ((value e.2 t).map fun v => (e.1, unixSeconds t, v)).toList := by
    intro t
    have hcomm : (fun e' : Bytes × SeriesSamples α =>
        Option.filter (fun x => decide (x.1 = e.1))
          ((value e'.2 t).map fun v => (e'.1, unixSeconds t, v))) =
        fun e' => if decide (e'.1 = e.1) = true then
          (value e'.2 t).map fun v => (e'.1, unixSeconds t, v) else none := by
      funext e'
      cases value e'.2 t with
      | none => exact (ite_self _).symm
      | some v => rfl
    rw [filter_filterMap, hcomm, ← filterMap_filter,
      SortedMap.filter_key he fun _ => decide_eq_true_iff,
      filterMap_cons]
    cases value e.2 t <;> rfl
  unfold metPoints seriesPoints
  rw [filter_flatMap, map_filterMap, flatMap_congr fun t _ => hround t]
  induction points with
  | nil => rfl
  | cons t points ih =>
    rw [flatMap_cons, ih, filterMap_cons]
    cases value e.2 t <;> rfl

theorem foldl_append_points (xs : List (Bytes × Int × α)) (ps : List (Int × α)) :
    xs.foldl (fun ps x => ps ++ [x.2]) ps = ps ++ xs.map Prod.snd := by
  induction xs generalizing ps with
  | nil => rw [foldl_nil, map_nil, append_nil]
  | cons x xs ih => rw [foldl_cons, ih, append_assoc]; rfl

/-- The encoder writes the matrix that the points make. -/
theorem encodeSeries_perSeriesPoints
    (series : SortedMap Bytes (SeriesSamples α)) (points : List Int) :
    encodeSeries series.entries (perSeriesPoints value series.entries points) =
      matrixOf value series.entries points := by
  have hfind : ∀ e ∈ series.entries,
      ((perSeriesPoints value series.entries points).find? e.1).map
          (fun ps => (⟨e.2.metric, ps⟩ : MatrixSeries α)) =
        (some ⟨e.2.metric, seriesPoints (value e.2) points⟩).filter fun s => !s.points.isEmpty := by
    intro e he
    rw [perSeriesPoints, KeyMap.find?_gather, filter_metPoints value points he]
    cases seriesPoints (value e.2) points with
    | nil => rfl
    | cons p ps =>
      rw [map_cons, KeyMap.extend, foldl_append_points, map_map]
      have hid : (Prod.snd ∘ fun p : Int × α => (e.1, p)) = id := rfl
      rw [hid, map_id]
      rfl
  unfold encodeSeries matrixOf emitted
  rw [filterMap_congr hfind, ← filterMap_eq_map, filter_filterMap]
  rfl

/-- The limits of the path over samples that come before the evaluation. -/
def manualAdmits (seriesCount : Nat) (start stop step maxSeries : Int) : Prop :=
  ¬ (0 < maxSeries ∧ maxSeries < seriesCount) ∧
    (stop < start ∨ 0 < step ∧ (subTime stop start).tdiv step < 1000000)
  deriving Decidable

/-- The manual path within its limits builds this matrix. -/
theorem buildManual_eq (f : RangeFunction)
    (quantile : α) (series : SortedMap Bytes (SeriesSamples α)) {maxSeries : Int} (window : Int)
    (hadmits : manualAdmits series.entries.length start stop step maxSeries) :
    buildManualRangeMetricMatrixContext ar encodes f quantile series start stop step window
        maxSeries =
      withinBudgets encodes (matrixOf (manualValue ar f quantile window) series.entries
        (evalPoints start stop step)) := by
  obtain ⟨hseries, hpoints⟩ := hadmits
  unfold buildManualRangeMetricMatrixContext
  rw [if_neg hseries]
  split
  · next hempty =>
    have hnone : evalPoints start stop step = [] := if_pos hempty
    rw [hnone, ← encodeSeries_perSeriesPoints]
    congr 1
    refine (filterMap_eq_nil_iff.mpr ?_).symm
    intro e _
    rfl
  · next hsome =>
    have hfew := hpoints.resolve_left hsome
    rw [if_neg (by omega), encodeSeries_perSeriesPoints]

theorem manual_of_ok {ar : Arithmetic α} {encodes : Matrix α → Bool} {f : RangeFunction}
    {quantile : α} {window maxSeries : Int} {m : Matrix α}
    (h : buildManualRangeMetricMatrixContext ar encodes f quantile series start stop step window
      maxSeries = .ok m) :
    m = matrixOf (manualValue ar f quantile window) series.entries
      (evalPoints start stop step) := by
  have hadmits : manualAdmits series.entries.length start stop step maxSeries := by
    unfold buildManualRangeMetricMatrixContext at h
    unfold manualAdmits
    split at h
    · cases h
    · next hseries =>
      refine ⟨hseries, ?_⟩
      split at h
      · next hempty => exact Or.inl hempty
      · split at h
        · cases h
        · next hfew => exact Or.inr (by omega)
  rw [buildManual_eq ar encodes f quantile series window hadmits, withinBudgets] at h
  split at h
  · cases h
  · split at h
    · exact (Except.ok.inj h).symm
    · cases h

theorem emitted_nil (series : List (Bytes × SeriesSamples α))
    (value : SeriesSamples α → Int → Option α) : matrixOf value series [] = [] := by
  unfold matrixOf emitted
  rw [filter_eq_nil_iff]
  intro s hs
  obtain ⟨e, -, rfl⟩ := mem_map.mp hs
  simp [seriesPoints]

/-- What the bucket path built when it succeeded. -/
theorem hits_of_ok {ar : Arithmetic α} {order : TimeSort α} {f : RangeFunction} {window : Int}
    {m : Matrix α} (hstep : 0 < step)
    (h : buildHitsRangeMetricMatrix ar order f series start stop step window = .ok m) :
    m = matrixOf (hitsValue ar order f window) series.entries (evalPoints start stop step) := by
  unfold buildHitsRangeMetricMatrix at h
  split at h
  · next hempty =>
    have hnone : evalPoints start stop step = [] := if_pos (hempty.resolve_right (by omega))
    rw [hnone, emitted_nil]
    exact (Except.ok.inj h).symm
  · dsimp only at h
    split at h
    · cases h
    · exact (Except.ok.inj h).symm

end LokiVlProxy.Proxy.RangeMetric
