/-
  Proxy/SeriesReduction.lean --- the outer aggregation over the series of a range metric.

  Source: internal/proxy/range_metric_compat.go: reduceLokiSeriesAcrossSeries,
  groupedMetricLabels.

  The builders write a point at the whole second of its evaluation point, and the reduction
  takes the points of one second together.
-/
import LokiVlProxy.Proxy.RangeMetric

namespace LokiVlProxy.Proxy.RangeMetric

open Foundation List

variable {α : Type}

/-! ## The reduction -/

/-- The outer aggregations. -/
inductive OuterAggregation where
  | sum
  | avg
  | count
  | min
  | max
  deriving DecidableEq, Repr

def groupedMetricLabels (metric : Labels) (byLabels : List Bytes) (without : Bool) : Labels :=
  if without then metric.filter fun k v => !v.isEmpty && !byLabels.contains k
  else
    byLabels.foldl (fun out name =>
      match metric.find? name with
      | none => out
      | some v => if v.isEmpty then out else out.insert name v) ∅

/-- `acc`. -/
structure Accumulated (α : Type) where
  val : α
  count : Nat
  metric : Labels

/-- A point of a matrix with the labels of its series. -/
structure LabelledPoint (α : Type) where
  metric : Labels
  ts : Int
  value : α

/-- The points of a matrix, series by series. -/
def labelledPoints (m : Matrix α) : List (LabelledPoint α) :=
  m.flatMap fun s => s.points.map fun p => ⟨s.metric, p.1, p.2⟩

section Reduce

variable (ar : Arithmetic α) (agg : OuterAggregation) (byLabels : List Bytes) (without : Bool)

/-- The group of a series. -/
def groupOf (metric : Labels) : Bytes :=
  canonicalLabelsKey (groupedMetricLabels metric byLabels without)

/-- A later value of a group and second. -/
def combine (kept v : α) : α :=
  match agg with
  | .min => if ar.less v kept then v else kept
  | .max => if ar.less kept v then v else kept
  | .sum | .avg | .count => ar.add kept v

/-- The value that is written for a group and second. -/
def finish (a : Accumulated α) : α :=
  match agg with
  | .avg => ar.div a.val (ar.ofNat a.count)
  | .count => ar.ofNat a.count
  | .sum | .min | .max => a.val

/-- `byTS`: what is accumulated under a group and a second. -/
def accumulate (points : List (LabelledPoint α)) : KeyMap (Bytes × Int) (Accumulated α) :=
  KeyMap.gather (fun p => (groupOf byLabels without p.metric, p.ts))
    (fun p => ⟨p.value, 1, groupedMetricLabels p.metric byLabels without⟩)
    (fun a p => ⟨combine ar agg a.val p.value, a.count + 1, a.metric⟩) points

/-- The keys in the order of group and second. -/
def sortKeys (keys : List (Bytes × Int)) : List (Bytes × Int) :=
  keys.insertionSort fun a b => a.1 < b.1 ∨ a.1 = b.1 ∧ a.2 ≤ b.2

variable (byTS : KeyMap (Bytes × Int) (Accumulated α))

/-- The rows that are written, by group and second. -/
def outRows : List ((Bytes × Int) × Accumulated α) :=
  (sortKeys byTS.keys).filterMap fun k => (byTS.find? k).map fun a => (k, a)

/-- `out`: the rows of each group. -/
def outSeries (rows : List ((Bytes × Int) × Accumulated α)) : KeyMap Bytes (MatrixSeries α) :=
  KeyMap.gather (fun row => row.1.1)
    (fun row => ⟨row.2.metric, [(row.1.2, finish ar agg row.2)]⟩)
    (fun s row => ⟨s.metric, s.points ++ [(row.1.2, finish ar agg row.2)]⟩) rows

def reduceLokiSeriesAcrossSeries (m : Matrix α) : Matrix α :=
  if m.isEmpty then m
  else
    let rows := outRows (accumulate ar agg byLabels without (labelledPoints m))
    let order := (rows.map fun row => row.1.1).eraseDups
    order.filterMap (outSeries ar agg rows).find?

/-! ## What the reduction gives -/

/-- The outer aggregation of values. -/
def outerValue : List α → Option α
  | [] => none
  | v :: vs =>
      some (match agg with
        | .sum => vs.foldl ar.add v
        | .avg => ar.div (vs.foldl ar.add v) (ar.ofNat (vs.length + 1))
        | .count => ar.ofNat (vs.length + 1)
        | .min => vs.foldl (fun kept v => if ar.less v kept then v else kept) v
        | .max => vs.foldl (fun kept v => if ar.less kept v then v else kept) v)

/-- The values of a matrix for a group of label sets at a second. -/
def valuesAt (group : Bytes) (sec : Int) (m : Matrix α) : List α :=
  m.flatMap fun s =>
    if canonicalLabelsKey s.metric = group then (s.points.filter fun p => p.1 = sec).map Prod.snd
    else []

/-- The values that series of a group have at a second. -/
def memberValues (group : Bytes) (sec : Int) (m : Matrix α) : List α :=
  m.flatMap fun s =>
    if groupOf byLabels without s.metric = group then
      (s.points.filter fun p => p.1 = sec).map Prod.snd
    else []

/-- What a group accumulates at a second. -/
theorem find?_accumulate (points : List (LabelledPoint α)) (group : Bytes) (sec : Int) :
    (accumulate ar agg byLabels without points).find? (group, sec) =
      match points.filter fun p => (groupOf byLabels without p.metric, p.ts) = (group, sec) with
      | [] => none
      | p :: ps => some ⟨(ps.map LabelledPoint.value).foldl (combine ar agg) p.value,
          ps.length + 1, groupedMetricLabels p.metric byLabels without⟩ := by
  have hfold : ∀ (ps : List (LabelledPoint α)) (v : α) (n : Nat) (metric : Labels),
      ps.foldl (fun a p => (⟨combine ar agg a.val p.value, a.count + 1, a.metric⟩ :
        Accumulated α)) ⟨v, n, metric⟩ =
      ⟨(ps.map LabelledPoint.value).foldl (combine ar agg) v, n + ps.length, metric⟩ := by
    intro ps
    induction ps with
    | nil =>
      intro v n metric
      rfl
    | cons p ps ih =>
      intro v n metric
      rw [foldl_cons, ih, map_cons, foldl_cons, length_cons]
      congr 1
      exact Nat.succ_add_eq_add_succ n ps.length
  rw [accumulate, KeyMap.find?_gather]
  cases points.filter fun p => decide ((groupOf byLabels without p.metric, p.ts) = (group, sec)) with
  | nil => rfl
  | cons p ps =>
    rw [KeyMap.extend, hfold]
    dsimp only
    rw [Nat.add_comm 1]

theorem finish_accumulated (v : α) (vs : List α) (metric : Labels) :
    some (finish ar agg ⟨vs.foldl (combine ar agg) v, vs.length + 1, metric⟩) =
      outerValue ar agg (v :: vs) := by
  cases agg <;> rfl

variable (m : Matrix α) (group : Bytes) (sec : Int)

theorem labelledPoints_filter :
    ((labelledPoints m).filter fun p =>
        decide ((groupOf byLabels without p.metric, p.ts) = (group, sec))).map LabelledPoint.value =
      memberValues byLabels without group sec m := by
  unfold labelledPoints memberValues
  rw [filter_flatMap, map_flatMap]
  refine flatMap_congr fun s _ => ?_
  rw [filter_map, map_map]
  by_cases hgroup : groupOf byLabels without s.metric = group
  · rw [if_pos hgroup]
    congr 1
    refine filter_congr fun p _ => ?_
    simp [hgroup]
  · rw [if_neg hgroup]
    refine map_eq_nil_iff.mpr (filter_eq_nil_iff.mpr fun p _ => ?_)
    simp [hgroup]

/-- The accumulator of a group and a second gives the outer value of its members. -/
theorem find?_accumulate_values :
    ((accumulate ar agg byLabels without (labelledPoints m)).find? (group, sec)).map
        (finish ar agg) =
      outerValue ar agg (memberValues byLabels without group sec m) := by
  rw [find?_accumulate, ← labelledPoints_filter]
  cases (labelledPoints m).filter fun p =>
      decide ((groupOf byLabels without p.metric, p.ts) = (group, sec)) with
  | nil => rfl
  | cons p ps =>
    dsimp only
    rw [Option.map_some, map_cons, ← finish_accumulated ar agg _ _ ∅, length_map]
    cases agg <;> rfl

/-! ## The rows of the answer -/

theorem mem_outRows {byTS : KeyMap (Bytes × Int) (Accumulated α)}
    {row : (Bytes × Int) × Accumulated α} :
    row ∈ outRows byTS ↔ byTS.find? row.1 = some row.2 := by
  unfold outRows sortKeys
  rw [mem_filterMap]
  constructor
  · rintro ⟨k, -, hk⟩
    obtain ⟨a, ha, rfl⟩ := Option.map_eq_some_iff.mp hk
    exact ha
  · intro h
    refine ⟨row.1, ?_, by rw [h]; rfl⟩
    rw [(perm_insertionSort _ _).mem_iff, KeyMap.mem_keys, h]
    rfl

theorem outRows_keys : (outRows byTS).map Prod.fst = sortKeys byTS.keys := by
  have hfound : ∀ k ∈ sortKeys byTS.keys,
      ((byTS.find? k).map fun a => (k, a)).map Prod.fst = some k := by
    intro k hk
    rw [sortKeys, (perm_insertionSort _ _).mem_iff, KeyMap.mem_keys,
      Option.isSome_iff_exists] at hk
    obtain ⟨a, ha⟩ := hk
    rw [ha]
    rfl
  rw [outRows, map_filterMap, filterMap_congr hfound, filterMap_some]

/-- A key has one output row at most. -/
theorem filter_outRows (k : Bytes × Int) :
    ((outRows byTS).filter fun row => decide (row.1 = k)) =
      ((byTS.find? k).map fun a => (k, a)).toList := by
  have hnodup : ((outRows byTS).map Prod.fst).Nodup := by
    rw [outRows_keys]
    exact (perm_insertionSort _ _).nodup_iff.mpr byTS.nodup_keys
  have hrows : ((outRows byTS).filter fun row => decide (row.1 = k)).Nodup :=
    (hnodup.of_map _).filter _
  have hsame : ∀ row, row ∈ ((outRows byTS).filter fun row => decide (row.1 = k)) ↔
      row ∈ ((byTS.find? k).map fun a => (k, a)).toList := by
    intro row
    rw [mem_filter, mem_outRows, decide_eq_true_eq, Option.mem_toList, Option.map_eq_some_iff]
    constructor
    · rintro ⟨hrow, rfl⟩
      exact ⟨row.2, hrow, rfl⟩
    · rintro ⟨a, ha, rfl⟩
      exact ⟨ha, rfl⟩
  have hperm := (perm_ext_iff_of_nodup hrows (by cases byTS.find? k <;> simp)).mpr hsame
  cases hfind : byTS.find? k with
  | none =>
    rw [hfind] at hperm
    exact hperm.eq_nil
  | some a =>
    rw [hfind] at hperm
    exact perm_singleton.mp hperm

theorem find?_outSeries (rows : List ((Bytes × Int) × Accumulated α)) (group : Bytes) :
    (outSeries ar agg rows).find? group =
      match rows.filter fun row => row.1.1 = group with
      | [] => none
      | row :: rest => some ⟨row.2.metric,
          (row :: rest).map fun row => (row.1.2, finish ar agg row.2)⟩ := by
  have hfold : ∀ (rest : List ((Bytes × Int) × Accumulated α)) (s : MatrixSeries α),
      rest.foldl (fun s row => (⟨s.metric, s.points ++ [(row.1.2, finish ar agg row.2)]⟩ :
        MatrixSeries α)) s =
      ⟨s.metric, s.points ++ rest.map fun row => (row.1.2, finish ar agg row.2)⟩ := by
    intro rest
    induction rest with
    | nil =>
      intro s
      rw [foldl_nil, map_nil, append_nil]
    | cons row rest ih =>
      intro s
      rw [foldl_cons, ih, append_assoc]
      rfl
  rw [outSeries, KeyMap.find?_gather]
  cases rows.filter fun row => decide (row.1.1 = group) with
  | nil => rfl
  | cons row rest =>
    rw [KeyMap.extend, hfold]
    rfl

theorem nodup_eraseDups : ∀ groups : List Bytes, groups.eraseDups.Nodup
  | [] => nodup_nil
  | g :: groups => by
    rw [eraseDups_cons, nodup_cons, mem_eraseDups]
    exact ⟨by simp, nodup_eraseDups _⟩
termination_by groups => groups.length
decreasing_by exact Nat.lt_succ_of_le (length_filter_le _ _)

theorem flatMap_of_group {β : Type} {groups : List Bytes} (hnodup : groups.Nodup) (group : Bytes)
    (part : Bytes → List β) (habsent : group ∉ groups → part group = []) :
    (groups.flatMap fun g => if g = group then part g else []) = part group := by
  induction groups with
  | nil => exact (habsent not_mem_nil).symm
  | cons g groups ih =>
    obtain ⟨hg, hrest⟩ := nodup_cons.mp hnodup
    rw [flatMap_cons]
    by_cases h : g = group
    · subst h
      have hnone : (groups.flatMap fun g' => if g' = g then part g' else []) = [] := by
        rw [flatMap_eq_nil_iff]
        intro g' hg'
        rw [if_neg]
        rintro rfl
        exact hg hg'
      rw [if_pos rfl, hnone, append_nil]
    · rw [if_neg h, nil_append]
      refine ih hrest fun hmem => habsent fun hcons => ?_
      rcases mem_cons.mp hcons with rfl | hcons
      · exact h rfl
      · exact hmem hcons

/-- The values of a group at a second, from the rows. -/
theorem valuesAt_outSeries {rows : List ((Bytes × Int) × Accumulated α)}
    (hmetric : ∀ row ∈ rows, canonicalLabelsKey row.2.metric = row.1.1) (group : Bytes)
    (sec : Int) :
    valuesAt group sec ((rows.map fun row => row.1.1).eraseDups.filterMap
        (outSeries ar agg rows).find?) =
      (rows.filter fun row => row.1 = (group, sec)).map fun row => finish ar agg row.2 := by
  have hpart : ∀ g, ((outSeries ar agg rows).find? g).toList.flatMap
      (fun s => if canonicalLabelsKey s.metric = group then
        (s.points.filter fun p => p.1 = sec).map Prod.snd else []) =
      if g = group then
        ((rows.filter fun row => row.1.1 = g).filter fun row => row.1.2 = sec).map
          fun row => finish ar agg row.2
      else [] := by
    intro g
    rw [find?_outSeries]
    cases hrows : rows.filter fun row => decide (row.1.1 = g) with
    | nil => exact (ite_self _).symm
    | cons row rest =>
      have hrow : row ∈ rows.filter fun row => decide (row.1.1 = g) := hrows ▸ mem_cons_self
      rw [mem_filter, decide_eq_true_eq] at hrow
      dsimp only
      rw [Option.toList_some, flatMap_singleton, hmetric row hrow.1, hrow.2,
        filter_map, map_map]
      rfl
  unfold valuesAt
  rw [filterMap_eq_flatMap_toList, flatMap_assoc, flatMap_congr fun g _ => hpart g]
  rw [flatMap_of_group (nodup_eraseDups _) group fun g =>
      ((rows.filter fun row => row.1.1 = g).filter fun row => row.1.2 = sec).map
        fun row => finish ar agg row.2]
  · rw [filter_filter]
    congr 1
    refine filter_congr fun row _ => ?_
    rw [← Bool.decide_and]
    refine decide_eq_decide.mpr ⟨?_, ?_⟩
    · rintro ⟨hsec, hgroup⟩
      exact Prod.ext hgroup hsec
    · intro hrow
      exact ⟨congrArg Prod.snd hrow, congrArg Prod.fst hrow⟩
  · intro habsent
    rw [mem_eraseDups, mem_map] at habsent
    have hnone : (rows.filter fun row => decide (row.1.1 = group)) = [] := by
      rw [filter_eq_nil_iff]
      intro row hrow hgroup
      exact habsent ⟨row, hrow, of_decide_eq_true hgroup⟩
    rw [hnone]
    rfl

/-- The reduction holds one value for a group and a second: the outer value of its members. -/
theorem valuesAt_reduce :
    valuesAt group sec (reduceLokiSeriesAcrossSeries ar agg byLabels without m) =
      (outerValue ar agg (memberValues byLabels without group sec m)).toList := by
  rw [← find?_accumulate_values]
  unfold reduceLokiSeriesAcrossSeries
  split
  · next hempty =>
    rw [List.isEmpty_iff.mp hempty]
    rfl
  · dsimp only
    have hmetric : ∀ row ∈ outRows (accumulate ar agg byLabels without (labelledPoints m)),
        canonicalLabelsKey row.2.metric = row.1.1 := by
      intro row hrow
      rw [mem_outRows, show row.1 = (row.1.1, row.1.2) from rfl, find?_accumulate] at hrow
      split at hrow
      · cases hrow
      · next p ps hp =>
        have hmem : p ∈ (labelledPoints m).filter fun p =>
            decide ((groupOf byLabels without p.metric, p.ts) = (row.1.1, row.1.2)) :=
          hp ▸ mem_cons_self
        rw [mem_filter, decide_eq_true_eq, Prod.mk.injEq] at hmem
        rw [← Option.some.inj hrow]
        exact hmem.2.1
    rw [valuesAt_outSeries ar agg hmetric, filter_outRows]
    cases (accumulate ar agg byLabels without (labelledPoints m)).find? (group, sec) <;> rfl

end Reduce

/-! ## Evaluation points in one second -/

/-- Neighbouring evaluation points lie in different seconds. -/
def SecondsApart (start stop step : Int) : Prop :=
  ∀ k : Nat, start + (k + 1) * step ≤ stop →
    unixSeconds (start + k * step) ≠ unixSeconds (start + (k + 1) * step)

theorem unixSeconds_mono {t t' : Int} (h : t ≤ t') : unixSeconds t ≤ unixSeconds t' :=
  Int.ediv_le_ediv (by decide) h

theorem pairwise_seconds {start stop step : Int} (hstep : 0 < step)
    (h : SecondsApart start stop step) :
    (evalPoints start stop step).Pairwise fun t t' => unixSeconds t < unixSeconds t' := by
  refine (pairwise_evalPoints hstep).imp_of_mem ?_
  intro t t' ht ht' hlt
  obtain ⟨k, rfl, -⟩ := (mem_evalPoints hstep).mp ht
  have hstop := ((mem_evalPoints hstep).mp ht').choose_spec.2
  -- the neighbour of the first point is not after the second one
  have hnext : start + k * step + step = start + ((k : Int) + 1) * step := by
    rw [Int.add_mul]
    omega
  have hapart := h k (by omega)
  have hle : unixSeconds (start + k * step) ≤ unixSeconds (start + ((k : Int) + 1) * step) :=
    unixSeconds_mono (by omega)
  have hle' : unixSeconds (start + ((k : Int) + 1) * step) ≤ unixSeconds t' :=
    unixSeconds_mono (by omega)
  omega

theorem secondsApart_of_le {step : Int} (hstep : 1000000000 ≤ step) (start stop : Int) :
    SecondsApart start stop step := by
  intro k _
  have hnext : start + (k + 1) * step = start + k * step + step := by
    rw [Int.add_mul]
    omega
  rw [hnext]
  unfold unixSeconds
  omega

/-! ## Members -/

theorem filter_seriesPoints (value : Int → Option α) {points : List Int}
    (hpoints : points.Pairwise fun t t' => unixSeconds t < unixSeconds t') {t : Int}
    (ht : t ∈ points) :
    ((seriesPoints value points).filter fun p => decide (p.1 = unixSeconds t)).map Prod.snd =
      (value t).toList := by
  have hcomm : (fun t' => Option.filter (fun p : Int × α => decide (p.1 = unixSeconds t))
      ((value t').map fun v => (unixSeconds t', v))) =
      fun t' => if decide (unixSeconds t' = unixSeconds t) = true then
        (value t').map fun v => (unixSeconds t', v) else none := by
    funext t'
    cases value t' with
    | none => exact (ite_self _).symm
    | some v => rfl
  have hone : (points.filter fun t' => decide (unixSeconds t' = unixSeconds t)) = [t] := by
    refine filter_eq_singleton hpoints ht (decide_eq_true rfl) ?_
    intro y hy hsame
    have := of_decide_eq_true hsame
    omega
  rw [seriesPoints, filter_filterMap, hcomm, ← filterMap_filter, hone]
  cases h : value t <;> simp [h]

/-- The members at a second are the points of the group's series in it. -/
theorem memberValues_matrixOf (byLabels : List Bytes) (without : Bool) (group : Bytes) (sec : Int)
    (value : SeriesSamples α → Int → Option α) (series : List (Bytes × SeriesSamples α))
    (points : List Int) :
    memberValues byLabels without group sec (matrixOf value series points) =
      series.flatMap fun e =>
        if groupOf byLabels without e.2.metric = group then
          ((seriesPoints (value e.2) points).filter fun p => decide (p.1 = sec)).map Prod.snd
        else [] := by
  unfold memberValues matrixOf emitted
  induction series with
  | nil => rfl
  | cons e series ih =>
    rw [map_cons, filter_cons, flatMap_cons, ← ih]
    split
    · rfl
    · next hempty =>
      have hnone : seriesPoints (value e.2) points = [] := by simpa using hempty
      rw [hnone, filter_nil, map_nil, ite_self, nil_append]

/-- What a matrix of evaluation points and its reductions are to be. -/
structure PointByPoint (ar : Arithmetic α) (value : SeriesSamples α → Int → Option α)
    (series : List (Bytes × SeriesSamples α)) (points : List Int) (m : Matrix α) : Prop where
  /-- a series has one point for each evaluation point at which it has a value -/
  onePerPoint : m = matrixOf value series points
  ordered : ∀ s ∈ m, (s.points.map Prod.fst).Pairwise (· < ·)
  /-- a group has at an evaluation point the outer aggregation of its members' values there -/
  reduced : ∀ agg byLabels without group, ∀ t ∈ points,
    valuesAt group (unixSeconds t) (reduceLokiSeriesAcrossSeries ar agg byLabels without m) =
      (outerValue ar agg (series.filterMap fun e =>
        if groupOf byLabels without e.2.metric = group then value e.2 t else none)).toList

variable (ar : Arithmetic α) (order : TimeSort α)

/-- Points that differ in their seconds are reduced point by point. -/
theorem pointByPoint_matrixOf (value : SeriesSamples α → Int → Option α)
    (series : List (Bytes × SeriesSamples α)) {points : List Int}
    (hpoints : points.Pairwise fun t t' => unixSeconds t < unixSeconds t') :
    PointByPoint ar value series points (matrixOf value series points) where
  onePerPoint := rfl
  ordered := by
    intro s hs
    obtain ⟨e, -, rfl⟩ := mem_map.mp (mem_filter.mp hs).1
    dsimp only
    rw [seriesPoints, map_filterMap, pairwise_filterMap]
    refine hpoints.imp ?_
    intro t t' hlt sec hsec sec' hsec'
    simp only [Option.map_map, Option.map_eq_some_iff, Function.comp_apply] at hsec hsec'
    obtain ⟨v, -, rfl⟩ := hsec
    obtain ⟨v', -, rfl⟩ := hsec'
    exact hlt
  reduced := by
    intro agg byLabels without group t ht
    rw [valuesAt_reduce, memberValues_matrixOf, filterMap_eq_flatMap_toList]
    congr 2
    refine flatMap_congr fun e _ => ?_
    split
    · exact filter_seriesPoints _ hpoints ht
    · rfl

/-! ## Two points in one second -/

theorem hitsValue_twoBuckets (edge step t : Int) :
    (hitsValue ar order .countOverTime step ⟨∅, [], some [edge, edge + step]⟩ t).isSome ↔
      edge < t ∧ t ≤ edge + step + step := by
  have hpresent : (([edge, edge + step].find? fun e => decide (t - step ≤ e)).any
      fun e => decide (e < t)) = true ↔ edge < t ∧ t ≤ edge + step + step := by
    rw [find?_cons, find?_cons, find?_nil]
    by_cases hfirst : t - step ≤ edge
    · rw [decide_eq_true hfirst]
      simp only [Option.any_some, decide_eq_true_eq]
      omega
    · rw [decide_eq_false hfirst]
      by_cases hsecond : t - step ≤ edge + step
      · rw [decide_eq_true hsecond]
        simp only [Option.any_some, decide_eq_true_eq]
        omega
      · rw [decide_eq_false hsecond]
        simp only [Option.any_none, Bool.false_eq_true, false_iff]
        omega
  rw [← hpresent]
  unfold hitsValue
  dsimp only
  split <;> next h => simpa using h

theorem length_le_two {step : Int} (edge : Int) {points : List Int}
    (hpoints : points.Pairwise fun t t' => t + step ≤ t')
    (hwithin : ∀ t ∈ points, edge < t ∧ t ≤ edge + step + step) : points.length ≤ 2 := by
  match points, hpoints, hwithin with
  | [], _, _ => exact Nat.zero_le 2
  | [_], _, _ => exact Nat.le_succ 1
  | [_, _], _, _ => exact Nat.le_refl 2
  | a :: b :: c :: rest, hpoints, hwithin =>
    obtain ⟨ha, hpoints⟩ := pairwise_cons.mp hpoints
    obtain ⟨hb, -⟩ := pairwise_cons.mp hpoints
    have hab := ha b mem_cons_self
    have hbc := hb c mem_cons_self
    have hfirst := hwithin a mem_cons_self
    have hlast := hwithin c (mem_cons_of_mem _ (mem_cons_of_mem _ mem_cons_self))
    omega

theorem length_seriesPoints_le_two {value : Int → Option α} {start stop step edge : Int}
    (hstep : 0 < step)
    (hwithin : ∀ t, (value t).isSome → edge < t ∧ t ≤ edge + step + step) :
    (seriesPoints value (evalPoints start stop step)).length ≤ 2 := by
  have hlength : (seriesPoints value (evalPoints start stop step)).length =
      ((evalPoints start stop step).filter fun t => (value t).isSome).length := by
    rw [seriesPoints, length_filterMap_eq_countP, countP_eq_length_filter]
    congr 1
    refine filter_congr fun t _ => ?_
    rw [Option.isSome_map]
  rw [hlength]
  exact length_le_two edge ((pairwise_evalPoints hstep).filter _) fun t ht =>
    hwithin t (mem_filter.mp ht).2

theorem encodedBytes_le {points : List (Int × α)} (hpoints : points.length ≤ 2) :
    encodedBytes ar ⟨∅, points⟩ ≤ 852 := by
  match points, hpoints with
  | [], _ => exact Nat.zero_le 852
  | [p], _ =>
    have hp := ar.width_le p.2
    show 0 + (ar.width p.2 + 26 + 0) ≤ 852
    omega
  | [p, q], _ =>
    have hp := ar.width_le p.2
    have hq := ar.width_le q.2
    show 0 + (ar.width p.2 + 26 + (ar.width q.2 + 26 + 0)) ≤ 852
    omega

/-- One series without labels. -/
def unlabelled (samples : List (Sample α)) (present : Option (List Int)) :
    SortedMap Bytes (SeriesSamples α) where
  entries := [([], ⟨∅, samples, present⟩)]
  sorted := pairwise_singleton _ _

theorem buildHits_unlabelled (f : RangeFunction) (samples : List (Sample α))
    (present : Option (List Int)) {start stop step window edge : Int} (hstep : 0 < step)
    (hspan : start ≤ stop)
    (hwithin : ∀ t, (hitsValue ar order f window ⟨∅, samples, present⟩ t).isSome →
      edge < t ∧ t ≤ edge + step + step) :
    buildHitsRangeMetricMatrix ar order f (unlabelled samples present) start stop step window =
      .ok (matrixOf (hitsValue ar order f window) (unlabelled samples present).entries
        (evalPoints start stop step)) := by
  have hbytes := encodedBytes_le ar
    (@length_seriesPoints_le_two _ _ start stop step edge hstep hwithin)
  unfold buildHitsRangeMetricMatrix
  rw [if_neg (by omega)]
  dsimp only
  rw [if_neg]
  · rfl
  · simp only [unlabelled, map_cons, map_nil, tooLarge, Bool.or_false, Nat.zero_add,
      Bool.and_eq_true, decide_eq_true_eq, not_and, Nat.not_lt]
    intro _
    exact hbytes.trans (by decide)

/-- Ordered timestamps put neighbouring points into different seconds. -/
theorem secondsApart_of_ordered {start stop step : Int} (hstep : 0 < step)
    (hordered : ∀ series window m,
      buildHitsRangeMetricMatrix ar order .countOverTime series start stop step window = .ok m →
      ∀ s ∈ m, (s.points.map Prod.fst).Pairwise (· < ·)) :
    SecondsApart start stop step := by
  intro k hk
  have hspan : start ≤ stop := by
    have := Int.mul_nonneg (Int.natCast_nonneg (k + 1)) hstep.le
    push_cast at this
    omega
  -- the series with one bucket before each of the two points
  have hstepback : ∀ t, (hitsValue ar order .countOverTime step
      ⟨∅, [], some [start + k * step - step, start + k * step - step + step]⟩ t).isSome ↔
      start + k * step - step < t ∧ t ≤ start + k * step - step + step + step :=
    hitsValue_twoBuckets ar order _ step
  have hm := hordered _ _ _ (buildHits_unlabelled ar order .countOverTime []
    (some [start + k * step - step, start + k * step - step + step]) hstep hspan
    fun t ht => (hstepback t).mp ht)
  have hpoints : ((seriesPoints (hitsValue ar order .countOverTime step
      ⟨∅, [], some [start + k * step - step, start + k * step - step + step]⟩)
      (evalPoints start stop step)).map Prod.fst).Pairwise (· < ·) := by
    cases hempty : seriesPoints (hitsValue ar order .countOverTime step
      ⟨∅, [], some [start + k * step - step, start + k * step - step + step]⟩)
      (evalPoints start stop step) with
    | nil => exact List.Pairwise.nil
    | cons p ps =>
      refine hm ⟨∅, p :: ps⟩ (mem_filter.mpr ⟨?_, rfl⟩)
      rw [← hempty]
      exact mem_singleton.mpr rfl
  rw [seriesPoints, map_filterMap, pairwise_filterMap] at hpoints
  have hnext := evalPoints_next hstep hpoints hk
  have hedge : start + ((k : Int) + 1) * step = start + k * step + step := by
    rw [Int.add_mul]
    omega
  obtain ⟨v, hv⟩ := Option.isSome_iff_exists.mp
    ((hstepback (start + k * step)).mpr (by omega))
  obtain ⟨v', hv'⟩ := Option.isSome_iff_exists.mp
    ((hstepback (start + (k + 1) * step)).mpr (by omega))
  have hless := hnext (unixSeconds (start + k * step)) (by rw [hv]; rfl)
    (unixSeconds (start + (k + 1) * step)) (by rw [hv']; rfl)
  omega

/-- Points keep their order and are reduced one by one just when no two evaluation points lie in
one second. -/
theorem range_points_apart_iff (ar : Arithmetic α) (order : TimeSort α)
    (encodes : Matrix α → Bool) {start stop step : Int} (hstep : 0 < step) :
    (∀ (f : RangeFunction) (quantile : α) (series : SortedMap Bytes (SeriesSamples α))
      (window maxSeries : Int),
      (∀ m, buildManualRangeMetricMatrixContext ar encodes f quantile series start stop step window
          maxSeries = .ok m →
        PointByPoint ar (manualValue ar f quantile window) series.entries
          (evalPoints start stop step) m) ∧
      (∀ m, buildHitsRangeMetricMatrix ar order f series start stop step window = .ok m →
        PointByPoint ar (hitsValue ar order f window) series.entries
          (evalPoints start stop step) m)) ↔
    SecondsApart start stop step := by
  constructor
  · intro h
    refine secondsApart_of_ordered ar order hstep ?_
    intro series window m hm
    exact ((h .countOverTime (ar.ofNat 0) series window 0).2 m hm).ordered
  · intro hapart f quantile series window maxSeries
    have hpoints := pairwise_seconds hstep hapart
    constructor
    · intro m hm
      rw [manual_of_ok hm]
      exact pointByPoint_matrixOf ar _ _ hpoints
    · intro m hm
      rw [hits_of_ok hstep hm]
      exact pointByPoint_matrixOf ar _ _ hpoints

/-! ## Whole numbers -/

/-- Whole numbers as values; the functions on slices are left out. -/
def wholeNumbers : Arithmetic Int where
  ofNat := Int.ofNat
  add := (· + ·)
  sub := (· - ·)
  div := (· / ·)
  less := fun a b => decide (a < b)
  isZero := fun a => decide (a = 0)
  seconds := fun d => d / 1000000000
  slice := fun _ _ _ _ => 0
  width := fun _ => 0
  width_le := fun _ => Nat.zero_le 400

/-- Insertion by time. -/
def insertionByTime : TimeSort α where
  sort := List.insertionSort fun a b => a.ts ≤ b.ts
  perm := perm_insertionSort _
  ordered := by
    intro samples
    have : Std.Total fun a b : Sample α => a.ts ≤ b.ts := ⟨fun a b => Int.le_total a.ts b.ts⟩
    have : IsTrans (Sample α) fun a b => a.ts ≤ b.ts := ⟨fun _ _ _ => Int.le_trans⟩
    exact pairwise_insertionSort _ _

/-- One line at the epoch. -/
def oneLine : SortedMap Bytes (SeriesSamples Int) := unlabelled [⟨0, 1⟩] none

theorem range_points_apart_seconds :
    (0 : Int) < 1000000000 ∧ SecondsApart 0 1000000000 1000000000 ∧
    PointByPoint wholeNumbers (manualValue wholeNumbers .countOverTime 0 2000000000)
      oneLine.entries (evalPoints 0 1000000000 1000000000) [⟨∅, [(0, 1), (1, 1)]⟩] := by
  have hapart : SecondsApart 0 1000000000 1000000000 := secondsApart_of_le (by decide) _ _
  have hbuilt : buildManualRangeMetricMatrixContext wholeNumbers (fun _ => true) .countOverTime 0
      oneLine 0 1000000000 1000000000 2000000000 0 = .ok [⟨∅, [(0, 1), (1, 1)]⟩] := by rfl
  refine ⟨by decide, hapart, ?_⟩
  exact ((range_points_apart_iff wholeNumbers insertionByTime (fun _ => true) (by decide)).mpr
    hapart .countOverTime 0 oneLine 2000000000 0).1 _ hbuilt

/-- Two points half a second apart get one timestamp, and the reduction adds their values. -/
theorem half_second_points_collide :
    buildManualRangeMetricMatrixContext wholeNumbers (fun _ => true) .countOverTime 0 oneLine 0
        500000000 500000000 1000000000 0 = .ok [⟨∅, [(0, 1), (0, 1)]⟩] ∧
    valuesAt (canonicalLabelsKey ∅) 0
      (reduceLokiSeriesAcrossSeries wholeNumbers .sum [] false [⟨∅, [(0, 1), (0, 1)]⟩]) = [2] ∧
    outerValue wholeNumbers .sum (oneLine.entries.filterMap fun e =>
      manualValue wholeNumbers .countOverTime 0 1000000000 e.2 500000000) = some 1 := by
  refine ⟨by rfl, ?_, by rfl⟩
  rw [valuesAt_reduce]
  rfl

end LokiVlProxy.Proxy.RangeMetric
