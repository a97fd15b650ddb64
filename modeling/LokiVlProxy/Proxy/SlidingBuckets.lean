/-
  Proxy/SlidingBuckets.lean --- counting lines in buckets and counting them one by one.

  Source: internal/proxy/range_metric_compat.go: slidingStatsBucket,
  setSlidingStatsRangeParams, snapSlidingBucketNanos, and the two builders.

  The backend is described by the buckets that its request parameters ask for.
-/
import LokiVlProxy.Foundation.OrderedParts
import LokiVlProxy.Proxy.SeriesReduction

namespace LokiVlProxy.Proxy.RangeMetric

open Foundation List

variable {α : Type}

/-! ## The request for buckets -/

/-- The loop of `slidingStatsBucket`. -/
def euclid (bucket rest : Int) : Int :=
  if 0 < rest then euclid rest (bucket.tmod rest) else bucket
termination_by rest.toNat
decreasing_by
  have := Int.tmod_lt_of_pos bucket ‹0 < rest›
  omega

def slidingStatsBucket (supportsOffset : Bool) (start step window : Int) : Option Int :=
  let bucket := euclid step window
  if bucket < 1000000 then none
  else if !supportsOffset && (start - window).tmod bucket ≠ 0 then none
  else some bucket

/-- The parameters of `stats_query_range`. -/
structure StatsRangeParams where
  start : Int
  stop : Int
  step : Int
  offset : Option Int
  deriving DecidableEq, Repr

def setSlidingStatsRangeParams (supportsOffset : Bool) (start stop hitStep : Int) :
    StatsRangeParams :=
  let shift := ((start + 1).tmod hitStep + hitStep).tmod hitStep
  ⟨start, stop + 1, hitStep, if supportsOffset then some (-shift) else none⟩

def snapSlidingBucketNanos (ts start hitStep : Int) : Int :=
  let offset := ts - start + hitStep.tdiv 2
  let k := if offset.tmod hitStep < 0 then offset.tdiv hitStep - 1 else offset.tdiv hitStep
  start + k * hitStep

/-- Where the backend's bucket of an instant begins: buckets are `[T, T + step)` with edges at
the multiples of the step less the offset. -/
def backendBucket (params : StatsRangeParams) (ts : Int) : Int :=
  let offset := params.offset.getD 0
  (ts + offset) / params.step * params.step - offset

/-- The instant at which a bucket of an answer, a label and a count, is kept. -/
def edgeOf (params : StatsRangeParams) (bucket : Int × Nat) : Int :=
  snapSlidingBucketNanos bucket.1 params.start params.step

/-- What the backend answers for lines: labels and counts of buckets, in any order and with
labels that snapping maps to the bucket's left edge. -/
structure BackendAnswer (params : StatsRangeParams) (lines : List Int) where
  buckets : List (Int × Nat)
  counted : (buckets.flatMap fun bucket => List.replicate bucket.2 (edgeOf params bucket)).Perm
    ((lines.filter fun ts => params.start ≤ ts && ts < params.stop).map fun ts =>
      backendBucket params ts - 1)

/-- The samples that are kept of an answer. -/
def BackendAnswer.samples {params : StatsRangeParams} {lines : List Int} (ar : Arithmetic α)
    (answer : BackendAnswer params lines) : List (Sample α) :=
  answer.buckets.map fun bucket => ⟨edgeOf params bucket, ar.ofNat bucket.2⟩

/-! ## The grid -/

/-- The loop computes the greatest common divisor. -/
theorem euclid_eq_gcd (bucket rest : Nat) : euclid bucket rest = (bucket.gcd rest : Int) := by
  induction rest using Nat.strong_induction_on generalizing bucket with
  | _ rest ih =>
    unfold euclid
    split
    · next hpos =>
      have hless : bucket % rest < rest := Nat.mod_lt _ (by omega)
      have hmod : (bucket : Int).tmod rest = ((bucket % rest : Nat) : Int) := by
        rw [Int.tmod_eq_emod_of_nonneg (Int.natCast_nonneg bucket)]
        rfl
      rw [hmod, ih _ hless, Nat.gcd_comm bucket rest, Nat.gcd_rec rest bucket, Nat.gcd_comm]
    · next hzero =>
      have : rest = 0 := by omega
      rw [this, Nat.gcd_zero_right]

/-- The bucket divides the step and the window. -/
theorem bucket_spec {start step window b : Int} (hstep : 0 < step) (hwindow : 0 < window)
    (h : slidingStatsBucket true start step window = some b) :
    1000000 ≤ b ∧ b ∣ step ∧ b ∣ window := by
  obtain ⟨s, rfl⟩ := Int.eq_ofNat_of_zero_le hstep.le
  obtain ⟨w, rfl⟩ := Int.eq_ofNat_of_zero_le hwindow.le
  unfold slidingStatsBucket at h
  rw [euclid_eq_gcd] at h
  dsimp only at h
  split at h
  · cases h
  · next hlarge =>
    rw [Bool.not_true, Bool.false_and] at h
    cases h
    exact ⟨by omega, Int.natCast_dvd_natCast.mpr (Nat.gcd_dvd_left s w),
      Int.natCast_dvd_natCast.mpr (Nat.gcd_dvd_right s w)⟩

theorem tmod_cases (a : Int) {b : Int} (hb : 0 < b) :
    a.tmod b = a % b ∧ a.tdiv b = a / b ∨
      a.tmod b = a % b - b ∧ a.tmod b < 0 ∧ a.tdiv b = a / b + 1 := by
  have hquot := Int.mul_tdiv_add_tmod a b
  have hfloor := Int.mul_ediv_add_emod a b
  have habs : (b.natAbs : Int) = b := Int.natAbs_of_nonneg hb.le
  have hsame := Int.tmod_eq_emod (a := a) (b := b)
  split at hsame
  · left
    refine ⟨by simpa using hsame, Int.eq_of_mul_eq_mul_left hb.ne' ?_⟩
    simp only [Nat.cast_zero, Int.sub_zero] at hsame
    omega
  · right
    have hless := Int.emod_lt_of_pos a hb
    refine ⟨by omega, by omega, Int.eq_of_mul_eq_mul_left hb.ne' ?_⟩
    rw [Int.mul_add]
    omega

/-- The requested buckets are left open and lie on the grid of the start. -/
theorem backendBucket_spec {b : Int} (hb : 0 < b) (anchor stop ts : Int) :
    let edge := backendBucket (setSlidingStatsRangeParams true anchor stop b) ts - 1
    edge < ts ∧ ts ≤ edge + b ∧ b ∣ edge - anchor := by
  intro edge
  have hshift : ((anchor + 1).tmod b + b).tmod b = (anchor + 1) % b := by
    have hlow := Int.emod_nonneg (anchor + 1) hb.ne'
    have hless := Int.emod_lt_of_pos (anchor + 1) hb
    rcases tmod_cases (anchor + 1) hb with ⟨hmod, -⟩ | ⟨hmod, -, -⟩
    · rw [hmod, Int.tmod_eq_emod_of_nonneg (by omega), Int.add_emod_right,
        Int.emod_eq_of_lt hlow hless]
    · rw [hmod, Int.sub_add_cancel, Int.tmod_eq_emod_of_nonneg hlow, Int.emod_eq_of_lt hlow hless]
  have hedge : edge = (ts - (anchor + 1) % b) / b * b + (anchor + 1) % b - 1 := by
    show backendBucket (setSlidingStatsRangeParams true anchor stop b) ts - 1 = _
    simp only [backendBucket, setSlidingStatsRangeParams, if_true, Option.getD_some, hshift,
      Int.sub_neg, ← Int.sub_eq_add_neg]
  have hmod := Int.emod_add_mul_ediv (ts - (anchor + 1) % b) b
  have hlow := Int.emod_nonneg (ts - (anchor + 1) % b) hb.ne'
  have hhigh := Int.emod_lt_of_pos (ts - (anchor + 1) % b) hb
  rw [Int.mul_comm] at hmod
  refine ⟨by omega, by omega, ?_⟩
  have hanchor := Int.emod_add_mul_ediv (anchor + 1) b
  refine ⟨(ts - (anchor + 1) % b) / b - (anchor + 1) / b, ?_⟩
  rw [Int.mul_sub, Int.mul_comm b ((ts - (anchor + 1) % b) / b)]
  omega

/-- Snapping rounds to the nearest edge of the grid. -/
theorem snap_eq {b : Int} (hb : 0 < b) (ts anchor : Int) :
    snapSlidingBucketNanos ts anchor b = anchor + (ts - anchor + b / 2) / b * b := by
  unfold snapSlidingBucketNanos
  rw [Int.tdiv_eq_ediv_of_nonneg hb.le]
  dsimp only
  congr 2
  rcases tmod_cases (ts - anchor + b / 2) hb with ⟨hmod, hdiv⟩ | ⟨-, hneg, hdiv⟩
  · have := Int.emod_nonneg (ts - anchor + b / 2) hb.ne'
    rw [if_neg (by omega), hdiv]
  · rw [if_pos hneg, hdiv]
    omega

/-- The start of a bucket of the backend is snapped one nanosecond down, to the grid. -/
theorem snap_backendBucket {b : Int} (hb : 1000000 ≤ b) (anchor stop ts : Int) :
    snapSlidingBucketNanos (backendBucket (setSlidingStatsRangeParams true anchor stop b) ts)
        anchor b =
      backendBucket (setSlidingStatsRangeParams true anchor stop b) ts - 1 := by
  obtain ⟨-, -, k, hk⟩ := backendBucket_spec (show 0 < b by omega) anchor stop ts
  have hround : (1 + b / 2 + b * k) / b = k := by
    rw [Int.add_mul_ediv_left _ _ (by omega), Int.ediv_eq_zero_of_lt (by omega) (by omega),
      Int.zero_add]
  rw [snap_eq (by omega), show _ - anchor + b / 2 = 1 + b / 2 + b * k by omega, hround, Int.mul_comm]
  omega

theorem snap_backendBucket_second :
    ∃ params, setSlidingStatsRangeParams true 0 9 1000000000 = params ∧
      snapSlidingBucketNanos (backendBucket params 5) 0 1000000000 = backendBucket params 5 - 1 :=
  ⟨_, rfl, snap_backendBucket (by decide) 0 9 5⟩

/-! ## What is counted -/

/-- The lines of the window that ends at `t`. -/
def linesIn (window : Int) (lines : List Int) (t : Int) : Nat :=
  lines.countP fun ts => decide (t - window < ts ∧ ts ≤ t)

/-- The arithmetic is that of whole numbers up to a bound. -/
structure Arithmetic.CountsTo (ar : Arithmetic α) (bound : Nat) : Prop where
  add : ∀ a b, a + b ≤ bound → ar.add (ar.ofNat a) (ar.ofNat b) = ar.ofNat (a + b)
  sub : ∀ a b, a + b ≤ bound → ar.sub (ar.ofNat (a + b)) (ar.ofNat a) = ar.ofNat b
  isZero : ∀ a, a ≤ bound → ar.isZero (ar.ofNat a) = decide (a = 0)

variable (ar : Arithmetic α) (f : RangeFunction)

/-- The value for a number of lines. -/
def lineValue (window : Int) (n : Nat) : Option α :=
  if n = 0 then none
  else if f = .rate then some (ar.div (ar.ofNat n) (ar.seconds window))
  else some (ar.ofNat n)

section Manual

/-- The searches of the window leave its samples. -/
theorem filter_narrow (samples : List (Sample α)) (windowStart windowEnd : Int) :
    ((narrow samples windowStart windowEnd).filter fun sample =>
        windowStart < sample.ts && sample.ts ≤ windowEnd) =
      samples.filter fun sample => windowStart < sample.ts && sample.ts ≤ windowEnd := by
  unfold narrow
  split
  · next hsorted =>
    have hordered : samples.Pairwise fun a b => a.ts ≤ b.ts := of_decide_eq_true hsorted
    have hmono : ∀ {l : List (Sample α)} (_ : l.Pairwise fun a b => a.ts ≤ b.ts)
        (p : Int → Bool) (_ : ∀ x y, x ≤ y → p x = true → p y = true),
        l.Pairwise fun a b => p a.ts = true → p b.ts = true :=
      fun h p hp => h.imp fun hab => hp _ _ hab
    have hlo := (split_findIdx (hmono hordered (fun x => decide (windowStart ≤ x)) (by
      intro x y hxy hx
      simp only [decide_eq_true_eq] at hx ⊢
      omega))).2
    dsimp only
    rw [hlo, (split_findIdx (hmono (hordered.filter _) (fun x => decide (windowEnd < x)) (by
      intro x y hxy hx
      simp only [decide_eq_true_eq] at hx ⊢
      omega))).1, filter_filter, filter_filter]
    refine filter_congr fun sample _ => ?_
    rw [Bool.eq_iff_iff]
    simp only [Bool.and_eq_true, Bool.not_eq_true', decide_eq_true_eq, decide_eq_false_iff_not]
    omega
  · rfl

theorem manualValue_eq (ar : Arithmetic α) {f : RangeFunction}
    (hf : f = .countOverTime ∨ f = .rate) (quantile : α) {window : Int} (hwindow : 0 < window)
    {series : SeriesSamples α} {lines : List Int}
    (hlines : (series.samples.map Sample.ts).Perm lines) (t : Int) :
    manualValue ar f quantile window series t = lineValue ar f window (linesIn window lines t) := by
  have hcount : (manualWindowValues (narrow series.samples (t - window) t) (t - window) t).length =
      linesIn window lines t := by
    rw [manualWindowValues, filter_narrow, length_map, ← countP_eq_length_filter, linesIn,
      ← hlines.countP_eq, countP_map]
    refine countP_congr fun sample _ => ?_
    simp
  unfold manualValue aggregateManualWindow lineValue
  rw [← hcount]
  cases manualWindowValues (narrow series.samples (t - window) t) (t - window) t with
  | nil => rfl
  | cons v vs =>
    rcases hf with rfl | rfl
    · rfl
    · have hpositive : ¬ window ≤ 0 := by omega
      simp [hpositive]

end Manual

section Hits

variable {params : StatsRangeParams} {lines : List Int}

/-- What the buckets before an instant count. -/
def countBefore (params : StatsRangeParams) (buckets : List (Int × Nat)) (t : Int) : Nat :=
  ((buckets.filter fun bucket => edgeOf params bucket < t).map Prod.snd).sum

theorem countBefore_eq_countP (params : StatsRangeParams) (buckets : List (Int × Nat)) (t : Int) :
    countBefore params buckets t =
      (buckets.flatMap fun bucket => List.replicate bucket.2 (edgeOf params bucket)).countP
        fun edge => decide (edge < t) := by
  unfold countBefore
  induction buckets with
  | nil => rfl
  | cons bucket buckets ih =>
    rw [flatMap_cons, countP_append, ← ih, countP_replicate, filter_cons]
    split
    · rw [map_cons, sum_cons]
    · rw [Nat.zero_add]

variable {anchor : Int} {ar : Arithmetic α} {bound : Nat}

/-- The buckets before a point of the grid count the lines before it. -/
theorem countBefore_eq {stop b t : Int} (hb : 0 < b) (hgrid : b ∣ t - anchor) (ht : t ≤ stop)
    (answer : BackendAnswer (setSlidingStatsRangeParams true anchor stop b) lines) :
    countBefore (setSlidingStatsRangeParams true anchor stop b) answer.buckets t =
      lines.countP fun ts => decide (anchor ≤ ts ∧ ts ≤ t) := by
  rw [countBefore_eq_countP, answer.counted.countP_eq, countP_map, countP_filter]
  refine countP_congr fun ts _ => ?_
  obtain ⟨hleft, hright, hedge⟩ := backendBucket_spec hb anchor stop ts
  have hon : b ∣ t - (backendBucket (setSlidingStatsRangeParams true anchor stop b) ts - 1) := by
    obtain ⟨c, hc⟩ := Int.dvd_sub hgrid hedge
    exact ⟨c, by omega⟩
  have hlast : backendBucket (setSlidingStatsRangeParams true anchor stop b) ts - 1 < t ↔
      ts ≤ t := by
    constructor
    · intro hlt
      have := Int.le_of_dvd (by omega) hon
      omega
    · omega
  simp only [Function.comp_apply, Bool.and_eq_true, decide_eq_true_eq, hlast]
  show ts ≤ t ∧ anchor ≤ ts ∧ ts < stop + 1 ↔ _
  omega

theorem foldl_add_ofNat (har : ar.CountsTo bound) (counts : List Nat) (a : Nat)
    (hbound : a + counts.sum ≤ bound) :
    (counts.map ar.ofNat).foldl ar.add (ar.ofNat a) = ar.ofNat (a + counts.sum) := by
  induction counts generalizing a with
  | nil => rfl
  | cons n counts ih =>
    rw [sum_cons] at hbound
    rw [map_cons, foldl_cons, har.add a n (by omega), ih _ (by omega), sum_cons,
      Nat.add_assoc]

theorem exists_map_eq_of_perm {β γ : Type} {f : β → γ} {xs : List β} {ys : List γ}
    (h : ys.Perm (xs.map f)) : ∃ zs : List β, zs.Perm xs ∧ ys = zs.map f := by
  have hmap : List.Forall₂ (fun y x => y = f x) (xs.map f) xs := by
    rw [forall₂_map_left_iff]
    exact forall₂_same.mpr fun _ _ => rfl
  obtain ⟨zs, hzs, hperm⟩ := perm_comp_forall₂ h hmap
  refine ⟨zs, hperm, ?_⟩
  have heq : List.Forall₂ Eq ys (zs.map f) := forall₂_map_right_iff.mpr hzs
  exact forall₂_eq_eq_eq ▸ heq

/-- The sums before an instant, whatever order the samples come in. -/
theorem sumBefore_byTime (har : ar.CountsTo bound) (order : TimeSort α)
    (answer : BackendAnswer params lines) (t : Int)
    (hbound : countBefore params answer.buckets t ≤ bound) :
    sumBefore ar (byTime order (answer.samples ar))
        ((byTime order (answer.samples ar)).findIdx fun sample => t ≤ sample.ts) =
      ar.ofNat (countBefore params answer.buckets t) := by
  have hperm : (byTime order (answer.samples ar)).Perm (answer.samples ar) := by
    unfold byTime
    split
    · exact List.Perm.refl _
    · exact order.perm _
  have hordered : (byTime order (answer.samples ar)).Pairwise fun a b => a.ts ≤ b.ts := by
    unfold byTime
    split
    · next h => exact of_decide_eq_true h
    · exact order.ordered _
  -- the ordered samples are those of the buckets in some order
  obtain ⟨buckets, hbuckets, hsamples⟩ := exists_map_eq_of_perm hperm
  have hcount : countBefore params buckets t = countBefore params answer.buckets t :=
    ((hbuckets.filter _).map _).sum_eq
  have hfind : (byTime order (answer.samples ar)).take
      ((byTime order (answer.samples ar)).findIdx fun sample => decide (t ≤ sample.ts)) =
      (buckets.filter fun bucket => decide (edgeOf params bucket < t)).map
        fun bucket => ⟨edgeOf params bucket, ar.ofNat bucket.2⟩ := by
    rw [(split_findIdx ?_).1]
    · rw [hsamples, filter_map]
      congr 1
      refine filter_congr fun bucket _ => ?_
      rw [Function.comp_apply, ← decide_not]
      exact decide_eq_decide.mpr Int.not_le
    · refine hordered.imp fun {a b} hab hta => ?_
      simp only [decide_eq_true_eq] at hta ⊢
      omega
  rw [sumBefore, hfind, map_map, ← hcount, countBefore]
  have hvalues := foldl_add_ofNat har
    ((buckets.filter fun bucket => decide (edgeOf params bucket < t)).map Prod.snd) 0
    (by rw [Nat.zero_add]; exact hcount.trans_le hbound)
  rw [map_map, Nat.zero_add] at hvalues
  exact hvalues

theorem countP_window {t window : Int} (hfirst : anchor ≤ t - window) (hwindow : 0 ≤ window)
    (lines : List Int) :
    (lines.countP fun ts => decide (anchor ≤ ts ∧ ts ≤ t)) =
      (lines.countP fun ts => decide (anchor ≤ ts ∧ ts ≤ t - window)) + linesIn window lines t := by
  unfold linesIn
  induction lines with
  | nil => rfl
  | cons ts lines ih =>
    rw [countP_cons, countP_cons, countP_cons, ih]
    simp only [decide_eq_true_eq]
    split_ifs <;> omega

/-- The path over buckets counts the lines of the window. -/
theorem hitsValue_eq (har : ar.CountsTo bound) (order : TimeSort α) {f : RangeFunction}
    (hf : f = .countOverTime ∨ f = .rate) {stop b t window : Int} (hb : 0 < b)
    (hgrid : b ∣ t - anchor) (hwindow : b ∣ window) (hfirst : anchor ≤ t - window)
    (hpositive : 0 < window) (hlast : t ≤ stop) (hbound : lines.length ≤ bound)
    (answer : BackendAnswer (setSlidingStatsRangeParams true anchor stop b) lines) (metric : Labels) :
    hitsValue ar order f window ⟨metric, answer.samples ar, none⟩ t =
      lineValue ar f window (linesIn window lines t) := by
  have hgrid' : b ∣ t - window - anchor := by
    obtain ⟨c, hc⟩ := Int.dvd_sub hgrid hwindow
    exact ⟨c, by omega⟩
  have hhi := countBefore_eq hb hgrid hlast answer
  have hlo := countBefore_eq hb hgrid' (by omega) answer
  have hsplit : (lines.countP fun ts => decide (anchor ≤ ts ∧ ts ≤ t)) =
      (lines.countP fun ts => decide (anchor ≤ ts ∧ ts ≤ t - window)) +
        linesIn window lines t :=
    countP_window hfirst hpositive.le lines
  have htotal : (lines.countP fun ts => decide (anchor ≤ ts ∧ ts ≤ t)) ≤ bound :=
    countP_le_length.trans hbound
  have hsumhi := sumBefore_byTime har order answer t (by rw [hhi]; exact htotal)
  have hsumlo := sumBefore_byTime har order answer (t - window) (by rw [hlo]; omega)
  unfold hitsValue lineValue
  dsimp only
  rw [hsumhi, hsumlo, hhi, hlo, hsplit, har.sub _ _ (by omega), har.isZero _ (by omega)]
  by_cases hzero : linesIn window lines t = 0
  · simp [hzero]
  · rcases hf with rfl | rfl
    · simp [hzero]
    · simp [hzero]

end Hits

/-! ## Both paths -/

/-- A series of log lines. -/
structure SeriesLines where
  metric : Labels
  lines : List Int

/-- The samples that are read one by one. -/
def RawOf (lines : SortedMap Bytes SeriesLines) (raw : SortedMap Bytes (SeriesSamples α)) : Prop :=
  List.Forall₂ (fun e s => s.2.metric = e.2.metric ∧ (s.2.samples.map Sample.ts).Perm e.2.lines)
    lines.entries raw.entries

/-- The samples that are kept of the backend's answers. -/
def BucketsOf (params : StatsRangeParams) (lines : SortedMap Bytes SeriesLines)
    (hits : SortedMap Bytes (SeriesSamples α)) : Prop :=
  List.Forall₂ (fun e s => ∃ answer : BackendAnswer params e.2.lines,
    s.2 = ⟨e.2.metric, answer.samples ar, none⟩) lines.entries hits.entries

/-- For each series, the points at which its window holds lines. -/
def lineRows (window : Int) (lines : SortedMap Bytes SeriesLines) (points : List Int) : Matrix α :=
  lines.entries.map fun e =>
    ⟨e.2.metric, seriesPoints (fun t => lineValue ar f window (linesIn window e.2.lines t)) points⟩

/-- The matrix of the windows that hold lines. -/
def lineMatrix (window : Int)
    (lines : SortedMap Bytes SeriesLines) (points : List Int) : Matrix α :=
  emitted (lineRows ar f window lines points)

theorem rows_eq_lineRows (window : Int)
    (value : SeriesSamples α → Int → Option α) {points : List Int}
    {lines : SortedMap Bytes SeriesLines} {series : SortedMap Bytes (SeriesSamples α)}
    (h : List.Forall₂ (fun e s => s.2.metric = e.2.metric ∧ ∀ t ∈ points,
      value s.2 t = lineValue ar f window (linesIn window e.2.lines t))
      lines.entries series.entries) :
    series.entries.map (fun s => ⟨s.2.metric, seriesPoints (value s.2) points⟩) =
      lineRows ar f window lines points := by
  unfold lineRows
  generalize lines.entries = es, series.entries = ss at h
  induction h with
  | nil => rfl
  | cons hes _ ih =>
    obtain ⟨hmetric, hvalue⟩ := hes
    rw [map_cons, map_cons, ih, hmetric]
    congr 2
    refine filterMap_congr fun t ht => ?_
    rw [hvalue t ht]

theorem evalPoints_grid {start stop step window b t : Int} (hstep : 0 < step) (hb : b ∣ step)
    (hwindow : b ∣ window) (ht : t ∈ evalPoints start stop step) :
    b ∣ t - (start - window) ∧ start - window ≤ t - window ∧ t ≤ stop := by
  obtain ⟨k, rfl, hstop⟩ := (mem_evalPoints hstep).mp ht
  have hnonneg := Int.mul_nonneg (Int.natCast_nonneg k) hstep.le
  refine ⟨?_, by omega, hstop⟩
  obtain ⟨c, hc⟩ := Int.dvd_add (Int.dvd_mul_of_dvd_right hb : b ∣ k * step) hwindow
  exact ⟨c, by omega⟩

section Paths

variable {f : RangeFunction} {start stop step window b : Int}
  {lines : SortedMap Bytes SeriesLines} {series : SortedMap Bytes (SeriesSamples α)}

/-- The rows that the raw lines give. -/
theorem rows_of_raw (ar : Arithmetic α) (hf : f = .countOverTime ∨ f = .rate) (quantile : α)
    (hwindow : 0 < window) (hraw : RawOf lines series) (points : List Int) :
    series.entries.map (fun s =>
        ⟨s.2.metric, seriesPoints (manualValue ar f quantile window s.2) points⟩) =
      lineRows ar f window lines points := by
  refine rows_eq_lineRows ar f window _ (hraw.imp fun e s hes => ⟨hes.1, fun t _ => ?_⟩)
  exact manualValue_eq ar hf quantile hwindow hes.2 t

/-- The rows that the buckets give. -/
theorem rows_of_buckets {ar : Arithmetic α} {bound : Nat} (har : ar.CountsTo bound)
    (order : TimeSort α) (hf : f = .countOverTime ∨ f = .rate) (hstep : 0 < step)
    (hwindow : 0 < window) (hbucket : slidingStatsBucket true start step window = some b)
    (hbound : ∀ e ∈ lines.entries, e.2.lines.length ≤ bound)
    (hhits : BucketsOf ar (setSlidingStatsRangeParams true (start - window) stop b) lines series) :
    series.entries.map (fun s =>
        ⟨s.2.metric, seriesPoints (hitsValue ar order f window s.2) (evalPoints start stop step)⟩) =
      lineRows ar f window lines (evalPoints start stop step) := by
  obtain ⟨hmillis, hdivStep, hdivWindow⟩ := bucket_spec hstep hwindow hbucket
  refine rows_eq_lineRows ar f window _ ?_
  refine ((forall₂_and_left _ _).mpr ⟨hbound, hhits⟩).imp fun e s hes => ?_
  obtain ⟨hlength, answer, hanswer⟩ := hes
  rw [hanswer]
  refine ⟨rfl, fun t ht => ?_⟩
  obtain ⟨hgrid, hfirst, hlast⟩ := evalPoints_grid hstep hdivStep hdivWindow ht
  exact hitsValue_eq har order hf (by omega) hgrid hdivWindow hfirst hwindow hlast hlength answer _

end Paths

/-- For counts and rates, each path that answers gives the lines of the windows: the path over
buckets unless its answer is too large, the path over samples within its limits. -/
theorem buckets_count_lines {ar : Arithmetic α} {bound : Nat} (har : ar.CountsTo bound)
    (order : TimeSort α) (encodes : Matrix α → Bool) {f : RangeFunction}
    (hf : f = .countOverTime ∨ f = .rate) (quantile : α) {start stop step window b : Int}
    (maxSeries : Int) (hstep : 0 < step) (hwindow : step ≤ window)
    (hbucket : slidingStatsBucket true start step window = some b)
    {lines : SortedMap Bytes SeriesLines} (hbound : ∀ e ∈ lines.entries, e.2.lines.length ≤ bound)
    {raw hits : SortedMap Bytes (SeriesSamples α)} (hraw : RawOf lines raw)
    (hhits : BucketsOf ar (setSlidingStatsRangeParams true (start - window) stop b) lines hits) :
    (∀ m, buildHitsRangeMetricMatrix ar order f hits start stop step window = .ok m →
      m = lineMatrix ar f window lines (evalPoints start stop step)) ∧
    (∀ m, buildManualRangeMetricMatrixContext ar encodes f quantile raw start stop step window
        maxSeries = .ok m →
      m = lineMatrix ar f window lines (evalPoints start stop step)) ∧
    (tooLarge ar 0 (lineRows ar f window lines (evalPoints start stop step)) = false →
      buildHitsRangeMetricMatrix ar order f hits start stop step window =
        .ok (lineMatrix ar f window lines (evalPoints start stop step))) ∧
    (manualAdmits raw.entries.length start stop step maxSeries →
      buildManualRangeMetricMatrixContext ar encodes f quantile raw start stop step window
          maxSeries =
        withinBudgets encodes (lineMatrix ar f window lines (evalPoints start stop step))) := by
  have hpositive : 0 < window := by omega
  have hhitsRows := rows_of_buckets har order hf hstep hpositive hbucket hbound hhits
  have hrawRows := rows_of_raw ar hf quantile hpositive hraw (evalPoints start stop step)
  have hhitsMatrix : matrixOf (hitsValue ar order f window) hits.entries
      (evalPoints start stop step) = lineMatrix ar f window lines (evalPoints start stop step) :=
    congrArg emitted hhitsRows
  have hrawMatrix : matrixOf (manualValue ar f quantile window) raw.entries
      (evalPoints start stop step) = lineMatrix ar f window lines (evalPoints start stop step) :=
    congrArg emitted hrawRows
  refine ⟨?_, ?_, ?_, ?_⟩
  · intro m hm
    rw [hits_of_ok hstep hm, hhitsMatrix]
  · intro m hm
    rw [manual_of_ok hm, hrawMatrix]
  · intro hfits
    unfold buildHitsRangeMetricMatrix
    split
    · next hempty =>
      have hnone : evalPoints start stop step = [] := if_pos (hempty.resolve_right (by omega))
      rw [← hhitsMatrix, hnone, emitted_nil]
    · dsimp only
      rw [hhitsRows, hfits]
      rfl
  · intro hadmits
    rw [buildManual_eq ar encodes f quantile raw window hadmits, hrawMatrix]

/-! ## Whole numbers -/

theorem wholeNumbers_countsTo (bound : Nat) : wholeNumbers.CountsTo bound where
  add := fun _ _ _ => rfl
  sub := by
    intro a b _
    show ((a + b : Nat) : Int) - (a : Int) = b
    omega
  isZero := by
    intro a _
    show decide ((a : Int) = 0) = decide (a = 0)
    exact decide_eq_decide.mpr Int.natCast_eq_zero

/-- One line a nanosecond after the epoch, in a series without labels. -/
def lineAfterEpoch : SortedMap Bytes SeriesLines where
  entries := [([], ⟨∅, [1]⟩)]
  sorted := pairwise_singleton _ _

/-- The bucket of the line, with buckets of a minute. -/
def bucketAfterEpoch {stop : Int} (hstop : 1 ≤ stop) :
    BackendAnswer (setSlidingStatsRangeParams true (-60000000000) stop 60000000000) [1] where
  buckets := [(1, 1)]
  counted := by
    have hkept : edgeOf (setSlidingStatsRangeParams true (-60000000000) stop 60000000000) (1, 1) =
        0 := by
      show snapSlidingBucketNanos 1 (-60000000000) 60000000000 = 0
      decide
    have hin : ([1].filter fun ts : Int => decide (-60000000000 ≤ ts) && decide (ts < stop + 1)) =
        [1] := by
      rw [filter_cons_of_pos, filter_nil]
      rw [decide_eq_true (show (1 : Int) < stop + 1 by omega)]
      rfl
    have hbucket : backendBucket
        (setSlidingStatsRangeParams true (-60000000000) stop 60000000000) 1 - 1 = 0 := by
      show (1 + -((-60000000000 + 1 : Int).tmod 60000000000 + 60000000000).tmod 60000000000) /
          60000000000 * 60000000000 -
        -((-60000000000 + 1 : Int).tmod 60000000000 + 60000000000).tmod 60000000000 - 1 = 0
      decide
    rw [flatMap_singleton, hkept]
    show List.Perm _ (([1].filter fun ts : Int => decide (-60000000000 ≤ ts) &&
      decide (ts < stop + 1)).map _)
    rw [hin, map_singleton, hbucket]
    exact List.Perm.refl _

theorem bucketsOf_lineAfterEpoch {stop : Int} (hstop : 1 ≤ stop) :
    BucketsOf wholeNumbers (setSlidingStatsRangeParams true (0 - 60000000000) stop 60000000000)
      lineAfterEpoch (unlabelled [⟨0, 1⟩] none) := by
  refine List.Forall₂.cons ⟨bucketAfterEpoch hstop, ?_⟩ List.Forall₂.nil
  rfl

theorem rawOf_lineAfterEpoch : RawOf lineAfterEpoch (unlabelled [⟨1, (1 : Int)⟩] none) :=
  List.Forall₂.cons ⟨rfl, List.Perm.refl _⟩ List.Forall₂.nil

theorem slidingStatsBucket_minute (start : Int) :
    slidingStatsBucket true start 60000000000 60000000000 = some 60000000000 := by
  have hgcd : euclid 60000000000 60000000000 = 60000000000 := euclid_eq_gcd 60000000000 60000000000
  unfold slidingStatsBucket
  rw [hgcd]
  rfl

theorem buckets_count_line_after_epoch :
    slidingStatsBucket true 0 60000000000 60000000000 = some 60000000000 ∧
    buildHitsRangeMetricMatrix wholeNumbers insertionByTime .rate (unlabelled [⟨0, 1⟩] none) 0
        60000000000 60000000000 60000000000 =
      .ok (lineMatrix wholeNumbers .rate 60000000000 lineAfterEpoch
        (evalPoints 0 60000000000 60000000000)) ∧
    buildManualRangeMetricMatrixContext wholeNumbers (fun _ => true) .rate 0
        (unlabelled [⟨1, 1⟩] none) 0 60000000000 60000000000 60000000000 0 =
      .ok (lineMatrix wholeNumbers .rate 60000000000 lineAfterEpoch
        (evalPoints 0 60000000000 60000000000)) := by
  have hboth := buckets_count_lines (wholeNumbers_countsTo 1) insertionByTime (fun _ => true)
    (Or.inr rfl) 0 0 (by decide) (by decide) (slidingStatsBucket_minute 0)
    (by decide) rawOf_lineAfterEpoch
    (bucketsOf_lineAfterEpoch (show (1 : Int) ≤ 60000000000 by decide))
  refine ⟨slidingStatsBucket_minute 0, hboth.2.2.1 (by rfl), ?_⟩
  exact (hboth.2.2.2 (by decide)).trans (by rfl)

/-! ## A request with more than a million points -/

theorem hitsValue_oneBucket {window : Int} (hwindow : 0 < window) (t : Int) :
    hitsValue wholeNumbers insertionByTime .countOverTime window ⟨∅, [⟨0, 1⟩], none⟩ t =
      if 0 < t ∧ t ≤ window then some 1 else none := by
  have hsum : ∀ c : Int, sumBefore wholeNumbers [⟨0, 1⟩]
      ([(⟨0, 1⟩ : Sample Int)].findIdx fun sample => decide (c ≤ sample.ts)) =
      if c ≤ 0 then 0 else 1 := by
    intro c
    by_cases hc : c ≤ 0
    · rw [findIdx_cons, decide_eq_true hc, if_pos hc]
      rfl
    · rw [findIdx_cons, decide_eq_false hc, if_neg hc]
      rfl
  unfold hitsValue
  rw [show byTime insertionByTime [(⟨0, 1⟩ : Sample Int)] = [⟨0, 1⟩] from rfl]
  dsimp only
  rw [hsum, hsum]
  by_cases hin : 0 < t ∧ t ≤ window
  · rw [if_pos hin, if_neg (show ¬ t ≤ 0 by omega), if_pos (show t - window ≤ 0 by omega)]
    rfl
  · rw [if_neg hin]
    by_cases hlate : t ≤ 0
    · rw [if_pos hlate, if_pos (show t - window ≤ 0 by omega)]
      rfl
    · rw [if_neg hlate, if_neg (show ¬ t - window ≤ 0 by omega)]
      rfl

/-- A million minutes, at the default step of a minute: the path over samples refuses what the
path over buckets answers with a point. -/
theorem million_points_one_path :
    slidingStatsBucket true 0 60000000000 60000000000 = some 60000000000 ∧
    RawOf lineAfterEpoch (unlabelled [⟨1, (1 : Int)⟩] none) ∧
    BucketsOf wholeNumbers
      (setSlidingStatsRangeParams true (0 - 60000000000) 60000000000000000 60000000000)
      lineAfterEpoch (unlabelled [⟨0, 1⟩] none) ∧
    buildManualRangeMetricMatrixContext wholeNumbers (fun _ => true) .countOverTime 0
        (unlabelled [⟨1, 1⟩] none) 0 60000000000000000 60000000000 60000000000 0 =
      .error .evaluationPoints ∧
    ∃ m, buildHitsRangeMetricMatrix wholeNumbers insertionByTime .countOverTime
        (unlabelled [⟨0, 1⟩] none) 0 60000000000000000 60000000000 60000000000 = .ok m ∧
      ∃ s ∈ m, (60, 1) ∈ s.points := by
  refine ⟨slidingStatsBucket_minute 0, rawOf_lineAfterEpoch,
    bucketsOf_lineAfterEpoch (by decide), by rfl, ?_⟩
  have hvalue := hitsValue_oneBucket (show (0 : Int) < 60000000000 by decide)
  have hwithin : ∀ t, (hitsValue wholeNumbers insertionByTime .countOverTime 60000000000
      ⟨∅, [⟨0, 1⟩], none⟩ t).isSome → 0 < t ∧ t ≤ 0 + 60000000000 + 60000000000 := by
    intro t ht
    rw [hvalue] at ht
    split at ht
    · omega
    · cases ht
  refine ⟨_, buildHits_unlabelled wholeNumbers insertionByTime .countOverTime [⟨0, 1⟩] none
    (by decide) (by decide) hwithin, ?_⟩
  have hpoint : (60, 1) ∈ seriesPoints (hitsValue wholeNumbers insertionByTime .countOverTime
      60000000000 ⟨∅, [⟨0, 1⟩], none⟩) (evalPoints 0 60000000000000000 60000000000) := by
    refine mem_filterMap.mpr ⟨60000000000, (mem_evalPoints (by decide)).mpr
      ⟨1, by decide, by decide⟩, ?_⟩
    rw [hvalue]
    rfl
  generalize evalPoints 0 60000000000000000 60000000000 = points at hpoint ⊢
  exact ⟨_, mem_matrixOf mem_cons_self hpoint, hpoint⟩

end LokiVlProxy.Proxy.RangeMetric
