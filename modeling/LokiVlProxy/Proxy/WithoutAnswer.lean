/-
  Proxy/WithoutAnswer.lean --- without() on a matrix, and when its series are well formed.

  Source: internal/proxy/vector_matching.go: applyWithoutMatrix, metricKeyStr.

  Values are summed in an arbitrary commutative monoid, in which `strconv.ParseFloat` reads
  them (zero where it fails).  Two texts stand between the body and the result: label sets are
  grouped by a join of their labels without escapes, and the points of a group are sorted by
  the text of their times.
-/
import LokiVlProxy.Foundation.ShortDecimal
import LokiVlProxy.Proxy.VectorMatching

namespace LokiVlProxy.Proxy

open Foundation

/-- A decoded JSON value; one that is neither a number nor a string has the text that `%v`
prints for it. -/
inductive AnyValue where
  | number (n : ShortDecimal)
  | string (s : Text)
  | other (text : Text)
  deriving DecidableEq

/-- `fmt.Sprintf("%v", value)`. -/
def AnyValue.sprint : AnyValue → Text
  | .number n => n.formatG
  | .string s => s
  | .other text => text

structure MatrixSeries where
  metric : LabelSet
  values : List (List AnyValue)

/-- How numbers and texts are read as values. -/
structure Reading (V : Type) where
  parseFloat : Text → V
  ofNumber : ShortDecimal → V

variable {V : Type} [AddCommMonoid V] (rd : Reading V)

structure GroupedSeries (V : Type) where
  metric : LabelSet
  values : KeyMap Text V
  order : KeyMap Text AnyValue

variable (group : GroupedSeries V)

/-- A value added at a time. -/
def GroupedSeries.add (tsKey : Text) (v : V) : GroupedSeries V :=
  { group with values := group.values.insert tsKey ((group.values.find? tsKey).getD 0 + v) }

/-- One point of a series. -/
def addPoint (point : List AnyValue) : GroupedSeries V :=
  match point with
  | ts :: raw :: _ =>
      let tsKey := ts.sprint
      let group := { group with order := group.order.insert tsKey ts }
      match raw with
      | .string s => group.add tsKey (rd.parseFloat s)
      | .number n => group.add tsKey (rd.ofNumber n)
      | .other _ => group
  | _ => group

/-- The labels that are left of a series. -/
def MatrixSeries.remaining (exclude : List Text) (series : MatrixSeries) : LabelSet :=
  series.metric.filter fun name _ => name ∉ exclude

variable (metric : LabelSet)

def metricKeyStr : Text :=
  [','].intercalate ((metric.entries.map fun e => e.1 ++ '=' :: e.2).insertionSort (· ≤ ·))

/-- One series of the body. -/
def addSeries (exclude : List Text) (groups : KeyMap Text (GroupedSeries V))
    (series : MatrixSeries) : KeyMap Text (GroupedSeries V) :=
  let filtered := series.remaining exclude
  let key := metricKeyStr filtered
  let group := (groups.find? key).getD ⟨filtered, ∅, ∅⟩
  groups.insert key (series.values.foldl (addPoint rd) group)

/-- A series of the result. -/
structure ResultSeries (V : Type) where
  metric : LabelSet
  points : List (AnyValue × V)
  deriving DecidableEq

/-- The points of a group, by ascending text of their times. -/
def GroupedSeries.result : ResultSeries V where
  metric := group.metric
  points := (group.values.keys.insertionSort (· ≤ ·)).map fun ts =>
    ((group.order.find? ts).getD (.other []), (group.values.find? ts).getD 0)

def applyWithoutMatrix (body : List MatrixSeries) (exclude : List Text) : List (ResultSeries V) :=
  let groups := body.foldl (addSeries rd exclude) ∅
  groups.toList.map fun g => g.2.result

open List ShortDecimal

variable (exclude : List Text)

/-! ## What the result should be -/

/-- The time and the value of a point. -/
def sampleOf (point : List AnyValue) : Option (ShortDecimal × V) :=
  match point with
  | .number d :: .string s :: _ => some (d, rd.parseFloat s)
  | .number d :: .number n :: _ => some (d, rd.ofNumber n)
  | _ => none

/-- A matrix has points of a number and a value. -/
def IsMatrix (body : List MatrixSeries) : Prop :=
  ∀ series ∈ body, ∀ point ∈ series.values, (sampleOf rd point).isSome

def samplesOf (body : List MatrixSeries) : List (ShortDecimal × V) :=
  (body.flatMap MatrixSeries.values).filterMap (sampleOf rd)

/-- The series that are left with these labels. -/
def seriesWith (body : List MatrixSeries) (metric : LabelSet) : List MatrixSeries :=
  body.filter fun series => series.remaining exclude = metric

/-- The times of the group with these labels. -/
def groupTimes (body : List MatrixSeries) (metric : LabelSet) : List ShortDecimal :=
  (samplesOf rd (seriesWith exclude body metric)).map Prod.fst

/-- The values of the samples at a time, summed up. -/
def sumAt (samples : List (ShortDecimal × V)) (d : ShortDecimal) : V :=
  ((samples.filter fun p => p.1 = d).map Prod.snd).sum

/-- One series for each remaining label set, with one point for each time of its group, by
ascending time, and the sum of the group's values there. -/
structure WellFormed (body : List MatrixSeries) (out : List (ResultSeries V)) : Prop where
  distinct : (out.map ResultSeries.metric).Nodup
  labelSets : ∀ metric, metric ∈ out.map ResultSeries.metric ↔
    ∃ series ∈ body, series.remaining exclude = metric
  points : ∀ o ∈ out, ∃ times : List ShortDecimal,
    o.points = times.map (fun d =>
      (AnyValue.number d, sumAt (samplesOf rd (seriesWith exclude body o.metric)) d)) ∧
    (∀ d, d ∈ times ↔ d ∈ groupTimes rd exclude body o.metric) ∧
    times.Pairwise fun d e => d.value < e.value

/-- No two different label sets of the body are joined to the same text. -/
def KeysDistinct (body : List MatrixSeries) : Prop :=
  ∀ s ∈ body, ∀ t ∈ body,
    metricKeyStr (s.remaining exclude) = metricKeyStr (t.remaining exclude) →
      s.remaining exclude = t.remaining exclude

/-- Of two times of a group, the one whose text comes first is the earlier one. -/
def TextOrderIsTime (body : List MatrixSeries) : Prop :=
  ∀ metric, ∀ d ∈ groupTimes rd exclude body metric, ∀ e ∈ groupTimes rd exclude body metric,
    d.formatG < e.formatG → d.value < e.value

/-- All times are whole seconds with this number of digits. -/
def SecondsOfLength (body : List MatrixSeries) (digits : Nat) : Prop :=
  ∀ p ∈ samplesOf rd body,
    ∃ n, p.1 = ShortDecimal.ofNat n ∧ (ShortDecimal.natDigits n).length = digits

/-- No group has a time between one of its times and the next number that ends in as many
zeros. -/
def NoTimeBeforeRound (body : List MatrixSeries) : Prop :=
  ∀ metric m n, ShortDecimal.ofNat m ∈ groupTimes rd exclude body metric →
    ShortDecimal.ofNat n ∈ groupTimes rd exclude body metric → m < n →
      ShortDecimal.NoRoundBetween m n

/-! ## Keys of label sets -/

/-- No comma in a label and no equals sign in its name. -/
def Plain : Prop :=
  ∀ e ∈ metric.entries, '=' ∉ e.1 ∧ ',' ∉ e.1 ∧ ',' ∉ e.2

/-- The parts that are joined. -/
def keyParts : List Text :=
  (metric.entries.map fun e => e.1 ++ '=' :: e.2).insertionSort (· ≤ ·)

theorem mem_keyParts {metric : LabelSet} {part : Text} :
    part ∈ keyParts metric ↔ ∃ e ∈ metric.entries, e.1 ++ '=' :: e.2 = part := by
  rw [keyParts, mem_insertionSort, mem_map]

theorem splitOn_metricKeyStr {metric : LabelSet} (h : Plain metric) (hne : metric.entries ≠ []) :
    (metricKeyStr metric).splitOn ',' = keyParts metric := by
  refine splitOn_intercalate ',' (fun part hpart => ?_) ?_
  · obtain ⟨e, he, rfl⟩ := mem_keyParts.mp hpart
    have hplain := h e he
    simp [hplain.2.1, hplain.2.2]
  · intro hnil
    have hlength := congrArg List.length hnil
    rw [length_insertionSort, length_map] at hlength
    exact hne (length_eq_zero_iff.mp hlength)

theorem metricKeyStr_eq_nil_iff {metric : LabelSet} (h : Plain metric) :
    metricKeyStr metric = [] ↔ metric.entries = [] := by
  constructor
  · intro hnil
    by_contra hne
    have hsplit := splitOn_metricKeyStr h hne
    rw [hnil] at hsplit
    have hempty : [] ∈ keyParts metric := by
      rw [← hsplit]
      exact mem_singleton_self _
    obtain ⟨e, -, he⟩ := mem_keyParts.mp hempty
    exact absurd he (by simp)
  · intro hnil
    rw [metricKeyStr, hnil]
    rfl

theorem entries_subset_of_keyParts {m n : LabelSet} (hm : Plain m) (hn : Plain n)
    (h : keyParts m = keyParts n) : ∀ e ∈ m.entries, e ∈ n.entries := by
  intro e he
  have hpart : e.1 ++ '=' :: e.2 ∈ keyParts n := h ▸ mem_keyParts.mpr ⟨e, he, rfl⟩
  obtain ⟨f, hf, hfe⟩ := mem_keyParts.mp hpart
  obtain ⟨hname, hvalue⟩ := append_cons_inj_of_notMem (hn f hf).1 (hm e he).1 hfe
  exact Prod.ext hname hvalue ▸ hf

/-- Plain label sets with one key are equal. -/
theorem metricKeyStr_injective {m n : LabelSet} (hm : Plain m) (hn : Plain n)
    (h : metricKeyStr m = metricKeyStr n) : m = n := by
  have hnil : m.entries = [] ↔ n.entries = [] := by
    rw [← metricKeyStr_eq_nil_iff hm, ← metricKeyStr_eq_nil_iff hn, h]
  have hparts : keyParts m = keyParts n := by
    by_cases hempty : m.entries = []
    · rw [keyParts, keyParts, hempty, hnil.mp hempty]
    · rw [← splitOn_metricKeyStr hm hempty, ← splitOn_metricKeyStr hn (fun h => hempty (hnil.mpr h)), h]
  apply SortedMap.ext_find?
  intro k
  apply Option.ext
  intro v
  rw [SortedMap.find?_eq_some_iff, SortedMap.find?_eq_some_iff]
  exact ⟨entries_subset_of_keyParts hm hn hparts _, entries_subset_of_keyParts hn hm hparts.symm _⟩

/-! ## Groups -/

/-- The group of a list of series with one key. -/
def groupOf : List MatrixSeries → Option (GroupedSeries V)
  | [] => none
  | s :: rest => some (((s :: rest).flatMap MatrixSeries.values).foldl (addPoint rd)
      ⟨s.remaining exclude, ∅, ∅⟩)

theorem groupOf_append_singleton (series : List MatrixSeries) (s : MatrixSeries) :
    groupOf rd exclude (series ++ [s]) =
      some (s.values.foldl (addPoint rd)
        ((groupOf rd exclude series).getD ⟨s.remaining exclude, ∅, ∅⟩)) := by
  cases series with
  | nil => simp [groupOf]
  | cons t series => simp [groupOf, foldl_append]

/-- The group of a key is made of the series with that key. -/
theorem find?_groups (body : List MatrixSeries) (k : Text) :
    (body.foldl (addSeries rd exclude) ∅).find? k =
      groupOf rd exclude (body.filter fun s => metricKeyStr (s.remaining exclude) = k) := by
  induction body using List.reverseRecOn with
  | nil => rfl
  | append_singleton body s ih =>
    rw [foldl_append, foldl_cons, foldl_nil, addSeries, KeyMap.find?_insert,
      filter_append, filter_cons]
    by_cases hk : k = metricKeyStr (s.remaining exclude)
    · subst hk
      simp only [if_true, decide_true, filter_nil]
      rw [groupOf_append_singleton, ← ih]
    · have hk' : ¬ metricKeyStr (s.remaining exclude) = k := fun h => hk h.symm
      simp [hk, hk', ih]

theorem metric_foldl_addPoint (points : List (List AnyValue)) (group : GroupedSeries V) :
    (points.foldl (addPoint rd) group).metric = group.metric := by
  induction points generalizing group with
  | nil => rfl
  | cons point points ih =>
    rw [foldl_cons, ih]
    unfold addPoint
    split
    · simp only
      split <;> rfl
    · rfl

/-- A sample added to a group. -/
def addSample (p : ShortDecimal × V) : GroupedSeries V :=
  { group with order := group.order.insert p.1.formatG (.number p.1) }.add p.1.formatG p.2

theorem addPoint_of_sampleOf {point : List AnyValue} {p : ShortDecimal × V}
    (h : sampleOf rd point = some p) (group : GroupedSeries V) :
    addPoint rd group point = addSample group p := by
  unfold sampleOf at h
  split at h
  · obtain rfl := Option.some.inj h
    rfl
  · obtain rfl := Option.some.inj h
    rfl
  · exact absurd h (by simp)

theorem foldl_addPoint {points : List (List AnyValue)}
    (h : ∀ point ∈ points, (sampleOf rd point).isSome) (group : GroupedSeries V) :
    points.foldl (addPoint rd) group = (points.filterMap (sampleOf rd)).foldl addSample group := by
  induction points generalizing group with
  | nil => rfl
  | cons point points ih =>
    obtain ⟨p, hp⟩ := Option.isSome_iff_exists.mp (h point mem_cons_self)
    rw [foldl_cons, filterMap_cons, hp, addPoint_of_sampleOf rd hp]
    exact ih (fun q hq => h q (mem_cons_of_mem _ hq)) _

section Samples

variable (metric : LabelSet) (samples : List (ShortDecimal × V))

/-- The group of these samples. -/
def sampled : GroupedSeries V := samples.foldl addSample ⟨metric, ∅, ∅⟩

theorem sampled_append (p : ShortDecimal × V) :
    sampled metric (samples ++ [p]) = addSample (sampled metric samples) p := by
  simp [sampled, foldl_append]

omit [AddCommMonoid V] in
theorem mem_times_append (d : ShortDecimal) (p : ShortDecimal × V) :
    d ∈ (samples ++ [p]).map Prod.fst ↔ d ∈ samples.map Prod.fst ∨ d = p.1 := by
  simp [eq_comm]

theorem sumAt_append (d e : ShortDecimal) (v : V) :
    sumAt (samples ++ [(e, v)]) d = sumAt samples d + if e = d then v else 0 := by
  unfold sumAt
  rw [filter_append, map_append, sum_append]
  by_cases h : e = d <;> simp [h]

theorem sumAt_of_notMem {d : ShortDecimal} (h : d ∉ samples.map Prod.fst) : sumAt samples d = 0 := by
  have hnone : (samples.filter fun p => p.1 = d) = [] := by
    apply filter_eq_nil_iff.mpr
    intro p hp hd
    exact h (of_decide_eq_true hd ▸ mem_map_of_mem hp)
  rw [sumAt, hnone]
  rfl

/-- A group holds for a time the sum of its samples there. -/
theorem find?_values_sampled (d : ShortDecimal) :
    (sampled metric samples).values.find? d.formatG =
      if d ∈ samples.map Prod.fst then some (sumAt samples d) else none := by
  induction samples using List.reverseRecOn with
  | nil => rfl
  | append_singleton samples p ih =>
    obtain ⟨e, v⟩ := p
    rw [sampled_append, addSample, GroupedSeries.add, KeyMap.find?_insert, sumAt_append]
    by_cases hde : d = e
    · subst hde
      rw [if_pos rfl, ih]
      by_cases hd : d ∈ samples.map Prod.fst
      · simp [hd]
      · simp [hd, sumAt_of_notMem samples hd]
    · have htext : ¬ d.formatG = e.formatG := fun h => hde (formatG_injective h)
      rw [if_neg htext]
      simpa only [mem_times_append, hde, or_false, if_neg (Ne.symm hde), add_zero] using ih

theorem find?_order_sampled (d : ShortDecimal) :
    (sampled metric samples).order.find? d.formatG =
      if d ∈ samples.map Prod.fst then some (.number d) else none := by
  induction samples using List.reverseRecOn with
  | nil => rfl
  | append_singleton samples p ih =>
    obtain ⟨e, v⟩ := p
    rw [sampled_append, addSample, GroupedSeries.add, KeyMap.find?_insert]
    by_cases hde : d = e
    · simp [hde]
    · have htext : ¬ d.formatG = e.formatG := fun h => hde (formatG_injective h)
      rw [if_neg htext]
      simpa only [mem_times_append, hde, or_false] using ih

theorem mem_keys_sampled (t : Text) :
    t ∈ (sampled metric samples).values.keys ↔ ∃ d ∈ samples.map Prod.fst, d.formatG = t := by
  induction samples using List.reverseRecOn with
  | nil => simp [KeyMap.mem_keys, sampled]
  | append_singleton samples p ih =>
    obtain ⟨e, v⟩ := p
    rw [KeyMap.mem_keys] at ih ⊢
    rw [sampled_append, addSample, GroupedSeries.add, KeyMap.find?_insert]
    by_cases ht : t = e.formatG
    · rw [if_pos ht]
      exact iff_of_true rfl ⟨e, by simp, ht.symm⟩
    · rw [if_neg ht]
      refine ih.trans ?_
      constructor
      · rintro ⟨d, hd, htext⟩
        exact ⟨d, by simp [hd], htext⟩
      · rintro ⟨d, hd, htext⟩
        rcases (mem_times_append samples d (e, v)).mp hd with hd | rfl
        · exact ⟨d, hd, htext⟩
        · exact absurd htext.symm ht

omit [AddCommMonoid V] in
theorem exists_times_of_texts {samples : List (ShortDecimal × V)} {texts : List Text}
    (h : ∀ t ∈ texts, ∃ d ∈ samples.map Prod.fst, d.formatG = t) :
    ∃ times : List ShortDecimal, texts = times.map formatG ∧
      ∀ d ∈ times, d ∈ samples.map Prod.fst := by
  induction texts with
  | nil => exact ⟨[], rfl, by simp⟩
  | cons t texts ih =>
    obtain ⟨d, hd, rfl⟩ := h t mem_cons_self
    obtain ⟨times, rfl, htimes⟩ := ih fun t ht => h t (mem_cons_of_mem _ ht)
    refine ⟨d :: times, rfl, ?_⟩
    intro e he
    rcases mem_cons.mp he with rfl | he
    · exact hd
    · exact htimes e he

/-- The points of a group of samples: its times by ascending text, with their sums. -/
theorem points_sampled : ∃ times : List ShortDecimal,
    (sampled metric samples).result.points =
      times.map (fun d => (AnyValue.number d, sumAt samples d)) ∧
    (∀ d, d ∈ times ↔ d ∈ samples.map Prod.fst) ∧
    times.Pairwise fun d e => d.formatG < e.formatG := by
  have hsorted : ((sampled metric samples).values.keys.insertionSort (· ≤ ·)).Pairwise (· < ·) := by
    have hle := pairwise_insertionSort (· ≤ ·) (sampled metric samples).values.keys
    have hnodup := (perm_insertionSort (· ≤ ·) (sampled metric samples).values.keys).nodup_iff.mpr
      (KeyMap.nodup_keys _)
    exact (hle.and hnodup).imp fun h => lt_of_le_of_ne h.1 h.2
  have hkeys : ∀ t, t ∈ (sampled metric samples).values.keys.insertionSort (· ≤ ·) ↔
      ∃ d ∈ samples.map Prod.fst, d.formatG = t := by
    intro t
    rw [(perm_insertionSort _ _).mem_iff, mem_keys_sampled]
  obtain ⟨times, htimes, hfrom⟩ := exists_times_of_texts fun t ht => (hkeys t).mp ht
  refine ⟨times, ?_, ?_, ?_⟩
  · rw [GroupedSeries.result, htimes, map_map]
    apply map_congr_left
    intro d hd
    simp [find?_order_sampled, find?_values_sampled, hfrom d hd]
  · intro d
    refine ⟨hfrom d, fun hd => ?_⟩
    have hmem := (hkeys d.formatG).mpr ⟨d, hd, rfl⟩
    rw [htimes] at hmem
    obtain ⟨e, he, htext⟩ := mem_map.mp hmem
    exact formatG_injective htext ▸ he
  · rw [htimes] at hsorted
    exact pairwise_map.mp hsorted

end Samples

/-! ## The groups of a body -/

section Body

variable {exclude} {body : List MatrixSeries}

theorem seriesWith_eq_of_keysDistinct (hkeys : KeysDistinct exclude body) {s : MatrixSeries}
    (hs : s ∈ body) :
    (body.filter fun t => metricKeyStr (t.remaining exclude) = metricKeyStr (s.remaining exclude)) =
      seriesWith exclude body (s.remaining exclude) := by
  apply filter_congr
  intro t ht
  rw [decide_eq_decide]
  exact ⟨fun h => hkeys t ht s hs h, fun h => by rw [h]⟩

theorem exists_series_of_group {k : Text} {g : GroupedSeries V}
    (h : (body.foldl (addSeries rd exclude) ∅).find? k = some g) :
    ∃ s ∈ body, g.metric = s.remaining exclude ∧ metricKeyStr (s.remaining exclude) = k := by
  rw [find?_groups] at h
  cases hfilter : body.filter fun s => metricKeyStr (s.remaining exclude) = k with
  | nil =>
    rw [hfilter] at h
    exact absurd h (by simp [groupOf])
  | cons s rest =>
    have hs : s ∈ body.filter fun s => metricKeyStr (s.remaining exclude) = k := by simp [hfilter]
    rw [hfilter] at h
    obtain rfl := Option.some.inj h
    exact ⟨s, (mem_filter.mp hs).1, metric_foldl_addPoint rd _ _,
      of_decide_eq_true (mem_filter.mp hs).2⟩

theorem isSome_group {s : MatrixSeries} (hs : s ∈ body) :
    ((body.foldl (addSeries rd exclude) ∅).find? (metricKeyStr (s.remaining exclude))).isSome := by
  rw [find?_groups]
  cases hfilter : body.filter fun t =>
      metricKeyStr (t.remaining exclude) = metricKeyStr (s.remaining exclude) with
  | nil =>
    have hs : s ∈ body.filter fun t =>
        metricKeyStr (t.remaining exclude) = metricKeyStr (s.remaining exclude) :=
      mem_filter.mpr ⟨hs, by simp⟩
    rw [hfilter] at hs
    exact absurd hs not_mem_nil
  | cons t rest => rfl

/-- The result series are those of the groups. -/
theorem mem_applyWithoutMatrix {o : ResultSeries V} :
    o ∈ applyWithoutMatrix rd body exclude ↔
      ∃ k g, (body.foldl (addSeries rd exclude) ∅).find? k = some g ∧ g.result = o := by
  unfold applyWithoutMatrix
  simp only [mem_map, Prod.exists, KeyMap.mem_toList]

/-- A label set that is left of some series has a series of the result. -/
theorem group_of_series (hbody : IsMatrix rd body) (hkeys : KeysDistinct exclude body)
    {k : Text} {g : GroupedSeries V}
    (h : (body.foldl (addSeries rd exclude) ∅).find? k = some g) :
    g = sampled g.metric (samplesOf rd (seriesWith exclude body g.metric)) := by
  obtain ⟨s, hs, hmetric, rfl⟩ := exists_series_of_group rd h
  rw [find?_groups, seriesWith_eq_of_keysDistinct hkeys hs, ← hmetric] at h
  have hall : ∀ series ∈ seriesWith exclude body g.metric, ∀ point ∈ series.values,
      (sampleOf rd point).isSome :=
    fun series hseries => hbody series (mem_filter.mp hseries).1
  cases hwith : seriesWith exclude body g.metric with
  | nil =>
    rw [hwith] at h
    exact absurd h (by simp [groupOf])
  | cons t rest =>
    have ht : t ∈ seriesWith exclude body g.metric := by simp [hwith]
    rw [hwith] at h hall
    have hpoints : ∀ point ∈ (t :: rest).flatMap MatrixSeries.values, (sampleOf rd point).isSome := by
      intro point hpoint
      obtain ⟨series, hseries, hpoint⟩ := mem_flatMap.mp hpoint
      exact hall series hseries point hpoint
    rw [groupOf, foldl_addPoint rd hpoints, of_decide_eq_true (mem_filter.mp ht).2] at h
    exact (Option.some.inj h).symm

theorem nodup_metrics :
    ((applyWithoutMatrix rd body exclude).map ResultSeries.metric).Nodup := by
  apply List.Nodup.of_map metricKeyStr
  have hkeys : ((applyWithoutMatrix rd body exclude).map ResultSeries.metric).map metricKeyStr =
      (body.foldl (addSeries rd exclude) ∅).keys := by
    unfold applyWithoutMatrix KeyMap.keys
    rw [map_map, map_map]
    apply map_congr_left
    rintro ⟨k, g⟩ hg
    obtain ⟨s, -, hmetric, hk⟩ := exists_series_of_group rd (KeyMap.mem_toList.mp hg)
    exact (congrArg metricKeyStr hmetric).trans hk
  rw [hkeys]
  exact KeyMap.nodup_keys _

/-- Each remaining label set has one result series, where the keys are distinct. -/
theorem metric_mem_iff (hkeys : KeysDistinct exclude body) (metric : LabelSet) :
    metric ∈ (applyWithoutMatrix rd body exclude).map ResultSeries.metric ↔
      ∃ s ∈ body, s.remaining exclude = metric := by
  constructor
  · intro h
    obtain ⟨o, ho, rfl⟩ := mem_map.mp h
    obtain ⟨k, g, hg, rfl⟩ := (mem_applyWithoutMatrix rd).mp ho
    obtain ⟨s, hs, hmetric, -⟩ := exists_series_of_group rd hg
    exact ⟨s, hs, hmetric.symm⟩
  · rintro ⟨s, hs, rfl⟩
    obtain ⟨g, hg⟩ := Option.isSome_iff_exists.mp (isSome_group rd hs)
    obtain ⟨t, ht, hmetric, hk⟩ := exists_series_of_group rd hg
    refine mem_map.mpr ⟨g.result, (mem_applyWithoutMatrix rd).mpr ⟨_, g, hg, rfl⟩, ?_⟩
    exact hmetric.trans (hkeys t ht s hs hk)

/-- Of plain labels, each set that is left has one series. -/
theorem metrics_of_plain (h : ∀ s ∈ body, Plain (s.remaining exclude)) :
    ((applyWithoutMatrix rd body exclude).map ResultSeries.metric).Nodup ∧
      ∀ metric, metric ∈ (applyWithoutMatrix rd body exclude).map ResultSeries.metric ↔
        ∃ s ∈ body, s.remaining exclude = metric :=
  ⟨nodup_metrics rd, metric_mem_iff rd fun s hs t ht => metricKeyStr_injective (h s hs) (h t ht)⟩

theorem keysDistinct_of_metrics
    (h : ∀ s ∈ body, s.remaining exclude ∈
      (applyWithoutMatrix rd body exclude).map ResultSeries.metric) :
    KeysDistinct exclude body := by
  have group : ∀ s ∈ body, ∃ g,
      (body.foldl (addSeries rd exclude) ∅).find? (metricKeyStr (s.remaining exclude)) = some g ∧
        g.metric = s.remaining exclude := by
    intro s hs
    obtain ⟨o, ho, hmetric⟩ := mem_map.mp (h s hs)
    obtain ⟨k, g, hg, rfl⟩ := (mem_applyWithoutMatrix rd).mp ho
    obtain ⟨t, -, htmetric, hk⟩ := exists_series_of_group rd hg
    have hmetric : g.metric = s.remaining exclude := hmetric
    rw [← htmetric, hmetric] at hk
    exact ⟨g, hk ▸ hg, hmetric⟩
  intro s hs t ht hst
  obtain ⟨g, hg, hgs⟩ := group s hs
  obtain ⟨g', hg', hgt⟩ := group t ht
  rw [hst, hg'] at hg
  rw [← hgs, ← hgt, Option.some.inj hg]

/-- The points of a result series. -/
theorem points_of_result (hbody : IsMatrix rd body) (hkeys : KeysDistinct exclude body)
    {o : ResultSeries V} (ho : o ∈ applyWithoutMatrix rd body exclude) :
    ∃ times : List ShortDecimal,
      o.points = times.map (fun d =>
        (AnyValue.number d, sumAt (samplesOf rd (seriesWith exclude body o.metric)) d)) ∧
      (∀ d, d ∈ times ↔ d ∈ groupTimes rd exclude body o.metric) ∧
      times.Pairwise fun d e => d.formatG < e.formatG := by
  obtain ⟨k, g, hg, rfl⟩ := (mem_applyWithoutMatrix rd).mp ho
  have hpoints := points_sampled g.metric (samplesOf rd (seriesWith exclude body g.metric))
  rw [← group_of_series rd hbody hkeys hg] at hpoints
  exact hpoints

theorem value_lt_of_formatG_lt {times : List ShortDecimal}
    (htext : times.Pairwise fun d e => d.formatG < e.formatG)
    (hvalue : times.Pairwise fun d e => d.value < e.value) {d e : ShortDecimal} (hd : d ∈ times)
    (he : e ∈ times) (h : d.formatG < e.formatG) : d.value < e.value := by
  have hboth : times.Pairwise fun d e =>
      (d.formatG < e.formatG → d.value < e.value) ∧ (e.formatG < d.formatG → e.value < d.value) :=
    (htext.and hvalue).imp fun h => ⟨fun _ => h.2, fun h' => absurd h.1 h'.asymm⟩
  have hsymm : Std.Symm fun d e : ShortDecimal =>
      (d.formatG < e.formatG → d.value < e.value) ∧ (e.formatG < d.formatG → e.value < d.value) :=
    ⟨fun _ _ h => ⟨h.2, h.1⟩⟩
  have hne : d ≠ e := by
    rintro rfl
    exact lt_irrefl _ h
  exact (hboth.forall hd he hne).1 h

omit [AddCommMonoid V] in
theorem secondsOfLength_group {digits : Nat} (h : SecondsOfLength rd body digits) {metric : LabelSet}
    {d : ShortDecimal} (hd : d ∈ groupTimes rd exclude body metric) :
    ∃ n, d = ofNat n ∧ (natDigits n).length = digits := by
  obtain ⟨p, hp, rfl⟩ := mem_map.mp hd
  obtain ⟨point, hpoint, hsample⟩ := mem_filterMap.mp hp
  obtain ⟨s, hs, hin⟩ := mem_flatMap.mp hpoint
  apply h p
  exact mem_filterMap.mpr
    ⟨point, mem_flatMap.mpr ⟨s, (mem_filter.mp hs).1, hin⟩, hsample⟩

theorem ofNat_injective {m n : Nat} (h : ofNat m = ofNat n) : m = n := by
  have hvalue := congrArg value h
  rw [value_ofNat, value_ofNat] at hvalue
  exact_mod_cast hvalue

omit [AddCommMonoid V] in
/-- For seconds of the same number of digits, from seven digits on, the order of the texts is
that of the times unless a time lies before the next round number after another one. -/
theorem textOrderIsTime_iff_of_seconds {digits : Nat} (hseven : 7 ≤ digits)
    (hseconds : SecondsOfLength rd body digits) :
    TextOrderIsTime rd exclude body ↔ NoTimeBeforeRound rd exclude body := by
  have length : ∀ {metric : LabelSet} {n : Nat},
      ofNat n ∈ groupTimes rd exclude body metric →
        (natDigits n).length = digits := by
    intro metric n hn
    obtain ⟨n', hn', hlength⟩ := secondsOfLength_group rd hseconds hn
    rw [ofNat_injective hn', hlength]
  constructor
  · intro h metric m n hm hn hlt
    rw [← formatG_ofNat_lt_iff ((length hm).trans (length hn).symm)
      (by rw [length hm]; exact hseven) hlt]
    rcases lt_trichotomy (ofNat m).formatG (ofNat n).formatG with
      htext | htext | htext
    · exact htext
    · exact absurd (ofNat_injective (formatG_injective htext)) hlt.ne
    · have hvalue := h metric _ hn _ hm htext
      rw [value_ofNat, value_ofNat, Nat.cast_lt] at hvalue
      exact absurd hvalue hlt.asymm
  · intro h metric d hd e he htext
    obtain ⟨m, rfl, hm⟩ := secondsOfLength_group rd hseconds hd
    obtain ⟨n, rfl, hn⟩ := secondsOfLength_group rd hseconds he
    rw [value_ofNat, value_ofNat, Nat.cast_lt]
    rcases lt_trichotomy m n with hlt | rfl | hlt
    · exact hlt
    · exact absurd htext (lt_irrefl _)
    · have htext' := (formatG_ofNat_lt_iff (hn.trans hm.symm) (hn ▸ hseven) hlt).mpr
        (h metric n m he hd hlt)
      exact absurd htext htext'.asymm

/-- The result of without() is well formed exactly when the texts that stand for label sets
keep them apart and the texts that stand for times keep their order. -/
theorem wellFormed_iff (hbody : IsMatrix rd body) {out : List (ResultSeries V)}
    (hout : out.Perm (applyWithoutMatrix rd body exclude)) :
    WellFormed rd exclude body out ↔
      KeysDistinct exclude body ∧ TextOrderIsTime rd exclude body := by
  constructor
  · intro h
    have hkeys : KeysDistinct exclude body := by
      apply keysDistinct_of_metrics rd
      intro s hs
      exact (hout.map _).mem_iff.mp ((h.labelSets _).mpr ⟨s, hs, rfl⟩)
    refine ⟨hkeys, ?_⟩
    intro metric d hd e he hlt
    -- a time of the group comes from a series with these labels, so the result has one
    obtain ⟨p, hp, -⟩ := mem_map.mp hd
    obtain ⟨point, hpoint, -⟩ := mem_filterMap.mp hp
    obtain ⟨s, hs, -⟩ := mem_flatMap.mp hpoint
    obtain ⟨hs, hmetric⟩ := mem_filter.mp hs
    obtain ⟨o, ho, rfl⟩ := mem_map.mp ((h.labelSets metric).mpr ⟨s, hs, of_decide_eq_true hmetric⟩)
    obtain ⟨times, hpoints, hmem, hvalue⟩ := h.points o ho
    obtain ⟨times', hpoints', -, htext⟩ := points_of_result rd hbody hkeys (hout.mem_iff.mp ho)
    have hsame : times = times' := by
      apply map_injective_iff.mpr ?_ (hpoints.symm.trans hpoints')
      intro d e hde
      exact AnyValue.number.inj (Prod.mk.inj hde).1
    exact value_lt_of_formatG_lt (hsame ▸ htext) hvalue ((hmem d).mpr hd) ((hmem e).mpr he) hlt
  · rintro ⟨hkeys, horder⟩
    refine ⟨(hout.map _).nodup_iff.mpr (nodup_metrics rd), ?_, ?_⟩
    · intro metric
      rw [(hout.map _).mem_iff]
      exact metric_mem_iff rd hkeys metric
    · intro o ho
      obtain ⟨times, hpoints, hmem, htext⟩ := points_of_result rd hbody hkeys (hout.mem_iff.mp ho)
      refine ⟨times, hpoints, hmem, ?_⟩
      exact htext.imp_of_mem fun hd he h => horder _ _ ((hmem _).mp hd) _ ((hmem _).mp he) h

/-- without() on every matrix body, and what its condition means for seconds of today's
length. -/
theorem without_wellFormed_iff (hbody : IsMatrix rd body) {out : List (ResultSeries V)}
    (hout : out.Perm (applyWithoutMatrix rd body exclude)) :
    (WellFormed rd exclude body out ↔
      KeysDistinct exclude body ∧ TextOrderIsTime rd exclude body) ∧
    ∀ digits, 7 ≤ digits → SecondsOfLength rd body digits →
      (TextOrderIsTime rd exclude body ↔ NoTimeBeforeRound rd exclude body) :=
  ⟨wellFormed_iff rd hbody hout, fun _ => textOrderIsTime_iff_of_seconds rd⟩

end Body

/-! ## Two minutes -/

/-- Values are whole numbers. -/
def wholeReading : Reading Int where
  parseFloat s := s.foldl (fun n c => 10 * n + (c.toNat - 48 : Nat)) 0
  ofNumber d := ShortDecimal.digitsValue d.digits

/-- 1700000000 -/
def roundSecond : ShortDecimal := ⟨false, [1, 7], 10, by decide, by decide, by simp⟩

/-- 1700000060 -/
def minuteLater : ShortDecimal := ⟨false, [1, 7, 0, 0, 0, 0, 0, 0, 6], 10, by decide, by decide, by simp⟩

/-- 1700000120 -/
def twoMinutesLater : ShortDecimal :=
  ⟨false, [1, 7, 0, 0, 0, 0, 0, 1, 2], 10, by decide, by decide, by simp⟩

/-- A pod's series. -/
def podPoints (pod : Char) (values : List (List AnyValue)) : MatrixSeries :=
  ⟨⟨[(['a', 'p', 'p'], ['x']), (['p', 'o', 'd'], [pod])], by simp; decide⟩, values⟩

theorem without_wellFormed_minutes :
    WellFormed wholeReading [['p', 'o', 'd']]
      [podPoints '1' [[.number minuteLater, .string ['3']], [.number twoMinutesLater, .string ['4']]]]
      (applyWithoutMatrix wholeReading
        [podPoints '1' [[.number minuteLater, .string ['3']], [.number twoMinutesLater, .string ['4']]]]
        [['p', 'o', 'd']]) := by
  refine (without_wellFormed_iff wholeReading ?_ (List.Perm.refl _)).1.mpr ⟨?_, ?_⟩
  · intro series hseries
    obtain rfl := mem_singleton.mp hseries
    decide
  · intro s hs t ht _
    rw [mem_singleton.mp hs, mem_singleton.mp ht]
  · intro metric d hd e he hlt
    have times : ∀ d ∈ groupTimes wholeReading [['p', 'o', 'd']] [podPoints '1'
        [[.number minuteLater, .string ['3']], [.number twoMinutesLater, .string ['4']]]] metric,
        d = minuteLater ∨ d = twoMinutesLater := by
      intro d hd
      unfold groupTimes seriesWith at hd
      rw [filter_cons] at hd
      split at hd
      · simpa [samplesOf, sampleOf, podPoints] using hd
      · simp [samplesOf] at hd
    rcases times d hd with rfl | rfl <;> rcases times e he with rfl | rfl
    · exact absurd hlt (lt_irrefl _)
    · norm_num [ShortDecimal.value, ShortDecimal.digitsValue, minuteLater, twoMinutesLater]
    · exact absurd hlt (by decide +kernel)
    · exact absurd hlt (lt_irrefl _)

theorem metrics_of_plain_pods :
    let body := [podPoints '1' [], podPoints '2' []]
    ((applyWithoutMatrix wholeReading body [['p', 'o', 'd']]).map ResultSeries.metric).Nodup ∧
      ∀ metric, metric ∈ (applyWithoutMatrix wholeReading body [['p', 'o', 'd']]).map
        ResultSeries.metric ↔ ∃ s ∈ body, s.remaining [['p', 'o', 'd']] = metric :=
  metrics_of_plain wholeReading (by unfold Plain; decide)

/-- A round second sorts behind the minutes after it, and two label sets with a comma in a
value are taken for one. -/
theorem without_reorders_and_merges :
    applyWithoutMatrix wholeReading
        [podPoints '1' [[.number roundSecond, .string ['3']], [.number minuteLater, .string ['4']]]]
        [['p', 'o', 'd']] =
      [⟨⟨[(['a', 'p', 'p'], ['x'])], by decide⟩,
        [(.number minuteLater, 4), (.number roundSecond, 3)]⟩] ∧
    roundSecond.value < minuteLater.value ∧
    (applyWithoutMatrix wholeReading
      [⟨⟨[(['a'], ['1', ',', 'b', '=', '2'])], by decide⟩, [[.number roundSecond, .string ['3']]]⟩,
        ⟨⟨[(['a'], ['1']), (['b'], ['2'])], by decide⟩, [[.number roundSecond, .string ['4']]]⟩]
      []).length = 1 := by
  refine ⟨by decide +kernel, ?_, by decide +kernel⟩
  norm_num [ShortDecimal.value, ShortDecimal.digitsValue, roundSecond, minuteLater]

end LokiVlProxy.Proxy
