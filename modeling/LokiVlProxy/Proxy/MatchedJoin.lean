/-
  Proxy/MatchedJoin.lean --- vector matching computes a join.

  Behind a cardinality check that accepts the operands, the samples of the one side have
  different keys at every time, so that the lookup of `matchBinaryEvaluation` finds all
  partners of a sample.
-/
import LokiVlProxy.Foundation.Join
import LokiVlProxy.Proxy.VectorMatching

namespace LokiVlProxy.Proxy

open Foundation List

variable {Time F : Type} (fl : Floats Time F)

/-! ## The join of the samples of one time -/

variable (matching : Option VectorMatching)

/-- `group_right` makes the right side the many side. -/
def groupsRight : Bool :=
  matching.any fun m => m.groupSide = some .groupRight

def groupsLeft : Bool :=
  matching.any fun m => m.groupSide = some .groupLeft

def manySide {α : Type} (matching : Option VectorMatching) (lhs rhs : α) : α :=
  if groupsRight matching then rhs else lhs

def oneSide {α : Type} (matching : Option VectorMatching) (lhs rhs : α) : α :=
  if groupsRight matching then lhs else rhs

/-- The key that the matching of a query gives a sample. -/
abbrev sampleKey : BinarySample F → Text := matchKey (binOpExprToVMInfo matching)

variable (lhs rhs : List (BinarySample F))

/-- The matched pairs: a sample of the many side with one of the one side. -/
noncomputable def matchedPairs :
    List (BinarySample F × BinarySample F) :=
  join (fun m o => Matches matching m.labels o.labels) (manySide matching lhs rhs)
    (oneSide matching lhs rhs)

/-- The operator on the values of a pair, left operand first. -/
def pairValue (op : BinaryOp) (returnBool : Bool)
    (p : BinarySample F × BinarySample F) : F × Bool :=
  binarySampleValue fl (manySide matching p.1.value p.2.value)
    (oneSide matching p.1.value p.2.value) op returnBool

/-- The sample that a pair gives. -/
structure IsResult (matching : Option VectorMatching) (op : BinaryOp) (returnBool : Bool)
    (p : BinarySample F × BinarySample F) (result : BinarySample F) : Prop where
  labels : ∀ name, result.labels.find? name = prescribed matching p.1.labels p.2.labels name
  value : pairValue fl matching op returnBool p = (result.value, true)

/-- Two matched pairs give results with the same labels. -/
def Collide : Prop :=
  ¬ (matchedPairs matching lhs rhs).Pairwise fun p q =>
    ∃ name, prescribed matching p.1.labels p.2.labels name ≠
      prescribed matching q.1.labels q.2.labels name

/-- The list is the join: every sample of the many side that has a partner is matched once, and
every matched pair that the operator keeps gives one sample. -/
structure IsJoin (matching : Option VectorMatching) (op : BinaryOp) (returnBool : Bool)
    (lhs rhs out : List (BinarySample F)) : Prop where
  matchedOnce : (matchedPairs matching lhs rhs).map Prod.fst =
    by classical exact (manySide matching lhs rhs).filter fun m =>
      ∃ o ∈ oneSide matching lhs rhs, Matches matching m.labels o.labels
  results : List.Forall₂ (IsResult fl matching op returnBool)
    ((matchedPairs matching lhs rhs).filter fun p => (pairValue fl matching op returnBool p).2) out
  distinct : (out.map BinarySample.labels).Nodup

/-- `emit` that keeps what it is given. -/
def collect (out : List (BinarySample F)) (sample : BinarySample F) :
    Except MatchError (List (BinarySample F)) :=
  .ok (out ++ [sample])

/-! ## The loop over the many side -/

theorem find?_oneByKey (vm : Option VectorMatchInfo) {one : List (BinarySample F)}
    (hone : (one.map (matchKey vm)).Nodup) (k : Text) :
    (oneByKey vm one).find? k = one.find? fun o => matchKey vm o = k := by
  have fold : ∀ m : KeyMap Text (BinarySample F),
      (one.foldl (fun m sample => m.insert (matchKey vm sample) sample) m).find? k =
        (one.find? fun o => matchKey vm o = k).or (m.find? k) := by
    induction one with
    | nil => simp
    | cons o one ih =>
      intro m
      obtain ⟨hnew, hone⟩ := nodup_cons.mp hone
      rw [foldl_cons, ih hone, find?_cons, KeyMap.find?_insert]
      by_cases hk : matchKey vm o = k
      · have hnone : (one.find? fun o => matchKey vm o = k) = none := by
          apply find?_eq_none.mpr
          intro o' ho' hk'
          apply hnew
          rw [hk, ← of_decide_eq_true hk']
          exact mem_map_of_mem ho'
        simp [hk, hnone]
      · simp [hk, Ne.symm hk]
  rw [oneByKey, fold]
  simp

section Loop

variable (one : KeyMap Text (BinarySample F)) (op : BinaryOp) (vm : Option VectorMatchInfo)
  (returnBool swap : Bool)

/-- The pairs that the lookups find. -/
def foundPairs (many : List (BinarySample F)) : List (BinarySample F × BinarySample F) :=
  many.filterMap fun m => (one.find? (matchKey vm m)).map fun o => (m, o)

variable (p : BinarySample F × BinarySample F)

/-- The key of the labels of a result. -/
def outputKey : Text :=
  binaryLabelKey (binaryResultLabels p.1.labels p.2.labels vm)

/-- The value computed for a pair. -/
def foundValue : F × Bool :=
  binarySampleValue fl (if swap then p.2.value else p.1.value)
    (if swap then p.1.value else p.2.value) op returnBool

/-- The sample emitted for a pair. -/
def foundResult : BinarySample F :=
  ⟨binaryResultLabels p.1.labels p.2.labels vm, (foundValue fl op returnBool swap p).1⟩

/-- What the loop does with a sample that has a partner. -/
theorem matchSample_of_find? {out : List (BinarySample F)} {used : List Text} {m o : BinarySample F}
    (hfind : one.find? (matchKey vm m) = some o) :
    matchSample fl collect one op vm returnBool swap (out, used) m =
      if outputKey vm (m, o) ∈ used then .error .multipleMatches
      else .ok (out ++ ([(m, o)].filter fun p => (foundValue fl op returnBool swap p).2).map
          (foundResult fl op vm returnBool swap), outputKey vm (m, o) :: used) := by
  have hstep : matchSample fl collect one op vm returnBool swap (out, used) m =
      if outputKey vm (m, o) ∈ used then .error .multipleMatches
      else if (foundValue fl op returnBool swap (m, o)).2 then
        .ok (out ++ [foundResult fl op vm returnBool swap (m, o)], outputKey vm (m, o) :: used)
      else .ok (out, outputKey vm (m, o) :: used) := by
    unfold matchSample
    rw [hfind]
    rfl
  rw [hstep, filter_cons]
  cases (foundValue fl op returnBool swap (m, o)).2 with
  | true => rfl
  | false => simp

/-- What the loop has collected, or that two results have the same labels. -/
theorem foldlM_matchSample (many out : List (BinarySample F)) (used : List Text) :
    many.foldlM (matchSample fl collect one op vm returnBool swap) (out, used) =
      let pairs := foundPairs one vm many
      if (pairs.map (outputKey vm)).Nodup ∧ ∀ k ∈ pairs.map (outputKey vm), k ∉ used then
        .ok (out ++ (pairs.filter fun p => (foundValue fl op returnBool swap p).2).map
            (foundResult fl op vm returnBool swap),
          (pairs.map (outputKey vm)).reverse ++ used)
      else .error .multipleMatches := by
  induction many generalizing out used with
  | nil => simp [foundPairs, pure, Except.pure]
  | cons m many ih =>
    rw [foldlM_cons]
    cases hfind : one.find? (matchKey vm m) with
    | none =>
      have hpairs : foundPairs one vm (m :: many) = foundPairs one vm many := by
        simp [foundPairs, hfind]
      have hskip : matchSample fl collect one op vm returnBool swap (out, used) m = .ok (out, used) := by
        simp [matchSample, hfind]
      rw [hpairs, hskip]
      exact ih out used
    | some o =>
      have hpairs : foundPairs one vm (m :: many) = (m, o) :: foundPairs one vm many := by
        simp [foundPairs, hfind]
      rw [hpairs, matchSample_of_find? fl one op vm returnBool swap hfind]
      split
      · next hused =>
        symm
        apply if_neg
        rintro ⟨-, hfree⟩
        exact hfree _ mem_cons_self hused
      · next hfree =>
        refine (ih _ _).trans ?_
        have hcond : ((foundPairs one vm many).map (outputKey vm)).Nodup ∧
              (∀ k ∈ (foundPairs one vm many).map (outputKey vm),
                k ∉ outputKey vm (m, o) :: used) ↔
            (((m, o) :: foundPairs one vm many).map (outputKey vm)).Nodup ∧
              ∀ k ∈ ((m, o) :: foundPairs one vm many).map (outputKey vm), k ∉ used := by
          simp only [map_cons, nodup_cons, mem_cons, not_or, forall_eq_or_imp]
          constructor
          · rintro ⟨hnodup, hnew⟩
            exact ⟨⟨fun hk => (hnew _ hk).1 rfl, hnodup⟩, hfree, fun k hk => (hnew k hk).2⟩
          · rintro ⟨⟨hnew, hnodup⟩, -, hused⟩
            exact ⟨hnodup, fun k hk => ⟨fun h => hnew (h ▸ hk), hused k hk⟩⟩
        simp only [hcond]
        split
        · simp [filter_cons]
          split <;> simp
        · rfl

end Loop

variable (matching : Option VectorMatching)

theorem any_hasGroupRight :
    (binOpExprToVMInfo matching).any VectorMatchInfo.hasGroupRight = groupsRight matching := by
  rcases matching with _ | ⟨card, names, _ | _ | _, included⟩ <;> rfl

theorem any_hasGroupLeft :
    (binOpExprToVMInfo matching).any VectorMatchInfo.hasGroupLeft = groupsLeft matching := by
  rcases matching with _ | ⟨card, names, _ | _ | _, included⟩ <;> rfl

section Evaluation

variable (matching : Option VectorMatching) (op : BinaryOp) (returnBool : Bool)
  {lhs rhs : List (BinarySample F)}

/-- The output keys are distinct exactly when no two results collide. -/
theorem nodup_outputKey_iff :
    ((matchedPairs matching lhs rhs).map (outputKey (binOpExprToVMInfo matching))).Nodup ↔
      ¬ Collide matching lhs rhs := by
  rw [Collide, not_not, List.Nodup, pairwise_map]
  have hkey : ∀ p q : BinarySample F × BinarySample F,
      outputKey (binOpExprToVMInfo matching) p ≠ outputKey (binOpExprToVMInfo matching) q ↔
        ∃ name, prescribed matching p.1.labels p.2.labels name ≠
          prescribed matching q.1.labels q.2.labels name := by
    intro p q
    rw [← not_iff_not, not_not, not_exists]
    constructor
    · intro h name
      rw [not_not, ← find?_binaryResultLabels, ← find?_binaryResultLabels, marshalMap_injective h]
    · intro h
      apply congrArg marshalMap
      apply SortedMap.ext_find?
      intro name
      rw [find?_binaryResultLabels, find?_binaryResultLabels]
      exact not_not.mp (h name)
  simp only [hkey]

open Classical in
theorem map_fst_matchedPairs
    (hone : ((oneSide matching lhs rhs).map (sampleKey matching)).Nodup) :
    (matchedPairs matching lhs rhs).map Prod.fst =
      (manySide matching lhs rhs).filter fun m =>
        ∃ o ∈ oneSide matching lhs rhs, Matches matching m.labels o.labels :=
  map_fst_join (fun a b => (matchKey_eq_iff matching a b).symm) hone

/-- Where the samples of the one side have different keys, the evaluation is the join unless
two results collide. -/
theorem matchBinaryEvaluation_eq (hop : op.isSet = false)
    (hone : ((oneSide matching lhs rhs).map (sampleKey matching)).Nodup) :
    (Collide matching lhs rhs →
      matchBinaryEvaluation fl collect lhs rhs op (binOpExprToVMInfo matching) returnBool [] =
        .error .multipleMatches) ∧
    (¬ Collide matching lhs rhs → ∃ out,
      matchBinaryEvaluation fl collect lhs rhs op (binOpExprToVMInfo matching) returnBool [] =
        .ok out ∧ IsJoin fl matching op returnBool lhs rhs out) := by
  have hpairs : foundPairs (oneByKey (binOpExprToVMInfo matching) (oneSide matching lhs rhs))
      (binOpExprToVMInfo matching) (manySide matching lhs rhs) = matchedPairs matching lhs rhs := by
    rw [matchedPairs, join_eq_filterMap (fun a b => (matchKey_eq_iff matching a b).symm) hone,
      foundPairs]
    simp only [find?_oneByKey _ hone]
  have hvalue : foundValue fl op returnBool (groupsRight matching) =
      pairValue fl matching op returnBool := rfl
  have heval : matchBinaryEvaluation fl collect lhs rhs op (binOpExprToVMInfo matching) returnBool [] =
      if ((matchedPairs matching lhs rhs).map (outputKey (binOpExprToVMInfo matching))).Nodup then
        .ok (((matchedPairs matching lhs rhs).filter
          fun p => (pairValue fl matching op returnBool p).2).map
            (foundResult fl op (binOpExprToVMInfo matching) returnBool (groupsRight matching)))
      else .error .multipleMatches := by
    unfold matchBinaryEvaluation
    simp only [hop, any_hasGroupRight]
    change ((manySide matching lhs rhs).foldlM (matchSample fl collect
        (oneByKey (binOpExprToVMInfo matching) (oneSide matching lhs rhs)) op _ returnBool
          (groupsRight matching)) ([], [])).map Prod.fst = _
    rw [foldlM_matchSample, hpairs, hvalue]
    simp only [not_mem_nil, not_false_eq_true, implies_true, and_true, nil_append]
    split <;> rfl
  constructor
  · intro hcollide
    rw [heval, if_neg fun h => (nodup_outputKey_iff matching).mp h hcollide]
  · intro hfree
    have hnodup := (nodup_outputKey_iff matching).mpr hfree
    refine ⟨_, by rw [heval, if_pos hnodup], ?_, ?_, ?_⟩
    · exact map_fst_matchedPairs matching hone
    · rw [forall₂_map_right_iff, forall₂_same]
      intro p hp
      refine ⟨find?_binaryResultLabels matching p.1.labels p.2.labels, ?_⟩
      exact Prod.ext rfl (mem_filter.mp hp).2
    · rw [map_map]
      apply List.Nodup.of_map marshalMap
      rw [map_map]
      exact hnodup.sublist (filter_sublist.map _)

end Evaluation

/-! ## What the check has made sure of -/

section Check

variable [DecidableEq Time] {matching : Option VectorMatching} {op : BinaryOp}
  {left right : List (SeriesBody Time)} {lhs rhs : List (Time × BinarySample F)}

variable {L R : List (Text × Time)} {allowLeft allowRight : Bool}
  {samples : List (Time × BinarySample F)}

/-- What the cardinality check accepts. -/
theorem checkCounts_ok_iff :
    checkCounts L R allowLeft allowRight = .ok () ↔
      (if allowRight then L else R).Nodup ∧
        (allowLeft = false → allowRight = false → ∀ key, 1 < L.count key → R.count key = 0) := by
  have hone : ∀ l : List (Text × Time), (l.any fun key => l.count key > 1) = false ↔ l.Nodup := by
    intro l
    rw [any_eq_false, nodup_iff_count_le_one]
    constructor
    · intro h key
      by_cases hkey : key ∈ l
      · simpa using h key hkey
      · rw [count_eq_zero_of_not_mem hkey]
        exact Nat.zero_le 1
    · intro h key _
      simpa using h key
  have hmany : (L.any fun key => L.count key > 1 && R.count key > 0) = false ↔
      ∀ key, 1 < L.count key → R.count key = 0 := by
    rw [any_eq_false]
    constructor
    · intro h key hkey
      have hmem : key ∈ L := count_pos_iff.mp (by omega)
      simpa [hkey, count_eq_zero] using h key hmem
    · intro h key _
      simpa [count_eq_zero] using h key
  unfold checkCounts
  simp only
  rw [← hone, ← hmany]
  cases (if allowRight = true then L else R).any fun key =>
      decide ((if allowRight = true then L else R).count key > 1) with
  | true => simp
  | false =>
    cases allowLeft <;> cases allowRight <;>
      cases L.any fun key => decide (L.count key > 1) && decide (R.count key > 0) <;> simp

/-- The validation of the source is the check on the keys of both sides. -/
theorem validate_eq_checkCounts (hop : op.isSet = false)
    (hl : binarySamplesByTime fl left = .ok lhs) (hr : binarySamplesByTime fl right = .ok rhs) :
    validateBinaryVectorCardinality left right op (binOpExprToVMInfo matching) =
      checkCounts (lhs.map (evaluationKey matching)) (rhs.map (evaluationKey matching))
        (groupsLeft matching) (groupsRight matching) := by
  rw [← any_hasGroupLeft, ← any_hasGroupRight]
  unfold validateBinaryVectorCardinality
  simp only [hop]
  have hcounted := countedLabels_eq matching
  unfold evaluationKey matchKey binaryLabelKey
  cases hvm : binOpExprToVMInfo matching with
  | none | some vm =>
    simp only [hvm] at hcounted ⊢
    rw [validateVectorMatchCardinality, evaluations_eq fl hl, evaluations_eq fl hr]
    simp only [hcounted]
    rfl

theorem nodup_samplesAt {κ : Type} {key : BinarySample F → κ}
    (h : (samples.map fun s => (key s.2, s.1)).Nodup) (ts : Time) :
    ((samplesAt samples ts).map key).Nodup := by
  rw [samplesAt, map_map, List.Nodup, pairwise_map]
  have hpair := (pairwise_map.mp h).filter fun s => decide (s.1 = ts)
  refine hpair.imp_of_mem ?_
  intro s t hs ht hne hkey
  apply hne
  have hs : s.1 = ts := of_decide_eq_true (mem_filter.mp hs).2
  have ht : t.1 = ts := of_decide_eq_true (mem_filter.mp ht).2
  exact Prod.ext hkey (hs.trans ht.symm)

theorem count_samplesAt (samples : List (Time × BinarySample F)) (k : Text) (ts : Time) :
    ((samplesAt samples ts).map (sampleKey matching)).count k =
      (samples.map (evaluationKey matching)).count (k, ts) := by
  induction samples with
  | nil => rfl
  | cons s samples ih =>
    rw [map_cons, count_cons, ← ih, samplesAt, filter_cons]
    by_cases hts : s.1 = ts
    · simp [hts, samplesAt, evaluationKey, count_cons]
    · simp [hts, samplesAt, evaluationKey]

theorem samplesAt_oneSide (ts : Time) :
    samplesAt (oneSide matching lhs rhs) ts =
      oneSide matching (samplesAt lhs ts) (samplesAt rhs ts) := by
  unfold oneSide
  split <;> rfl

section

variable (hop : op.isSet = false)
  (hcheck : validateBinaryVectorCardinality left right op (binOpExprToVMInfo matching) = .ok ())
  (hl : binarySamplesByTime fl left = .ok lhs) (hr : binarySamplesByTime fl right = .ok rhs)

include hop hcheck hl hr

theorem nodup_oneSide (ts : Time) :
    ((oneSide matching (samplesAt lhs ts) (samplesAt rhs ts)).map
      (sampleKey matching)).Nodup := by
  rw [validate_eq_checkCounts fl hop hl hr] at hcheck
  have hnodup := (checkCounts_ok_iff.mp hcheck).1
  rw [← samplesAt_oneSide]
  apply nodup_samplesAt
  unfold oneSide
  split at hnodup
  · next h => rwa [if_pos h]
  · next h => rwa [if_neg h]

/-! ## Results with the same labels -/

/-- Without a group modifier the matched samples of the left side have different keys. -/
theorem nodup_matched_of_ungrouped (hleft : groupsLeft matching = false)
    (hright : groupsRight matching = false) (ts : Time) :
    ((matchedPairs matching (samplesAt lhs ts) (samplesAt rhs ts)).map
      fun p => sampleKey matching p.1).Nodup := by
  classical
  have hone := nodup_oneSide fl hop hcheck hl hr ts
  have hmany := (checkCounts_ok_iff.mp (validate_eq_checkCounts fl hop hl hr ▸ hcheck)).2 hleft hright
  have hfst := map_fst_matchedPairs matching hone
  have hsplit : ((matchedPairs matching (samplesAt lhs ts) (samplesAt rhs ts)).map
      fun p => sampleKey matching p.1) =
      ((matchedPairs matching (samplesAt lhs ts) (samplesAt rhs ts)).map Prod.fst).map
        (sampleKey matching) := by
    rw [map_map]
    rfl
  have hmanySide : manySide matching (samplesAt lhs ts) (samplesAt rhs ts) = samplesAt lhs ts := by
    simp [manySide, hright]
  have honeSide : oneSide matching (samplesAt lhs ts) (samplesAt rhs ts) = samplesAt rhs ts := by
    simp [oneSide, hright]
  rw [hsplit, hfst, nodup_iff_count_le_one, hmanySide, honeSide]
  intro k
  by_contra hcount
  have hmem := count_pos_iff.mp (Nat.zero_lt_of_lt (not_le.mp hcount))
  obtain ⟨m, hm, rfl⟩ := mem_map.mp hmem
  obtain ⟨o, ho, hmatch⟩ := of_decide_eq_true (mem_filter.mp hm).2
  have hpartner : 0 < ((samplesAt rhs ts).map (sampleKey matching)).count
      (sampleKey matching m) := by
    apply count_pos_iff.mpr
    exact mem_map.mpr ⟨o, ho, ((matchKey_eq_iff matching m o).mpr hmatch).symm⟩
  have hle := (filter_sublist (l := samplesAt lhs ts)
    (p := fun m => ∃ o ∈ samplesAt rhs ts, Matches matching m.labels o.labels)).map
      (sampleKey matching) |>.count_le (sampleKey matching m)
  rw [count_samplesAt] at hpartner hle
  have := hmany (sampleKey matching m, ts) (by omega)
  omega

end

theorem prescribed_ne_of_not_matches {p q : BinarySample F × BinarySample F}
    (hplain : ∀ m ∈ matching, m.groupSide = none) (h : ¬ Matches matching p.1.labels q.1.labels) :
    ∃ name, prescribed matching p.1.labels p.2.labels name ≠
      prescribed matching q.1.labels q.2.labels name := by
  simp only [Matches, not_forall] at h
  obtain ⟨name, hname, hvalue⟩ := h
  refine ⟨name, ?_⟩
  cases matching with
  | none =>
    intro hfind
    apply hvalue
    exact congrArg (fun v : Option Text => v.getD []) hfind
  | some m =>
    have hside := hplain m rfl
    unfold prescribed
    simp only [hside, if_pos hname]
    rwa [ne_eq, presentLabel_eq_iff]

theorem nodup_labels_of_series {body : List (SeriesBody Time)}
    (h : binarySamplesByTime fl body = .ok samples) (hseries : (body.map SeriesBody.metric).Nodup)
    (htimes : ∀ s ∈ body, s.times.Nodup) (ts : Time) :
    ((samplesAt samples ts).map BinarySample.labels).Nodup := by
  apply nodup_samplesAt
  rw [labels_of_samples fl h, nodup_flatMap]
  constructor
  · intro s hs
    exact (htimes s hs).map fun a b hab => (Prod.mk.inj hab).2
  · refine (pairwise_map.mp hseries).imp ?_
    intro s t hst x hs ht
    obtain ⟨a, -, rfl⟩ := mem_map.mp hs
    obtain ⟨b, -, hb⟩ := mem_map.mp ht
    exact hst (Prod.mk.inj hb).1.symm

/-- Without included labels no two results are the same series. -/
theorem not_collide_of_no_include (hop : op.isSet = false)
    (hcheck : validateBinaryVectorCardinality left right op (binOpExprToVMInfo matching) = .ok ())
    (hl : binarySamplesByTime fl left = .ok lhs) (hr : binarySamplesByTime fl right = .ok rhs)
    (hleft : (left.map SeriesBody.metric).Nodup) (hright : (right.map SeriesBody.metric).Nodup)
    (hinclude : ∀ m ∈ matching, m.groupSide ≠ none → m.includeLabels = [])
    (htimes : ∀ s ∈ left ++ right, s.times.Nodup) (ts : Time) :
    ¬ Collide matching (samplesAt lhs ts) (samplesAt rhs ts) := by
  classical
  rw [Collide, not_not]
  by_cases hplain : ∀ m ∈ matching, m.groupSide = none
  · have hgroups : groupsLeft matching = false ∧ groupsRight matching = false := by
      cases matching with
      | none => exact ⟨rfl, rfl⟩
      | some m => simp [groupsLeft, groupsRight, hplain m rfl]
    have hnodup := nodup_matched_of_ungrouped fl hop hcheck hl hr hgroups.1 hgroups.2 ts
    refine (pairwise_map.mp hnodup).imp ?_
    intro p q hpq
    exact prescribed_ne_of_not_matches hplain fun h => hpq ((matchKey_eq_iff matching _ _).mpr h)
  · obtain ⟨m, rfl, hside⟩ : ∃ m, matching = some m ∧ m.groupSide ≠ none := by
      simpa using hplain
    have hmany : ((manySide (some m) (samplesAt lhs ts) (samplesAt rhs ts)).map
        BinarySample.labels).Nodup := by
      unfold manySide
      split
      · exact nodup_labels_of_series fl hr hright
          (fun s hs => htimes s (mem_append_right _ hs)) ts
      · exact nodup_labels_of_series fl hl hleft
          (fun s hs => htimes s (mem_append_left _ hs)) ts
    have hfst := map_fst_matchedPairs (some m) (nodup_oneSide fl hop hcheck hl hr ts)
    have hpairs : ((matchedPairs (some m) (samplesAt lhs ts) (samplesAt rhs ts)).map
        fun p => p.1.labels).Nodup := by
      have hsub := hmany.sublist ((filter_sublist
        (p := fun a => ∃ b ∈ oneSide (some m) (samplesAt lhs ts) (samplesAt rhs ts),
          Matches (some m) a.labels b.labels)).map BinarySample.labels)
      rw [← hfst, map_map] at hsub
      exact hsub
    refine (pairwise_map.mp hpairs).imp ?_
    intro p q hpq
    by_contra hsame
    apply hpq
    apply SortedMap.ext_find?
    intro name
    have hname := not_not.mp (not_exists.mp hsame name)
    unfold prescribed at hname
    cases hgroup : m.groupSide with
    | none => exact absurd hgroup hside
    | some side => simpa [hgroup, hinclude m rfl hside] using hname

/-! ## The order of the series -/

theorem checkCounts_perm {L' R' : List (Text × Time)} (hL : L.Perm L') (hR : R.Perm R')
    (h : checkCounts L R allowLeft allowRight = .ok ()) :
    checkCounts L' R' allowLeft allowRight = .ok () := by
  obtain ⟨hnodup, hcount⟩ := checkCounts_ok_iff.mp h
  refine checkCounts_ok_iff.mpr ⟨?_, ?_⟩
  · cases allowRight with
    | true => exact hL.nodup_iff.mp hnodup
    | false => exact hR.nodup_iff.mp hnodup
  · intro hleft hright key hkey
    rw [← hR.count_eq]
    exact hcount hleft hright key (by rwa [hL.count_eq])

end Check

/-- The same samples in some order, or the same error. -/
def SameOutcome : Except MatchError (List (BinarySample F)) →
    Except MatchError (List (BinarySample F)) → Prop
  | .ok out, .ok out' => out.Perm out'
  | .error e, .error e' => e = e'
  | _, _ => False

section Order

variable {matching : Option VectorMatching} {op : BinaryOp} {returnBool : Bool}
  {lhs lhs' rhs rhs' : List (BinarySample F)}

/-- The matched pairs, up to order, do not depend on the order of the samples. -/
theorem matchedPairs_perm (hl : lhs.Perm lhs') (hr : rhs.Perm rhs') :
    (matchedPairs matching lhs rhs).Perm (matchedPairs matching lhs' rhs') := by
  unfold matchedPairs manySide oneSide
  split
  · exact join_perm hr hl
  · exact join_perm hl hr

theorem collide_perm_iff (hl : lhs.Perm lhs') (hr : rhs.Perm rhs') :
    Collide matching lhs rhs ↔ Collide matching lhs' rhs' := by
  apply not_congr
  apply (matchedPairs_perm hl hr).pairwise_iff
  rintro p q ⟨name, hname⟩
  exact ⟨name, hname.symm⟩

theorem IsResult.unique {p : BinarySample F × BinarySample F} {r s : BinarySample F}
    (hr : IsResult fl matching op returnBool p r) (hs : IsResult fl matching op returnBool p s) :
    r = s := by
  have hlabels : r.labels = s.labels :=
    SortedMap.ext_find? fun name => (hr.labels name).trans (hs.labels name).symm
  have hvalue : r.value = s.value := (Prod.mk.inj (hr.value.symm.trans hs.value)).1
  cases r
  cases s
  simp_all

theorem isJoin_perm {out out' : List (BinarySample F)} (hl : lhs.Perm lhs') (hr : rhs.Perm rhs')
    (h : IsJoin fl matching op returnBool lhs rhs out)
    (h' : IsJoin fl matching op returnBool lhs' rhs' out') : out.Perm out' := by
  obtain ⟨middle, hmiddle, hperm⟩ :=
    perm_comp_forall₂ ((matchedPairs_perm hl hr).filter _) h'.results
  have hunique : Relator.RightUnique (IsResult fl matching op returnBool) :=
    fun _ _ _ hr hs => IsResult.unique fl hr hs
  rwa [right_unique_forall₂' hunique h.results hmiddle]

/-- Nor does the outcome of the evaluation. -/
theorem sameOutcome_of_perm (hl : lhs.Perm lhs') (hr : rhs.Perm rhs') (hop : op.isSet = false)
    (hone : ((oneSide matching lhs rhs).map (sampleKey matching)).Nodup) :
    SameOutcome
      (matchBinaryEvaluation fl collect lhs rhs op (binOpExprToVMInfo matching) returnBool [])
      (matchBinaryEvaluation fl collect lhs' rhs' op (binOpExprToVMInfo matching) returnBool []) := by
  have hone' : ((oneSide matching lhs' rhs').map (sampleKey matching)).Nodup := by
    have hperm : (oneSide matching lhs rhs).Perm (oneSide matching lhs' rhs') := by
      unfold oneSide
      split
      · exact hl
      · exact hr
    exact (hperm.map _).nodup_iff.mp hone
  obtain ⟨hfail, hjoin⟩ := matchBinaryEvaluation_eq fl matching op returnBool hop hone
  obtain ⟨hfail', hjoin'⟩ := matchBinaryEvaluation_eq fl matching op returnBool hop hone'
  by_cases hcollide : Collide matching lhs rhs
  · rw [hfail hcollide, hfail' ((collide_perm_iff hl hr).mp hcollide)]
    rfl
  · obtain ⟨out, hout, hisJoin⟩ := hjoin hcollide
    obtain ⟨out', hout', hisJoin'⟩ := hjoin' fun h => hcollide ((collide_perm_iff hl hr).mpr h)
    rw [hout, hout']
    exact isJoin_perm fl hl hr hisJoin hisJoin'

end Order

/-- Operands that the cardinality check accepts are joined at every time, unless two results
would be the same series, which only included labels or a time listed twice can bring about;
the order of the series does not matter. -/
theorem vector_matching_joins [DecidableEq Time] (matching : Option VectorMatching) (op : BinaryOp)
    (hop : op.isSet = false) (returnBool : Bool) {left right : List (SeriesBody Time)}
    {lhs rhs : List (Time × BinarySample F)} (hleft : (left.map SeriesBody.metric).Nodup)
    (hright : (right.map SeriesBody.metric).Nodup)
    (hcheck : validateBinaryVectorCardinality left right op (binOpExprToVMInfo matching) = .ok ())
    (hl : binarySamplesByTime fl left = .ok lhs) (hr : binarySamplesByTime fl right = .ok rhs)
    (ts : Time) :
    (Collide matching (samplesAt lhs ts) (samplesAt rhs ts) →
      matchBinaryEvaluation fl collect (samplesAt lhs ts) (samplesAt rhs ts) op
        (binOpExprToVMInfo matching) returnBool [] = .error .multipleMatches) ∧
    (¬ Collide matching (samplesAt lhs ts) (samplesAt rhs ts) → ∃ out,
      matchBinaryEvaluation fl collect (samplesAt lhs ts) (samplesAt rhs ts) op
        (binOpExprToVMInfo matching) returnBool [] = .ok out ∧
      IsJoin fl matching op returnBool (samplesAt lhs ts) (samplesAt rhs ts) out) ∧
    ((∀ m ∈ matching, m.groupSide ≠ none → m.includeLabels = []) →
      (∀ s ∈ left ++ right, s.times.Nodup) →
      ¬ Collide matching (samplesAt lhs ts) (samplesAt rhs ts)) ∧
    ∀ left' right' : List (SeriesBody Time), left.Perm left' → right.Perm right' →
      validateBinaryVectorCardinality left' right' op (binOpExprToVMInfo matching) = .ok () ∧
      ∃ lhs' rhs', binarySamplesByTime fl left' = .ok lhs' ∧ binarySamplesByTime fl right' = .ok rhs' ∧
        SameOutcome
          (matchBinaryEvaluation fl collect (samplesAt lhs ts) (samplesAt rhs ts) op
            (binOpExprToVMInfo matching) returnBool [])
          (matchBinaryEvaluation fl collect (samplesAt lhs' ts) (samplesAt rhs' ts) op
            (binOpExprToVMInfo matching) returnBool []) := by
  have hone := nodup_oneSide fl hop hcheck hl hr ts
  obtain ⟨hfail, hjoin⟩ := matchBinaryEvaluation_eq fl matching op returnBool hop hone
  refine ⟨hfail, hjoin, fun hinclude htimes =>
    not_collide_of_no_include fl hop hcheck hl hr hleft hright hinclude htimes ts, ?_⟩
  intro left' right' hleft' hright'
  obtain ⟨lhs', hl', hlperm⟩ := binarySamplesByTime_perm fl hl hleft'
  obtain ⟨rhs', hr', hrperm⟩ := binarySamplesByTime_perm fl hr hright'
  refine ⟨?_, lhs', rhs', hl', hr', ?_⟩
  · rw [validate_eq_checkCounts fl hop hl' hr']
    rw [validate_eq_checkCounts fl hop hl hr] at hcheck
    exact checkCounts_perm (hlperm.map _) (hrperm.map _) hcheck
  · exact sameOutcome_of_perm fl ((hlperm.filter _).map _) ((hrperm.filter _).map _) hop hone

/-! ## Set operators -/

theorem foldlM_collect (p : BinarySample F → Prop) [DecidablePred p]
    (samples out : List (BinarySample F)) :
    samples.foldlM (fun out sample => if p sample then collect out sample else .ok out) out =
      .ok (out ++ samples.filter p) := by
  induction samples generalizing out with
  | nil => simp [pure, Except.pure]
  | cons s samples ih =>
    by_cases hs : p s
    · rw [foldlM_cons, if_pos hs]
      exact (ih (out ++ [s])).trans (by simp [hs])
    · rw [foldlM_cons, if_neg hs]
      exact (ih out).trans (by simp [hs])

/-- The result of a set operation, as a filter of both sides. -/
theorem matchBinarySet_eq (op : BinaryOp) (vm : Option VectorMatchInfo) :
    matchBinarySet collect lhs rhs op vm [] =
      .ok (lhs.filter (fun s => op = .or ∨ (op = .and ∧ matchKey vm s ∈ rhs.map (matchKey vm)) ∨
          (op = .unless ∧ matchKey vm s ∉ rhs.map (matchKey vm))) ++
        if op = .or then rhs.filter fun s => matchKey vm s ∉ lhs.map (matchKey vm) else []) := by
  rw [matchBinarySet]
  simp only [foldlM_collect, nil_append, bind, Except.bind]
  split <;> simp

/-- A sample has a partner among these. -/
def HasPartner (others : List (BinarySample F)) (s : BinarySample F) : Prop :=
  ∃ o ∈ others, Matches matching s.labels o.labels

theorem mem_map_matchKey_iff (others : List (BinarySample F))
    (s : BinarySample F) :
    sampleKey matching s ∈ others.map (sampleKey matching) ↔
      HasPartner matching others s := by
  simp only [mem_map, HasPartner, ← matchKey_eq_iff]
  exact exists_congr fun o => and_congr_right fun _ => eq_comm

open Classical in
/-- At every time `and` and `unless` cut the left samples in two, those with a partner on the
right and those without; `or` is the left samples and behind them the right ones that have no
partner on the left. -/
theorem set_operators_partition [DecidableEq Time] (matching : Option VectorMatching)
    (left right : List (Time × BinarySample F)) (ts : Time) :
    ∃ both only extra : List (BinarySample F),
      matchBinarySet collect (samplesAt left ts) (samplesAt right ts) .and
        (binOpExprToVMInfo matching) [] = .ok both ∧
      matchBinarySet collect (samplesAt left ts) (samplesAt right ts) .unless
        (binOpExprToVMInfo matching) [] = .ok only ∧
      matchBinarySet collect (samplesAt left ts) (samplesAt right ts) .or
        (binOpExprToVMInfo matching) [] = .ok (samplesAt left ts ++ extra) ∧
      (both ++ only).Perm (samplesAt left ts) ∧ both.Disjoint only ∧
      both = (samplesAt left ts).filter (HasPartner matching (samplesAt right ts)) ∧
      extra = (samplesAt right ts).filter (¬ HasPartner matching (samplesAt left ts) ·) := by
  generalize samplesAt left ts = lhs
  generalize samplesAt right ts = rhs
  refine ⟨lhs.filter (HasPartner matching rhs), lhs.filter (¬ HasPartner matching rhs ·),
    rhs.filter (¬ HasPartner matching lhs ·), ?_, ?_, ?_, ?_, ?_, rfl, rfl⟩
  iterate 3 simp [matchBinarySet_eq, mem_map_matchKey_iff]
  · simpa using filter_append_perm (fun s => decide (HasPartner matching rhs s)) lhs
  · intro s hboth honly
    exact of_decide_eq_true (mem_filter.mp honly).2 (of_decide_eq_true (mem_filter.mp hboth).2)

/-! ## Two pods and one application -/

/-- Whole numbers in place of floats. -/
def wholeFloats : Floats Nat Int where
  add := (· + ·)
  sub := (· - ·)
  mul := (· * ·)
  div := (· / ·)
  mod := (· % ·)
  pow a b := a ^ b.toNat
  eq a b := a = b
  lt a b := a < b
  le a b := a ≤ b
  zero := 0
  one := 1
  parseFloat s := s.foldl (fun n c => 10 * n + (c.toNat - 48 : Nat)) 0
  ofNumber n := n

/-- The series of two pods of one application. -/
def podSeries : List (SeriesBody Nat) :=
  [⟨⟨[(['a', 'p', 'p'], ['1']), (['p', 'o', 'd'], ['x'])], by decide⟩, [],
      [[.number 10, .string ['3']]]⟩,
    ⟨⟨[(['a', 'p', 'p'], ['1']), (['p', 'o', 'd'], ['y'])], by decide⟩, [],
      [[.number 10, .string ['4']]]⟩]

/-- The series of the application, kept by a third pod. -/
def appSeries : List (SeriesBody Nat) :=
  [⟨⟨[(['a', 'p', 'p'], ['1']), (['p', 'o', 'd'], ['z'])], by decide⟩, [],
    [[.number 10, .string ['2']]]⟩]

/-- `on (app) group_left (...)`. -/
def onAppGroupLeft (included : List LabelName) : VectorMatching :=
  ⟨.on, [⟨['a', 'p', 'p'], rfl⟩], some .groupLeft, included⟩

theorem vector_matching_joins_pods : ∃ lhs rhs,
    binarySamplesByTime wholeFloats podSeries = .ok lhs ∧
    binarySamplesByTime wholeFloats appSeries = .ok rhs ∧ ∃ out,
      matchBinaryEvaluation wholeFloats collect (samplesAt lhs 10) (samplesAt rhs 10) .sub
        (binOpExprToVMInfo (some (onAppGroupLeft []))) false [] = .ok out ∧
      IsJoin wholeFloats (some (onAppGroupLeft [])) .sub false (samplesAt lhs 10)
        (samplesAt rhs 10) out := by
  refine ⟨_, _, rfl, rfl, ?_⟩
  have hjoins := @vector_matching_joins Nat Int wholeFloats _ (some (onAppGroupLeft [])) .sub rfl
    false podSeries appSeries _ _ (by decide) (by decide) (by decide +kernel) rfl rfl 10
  apply hjoins.2.1
  apply hjoins.2.2.1
  · rintro m ⟨⟩ -
    rfl
  · decide

/-- Both pods' results would have the pod of the application. -/
theorem included_label_collides :
    (podSeries.map SeriesBody.metric).Nodup ∧ (appSeries.map SeriesBody.metric).Nodup ∧
    validateBinaryVectorCardinality podSeries appSeries .sub
      (binOpExprToVMInfo (some (onAppGroupLeft [⟨['p', 'o', 'd'], rfl⟩]))) = .ok () ∧
    ∃ lhs rhs, binarySamplesByTime wholeFloats podSeries = .ok lhs ∧
      binarySamplesByTime wholeFloats appSeries = .ok rhs ∧
      (samplesAt lhs 10).length = 2 ∧ (samplesAt rhs 10).length = 1 ∧
      matchBinaryEvaluation wholeFloats collect (samplesAt lhs 10) (samplesAt rhs 10) .sub
        (binOpExprToVMInfo (some (onAppGroupLeft [⟨['p', 'o', 'd'], rfl⟩]))) false [] =
          .error .multipleMatches :=
  ⟨by decide, by decide, by decide +kernel, _, _, rfl, rfl, rfl, rfl, by rfl⟩

end LokiVlProxy.Proxy
