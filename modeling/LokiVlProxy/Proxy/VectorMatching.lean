/-
  Proxy/VectorMatching.lean --- binary operations on two lists of series.

  Source: internal/proxy/binary_matching.go (binarySamplesByTime to matchBinarySet),
  internal/proxy/vector_matching.go (validateVectorMatchCardinalityContext),
  internal/proxy/binary_logql.go (validateBinaryVectorCardinality),
  internal/proxy/logql_adapter.go (binOpExprToVMInfo),
  internal/proxy/metric_binary.go (parsePointValue).

  Bodies are modelled as json.Unmarshal decodes them.
-/
import LokiVlProxy.Foundation.JsonText
import LokiVlProxy.Foundation.KeyMap

namespace LokiVlProxy.Proxy

open Foundation

/-- A `map[string]string` of labels. -/
abbrev LabelSet : Type := SortedMap Text Text

/-! ## Matching clauses -/

/-- A label name of a LogQL clause: an identifier token, which holds no white space. -/
structure LabelName where
  text : Text
  noSpace : text.any isSpace = false
  deriving DecidableEq

inductive Card where
  | on | ignoring
  deriving DecidableEq, Repr

inductive GroupSide where
  | groupLeft | groupRight
  deriving DecidableEq, Repr

structure VectorMatching where
  card : Card
  matchLabels : List LabelName
  groupSide : Option GroupSide
  includeLabels : List LabelName
  deriving DecidableEq

/-- `translator.VectorMatchInfo`; an `On` that is nil is `none`. -/
structure VectorMatchInfo where
  matchOn : Bool
  on : Option (List Text)
  ignoring : List Text
  groupSide : Option GroupSide
  groupLeft : List Text
  groupRight : List Text
  deriving DecidableEq, Repr

variable (matching : Option VectorMatching)

/-- `binOpExprToVMInfo`.  The parser leaves the labels of an empty clause nil. -/
def binOpExprToVMInfo : Option VectorMatchInfo :=
  matching.map fun m =>
    let names := m.matchLabels.map LabelName.text
    let included := m.includeLabels.map LabelName.text
    { matchOn := m.card = .on
      on := if m.card = .on ∧ names ≠ [] then some names else none
      ignoring := if m.card = .ignoring then names else []
      groupSide := m.groupSide
      groupLeft := if m.groupSide = some .groupLeft then included else []
      groupRight := if m.groupSide = some .groupRight then included else [] }

/-- `group_left`, or a list for it. -/
def VectorMatchInfo.hasGroupLeft (vm : VectorMatchInfo) : Bool :=
  vm.groupSide = some .groupLeft || !vm.groupLeft.isEmpty

/-- `group_right`, or a list for it. -/
def VectorMatchInfo.hasGroupRight (vm : VectorMatchInfo) : Bool :=
  vm.groupSide = some .groupRight || !vm.groupRight.isEmpty

/-! ## Labels -/

variable (labels : LabelSet)

/-- `labels[name]`, where it is not empty. -/
def presentLabel (name : Text) : Option Text :=
  (labels.find? name).filter (· ≠ [])

/-- A label is selected if it is not empty. -/
def selectLabel (labels selected : LabelSet) (name : Text) : LabelSet :=
  match presentLabel labels name with
  | some v => selected.insert name v
  | none => selected

/-- The labels of these names that are not empty. -/
def selectLabels (names : List Text) : LabelSet :=
  names.foldl (selectLabel labels) ∅

def binaryMatchingLabels (vm : Option VectorMatchInfo) : LabelSet :=
  match vm with
  | none => labels.filter fun _ v => v ≠ []
  | some vm =>
      if vm.matchOn || !(vm.on.getD []).isEmpty then selectLabels labels (vm.on.getD [])
      else vm.ignoring.foldl (fun selected name => selected.erase (trimSpace name))
        (labels.filter fun _ v => v ≠ [])

def binaryLabelKey : Text := marshalMap labels

variable (one result : LabelSet)

/-- An included label is that of the one side. -/
def includeLabel (name : Text) : LabelSet :=
  match presentLabel one name with
  | some v => result.insert name v
  | none => result.erase name

def binaryResultLabels (many one : LabelSet) (vm : Option VectorMatchInfo) : LabelSet :=
  match vm with
  | none => many
  | some info =>
      if !(info.groupSide.isSome || !info.groupLeft.isEmpty || !info.groupRight.isEmpty) then
        binaryMatchingLabels many vm
      else
        let included := if info.hasGroupRight then info.groupRight else info.groupLeft
        included.foldl (includeLabel one) many

/-! ## Samples -/

/-- What is used of float64: its arithmetic, and `strconv.ParseFloat` with the value it has on
an error. -/
structure Floats (Time F : Type) where
  add : F → F → F
  sub : F → F → F
  mul : F → F → F
  div : F → F → F
  mod : F → F → F
  pow : F → F → F
  eq : F → F → Bool
  lt : F → F → Bool
  le : F → F → Bool
  zero : F
  one : F
  parseFloat : Text → F
  /-- a JSON number as a value -/
  ofNumber : Time → F

/-- A decoded JSON value.  Numbers are finite and have one zero, so they can be map keys. -/
inductive JsonValue (Time : Type) where
  | number (n : Time)
  | string (s : Text)
  | other
  deriving DecidableEq, Repr

/-- One element of `data.result`. -/
structure SeriesBody (Time : Type) where
  metric : LabelSet
  value : List (JsonValue Time)
  values : List (List (JsonValue Time))

structure BinarySample (F : Type) where
  labels : LabelSet
  value : F

variable {Time F : Type} (fl : Floats Time F)

/-- `series.Values`, with `series.Value` at its end if that is a sample. -/
def SeriesBody.points (s : SeriesBody Time) : List (List (JsonValue Time)) :=
  if s.value.length = 2 then s.values ++ [s.value] else s.values

def parsePointValue (raw : JsonValue Time) : F :=
  match raw with
  | .number n => fl.ofNumber n
  | .string s => fl.parseFloat s
  | .other => fl.zero

inductive SampleError where
  /-- `invalid binary operand sample` -/
  | invalidSample
  /-- `invalid binary operand timestamp` -/
  | invalidTimestamp
  /-- `binary operand exceeds 1000000 sample limit` -/
  | sampleLimit
  deriving DecidableEq, Repr

/-- The most samples an operand may have. -/
def sampleLimit : Nat := 1000000

/-- One round of the loop of `binarySamplesByTime`. -/
def appendPoint (samples : List (Time × BinarySample F)) (labels : LabelSet)
    (point : List (JsonValue Time)) : Except SampleError (List (Time × BinarySample F)) :=
  match point with
  | [.number ts, raw] =>
      if samples.length + 1 > sampleLimit then .error .sampleLimit
      else .ok (samples ++ [(ts, ⟨labels, parsePointValue fl raw⟩)])
  | [_, _] => .error .invalidTimestamp
  | _ => .error .invalidSample

/-- The points of a body with the labels of their series, as the loops meet them. -/
def labelledPoints (body : List (SeriesBody Time)) : List (LabelSet × List (JsonValue Time)) :=
  body.flatMap fun s => s.points.map fun p => (s.metric, p)

/-- `binarySamplesByTime`, with the samples of all times in one list. -/
def binarySamplesByTime (body : List (SeriesBody Time)) :
    Except SampleError (List (Time × BinarySample F)) :=
  (labelledPoints body).foldlM (fun samples p => appendPoint fl samples p.1 p.2) []

/-- The samples of one time. -/
def samplesAt [DecidableEq Time] (samples : List (Time × BinarySample F)) (ts : Time) :
    List (BinarySample F) :=
  (samples.filter fun s => s.1 = ts).map Prod.snd

/-! ## Operators -/

inductive BinaryOp where
  | add | sub | mul | div | mod | pow
  | eq | ne | gt | lt | ge | le
  | and | or | unless
  deriving DecidableEq, Repr

def BinaryOp.isSet : BinaryOp → Bool
  | .and | .or | .unless => true
  | _ => false

/-- The comparison of `binarySampleValue`. -/
def BinaryOp.holds (op : BinaryOp) (a b : F) : Bool :=
  match op with
  | .eq => fl.eq a b
  | .ne => !fl.eq a b
  | .gt => fl.lt b a
  | .lt => fl.lt a b
  | .ge => fl.le b a
  | .le => fl.le a b
  | _ => false

/-- `binarySampleValue`: the value, and whether the sample is kept. -/
def binarySampleValue (a b : F) (op : BinaryOp) (returnBool : Bool) : F × Bool :=
  match op with
  | .add => (fl.add a b, true)
  | .sub => (fl.sub a b, true)
  | .mul => (fl.mul a b, true)
  | .div => (fl.div a b, true)
  | .mod => (fl.mod a b, true)
  | .pow => (fl.pow a b, true)
  | op =>
      let holds := op.holds fl a b
      if returnBool then (if holds then fl.one else fl.zero, true) else (a, holds)

/-! ## The cardinality check -/

inductive Side where
  | left | right
  deriving DecidableEq, Repr

/-- `vectorMatchError`. -/
inductive MatchError where
  | duplicateSeries (side : Side)
  | manyToOne
  | multipleMatches
  deriving DecidableEq, Repr

/-- The labels a series is counted under. -/
def countedLabels (onLabels : Option (List Text)) (ignoringLabels : List Text)
    (metric : LabelSet) : LabelSet :=
  match onLabels with
  | some names => selectLabels metric names
  | none => metric.filter fun name v => name ∉ ignoringLabels && v ≠ []

/-- The `evaluationKey` of every sample of a body. -/
def evaluations (onLabels : Option (List Text)) (ignoringLabels : List Text)
    (body : List (SeriesBody Time)) : List (Text × Time) :=
  (labelledPoints body).filterMap fun p =>
    match p.2 with
    | [.number ts, _] => some (marshalMap (countedLabels onLabels ignoringLabels p.1), ts)
    | _ => none

variable [DecidableEq Time]

/-- The second half of `validateVectorMatchCardinalityContext`: the counts are compared. -/
def checkCounts (leftCounts rightCounts : List (Text × Time))
    (allowGroupLeft allowGroupRight : Bool) : Except MatchError Unit :=
  let oneSide := if allowGroupRight then leftCounts else rightCounts
  let side := if allowGroupRight then Side.left else Side.right
  if oneSide.any fun key => oneSide.count key > 1 then .error (.duplicateSeries side)
  else if !allowGroupLeft && !allowGroupRight &&
      leftCounts.any fun key => leftCounts.count key > 1 && rightCounts.count key > 0 then
    .error .manyToOne
  else .ok ()

/-- `validateVectorMatchCardinalityContext`. -/
def validateVectorMatchCardinality (left right : List (SeriesBody Time))
    (onLabels : Option (List Text)) (ignoringLabels : List Text)
    (allowGroupLeft allowGroupRight : Bool) : Except MatchError Unit :=
  checkCounts (evaluations onLabels ignoringLabels left) (evaluations onLabels ignoringLabels right)
    allowGroupLeft allowGroupRight

/-- `validateBinaryVectorCardinality` of two vectors. -/
def validateBinaryVectorCardinality (left right : List (SeriesBody Time)) (op : BinaryOp)
    (vm : Option VectorMatchInfo) : Except MatchError Unit :=
  if op.isSet then .ok ()
  else
    match vm with
    | none => validateVectorMatchCardinality left right none [] false false
    | some vm =>
        let onLabels := if vm.matchOn && vm.on.isNone then some [] else vm.on
        validateVectorMatchCardinality left right onLabels vm.ignoring vm.hasGroupLeft
          vm.hasGroupRight

omit [DecidableEq Time]

/-! ## The join -/

section Evaluation

variable {σ : Type} (emit : σ → BinarySample F → Except MatchError σ)

/-- The key a sample is matched by. -/
def matchKey (vm : Option VectorMatchInfo) (sample : BinarySample F) : Text :=
  binaryLabelKey (binaryMatchingLabels sample.labels vm)

def matchBinarySet (lhs rhs : List (BinarySample F)) (op : BinaryOp) (vm : Option VectorMatchInfo)
    (out : σ) : Except MatchError σ := do
  let rightKeys := rhs.map (matchKey vm)
  let out ← lhs.foldlM (fun out sample =>
    let key := matchKey vm sample
    if op = .or ∨ (op = .and ∧ key ∈ rightKeys) ∨ (op = .unless ∧ key ∉ rightKeys) then
      emit out sample
    else .ok out) out
  if op = .or then
    let leftKeys := lhs.map (matchKey vm)
    rhs.foldlM (fun out sample =>
      if matchKey vm sample ∉ leftKeys then emit out sample else .ok out) out
  else .ok out

/-- `one`: the sample stored last under each key. -/
def oneByKey (vm : Option VectorMatchInfo) (one : List (BinarySample F)) :
    KeyMap Text (BinarySample F) :=
  one.foldl (fun m sample => m.insert (matchKey vm sample) sample) ∅

/-- One sample of the many side: what is emitted so far and the labels already used. -/
def matchSample (one : KeyMap Text (BinarySample F)) (op : BinaryOp) (vm : Option VectorMatchInfo)
    (returnBool swap : Bool) (state : σ × List Text) (sample : BinarySample F) :
    Except MatchError (σ × List Text) :=
  match one.find? (matchKey vm sample) with
  | none => .ok state
  | some partner =>
      let labels := binaryResultLabels sample.labels partner.labels vm
      let outputKey := binaryLabelKey labels
      if outputKey ∈ state.2 then .error .multipleMatches
      else
        let a := if swap then partner.value else sample.value
        let b := if swap then sample.value else partner.value
        let result := binarySampleValue fl a b op returnBool
        if result.2 then
          match emit state.1 ⟨labels, result.1⟩ with
          | .error e => .error e
          | .ok out => .ok (out, outputKey :: state.2)
        else .ok (state.1, outputKey :: state.2)

def matchBinaryEvaluation (lhs rhs : List (BinarySample F)) (op : BinaryOp)
    (vm : Option VectorMatchInfo) (returnBool : Bool) (out : σ) : Except MatchError σ :=
  if op.isSet then matchBinarySet emit lhs rhs op vm out
  else
    let swap := vm.any VectorMatchInfo.hasGroupRight
    let many := if swap then rhs else lhs
    let one := oneByKey vm (if swap then lhs else rhs)
    (many.foldlM (matchSample fl emit one op vm returnBool swap) (out, [])).map Prod.fst

end Evaluation

open List SortedMap

/-! ## What a clause asks for

A clause is given its meaning by the values of labels, where an absent label has the empty value. -/

/-- The labels that two samples are compared on. -/
def Compared (name : Text) : Prop :=
  match matching with
  | none => True
  | some m =>
      match m.card with
      | .on => name ∈ m.matchLabels.map LabelName.text
      | .ignoring => name ∉ m.matchLabels.map LabelName.text

instance (matching : Option VectorMatching) : DecidablePred (Compared matching) := fun name =>
  match matching with
  | none => .isTrue trivial
  | some ⟨.on, names, _, _⟩ => inferInstanceAs (Decidable (name ∈ names.map LabelName.text))
  | some ⟨.ignoring, names, _, _⟩ => inferInstanceAs (Decidable (name ∉ names.map LabelName.text))

/-- The value of a label, empty if there is none. -/
def labelValue (name : Text) : Text := (labels.find? name).getD []

/-- Two samples agree on the compared labels. -/
def Matches (a b : LabelSet) : Prop :=
  ∀ name, Compared matching name → labelValue a name = labelValue b name

/-- The labels of a result: those of the many side without a clause; the compared labels under
`on` and `ignoring`; under a group modifier those of the many side with the included labels
taken from the one side. -/
def prescribed (many one : LabelSet) (name : Text) : Option Text :=
  match matching with
  | none => many.find? name
  | some m =>
      match m.groupSide with
      | none => if Compared matching name then presentLabel many name else none
      | some _ =>
          if name ∈ m.includeLabels.map LabelName.text then presentLabel one name else many.find? name

/-! ## What the label functions select -/

theorem presentLabel_eq_iff (a b : LabelSet) (name : Text) :
    presentLabel a name = presentLabel b name ↔ labelValue a name = labelValue b name := by
  unfold presentLabel labelValue
  cases a.find? name <;> cases b.find? name <;> grind

theorem find?_selectLabel (labels selected : LabelSet) (n name : Text) :
    (selectLabel labels selected n).find? name =
      (if name = n then presentLabel labels name else none).or (selected.find? name) := by
  unfold selectLabel
  split
  · next v hv =>
    rw [find?_insert]
    split
    · next h => simp [h, hv]
    · simp
  · next hnone =>
    split
    · next h => simp [h, hnone]
    · simp

variable (matching : Option VectorMatching) (labels : LabelSet)

theorem find?_selectLabels (names : List Text) (name : Text) :
    (selectLabels labels names).find? name = if name ∈ names then presentLabel labels name else none := by
  have fold : ∀ selected : LabelSet, (names.foldl (selectLabel labels) selected).find? name =
      (if name ∈ names then presentLabel labels name else none).or (selected.find? name) := by
    induction names with
    | nil => simp
    | cons n names ih =>
      intro selected
      rw [foldl_cons, ih, find?_selectLabel]
      by_cases hn : name = n <;> by_cases hm : name ∈ names <;> simp [hn, hm] <;> grind
  rw [selectLabels, fold]
  simp

theorem find?_nonempty (name : Text) :
    (labels.filter fun _ v => v ≠ []).find? name = presentLabel labels name :=
  find?_filter _ _ _

theorem find?_includeLabel (n name : Text) :
    (includeLabel one result n).find? name =
      if name = n then presentLabel one name else result.find? name := by
  unfold includeLabel
  split
  · next v hv =>
    rw [find?_insert]
    split
    · next h => rw [h, hv]
    · rfl
  · next hnone =>
    rw [find?_erase]
    split
    · next h => rw [h, hnone]
    · rfl

theorem find?_foldl_includeLabel (names : List Text) (name : Text) :
    (names.foldl (includeLabel one) result).find? name =
      if name ∈ names then presentLabel one name else result.find? name := by
  induction names generalizing result with
  | nil => simp
  | cons n names ih =>
    rw [foldl_cons, ih, find?_includeLabel]
    by_cases hn : name = n <;> by_cases hm : name ∈ names <;> simp [hn, hm]

theorem find?_foldl_erase (names : List Text) (name : Text) :
    (names.foldl (fun selected n => selected.erase n) labels).find? name =
      if name ∈ names then none else labels.find? name := by
  induction names generalizing labels with
  | nil => simp
  | cons n names ih =>
    rw [foldl_cons, ih, find?_erase]
    by_cases hn : name = n <;> by_cases hm : name ∈ names <;> simp [hn, hm]

theorem LabelName.trimSpace_text (n : LabelName) : trimSpace n.text = n.text := by
  refine trimSpace_of_noSpace fun c hc => ?_
  simpa using any_eq_false.mp n.noSpace c hc

/-- The labels that are compared, as the expression prescribes. -/
theorem find?_binaryMatchingLabels (name : Text) :
    (binaryMatchingLabels labels (binOpExprToVMInfo matching)).find? name =
      if Compared matching name then presentLabel labels name else none := by
  match matching with
  | none => exact (find?_nonempty labels name).trans (if_pos trivial).symm
  | some ⟨.on, names, side, included⟩ =>
    have hon : binaryMatchingLabels labels (binOpExprToVMInfo (some ⟨.on, names, side, included⟩)) =
        selectLabels labels (names.map LabelName.text) := by
      cases names <;> simp [binaryMatchingLabels, binOpExprToVMInfo]
    rw [hon, find?_selectLabels]
    rfl
  | some ⟨.ignoring, names, side, included⟩ =>
    have hignoring : binaryMatchingLabels labels
        (binOpExprToVMInfo (some ⟨.ignoring, names, side, included⟩)) =
        (names.map LabelName.text).foldl (fun selected name => selected.erase name)
          (labels.filter fun _ v => v ≠ []) := by
      simp [binaryMatchingLabels, binOpExprToVMInfo, foldl_map, LabelName.trimSpace_text]
    rw [hignoring, find?_foldl_erase, find?_nonempty]
    by_cases h : name ∈ names.map LabelName.text <;> simp [h, Compared]

/-- Two samples have one key exactly when they match. -/
theorem matchKey_eq_iff {F : Type} (a b : BinarySample F) :
    matchKey (binOpExprToVMInfo matching) a = matchKey (binOpExprToVMInfo matching) b ↔
      Matches matching a.labels b.labels := by
  constructor
  · intro h name hname
    have hfind := congrArg (fun labels : LabelSet => labels.find? name) (marshalMap_injective h)
    simp only [find?_binaryMatchingLabels, if_pos hname] at hfind
    exact (presentLabel_eq_iff _ _ _).mp hfind
  · intro h
    apply congrArg marshalMap
    apply ext_find?
    intro name
    rw [find?_binaryMatchingLabels, find?_binaryMatchingLabels]
    split
    · next hname => exact (presentLabel_eq_iff _ _ _).mpr (h name hname)
    · rfl

/-- The labels of a result, as the expression prescribes. -/
theorem find?_binaryResultLabels (many one : LabelSet) (name : Text) :
    (binaryResultLabels many one (binOpExprToVMInfo matching)).find? name =
      prescribed matching many one name := by
  match matching with
  | none => rfl
  | some ⟨card, names, none, included⟩ =>
    have hplain : binaryResultLabels many one (binOpExprToVMInfo (some ⟨card, names, none, included⟩)) =
        binaryMatchingLabels many (binOpExprToVMInfo (some ⟨card, names, none, included⟩)) := by
      simp [binaryResultLabels, binOpExprToVMInfo]
    rw [hplain, find?_binaryMatchingLabels]
    rfl
  | some ⟨card, names, some side, included⟩ =>
    have hgrouped : binaryResultLabels many one
        (binOpExprToVMInfo (some ⟨card, names, some side, included⟩)) =
        (included.map LabelName.text).foldl (includeLabel one) many := by
      cases side <;> simp [binaryResultLabels, binOpExprToVMInfo, VectorMatchInfo.hasGroupRight]
    rw [hgrouped, find?_foldl_includeLabel]
    rfl

theorem countedLabels_eq :
    (match binOpExprToVMInfo matching with
      | none => countedLabels none [] labels
      | some vm => countedLabels (if vm.matchOn && vm.on.isNone then some [] else vm.on) vm.ignoring
          labels) =
      binaryMatchingLabels labels (binOpExprToVMInfo matching) := by
  apply ext_find?
  intro name
  rw [find?_binaryMatchingLabels]
  match matching with
  | none =>
    have hnone : countedLabels none [] labels = labels.filter fun _ v => v ≠ [] := by
      simp [countedLabels]
    exact (congrArg (·.find? name) hnone).trans
      ((find?_nonempty labels name).trans (if_pos trivial).symm)
  | some ⟨.on, names, side, included⟩ =>
    cases names with
    | nil => rfl
    | cons n names => exact find?_selectLabels labels _ name
  | some ⟨.ignoring, names, side, included⟩ =>
    refine (find?_filter labels _ name).trans ?_
    by_cases h : name ∈ names.map LabelName.text
    · cases labels.find? name <;> simp [h, Compared]
    · simp [h, Compared, presentLabel]

/-! ## Samples of a body -/

section Samples

variable {Time F : Type} (fl : Floats Time F)

/-- The sample a point stands for. -/
def samplePoint (p : LabelSet × List (JsonValue Time)) : Option (Time × BinarySample F) :=
  match p.2 with
  | [.number ts, raw] => some (ts, ⟨p.1, parsePointValue fl raw⟩)
  | _ => none

variable {samples : List (Time × BinarySample F)} {body body' : List (SeriesBody Time)}

theorem appendPoint_ok_iff {samples' : List (Time × BinarySample F)} {labels : LabelSet}
    {point : List (JsonValue Time)} :
    appendPoint fl samples labels point = .ok samples' ↔
      ∃ s, samplePoint fl (labels, point) = some s ∧ samples.length + 1 ≤ sampleLimit ∧
        samples' = samples ++ [s] := by
  unfold appendPoint
  split
  · split
    · simp [samplePoint]
      omega
    · simp [samplePoint, eq_comm]
      omega
  · next t raw hts =>
    cases t with
    | number ts => exact absurd rfl (hts ts)
    | string s | other => simp [samplePoint]
  · simp [samplePoint]

/-- What the reader of samples accepts. -/
theorem binarySamplesByTime_ok_iff :
    binarySamplesByTime fl body = .ok samples ↔
      (labelledPoints body).map (samplePoint fl) = samples.map some ∧
        samples.length ≤ sampleLimit := by
  have fold : ∀ (points : List (LabelSet × List (JsonValue Time)))
      (before out : List (Time × BinarySample F)), before.length ≤ sampleLimit →
      (points.foldlM (fun samples p => appendPoint fl samples p.1 p.2) before = .ok out ↔
        ∃ new, points.map (samplePoint fl) = new.map some ∧ out = before ++ new ∧
          out.length ≤ sampleLimit) := by
    intro points
    induction points with
    | nil =>
      intro before out hbefore
      rw [foldlM_nil]
      constructor
      · intro h
        obtain rfl := Except.ok.inj h
        exact ⟨[], rfl, (append_nil _).symm, hbefore⟩
      · rintro ⟨new, hnew, rfl, -⟩
        obtain rfl := map_eq_nil_iff.mp hnew.symm
        rw [append_nil]
        rfl
    | cons p points ih =>
      intro before out hbefore
      rw [foldlM_cons]
      cases happend : appendPoint fl before p.1 p.2 with
      | error e =>
        refine iff_of_false (by simp [bind, Except.bind]) ?_
        rintro ⟨new, hnew, rfl, hlength⟩
        obtain ⟨s, rest, rfl, hs, hrest⟩ := map_eq_cons_iff.mp hnew.symm
        rw [length_append, length_cons] at hlength
        have hok : appendPoint fl before p.1 p.2 = .ok (before ++ [s]) :=
          (appendPoint_ok_iff fl).mpr ⟨s, hs.symm, by omega, rfl⟩
        rw [happend] at hok
        exact absurd hok (by simp)
      | ok middle =>
        obtain ⟨s, hs, hfits, rfl⟩ := (appendPoint_ok_iff fl).mp happend
        refine (ih (before ++ [s]) out (by simpa using hfits)).trans ?_
        constructor
        · rintro ⟨new, hnew, rfl, hlength⟩
          exact ⟨s :: new, by simp [hnew, hs], by simp, hlength⟩
        · rintro ⟨new, hnew, rfl, hlength⟩
          obtain ⟨s', rest, rfl, hs', hrest⟩ := map_eq_cons_iff.mp hnew.symm
          obtain rfl := Option.some.inj (hs.symm.trans hs'.symm)
          exact ⟨rest, hrest.symm, by simp, hlength⟩
  rw [binarySamplesByTime, fold _ _ _ (Nat.zero_le _)]
  constructor
  · rintro ⟨new, hnew, rfl, hlength⟩
    exact ⟨hnew, hlength⟩
  · rintro ⟨hnew, hlength⟩
    exact ⟨samples, hnew, rfl, hlength⟩

theorem filterMap_samplePoint (h : binarySamplesByTime fl body = .ok samples) :
    (labelledPoints body).filterMap (samplePoint fl) = samples := by
  have hpoints := ((binarySamplesByTime_ok_iff fl).mp h).1
  have hid : (labelledPoints body).filterMap (samplePoint fl) =
      ((labelledPoints body).map (samplePoint fl)).filterMap id := by
    rw [filterMap_map]
    rfl
  rw [hid, hpoints, filterMap_map]
  exact filterMap_some

theorem evaluations_eq (h : binarySamplesByTime fl body = .ok samples)
    (onLabels : Option (List Text)) (ignoringLabels : List Text) :
    evaluations onLabels ignoringLabels body =
      samples.map fun s => (marshalMap (countedLabels onLabels ignoringLabels s.2.labels), s.1) := by
  rw [← filterMap_samplePoint fl h, map_filterMap, evaluations]
  apply filterMap_congr
  intro p _
  unfold samplePoint
  split <;> simp_all

/-- The times a series has a sample at. -/
def SeriesBody.times (s : SeriesBody Time) : List Time :=
  s.points.filterMap fun p =>
    match p with
    | [.number ts, _] => some ts
    | _ => none

/-- What the check counts a sample under. -/
def evaluationKey (matching : Option VectorMatching) (s : Time × BinarySample F) : Text × Time :=
  (matchKey (binOpExprToVMInfo matching) s.2, s.1)

theorem labels_of_samples (h : binarySamplesByTime fl body = .ok samples) :
    (samples.map fun s => (s.2.labels, s.1)) = body.flatMap fun s => s.times.map fun ts => (s.metric, ts) := by
  rw [← filterMap_samplePoint fl h, map_filterMap, labelledPoints, filterMap_flatMap]
  apply flatMap_congr
  intro s _
  rw [filterMap_map, SeriesBody.times, map_filterMap]
  apply filterMap_congr
  intro p _
  unfold samplePoint
  simp only [Function.comp]
  split <;> simp_all

theorem labelledPoints_perm (h : body.Perm body') :
    (labelledPoints body).Perm (labelledPoints body') :=
  h.flatMap fun _ _ => List.Perm.refl _

/-- The order of the series does not count. -/
theorem binarySamplesByTime_perm (h : binarySamplesByTime fl body = .ok samples)
    (hperm : body.Perm body') :
    ∃ samples', binarySamplesByTime fl body' = .ok samples' ∧ samples.Perm samples' := by
  obtain ⟨hpoints, hlength⟩ := (binarySamplesByTime_ok_iff fl).mp h
  have hall : ∀ p ∈ labelledPoints body', (samplePoint fl p).isSome := by
    intro p hp
    have hmem : samplePoint fl p ∈ (labelledPoints body).map (samplePoint fl) :=
      mem_map_of_mem ((labelledPoints_perm hperm).mem_iff.mpr hp)
    rw [hpoints] at hmem
    obtain ⟨s, -, hs⟩ := mem_map.mp hmem
    rw [← hs]
    rfl
  have hsamples : samples.Perm ((labelledPoints body').filterMap (samplePoint fl)) := by
    rw [← filterMap_samplePoint fl h]
    exact (labelledPoints_perm hperm).filterMap _
  refine ⟨_, (binarySamplesByTime_ok_iff fl).mpr ⟨?_, hsamples.length_eq ▸ hlength⟩, hsamples⟩
  generalize labelledPoints body' = points at hall
  induction points with
  | nil => rfl
  | cons p points ih =>
    obtain ⟨s, hs⟩ := Option.isSome_iff_exists.mp (hall p mem_cons_self)
    rw [map_cons, filterMap_cons, hs, map_cons,
      ih fun q hq => hall q (mem_cons_of_mem _ hq)]

end Samples

end LokiVlProxy.Proxy
