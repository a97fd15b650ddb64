/-
  Translator/Markers.lean --- control data that travels inside a translated query.

  Source: internal/translator/translator.go; the order of reading is that of handleQueryRange in
  internal/proxy/proxy.go.

  The translator writes what is left to do after the query behind the query's own text.
-/
import LokiVlProxy.Foundation.Base64
import LokiVlProxy.Foundation.Occurrence
import LokiVlProxy.Logql.Literals

namespace LokiVlProxy.Translator

open Foundation Logql.Syntax List

/-! ## Labels between commas -/

/-- `splitLabels`, also written out by `ParseWithoutMarker` and `extractWithoutLabels`. -/
def splitLabels (s : Runes) : List Runes :=
  ((s.splitOn (.point ',')).map trimRunes).filter fun l => !l.isEmpty

/-! ## Marker texts -/

def groupMarker : Runes := literal "__lvp_group__"

/-- `labelReplacePrefix` without its colon. -/
def labelReplaceName : Runes := literal "__lvp_lr"

/-- `labelJoinPrefix` without its colon. -/
def labelJoinName : Runes := literal "__lvp_lj"

/-- `WithoutMarkerSuffix` without its colon. -/
def withoutName : Runes := literal "__without__"

/-- A name with its colon. -/
def opened (name : Runes) : Runes := name ++ [.point ':']

/-- What closes the markers with a payload. -/
def closing : Runes := literal "__"

def payload (data : Bytes) : Runes := runes (Base64.encodeToString data)

/-- A marker with a payload. -/
def marker (name : Runes) (data : Bytes) : Runes := opened name ++ payload data ++ closing

variable (query : Runes)

def appendWithoutMarker (labels : List Runes) : Runes :=
  if labels.isEmpty then query
  else query ++ opened withoutName ++ [.point ','].intercalate labels

/-! ## Reading the markers -/

structure LabelReplaceSpec where
  dstLabel : Bytes
  replacement : Bytes
  srcLabel : Bytes
  regex : Bytes
  deriving DecidableEq, Repr

structure LabelJoinSpec where
  dstLabel : Bytes
  separator : Bytes
  srcLabels : List Bytes
  deriving DecidableEq, Repr

def parseWithoutMarker : Runes × List Runes :=
  match cutLast (opened withoutName) query with
  | none => (query, [])
  | some (cleanQuery, labels) => (cleanQuery, splitLabels labels)

def parseGroupMarker : Runes × Bool :=
  match query.dropSuffix? groupMarker with
  | none => (query, false)
  | some cleanQuery => (cleanQuery, true)

/-- `base64.StdEncoding.DecodeString` on a payload. -/
def decodePayload (text : Runes) : Option Bytes :=
  (text.mapM Rune.char?).bind Base64.decodeString

/-- The rounds of `ParseAllLabelReplaceMarkers`; each takes a marker out of the query. -/
def parseLabelReplaceMarkers : Nat → Runes → Runes × List LabelReplaceSpec
  | 0, query => (query, [])
  | fuel + 1, query =>
      match query.dropInfix? (opened labelReplaceName) with
      | none => (query, [])
      | some (before, tail) =>
          match tail.dropInfix? closing with
          | none => (query, [])
          | some (text, after) =>
              match (decodePayload text).map (splitN 0 3) with
              | some [dst, replacement, src, regex] =>
                  let (query, specs) := parseLabelReplaceMarkers fuel (before ++ after)
                  (query, ⟨dst, replacement, src, regex⟩ :: specs)
              | _ => (query, [])

def parseAllLabelReplaceMarkers : Runes × List LabelReplaceSpec :=
  parseLabelReplaceMarkers query.length query

def parseLabelJoinMarker : Runes × Option LabelJoinSpec :=
  match cutLast (opened labelJoinName) query with
  | none => (query, none)
  | some (cleanQuery, tail) =>
      match (decodePayload ((tail.dropSuffix? closing).getD tail)).map (splitN 0 2) with
      | some [dst, sep, srcs] =>
          (cleanQuery, some ⟨dst, sep, if srcs.isEmpty then [] else srcs.splitOn 1⟩)
      | _ => (query, none)

/-- What `handleQueryRange` takes from a translated query before it sends it. -/
structure PostProcessing where
  logsqlQuery : Runes
  withoutLabels : List Runes
  isGroupQuery : Bool
  labelReplaceSpecs : List LabelReplaceSpec
  labelJoinSpec : Option LabelJoinSpec
  deriving DecidableEq, Repr

/-- The marker parsers, in the order of `handleQueryRange`. -/
def readMarkers (translated : Runes) : PostProcessing :=
  let (query, withoutLabels) := parseWithoutMarker translated
  let (query, isGroupQuery) := parseGroupMarker query
  let (query, labelReplaceSpecs) := parseAllLabelReplaceMarkers query
  let (query, labelJoinSpec) := parseLabelJoinMarker query
  ⟨query, withoutLabels, isGroupQuery, labelReplaceSpecs, labelJoinSpec⟩

theorem readMarkers_withoutLabels (translated : Runes) :
    (readMarkers translated).withoutLabels = (parseWithoutMarker translated).2 := rfl

/-! ## Payloads -/

variable (data : Bytes)

/-- The payload of a marker decodes to its data. -/
theorem decodePayload_payload : decodePayload (payload data) = some data := by
  have hchars : ∀ cs : List Char, (runes cs).mapM Rune.char? = some cs := by
    intro cs
    induction cs with
    | nil => rfl
    | cons c cs ih =>
      rw [runes, map_cons, mapM_cons, ← runes, ih]
      rfl
  rw [decodePayload, payload, hchars]
  exact Base64.decodeString_encodeToString data

theorem notMem_payload {c : Char} (hc : ¬ Base64.IsLetter c) (data : Bytes) :
    .point c ∉ payload data := by
  intro h
  obtain ⟨d, hd, hcd⟩ := mem_map.mp h
  exact hc (Rune.point.inj hcd ▸ Base64.isLetter_of_mem hd)

theorem colon_notMem_payload : .point ':' ∉ payload data :=
  notMem_payload (by simp [Base64.IsLetter, Base64.value]) data

theorem underscore_notMem_payload : .point '_' ∉ payload data :=
  notMem_payload (by simp [Base64.IsLetter, Base64.value]) data

theorem colon_notMem_payload_append : .point ':' ∉ payload data ++ closing := by
  rw [mem_append, not_or]
  exact ⟨colon_notMem_payload data, by decide⟩

/-! ## Markers behind a query -/

/-- A marker of another name adds no opening of this one. -/
theorem not_infix_append_marker {name other query : Runes} {data : Bytes}
    (hname : .point ':' ∉ name) (hother : .point ':' ∉ other)
    (hlast : ∀ front, ¬ name <:+ front ++ other) (h : ¬ opened name <:+: query) :
    ¬ opened name <:+: query ++ marker other data := by
  intro hstands
  have hsplit : query ++ marker other data =
      (query ++ other) ++ .point ':' :: (payload data ++ closing) := by
    simp [marker, opened]
  rw [hsplit] at hstands
  obtain hfirst | hend | hlater := infix_append_cons hname hstands
  · exact h (infix_of_infix_append hother hfirst)
  · exact hlast query hend
  · exact colon_notMem_payload_append data (hlater.subset (by simp))

/-! ## The markers of a nest of label functions -/

/-- The functions that wrap a whole expression. -/
inductive LabelFunction where
  | labelReplace | labelJoin
  deriving DecidableEq, Repr

/-- `labelReplacePrefix` and `labelJoinPrefix` without their colons. -/
def LabelFunction.markerName : LabelFunction → Runes
  | .labelReplace => labelReplaceName
  | .labelJoin => labelJoinName

/-- A marker that one call of a label function leaves. -/
structure Mark where
  function : LabelFunction
  data : Bytes
  deriving DecidableEq, Repr

variable (m : Mark)

def Mark.text : Runes := marker m.function.markerName m.data

variable (ms : List Mark)

/-- The markers behind a query, the inner ones first. -/
def markTexts : Runes := ms.flatMap Mark.text

/-- The markers with the data their readers ask for. -/
def Mark.WellFormed : Prop :=
  match m.function with
  | .labelReplace => 3 ≤ m.data.count 0
  | .labelJoin => 2 ≤ m.data.count 0

/-- The arguments of a `label_replace` marker. -/
def replaceSpec (data : Bytes) : Option LabelReplaceSpec :=
  match splitN 0 3 data with
  | [dst, replacement, src, regex] => some ⟨dst, replacement, src, regex⟩
  | _ => none

/-- The fields of a replacement are cut at the first three separators. -/
theorem replaceSpec_eq_some_iff {data dst replacement src regex : Bytes} :
    replaceSpec data = some ⟨dst, replacement, src, regex⟩ ↔
      splitN 0 3 data = [dst, replacement, src, regex] := by
  unfold replaceSpec
  split
  next hparts =>
    rw [hparts]
    simp
  next hparts =>
    refine ⟨nofun, fun h => absurd h (hparts _ _ _ _)⟩

def Mark.spec : Option LabelReplaceSpec :=
  match m.function with
  | .labelReplace => replaceSpec m.data
  | .labelJoin => none

def Mark.isJoin : Bool := m.function = .labelJoin

theorem Mark.text_ne_nil : m.text ≠ [] := by
  simp [Mark.text, marker, closing, literal, runes]

variable (f : LabelFunction)

theorem colon_notMem_markerName : .point ':' ∉ f.markerName := by
  cases f <;> decide

theorem markerName_ne_nil : f.markerName ≠ [] := by
  cases f <;> decide

theorem not_suffix_of_last {name other : Runes} (hname : name ≠ []) (hother : other ≠ [])
    (hlast : name.getLast? ≠ other.getLast?) (front : Runes) : ¬ name <:+ front ++ other := by
  rintro ⟨before, h⟩
  have hends := congrArg List.getLast? h
  rw [getLast?_append_of_ne_nil _ hname, getLast?_append_of_ne_nil _ hother] at hends
  exact hlast hends

variable (front : Runes)

theorem not_suffix_withoutName :
    ¬ withoutName <:+ front ++ f.markerName :=
  not_suffix_of_last (by decide) (markerName_ne_nil f) (by cases f <;> decide) front

theorem not_suffix_labelReplaceName : ¬ labelReplaceName <:+ front ++ labelJoinName :=
  not_suffix_of_last (by decide) (by decide) (by decide) front

/-- Markers of other names add no opening of this one. -/
theorem not_infix_append_markTexts {name : Runes} {query : Runes} (hname : .point ':' ∉ name)
    {ms : List Mark} (hlast : ∀ m ∈ ms, ∀ front, ¬ name <:+ front ++ m.function.markerName)
    (h : ¬ opened name <:+: query) : ¬ opened name <:+: query ++ markTexts ms := by
  induction ms generalizing query with
  | nil => simpa [markTexts] using h
  | cons m ms ih =>
    rw [forall_mem_cons] at hlast
    have hfirst : ¬ opened name <:+: query ++ m.text :=
      not_infix_append_marker hname (colon_notMem_markerName m.function) hlast.1 h
    rw [markTexts, flatMap_cons, ← append_assoc]
    exact ih hlast.2 hfirst

/-! ## Reading the markers back -/

theorem markTexts_cons : markTexts (m :: ms) = m.text ++ markTexts ms :=
  flatMap_cons

theorem Mark.text_eq : m.text = opened m.function.markerName ++ (payload m.data ++ closing) :=
  append_assoc ..

/-- A payload ends at the closing of its marker. -/
theorem dropInfix?_closing (rest : Runes) :
    (payload data ++ closing ++ rest).dropInfix? closing = some (payload data, rest) :=
  dropInfix?_of_head_notMem (underscore_notMem_payload data)

theorem exists_replaceSpec {data : Bytes} (h : 3 ≤ data.count 0) :
    ∃ dst replacement src regex, splitN 0 3 data = [dst, replacement, src, regex] := by
  have hlength := length_splitN h
  match splitN 0 3 data, hlength with
  | [dst, replacement, src, regex], _ => exact ⟨dst, replacement, src, regex, rfl⟩

theorem exists_joinParts {data : Bytes} (h : 2 ≤ data.count 0) :
    ∃ dst sep srcs, splitN 0 2 data = [dst, sep, srcs] := by
  have hlength := length_splitN h
  match splitN 0 2 data, hlength with
  | [dst, sep, srcs], _ => exact ⟨dst, sep, srcs, rfl⟩

/-- The rounds of `ParseAllLabelReplaceMarkers` take the markers of `label_replace`, and leave the
others where they are. -/
theorem parseLabelReplaceMarkers_markTexts {fuel : Nat} {query : Runes} {ms : List Mark}
    (hfuel : ms.length ≤ fuel) (hms : ∀ m ∈ ms, m.WellFormed)
    (hquery : ¬ opened labelReplaceName <:+: query) :
    parseLabelReplaceMarkers fuel (query ++ markTexts ms) =
      (query ++ markTexts (ms.filter Mark.isJoin), ms.filterMap Mark.spec) := by
  induction ms generalizing fuel query with
  | nil =>
    have hnone := dropInfix?_eq_none_iff.mpr hquery
    cases fuel with
    | zero => rfl
    | succ fuel => simp [markTexts, parseLabelReplaceMarkers, hnone]
  | cons m ms ih =>
    rw [forall_mem_cons] at hms
    rw [length_cons] at hfuel
    obtain ⟨function, data⟩ := m
    cases function with
    | labelReplace =>
      obtain ⟨fuel, rfl⟩ := Nat.exists_eq_add_one.mpr (Nat.lt_of_lt_of_le (Nat.succ_pos _) hfuel)
      obtain ⟨dst, replacement, src, regex, hparts⟩ := exists_replaceSpec hms.1
      have hplace : query ++ markTexts (⟨.labelReplace, data⟩ :: ms) =
          query ++ opened labelReplaceName ++ (payload data ++ closing ++ markTexts ms) := by
        rw [markTexts_cons, Mark.text_eq]
        simp [LabelFunction.markerName]
      have hcut : (query ++ opened labelReplaceName ++ (payload data ++ closing ++ markTexts ms)).dropInfix?
          (opened labelReplaceName) = some (query, payload data ++ closing ++ markTexts ms) :=
        dropInfix?_of_last_notMem (colon_notMem_markerName .labelReplace) hquery
      have hspec : (Mark.mk .labelReplace data).spec = some ⟨dst, replacement, src, regex⟩ := by
        simp only [Mark.spec, replaceSpec, hparts]
      rw [filter_cons_of_neg (by simp [Mark.isJoin]), filterMap_cons_some hspec, hplace]
      simp only [parseLabelReplaceMarkers, hcut, dropInfix?_closing, decodePayload_payload,
        Option.map_some, hparts, ih (Nat.le_of_succ_le_succ hfuel) hms.2 hquery]
    | labelJoin =>
      have hnext : ¬ opened labelReplaceName <:+: query ++ (Mark.mk .labelJoin data).text :=
        not_infix_append_marker (colon_notMem_markerName .labelReplace)
          (colon_notMem_markerName .labelJoin) not_suffix_labelReplaceName hquery
      rw [markTexts_cons, ← append_assoc, ih (by omega) hms.2 hnext]
      rw [filter_cons_of_pos rfl, filterMap_cons_none rfl, markTexts_cons,
        append_assoc]

theorem length_le_length_markTexts : ms.length ≤ (markTexts ms).length := by
  induction ms with
  | nil => exact le_rfl
  | cons m ms ih =>
    have hpos := length_pos_iff.mpr m.text_ne_nil
    rw [markTexts_cons, length_cons, length_append]
    omega

/-- `ParseLabelJoinMarker` takes the last marker of `label_join` only. -/
theorem parseLabelJoinMarker_markTexts {query : Runes} {ms : List Mark}
    (hms : ∀ m ∈ ms, m.WellFormed ∧ m.function = .labelJoin)
    (hquery : ¬ opened labelJoinName <:+: query) :
    (parseLabelJoinMarker (query ++ markTexts ms)).1 = query ++ markTexts ms.dropLast := by
  obtain rfl | ⟨ms, ⟨function, data⟩, rfl⟩ := ms.eq_nil_or_concat'
  · have hnone := cutLast_eq_none_iff.mpr hquery
    simp [markTexts, parseLabelJoinMarker, hnone]
  · obtain ⟨hform, rfl⟩ := hms _ (mem_append_right _ mem_cons_self)
    obtain ⟨dst, sep, srcs, hparts⟩ := exists_joinParts hform
    have hplace : query ++ markTexts (ms ++ [⟨.labelJoin, data⟩]) =
        query ++ markTexts ms ++ opened labelJoinName ++ (payload data ++ closing) := by
      simp [markTexts, Mark.text_eq, LabelFunction.markerName]
    have hcut : cutLast (opened labelJoinName)
        (query ++ markTexts ms ++ opened labelJoinName ++ (payload data ++ closing)) =
          some (query ++ markTexts ms, payload data ++ closing) :=
      cutLast_of_last_notMem (colon_notMem_payload_append data)
    have hclose : (payload data ++ closing).dropSuffix? closing = some (payload data) :=
      dropSuffix?_eq_some_iff.mpr ⟨closing, rfl, beq_self_eq_true closing⟩
    rw [dropLast_concat, hplace]
    simp only [parseLabelJoinMarker, hcut, hclose, Option.getD_some, decodePayload_payload,
      Option.map_some, hparts]

theorem parseGroupMarker_append_mark (m : Mark) :
    parseGroupMarker (front ++ m.text) = (front ++ m.text, false) := by
  have hnone : (front ++ m.text).dropSuffix? groupMarker = none := by
    rw [Option.eq_none_iff_forall_ne_some]
    intro rest hrest
    obtain ⟨suffix, hsplit, hsuffix⟩ := dropSuffix?_eq_some_iff.mp hrest
    obtain rfl : suffix = groupMarker := by simpa using hsuffix
    have hopen : groupMarker = literal "__lvp_group" ++ closing := by decide
    have hends : literal "__lvp_group" <:+
        front ++ m.function.markerName ++ .point ':' :: payload m.data := by
      refine ⟨rest, ?_⟩
      rw [hopen, Mark.text_eq, opened] at hsplit
      have hsplit : front ++ m.function.markerName ++ .point ':' :: payload m.data ++ closing =
          rest ++ literal "__lvp_group" ++ closing := by simpa using hsplit
      exact (append_cancel_right hsplit).symm
    have hpayload := suffix_of_notMem (by decide) hends
    exact underscore_notMem_payload m.data (hpayload.subset (by decide))
  simp only [parseGroupMarker, hnone]

end LokiVlProxy.Translator
