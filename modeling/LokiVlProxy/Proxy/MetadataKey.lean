/-
  Proxy/MetadataKey.lean --- cache keys of metadata requests and the parameters behind them.

  `internal/proxy/cache_keys.go`: `canonicalReadCacheKey` makes a key from the parameters of the
  URL, which `normalizeReadCacheParams` renames, drops and buckets first, and remembers it in a
  memo by the raw query.
-/
import LokiVlProxy.Foundation.KeyMap
import LokiVlProxy.Foundation.QueryEncoding
import LokiVlProxy.Foundation.SortedMap
import Mathlib.Data.Char
import Mathlib.Data.List.Lex

namespace LokiVlProxy.Proxy.MetadataKey

open LokiVlProxy.Foundation

/-! ## Values -/

abbrev Values : Type := SortedMap Text (List Text)

namespace Values

variable (params : Values)

/-- `Get`: the first value, or nothing. -/
def get (name : Text) : Text := ((params.find? name).getD []).headD []

def set (name value : Text) : Values := params.insert name [value]

def del (name : Text) : Values := params.erase name

/-- The pairs in the order of their names. -/
def pairs : List (Text × Text) :=
  params.entries.flatMap fun e => e.2.map fun value => (e.1, value)

def encode : Text := encodePairs params.pairs

end Values

/-! ## Times -/

/-- What the standard library reads as a time or a duration, in nanoseconds. -/
structure TimeLib where
  /-- `time.Parse(time.RFC3339Nano, ·)` -/
  rfc3339Nano : Text → Option Int64
  /-- `time.Parse(time.RFC3339, ·)` -/
  rfc3339 : Text → Option Int64
  /-- `time.ParseDuration` -/
  parseDuration : Text → Option Int64
  /-- `strconv.ParseFloat` and then `normalizeLokiNumericTimeToUnixNano` -/
  parseFloatTime : Text → Option Int64
  rfc3339Nano_digits : ∀ n : Nat, rfc3339Nano (Nat.toDigits 10 n) = none
  rfc3339_digits : ∀ n : Nat, rfc3339 (Nat.toDigits 10 n) = none

/-- `normalizeLokiIntTimeToUnixNano`: seconds, milliseconds, microseconds or nanoseconds, by
size. -/
def normalizeLokiIntTimeToUnixNano (v : Int64) : Int64 :=
  let abs := if v < 0 then -v else v
  if abs < 100000000000 then v * 1000000000
  else if abs < 100000000000000 then v * 1000000
  else if abs < 100000000000000000 then v * 1000
  else v

namespace TimeLib

variable (lib : TimeLib)

/-- A time written as a number. -/
def parseNumber (raw : Text) : Option Int64 :=
  match parseInt raw with
  | some n => some (normalizeLokiIntTimeToUnixNano (Int64.ofInt n))
  | none => lib.parseFloatTime raw

/-- A time relative to the clock, or a number. -/
def parseRelative (now : Int64) (raw : Text) : Option Int64 :=
  match raw with
  | ['n', 'o', 'w'] => some now
  | 'n' :: 'o' :: 'w' :: '-' :: duration =>
    match lib.parseDuration duration with
    | some d => some (now - d)
    | none => lib.parseNumber raw
  | 'n' :: 'o' :: 'w' :: '+' :: duration =>
    match lib.parseDuration duration with
    | some d => some (now + d)
    | none => lib.parseNumber raw
  | _ => lib.parseNumber raw

def parseLokiTimeToUnixNano (now : Int64) (raw : Text) : Option Int64 :=
  let raw := trimSpace raw
  if raw = [] then none
  else ((lib.rfc3339Nano raw).or (lib.rfc3339 raw)).or (lib.parseRelative now raw)

end TimeLib

/-- The bucket size for an interval. -/
def metadataBucket (interval : Int64) : Int64 :=
  if interval ≤ 21600000000000 then 300000000000
  else if interval ≤ 172800000000000 then 3600000000000
  else 21600000000000

def bucketMetadataTime (startNs endNs : Int64) : Int64 × Int64 :=
  let bucket := metadataBucket (endNs - startNs)
  (startNs / bucket * bucket, (endNs + bucket - 1) / bucket * bucket)

/-! ## The key -/

/-- The endpoints whose answers are cached under these keys. -/
inductive Endpoint where
  | labels
  | labelValues
  | detectedFields
  deriving DecidableEq, Repr

/-- The name of an endpoint in the key. -/
def Endpoint.text : Endpoint → Text
  | .labels => "labels".toList
  | .labelValues => "label_values".toList
  | .detectedFields => "detected_fields".toList

/-- `readCacheKeyVersion`; nothing where there is no version. -/
def Endpoint.version : Endpoint → List Text
  | .labels | .labelValues => ["@full-range-v2".toList]
  | .detectedFields => []

/-- A hexadecimal digit. -/
def hexDigits : Text := "0123456789abcdef".toList

/-- A request. -/
structure Request where
  /-- `r.URL.RawQuery` -/
  rawQuery : Text
  /-- `r.FormValue` -/
  form : Text → Text
  /-- the `X-Scope-OrgID` header -/
  orgID : Text
  /-- the label in the path, for label_values -/
  labelName : Text
  /-- `fingerprintFromCtx`: a digest -/
  authScope : Text
  authScope_ne_nil : authScope ≠ []
  authScope_hex : ∀ c ∈ authScope, hexDigits.contains c = true

/-- What surrounds the handlers. -/
structure Env where
  /-- `url.ParseQuery` -/
  parseQuery : Text → Values
  times : TimeLib

/-- The parameters that are read by name. -/
inductive Param where
  | start
  | end'
  | from'
  | to
  | search
  | q
  | query
  | limit
  | offset
  | lineLimit
  deriving DecidableEq, Repr

/-- The name of a parameter. -/
def Param.text : Param → Text
  | .start => "start".toList
  | .end' => "end".toList
  | .from' => "from".toList
  | .to => "to".toList
  | .search => "search".toList
  | .q => "q".toList
  | .query => "query".toList
  | .limit => "limit".toList
  | .offset => "offset".toList
  | .lineLimit => "line_limit".toList

/-- `firstNonEmpty` of two values. -/
def firstNonEmpty (a b : Text) : Text :=
  if trimSpace a ≠ [] then a else if trimSpace b ≠ [] then b else []

variable (times : TimeLib) (now : Int64)

/-- The bounds as they enter the key: bucketed when both are times and in order. -/
def keyBounds (startRaw endRaw : Text) : Text × Text :=
  match times.parseLokiTimeToUnixNano now startRaw, times.parseLokiTimeToUnixNano now endRaw with
  | some startNs, some endNs =>
    if startNs < endNs then
      let b := bucketMetadataTime startNs endNs
      (formatInt b.1.toInt, formatInt b.2.toInt)
    else (startRaw, endRaw)
  | _, _ => (startRaw, endRaw)

/-- A parameter is set unless the value is empty. -/
def Values.setNonEmpty (params : Values) (name value : Text) : Values :=
  if value = [] then params else params.set name value

/-- `normalizeReadCacheParams`, which does the same for the three endpoints. -/
def normalizeReadCacheParams (params : Values) : Values :=
  let startRaw := trimSpace
    (firstNonEmpty (params.get Param.start.text) (params.get Param.from'.text))
  let endRaw := trimSpace (firstNonEmpty (params.get Param.end'.text) (params.get Param.to.text))
  let bounds := keyBounds times now startRaw endRaw
  let params := (params.setNonEmpty Param.start.text bounds.1).del Param.from'.text
  let params := (params.setNonEmpty Param.end'.text bounds.2).del Param.to.text
  let search := trimSpace (firstNonEmpty (params.get Param.search.text) (params.get Param.q.text))
  let params := (params.setNonEmpty Param.search.text search).del Param.q.text
  let params := params.del Param.lineLimit.text
  let query := trimSpace (params.get Param.query.text)
  params.set Param.query.text (if query = [] then ['*'] else query)

/-- A positive number in a parameter. -/
def positiveParam (value : Text) : Option Int :=
  match parseInt (trimSpace value) with
  | some n => if 0 < n then some n else none
  | none => none

variable (form : Text → Text)

/-- `parseDetectedLineLimit`: `limit` over `line_limit` over the default of 100. -/
def parseDetectedLineLimit : Int :=
  ((positiveParam (form Param.limit.text)).or (positiveParam (form Param.lineLimit.text))).getD 100

/-- The extra parts a handler gives: the label of label_values. -/
def Endpoint.extraParts (endpoint : Endpoint) (r : Request) : List Text :=
  match endpoint with
  | .labelValues => [r.labelName]
  | _ => []

/-- `canonicalReadCacheMemoKey`. -/
structure MemoKey where
  endpoint : Endpoint
  orgID : Text
  extra : Text
  rawQuery : Text
  authScope : Text
  deriving DecidableEq, Repr

/-- `buildCanonicalReadCacheMemoKey`, with the scope. -/
def Endpoint.memoKey (endpoint : Endpoint) (r : Request) : MemoKey where
  endpoint := endpoint
  orgID := r.orgID
  extra := ((endpoint.extraParts r).map trimSpace).headD []
  rawQuery := r.rawQuery
  authScope := r.authScope

def maxReadCacheKeyMemoEntries : Nat := 16384

namespace Env

variable (env : Env)

/-- The parameters in the key. -/
def keyParams (now : Int64) (endpoint : Endpoint) (r : Request) : Values :=
  let params := normalizeReadCacheParams env.times now (env.parseQuery r.rawQuery)
  match endpoint with
  | .detectedFields => params.set Param.limit.text (formatInt (parseDetectedLineLimit r.form))
  | _ => params

/-- `computeCanonicalReadCacheKey`, with the scope among the extra parts. -/
def computeCanonicalReadCacheKey (now : Int64) (endpoint : Endpoint) (r : Request) : Text :=
  let extraParts := endpoint.extraParts r ++ [['a', 'u', 't', 'h', ':'] ++ r.authScope]
  [':'].intercalate ([endpoint.text, r.orgID] ++ endpoint.version ++
    ((extraParts.map trimSpace).filter fun part => part ≠ []) ++
    [(env.keyParams now endpoint r).encode])

/-- `canonicalReadCacheKey`: the key, and the memo behind it.  A request that `raced` another one
looked it up before the other's key was in the memo. -/
def canonicalReadCacheKey (memo : KeyMap MemoKey Text) (raced : Bool) (now : Int64)
    (endpoint : Endpoint) (r : Request) : Text × KeyMap MemoKey Text :=
  let memoKey := endpoint.memoKey r
  match if raced then none else memo.find? memoKey with
  | some cached => (cached, memo)
  | none =>
    let computed := env.computeCanonicalReadCacheKey now endpoint r
    let memo := if memo.size ≥ maxReadCacheKeyMemoEntries then ∅ else memo
    (computed, memo.insert memoKey computed)

end Env

/-! ## The handlers -/

/-- A time range, up to `bucketMetadataTime`. -/
inductive TimeRange where
  | bucketed (startNs endNs : Int64)
  | raw (start end' : Text)
  deriving DecidableEq, Repr

/-- The range two parameters stand for. -/
def TimeLib.timeRange (start end' : Text) : TimeRange :=
  match times.parseLokiTimeToUnixNano now start, times.parseLokiTimeToUnixNano now end' with
  | some startNs, some endNs =>
    if startNs < endNs then
      let b := bucketMetadataTime startNs endNs
      .bucketed b.1 b.2
    else .raw start end'
  | _, _ => .raw start end'

/-- The query as all uses of it take it: `stripMetricWrapper` trims it, and `defaultQuery` reads
an empty one as `*`. -/
def usedQuery : Text :=
  let query := trimSpace (form Param.query.text)
  if query = [] then ['*'] else query

/-- The search text, from `search` or `q`; all uses of it are trimmed. -/
def usedSearch : Text :=
  let search := trimSpace (form Param.search.text)
  if search = [] then trimSpace (form Param.q.text) else search

/-- The parameters that the answer depends on. -/
inductive HandlerParams where
  | labels (query : Text) (range : TimeRange) (search : Text)
  | labelValues (labelName query : Text) (range : TimeRange) (search limit offset : Text)
  | detectedFields (query : Text) (range : TimeRange) (lineLimit : Int)
  deriving DecidableEq, Repr

/-- What `handleLabels`, `handleLabelValues` and `handleDetectedFields` read. -/
def Env.handlerParams (env : Env) (now : Int64) (endpoint : Endpoint) (r : Request) :
    HandlerParams :=
  let range := env.times.timeRange now (r.form Param.start.text) (r.form Param.end'.text)
  match endpoint with
  | .labels => .labels (usedQuery r.form) range (usedSearch r.form)
  | .labelValues =>
    .labelValues r.labelName (usedQuery r.form) range (usedSearch r.form) (r.form Param.limit.text)
      (r.form Param.offset.text)
  | .detectedFields =>
    .detectedFields (usedQuery r.form) range (parseDetectedLineLimit r.form)

/-! ## Runs -/

/-- A request at some time. -/
structure Call where
  now : Int64
  endpoint : Endpoint
  request : Request
  raced : Bool

/-- The memo, and the calls so far with their keys. -/
structure State where
  memo : KeyMap MemoKey Text
  keyed : List (Call × Text)

/-- Before the first call. -/
def State.start : State := ⟨∅, []⟩

/-- One call. -/
def Env.step (env : Env) (s : State) (c : Call) : State :=
  let answer := env.canonicalReadCacheKey s.memo c.raced c.now c.endpoint c.request
  ⟨answer.2, (c, answer.1) :: s.keyed⟩

open List Values

/-! ## Values -/

/-- The first text that is not empty. -/
def nonEmptyOr : Text → Text → Text
  | [], b => b
  | a, _ => a

theorem nonEmptyOr_of_ne_nil {a : Text} (ha : a ≠ []) (b : Text) : nonEmptyOr a b = a := by
  cases a with
  | nil => exact absurd rfl ha
  | cons c a => rfl

namespace Values

variable (params : Values)

theorem get_set (name value name' : Text) :
    (params.set name value).get name' = if name' = name then value else params.get name' := by
  rw [get, set, SortedMap.find?_insert]
  split_ifs <;> rfl

theorem get_del (name name' : Text) :
    (params.del name).get name' = if name' = name then [] else params.get name' := by
  rw [get, del, SortedMap.find?_erase]
  split_ifs <;> rfl

theorem get_setNonEmpty_self (name value : Text) :
    (params.setNonEmpty name value).get name = nonEmptyOr value (params.get name) := by
  rw [setNonEmpty]
  split_ifs with hvalue
  · rw [hvalue]
    rfl
  · rw [get_set, if_pos rfl, nonEmptyOr_of_ne_nil hvalue]

theorem get_setNonEmpty_of_ne {name name' : Text} (hne : name' ≠ name) (params : Values)
    (value : Text) : (params.setNonEmpty name value).get name' = params.get name' := by
  rw [setNonEmpty]
  split_ifs
  · rfl
  · rw [get_set, if_neg hne]

/-- The value of a parameter is the first one among the pairs. -/
theorem get_eq_find?_pairs (name : Text) :
    params.get name = ((params.pairs.find? fun e => e.1 = name).map Prod.snd).getD [] := by
  have hlist : ∀ es : List (Text × List Text), es.Pairwise (fun a b => a.1 < b.1) →
      (((es.find? fun e => e.1 = name).map Prod.snd).getD []).headD [] =
        (((es.flatMap fun e => e.2.map fun value => (e.1, value)).find?
          fun e => e.1 = name).map Prod.snd).getD [] := by
    intro es hes
    induction es with
    | nil => rfl
    | cons e es ih =>
      obtain ⟨hhead, htail⟩ := pairwise_cons.mp hes
      have ih := ih htail
      obtain ⟨key, values⟩ := e
      rw [flatMap_cons, find?_append]
      cases hkey : decide (key = name) with
      | false =>
        have hnone : (values.map fun value => (key, value)).find? (fun e => e.1 = name) = none := by
          rw [find?_eq_none]
          intro x hx
          obtain ⟨value, -, rfl⟩ := mem_map.mp hx
          simpa using hkey
        rw [find?_cons_of_neg (by simpa using hkey), hnone, Option.none_or, ih]
      | true =>
        obtain rfl : key = name := by simpa using hkey
        have hothers : es.find? (fun e => e.1 = key) = none := by
          rw [find?_eq_none]
          intro x hx
          simpa using (hhead x hx).ne'
        rw [hothers] at ih
        rw [find?_cons_of_pos (by simp)]
        cases values with
        | nil => exact ih
        | cons value values => simp
  rw [get, SortedMap.find?, pairs]
  convert hlist params.entries params.sorted

/-- Equal encodings hold the same parameters. -/
theorem get_eq_of_encode_eq {params params' : Values} (h : params.encode = params'.encode)
    (name : Text) : params.get name = params'.get name := by
  rw [get_eq_find?_pairs, get_eq_find?_pairs, encodePairs_injective h]

end Values

/-! ## The normalised parameters -/

@[simp] theorem Param.text_inj {p p' : Param} : p.text = p'.text ↔ p = p' := by
  constructor
  · intro h
    revert h
    cases p <;> cases p' <;> decide
  · exact fun h => h ▸ rfl

theorem trimSpace_firstNonEmpty (a b : Text) :
    trimSpace (firstNonEmpty a b) = if trimSpace a = [] then trimSpace b else trimSpace a := by
  rw [firstNonEmpty]
  by_cases ha : trimSpace a = []
  · by_cases hb : trimSpace b = []
    · simp only [ha, hb, ne_eq, not_true_eq_false, if_false, if_true]
      rfl
    · simp only [ha, hb, ne_eq, not_true_eq_false, not_false_eq_true, if_false, if_true]
  · simp only [ha, ne_eq, not_false_eq_true, if_true, if_false]

section Normalised

variable (times : TimeLib) (now : Int64) (params : Values)

/-- The bounds in the key, before they replace the parameters. -/
def normalisedBounds : Text × Text :=
  keyBounds times now
    (trimSpace (firstNonEmpty (params.get Param.start.text) (params.get Param.from'.text)))
    (trimSpace (firstNonEmpty (params.get Param.end'.text) (params.get Param.to.text)))

theorem get_start_normalised : (normalizeReadCacheParams times now params).get Param.start.text =
    nonEmptyOr (normalisedBounds times now params).1 (params.get Param.start.text) := by
  simp [normalizeReadCacheParams, normalisedBounds, get_set, get_del,
    get_setNonEmpty_self,
    get_setNonEmpty_of_ne]

theorem get_end_normalised : (normalizeReadCacheParams times now params).get Param.end'.text =
    nonEmptyOr (normalisedBounds times now params).2 (params.get Param.end'.text) := by
  simp [normalizeReadCacheParams, normalisedBounds, get_set, get_del,
    get_setNonEmpty_self,
    get_setNonEmpty_of_ne]

/-- The normalised query is the one that the handlers use. -/
theorem get_query_normalised : (normalizeReadCacheParams times now params).get Param.query.text =
    usedQuery params.get := by
  simp [normalizeReadCacheParams, usedQuery, get_set, get_del,
    get_setNonEmpty_of_ne]

/-- The normalised search is the one that the handlers use. -/
theorem trimSpace_get_search_normalised :
    trimSpace ((normalizeReadCacheParams times now params).get Param.search.text) =
      usedSearch params.get := by
  have hsearch : (normalizeReadCacheParams times now params).get Param.search.text =
      nonEmptyOr (usedSearch params.get) (params.get Param.search.text) := by
    simp [normalizeReadCacheParams, usedSearch, get_set, get_del,
      get_setNonEmpty_self, get_setNonEmpty_of_ne,
      trimSpace_firstNonEmpty]
  rw [hsearch]
  by_cases hused : usedSearch params.get = []
  · rw [hused]
    rw [usedSearch] at hused
    split_ifs at hused with hblank
    · exact hblank
    · exact absurd hused hblank
  · rw [nonEmptyOr_of_ne_nil hused, usedSearch]
    split_ifs <;> exact trimSpace_trimSpace _

theorem get_other_normalised {p : Param} (hp : p = .limit ∨ p = .offset) :
    (normalizeReadCacheParams times now params).get p.text = params.get p.text := by
  rcases hp with rfl | rfl <;>
    simp [normalizeReadCacheParams, get_set, get_del,
      get_setNonEmpty_of_ne]

end Normalised

/-! ## Time ranges -/

/-- The bounds of a range as they stand in a key. -/
def TimeRange.texts : TimeRange → Text × Text
  | .bucketed startNs endNs => (formatInt startNs.toInt, formatInt endNs.toInt)
  | .raw start end' => (start, end')

/-- The bounds of the key are the texts of the parsed range. -/
theorem keyBounds_eq_texts (start end' : Text) :
    keyBounds times now start end' = (times.timeRange now start end').texts := by
  rw [keyBounds, TimeLib.timeRange]
  split
  · split_ifs <;> rfl
  · rfl

namespace TimeLib

variable (times : TimeLib)

theorem parseRelative_of_not_now {raw : Text} (hraw : ¬['n', 'o', 'w'] <+: raw) (now : Int64) :
    times.parseRelative now raw = times.parseNumber raw := by
  rw [parseRelative]
  · rintro rfl
    exact hraw (prefix_refl _)
  all_goals
    rintro duration rfl
    exact hraw ⟨_, rfl⟩

theorem parseLokiTimeToUnixNano_congr {raw : Text} (htrim : trimSpace raw = raw)
    (hraw : ¬['n', 'o', 'w'] <+: raw) (now now' : Int64) :
    times.parseLokiTimeToUnixNano now raw = times.parseLokiTimeToUnixNano now' raw := by
  simp only [parseLokiTimeToUnixNano, htrim, times.parseRelative_of_not_now hraw]

theorem normalize_of_le {v : Int64} (hv : 100000000000000000 ≤ v.toInt) :
    normalizeLokiIntTimeToUnixNano v = v := by
  have hneg : ¬v < 0 := by
    rw [Int64.lt_iff_toInt_lt, Int64.toInt_zero]
    omega
  have hbelow : ∀ bound : Int64, bound.toInt ≤ 100000000000000000 → ¬v < bound := by
    intro bound hbound
    rw [Int64.lt_iff_toInt_lt]
    omega
  simp only [normalizeLokiIntTimeToUnixNano, if_neg hneg]
  rw [if_neg (hbelow _ (by decide)), if_neg (hbelow _ (by decide)), if_neg (hbelow _ (by decide))]

/-- Nanoseconds written in decimal are read back, from 1973 on. -/
theorem parseLokiTimeToUnixNano_formatInt {v : Int64} (hv : 100000000000000000 ≤ v.toInt)
    (now : Int64) : times.parseLokiTimeToUnixNano now (formatInt v.toInt) = some v := by
  have hdigits : formatInt v.toInt = Nat.toDigits 10 v.toInt.natAbs := by
    rw [formatInt, if_neg (by omega)]
  have hmem : ∀ c ∈ formatInt v.toInt, c.isDigit = true := by
    intro c hc
    rw [hdigits] at hc
    exact isDigit_of_mem_toDigits hc
  have htrim : trimSpace (formatInt v.toInt) = formatInt v.toInt :=
    trimSpace_of_noSpace fun c hc => isSpace_of_isDigit (hmem c hc)
  have hnow : ¬['n', 'o', 'w'] <+: formatInt v.toInt := by
    rintro ⟨rest, hrest⟩
    exact absurd (hmem 'n' (hrest ▸ mem_cons_self)) (by decide)
  have hle : v.toInt ≤ 9223372036854775807 :=
    calc v.toInt
      _ ≤ Int64.maxValue.toInt := v.toInt_le
      _ = 9223372036854775807 := Int64.toInt_maxValue
  rw [parseLokiTimeToUnixNano, htrim]
  simp only [formatInt_ne_nil, if_false, times.parseRelative_of_not_now hnow, parseNumber,
    parseInt_formatInt (by omega) hle, Int64.ofInt_toInt, normalize_of_le hv]
  rw [hdigits, times.rfc3339Nano_digits, times.rfc3339_digits]
  rfl

end TimeLib

end LokiVlProxy.Proxy.MetadataKey
