/-
  Proxy/StreamLabels.lean --- the labels of a stream.

  Source: internal/proxy/stream_processing.go: parseStreamLabels, parseStreamLabelsUncached,
  appendLabelPair; internal/proxy/drilldown.go: ensureDetectedLevel, deriveServiceName,
  ensureSyntheticServiceName; internal/proxy/labels.go: canonicalLabelsKey.

  A label map is given by its entries in the order of the names, so `cloneStringMap` is the
  identity and two maps with the same entries are the same.
-/
import LokiVlProxy.Foundation.Quoting
import LokiVlProxy.Foundation.KeyMap
import LokiVlProxy.Foundation.SortedMap

namespace LokiVlProxy.Proxy

open Foundation List

/-- `map[string]string`, for labels. -/
abbrev Labels : Type := SortedMap Bytes Bytes

variable (labels : Labels)

/-- `labels[name]`. -/
def labelText (name : Bytes) : Bytes := (labels.find? name).getD []

/-! ## Reading a stream -/

/-- The pieces between the commas outside quotes; `piece` is what was read of the current one. -/
def labelPairs (inQuote : Bool) (piece : Bytes) : Bytes → List Bytes
  | [] => [piece]
  | [c] => if c = byte ',' && !inQuote then [piece, []] else [piece ++ [c]]
  | c :: d :: s =>
      if inQuote && c = byte '\\' then labelPairs inQuote (piece ++ [c, d]) s
      else
        let inQuote := if c = byte '"' then !inQuote else inQuote
        if c = byte ',' && !inQuote then piece :: labelPairs inQuote [] (d :: s)
        else labelPairs inQuote (piece ++ [c]) (d :: s)

def appendLabelPair (dst : Labels) (pair : Bytes) : Labels :=
  match cutByte (byte '=') (trimSpaceBytes pair) with
  | none => dst
  | some (k, v) =>
      if k.isEmpty then dst
      else
        let v := trimSpaceBytes v
        dst.insert (trimSpaceBytes k) ((unquoteBytes v).getD (trimBytes (bytes "\"") v))

def parseStreamLabelsUncached (s : Bytes) : Labels :=
  let s := trimBytes (bytes "\x7b\x7d") s
  if s.isEmpty then ∅ else (labelPairs false [] s).foldl appendLabelPair ∅

/-- `parseStreamLabels`: what is returned, and the process-wide cache behind it. -/
def parseStreamLabels (cache : KeyMap Bytes Labels) (s : Bytes) : Labels × KeyMap Bytes Labels :=
  match cache.find? s with
  | some m => (m, cache)
  | none =>
      let m := parseStreamLabelsUncached s
      (m, if cache.size < 4096 then cache.insert s m else cache)

/-! ## Labels that are filled in -/

def ensureDetectedLevel : Labels :=
  if (trimSpaceBytes (labelText labels (bytes "detected_level"))).isEmpty then
    let value := trimSpaceBytes (labelText labels (bytes "level"))
    if value.isEmpty then labels else labels.insert (bytes "detected_level") value
  else labels

def serviceNameSourceFields : List Bytes :=
  ["service_name", "service.name", "service", "app", "application", "app_name", "name",
    "app_kubernetes_io_name", "container", "container_name", "k8s.container.name",
    "k8s_container_name", "component", "workload", "job", "k8s.job.name", "k8s_job_name"].map bytes

def deriveServiceName : Bytes :=
  ((serviceNameSourceFields.map fun key => trimSpaceBytes (labelText labels key)).find?
    fun value => !value.isEmpty).getD (bytes "unknown_service")

def ensureSyntheticServiceName : Labels :=
  if (trimSpaceBytes (labelText labels (bytes "service_name"))).isEmpty then
    labels.insert (bytes "service_name") (deriveServiceName labels)
  else labels

/-! ## The key of a label set -/

/-- One label of `canonicalLabelsKey`. -/
def canonicalLabel (e : Bytes × Bytes) : Bytes :=
  e.1 ++ bytes "=\"" ++ (e.2.flatMap fun c => if c = byte '"' then bytes "\\\"" else [c]) ++ bytes "\""

def canonicalLabelsKey : Bytes :=
  bytes "\x7b" ++ (bytes ",").intercalate (labels.entries.map canonicalLabel) ++ bytes "\x7d"

/-! ## What is kept -/

/-- A cache of parsed streams holds what parsing gives. -/
def ParsedOnly (cache : KeyMap Bytes Labels) : Prop :=
  ∀ s m, cache.find? s = some m → m = parseStreamLabelsUncached s

theorem parsedOnly_empty : ParsedOnly ∅ := by
  intro s m h
  rw [KeyMap.find?_empty] at h
  cases h

variable {cache : KeyMap Bytes Labels}

theorem ParsedOnly.insert (h : ParsedOnly cache) (s : Bytes) :
    ParsedOnly (cache.insert s (parseStreamLabelsUncached s)) := by
  intro t m hm
  rw [KeyMap.find?_insert] at hm
  split at hm
  · next heq =>
    rw [heq]
    exact (Option.some.inj hm).symm
  · exact h t m hm

/-- The cache of parsed streams changes no answer. -/
theorem parseStreamLabels_eq (h : ParsedOnly cache) (s : Bytes) :
    (parseStreamLabels cache s).1 = parseStreamLabelsUncached s ∧
      ParsedOnly (parseStreamLabels cache s).2 := by
  unfold parseStreamLabels
  split
  · next m hm => exact ⟨h s m hm, h⟩
  · refine ⟨rfl, ?_⟩
    dsimp only
    split
    · exact h.insert s
    · exact h

theorem find?_ensureDetectedLevel {labels : Labels} {name : Bytes}
    (h : ((ensureDetectedLevel labels).find? name).isSome) :
    (labels.find? name).isSome ∨ name = bytes "detected_level" := by
  unfold ensureDetectedLevel at h
  split at h
  · dsimp only at h
    split at h
    · exact .inl h
    · rw [SortedMap.find?_insert] at h
      split at h
      · next heq => exact .inr heq
      · exact .inl h
  · exact .inl h

theorem find?_ensureSyntheticServiceName {labels : Labels} {name : Bytes}
    (h : ((ensureSyntheticServiceName labels).find? name).isSome) :
    (labels.find? name).isSome ∨ name = bytes "service_name" := by
  unfold ensureSyntheticServiceName at h
  split at h
  · rw [SortedMap.find?_insert] at h
    split at h
    · next heq => exact .inr heq
    · exact .inl h
  · exact .inl h

/-! ## The key names the map

Only quotes are escaped, so a value that ends in a backslash makes its closing quote look like
an escaped one.  Reading it so moves every later quote of the key to the other side of its
value, and the key then ends inside a value. -/

def escapeQuotes (v : Bytes) : Bytes := v.flatMap fun c => if c = byte '"' then bytes "\\\"" else [c]

/-- What follows the closing quote of a value. -/
def afterValue (es : List (Bytes × Bytes)) : Bytes :=
  es.flatMap (fun e => byte ',' :: canonicalLabel e) ++ bytes "\x7d"

/-- Names of letters, digits and `_`, `.`, `-`, `/`, `:` are plain. -/
def PlainNames (es : List (Bytes × Bytes)) : Prop := ∀ e ∈ es, byte '"' ∉ e.1 ∧ byte '=' ∉ e.1

variable {es es' : List (Bytes × Bytes)} {v : Bytes}

theorem escapeQuotes_cons (c : UInt8) (v : Bytes) : escapeQuotes (c :: v) =
    if c = byte '"' then byte '\\' :: byte '"' :: escapeQuotes v else c :: escapeQuotes v := by
  rw [escapeQuotes, flatMap_cons]
  split <;> rfl

theorem afterValue_cons (e : Bytes × Bytes) : afterValue (e :: es) =
    byte ',' :: e.1 ++ byte '=' :: byte '"' :: (escapeQuotes e.2 ++ byte '"' :: afterValue es) := by
  rw [afterValue, flatMap_cons, canonicalLabel, append_assoc, ← afterValue]
  have hopen : bytes "=\"" = [byte '=', byte '"'] := by decide
  have hclose : bytes "\"" = [byte '"'] := by decide
  simp [hopen, hclose, escapeQuotes]

/-- A quote after something other than a backslash closes a value. -/
theorem eq_of_append_quote {p x y : Bytes} (hp : byte '"' ∉ p) (hlast : p.getLast? ≠ some (byte '\\'))
    (h : p ++ byte '"' :: x = escapeQuotes v ++ byte '"' :: y) : x = y := by
  induction v generalizing p with
  | nil =>
    cases p with
    | nil => exact (cons.inj h).2
    | cons c p => exact absurd (by simp [(cons.inj h).1]) hp
  | cons c v ih =>
    rw [escapeQuotes_cons] at h
    split at h
    · match p with
      | [] => exact absurd (cons.inj h).1 (by decide)
      | [d] => exact absurd (congrArg some (cons.inj h).1) hlast
      | d :: e :: p => exact absurd (by simp [(cons.inj (cons.inj h).2).1]) hp
    · next hc =>
      cases p with
      | nil => exact absurd (cons.inj h).1.symm hc
      | cons d p =>
        refine ih (fun hmem => hp (mem_cons_of_mem d hmem)) (fun hlast' => hlast ?_) (cons.inj h).2
        simp [getLast?_cons, hlast']

/-- What follows a value does not go on with the end of a value. -/
theorem afterValue_ne (es es' : List (Bytes × Bytes)) (hes : PlainNames es) (hes' : PlainNames es')
    (v : Bytes) : afterValue es ≠ escapeQuotes v ++ byte '"' :: afterValue es' := by
  intro h
  match es with
  | [] =>
    have hmem : byte '"' ∈ afterValue [] := h ▸ by simp
    exact absurd hmem (by decide)
  | e :: es =>
    -- The first quote of a label follows its equals sign, so the value ends there.
    have hname := (hes e mem_cons_self).1
    rw [afterValue_cons, append_cons] at h
    have hrest := eq_of_append_quote
      (by simpa using ⟨by decide, hname, by decide⟩)
      (by rw [getLast?_concat]; decide) h
    exact afterValue_ne es' es hes' (fun e' he' => hes e' (mem_cons_of_mem e he')) e.2 hrest.symm
termination_by es.length + es'.length

theorem escapeQuotes_cons_ne (c : UInt8) (v s t : Bytes) :
    escapeQuotes (c :: v) ++ s ≠ byte '"' :: t := by
  rw [escapeQuotes_cons]
  split
  · exact fun h => absurd (cons.inj h).1 (by decide)
  · next hc => exact fun h => hc (cons.inj h).1

theorem quote_cons_ne (hes : PlainNames es) (hes' : PlainNames es') (v v' : Bytes) :
    escapeQuotes v' ++ byte '"' :: afterValue es' ≠
      byte '"' :: (escapeQuotes v ++ byte '"' :: afterValue es) := by
  cases v' with
  | nil => exact fun h => afterValue_ne es' es hes' hes v (cons.inj h).2
  | cons c v' => exact escapeQuotes_cons_ne c v' _ _

/-- A quoted value ends where its quote does. -/
theorem eq_of_escapeQuotes (hes : PlainNames es) (hes' : PlainNames es') {v' : Bytes}
    (h : escapeQuotes v ++ byte '"' :: afterValue es = escapeQuotes v' ++ byte '"' :: afterValue es') :
    v = v' ∧ afterValue es = afterValue es' := by
  induction v generalizing v' with
  | nil =>
    cases v' with
    | nil => exact ⟨rfl, (cons.inj h).2⟩
    | cons d v' => exact absurd h.symm (escapeQuotes_cons_ne d v' _ _)
  | cons c v ih =>
    cases v' with
    | nil => exact absurd h (escapeQuotes_cons_ne c v _ _)
    | cons d v' =>
      rw [escapeQuotes_cons, escapeQuotes_cons] at h
      split at h <;> split at h
      · next hc hd =>
        obtain ⟨rfl, hrest⟩ := ih (cons.inj (cons.inj h).2).2
        exact ⟨by rw [hc, hd], hrest⟩
      · exact absurd (cons.inj h).2.symm (quote_cons_ne hes hes' _ _)
      · exact absurd (cons.inj h).2 (quote_cons_ne hes' hes _ _)
      · obtain ⟨rfl, hrest⟩ := ih (cons.inj h).2
        exact ⟨by rw [(cons.inj h).1], hrest⟩

theorem eq_of_afterValue (hes : PlainNames es) (hes' : PlainNames es')
    (h : afterValue es = afterValue es') : es = es' := by
  induction es generalizing es' with
  | nil =>
    cases es' with
    | nil => rfl
    | cons e' es' =>
      rw [afterValue_cons] at h
      exact absurd (cons.inj h).1 (by decide)
  | cons e es ih =>
    cases es' with
    | nil =>
      rw [afterValue_cons] at h
      exact absurd (cons.inj h).1 (by decide)
    | cons e' es' =>
      rw [PlainNames, forall_mem_cons] at hes hes'
      rw [afterValue_cons, afterValue_cons] at h
      obtain ⟨hname, hrest⟩ := append_cons_inj_of_notMem hes.1.2 hes'.1.2 (cons.inj h).2
      obtain ⟨hvalue, hafter⟩ := eq_of_escapeQuotes hes.2 hes'.2 (cons.inj hrest).2
      rw [Prod.ext hname hvalue, ih hes.2 hes'.2 hafter]

/-- Behind its brace a key goes on as behind a value, but for the comma. -/
theorem canonicalLabelsKey_of_cons {m : Labels} {e : Bytes × Bytes} (h : m.entries = e :: es) :
    canonicalLabelsKey m = bytes "\x7b" ++ (afterValue (e :: es)).tail := by
  have hjoin (es : List (Bytes × Bytes)) (e : Bytes × Bytes) :
      (bytes ",").intercalate ((e :: es).map canonicalLabel) =
        canonicalLabel e ++ es.flatMap fun e => byte ',' :: canonicalLabel e := by
    induction es generalizing e with
    | nil => simp
    | cons e' es ih =>
      rw [map_cons, map_cons, intercalate_cons_cons, ← map_cons, ih, append_assoc]
      rfl
  rw [canonicalLabelsKey, h, hjoin, append_assoc]
  rfl

theorem equals_mem_canonicalLabelsKey_iff (m : Labels) :
    byte '=' ∈ canonicalLabelsKey m ↔ m.entries ≠ [] := by
  cases hm : m.entries with
  | nil =>
    rw [canonicalLabelsKey, hm]
    decide
  | cons e es =>
    rw [canonicalLabelsKey_of_cons hm, afterValue_cons]
    simp

/-- Different label maps have different keys. -/
theorem canonicalLabelsKey_eq_iff {m m' : Labels} (hm : PlainNames m.entries)
    (hm' : PlainNames m'.entries) : canonicalLabelsKey m = canonicalLabelsKey m' ↔ m = m' := by
  refine ⟨fun h => ?_, fun h => h ▸ rfl⟩
  have hempty : m.entries ≠ [] ↔ m'.entries ≠ [] := by
    rw [← equals_mem_canonicalLabelsKey_iff, h, equals_mem_canonicalLabelsKey_iff]
  have hentries : m.entries = m'.entries := by
    cases he : m.entries with
    | nil => exact (not_ne_iff.mp (mt hempty.mpr (not_ne_iff.mpr he))).symm
    | cons e es =>
      obtain ⟨e', es', he'⟩ := exists_cons_of_ne_nil (hempty.mp (by simp [he]))
      rw [canonicalLabelsKey_of_cons he, canonicalLabelsKey_of_cons he'] at h
      rw [he] at hm
      rw [he'] at hm' ⊢
      refine eq_of_afterValue hm hm' ?_
      rw [afterValue_cons, afterValue_cons] at h ⊢
      exact congrArg (byte ',' :: ·) (append_cancel_left h)
  cases m
  cases m'
  congr

/-- A backslash before the closing quote, and a value that goes on behind it. -/
theorem canonicalLabelsKey_ne_backslash :
    canonicalLabelsKey ⟨[(bytes "a", bytes "\\"), (bytes "b", bytes ",c=")], by decide⟩ ≠
      canonicalLabelsKey ⟨[(bytes "a", bytes "\",b="), (bytes "c", bytes "")], by decide⟩ :=
  mt (canonicalLabelsKey_eq_iff (by unfold PlainNames; decide) (by unfold PlainNames; decide)).mp
    (by decide)

end LokiVlProxy.Proxy
