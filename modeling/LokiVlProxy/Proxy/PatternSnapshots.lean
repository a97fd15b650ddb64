/-
  Proxy/PatternSnapshots.lean --- the persisted patterns and whose they are.

  Source: internal/proxy/patterns_persistence.go: recordPatternSnapshotEntry,
  applyPatternsSnapshot, patternSnapshotIdentityFromCacheKey,
  canonicalPatternSnapshotCacheKey, betterPatternSnapshotEntry,
  latestPatternSnapshotPayload, compactPatternSnapshotEntriesLocked;
  internal/proxy/patterns.go: patternScopeQuery, patternsAutodetectCacheKey;
  internal/proxy/drilldown.go: normalizeBareSelectorQuery.

  A cache key names the tenant, the query and range, and the fingerprint of the caller's
  credentials.
-/
import LokiVlProxy.Foundation.QueryEncoding
import LokiVlProxy.Foundation.KeyMap
import LokiVlProxy.Foundation.Occurrence
import LokiVlProxy.Foundation.Run

namespace LokiVlProxy.Proxy

open Foundation List Option

/-! ## Keys -/

/-- Who asks for patterns, of what. -/
structure PatternCaller where
  tenant : Bytes
  authFP : Bytes
  query : Bytes
  start : Bytes
  stop : Bytes
  step : Bytes
  deriving DecidableEq, Repr

/-- How the parts of a key are normalised: the stream selector of a query (what the parser or
the brace scanner finds), the step and the ends of the range. -/
structure PatternKeys where
  selectorPart : Bytes → Bytes
  normalizePatternCacheStep : Bytes → Bytes
  normalizePatternCacheBoundary : Bytes → Bytes → Bytes

def looksLikeLogsQLQuery (query : Bytes) : Bool :=
  [":=", ":~", ":>", ":<"].any fun sign => decide (bytes sign <:+: trimSpaceBytes query)

def normalizeBareSelectorQuery (query : Bytes) : Bytes :=
  let query := trimSpaceBytes query
  if query = [] ∨ query = bytes "*" ∨ query.head? = some (byte '\x7b') then query
  else if query.any fun b => (bytes "|()[]").contains b then query
  else if ["=~", "!~", "!=", "="].any fun sign => decide (bytes sign <:+: query) then
    bytes "\x7b" ++ query ++ bytes "\x7d"
  else query

namespace PatternKeys

variable (keys : PatternKeys)

def patternScopeQuery (query : Bytes) : Bytes :=
  let query := trimSpaceBytes query
  if query = [] then bytes "*"
  else
    let query := trimSpaceBytes (keys.selectorPart query)
    if query = [] then bytes "*"
    else if query = bytes "*" ∨ query.head? = some (byte '\x7b') then query
    else if looksLikeLogsQLQuery query then query
    else normalizeBareSelectorQuery query

/-- A value that is left out of the key when it is blank. -/
def optionalValue (name value : Bytes) : List (Bytes × Bytes) :=
  if trimSpaceBytes value = [] then [] else [(name, trimSpaceBytes value)]

variable (c : PatternCaller)

/-- The parameters of a key before the query. -/
def pairsBefore : List (Bytes × Bytes) :=
  (optionalValue (bytes "end") c.stop).map fun e =>
    (e.1, keys.normalizePatternCacheBoundary e.2 (keys.normalizePatternCacheStep c.step))

/-- The parameters of a key behind the query. -/
def pairsBehind : List (Bytes × Bytes) :=
  ((optionalValue (bytes "start") c.start).map fun e =>
    (e.1, keys.normalizePatternCacheBoundary e.2 (keys.normalizePatternCacheStep c.step))) ++
    optionalValue (bytes "step") (keys.normalizePatternCacheStep c.step)

/-- The parameters in the order of their names. -/
def pairs : List (Bytes × Bytes) :=
  keys.pairsBefore c ++ (bytes "query", trimSpaceBytes (keys.patternScopeQuery c.query)) ::
    keys.pairsBehind c

def authSuffix : Bytes :=
  if c.authFP = [] then [] else bytes ":auth:" ++ c.authFP

def patternsAutodetectCacheKey : Bytes :=
  if trimSpaceBytes (keys.patternScopeQuery c.query) = [] then []
  else bytes "patterns" ++ 58 :: (c.tenant ++ 58 :: (encodeValues (keys.pairs c) ++ authSuffix c))

/-- The tenant and the scope of the query that are read from a key. -/
def readKey (key : Bytes) : Option (Bytes × Bytes) :=
  match splitN 58 2 (trimSpaceBytes key) with
  | [kind, org, rest] =>
      if kind = bytes "patterns" then
        (parseQuery rest).bind fun params =>
          let query := keys.patternScopeQuery (getValue params (bytes "query"))
          if trimSpaceBytes query = [] then none else some (trimSpaceBytes org, query)
      else none
  | _ => none

def patternSnapshotIdentityFromCacheKey (key : Bytes) : Bytes :=
  match keys.readKey key with
  | none => []
  | some (org, query) => org ++ 0 :: query

def canonicalPatternSnapshotCacheKey (key : Bytes) : Bytes :=
  match keys.readKey key with
  | none => trimSpaceBytes key
  | some (org, query) =>
      bytes "patterns" ++ 58 :: (org ++ 58 :: encodeValues [(bytes "query", query)])

end PatternKeys

/-! ## What is left of a key -/

/-- A caller whose key is read as it was meant: no colon, no NUL and no white space around the
tenant; a scope that is its own scope; and a fingerprint, if there is one, of letters, digits
and the four unreserved signs that is glued to the start or the step. -/
structure PatternCaller.Plain (keys : PatternKeys) (c : PatternCaller) : Prop where
  tenant_colon : 58 ∉ c.tenant
  tenant_nul : 0 ∉ c.tenant
  tenant_trimmed : trimSpaceBytes c.tenant = c.tenant
  scope_trimmed : trimSpaceBytes (keys.patternScopeQuery c.query) = keys.patternScopeQuery c.query
  scope_stable : keys.patternScopeQuery (keys.patternScopeQuery c.query) =
    keys.patternScopeQuery c.query
  fingerprint : c.authFP = [] ∨
    (keys.pairsBehind c ≠ [] ∧ ∀ b ∈ c.authFP, unreservedByte b = true)

namespace PatternKeys

variable {keys : PatternKeys} {c : PatternCaller}

theorem visible_of_written {b : UInt8} (hb : writtenByte b = true) : visibleByte b = true := by
  simp only [writtenByte, unreservedByte, Bool.or_eq_true, Bool.and_eq_true, decide_eq_true_eq,
    beq_iff_eq, contains_iff_mem, mem_cons, not_mem_nil, or_false] at hb
  simp only [visibleByte, Bool.and_eq_true, decide_eq_true_eq]
  rcases hb with (hb | rfl) | rfl
  · omega
  · decide
  · decide

variable (e : Bytes × Bytes)

theorem visible_encodePart : ∀ b ∈ encodePart e, visibleByte b = true := by
  intro b hb
  rw [encodePart, mem_append, mem_cons] at hb
  rcases hb with hb | rfl | hb
  · exact visible_of_written (writtenByte_of_mem hb)
  · decide
  · exact visible_of_written (writtenByte_of_mem hb)

theorem notMem_encodePart : 38 ∉ encodePart e := by
  intro hb
  rw [encodePart, mem_append, mem_cons] at hb
  rcases hb with hb | hb | hb
  · exact absurd (writtenByte_of_mem hb) (by decide)
  · exact absurd hb (by decide)
  · exact absurd (writtenByte_of_mem hb) (by decide)

theorem encodePart_ne_nil : encodePart e ≠ [] := by
  rw [encodePart]
  exact append_ne_nil_of_right_ne_nil _ (cons_ne_nil _ _)

theorem intercalate_concat_append (init : List Bytes) (last t : Bytes) :
    [38].intercalate (init ++ [last]) ++ t = ([38] : Bytes).intercalate (init ++ [last ++ t]) := by
  by_cases hne : init = []
  · simp [hne]
  · rw [intercalate_concat hne, intercalate_concat hne, append_assoc, cons_append]

/-- A tenant, and written parts that are read back, make a key that is read back. -/
theorem readKey_of_parts {tenant : Bytes} {parts : List Bytes} {params : List (Bytes × Bytes)}
    (hcolon : 58 ∉ tenant) (htrim : trimSpaceBytes tenant = tenant) (hparts : parts ≠ [])
    (hclean : ∀ part ∈ parts, 38 ∉ part ∧ part ≠ [] ∧ ∀ b ∈ part, visibleByte b = true)
    (hparse : parts.mapM parsePart = some params) :
    keys.readKey (bytes "patterns" ++ 58 :: (tenant ++ 58 :: ([38] : Bytes).intercalate parts)) =
      if trimSpaceBytes (keys.patternScopeQuery (getValue params (bytes "query"))) = [] then none
      else some (tenant, keys.patternScopeQuery (getValue params (bytes "query"))) := by
  have hvisible : ∀ b ∈ ([38] : Bytes).intercalate parts, visibleByte b = true := by
    intro b hb
    rcases mem_intercalate hb with rfl | ⟨part, hpart, hb'⟩
    · decide
    · exact (hclean part hpart).2.2 b hb'
  have htrimmed : trimSpaceBytes
      (bytes "patterns" ++ 58 :: (tenant ++ 58 :: ([38] : Bytes).intercalate parts)) =
      bytes "patterns" ++ 58 :: (tenant ++ 58 :: ([38] : Bytes).intercalate parts) := by
    refine trimSpaceBytes_of_visible (fun b hb => ?_) fun b hb => ?_
    · have hfirst : b = 112 := by
        have hhead : (bytes "patterns" ++ 58 :: (tenant ++ 58 :: ([38] : Bytes).intercalate
          parts)).head? = some 112 := rfl
        rw [hhead] at hb
        exact (some.inj hb).symm
      rw [hfirst]
      decide
    · rw [← cons_append, ← append_assoc, getLast?_append] at hb
      cases hrest : (58 :: ([38] : Bytes).intercalate parts).getLast? with
      | none => exact absurd (getLast?_eq_none_iff.mp hrest) (cons_ne_nil _ _)
      | some last =>
        rw [hrest, some_or] at hb
        rw [← some.inj hb]
        rcases mem_cons.mp (mem_of_getLast? hrest) with rfl | hmem
        · decide
        · exact hvisible last hmem
  rw [readKey, htrimmed, splitN_succ (by decide), splitN_succ hcolon, splitN]
  simp only [if_true, htrim]
  rw [parseQuery_intercalate hparts fun part h => ⟨(hclean part h).1, (hclean part h).2.1⟩, hparse,
    bind_some]

/-- Encoded pairs are read back. -/
theorem mapM_parsePart (es : List (Bytes × Bytes)) :
    (es.map encodePart).mapM parsePart = some es := by
  induction es with
  | nil => rfl
  | cons e es ih =>
    have he := parsePart_encodePart e (t := []) fun b hb => absurd hb not_mem_nil
    rw [append_nil, append_nil] at he
    rw [map_cons, mapM_cons, he, ih]
    rfl

theorem clean_encodePart :
    38 ∉ encodePart e ∧ encodePart e ≠ [] ∧ ∀ b ∈ encodePart e, visibleByte b = true :=
  ⟨notMem_encodePart e, encodePart_ne_nil e, visible_encodePart e⟩

theorem getValue_pairs (c : PatternCaller) (value : Bytes) (more : List (Bytes × Bytes)) :
    getValue (keys.pairsBefore c ++ (bytes "query", value) :: more) (bytes "query") = value := by
  have hbefore : (keys.pairsBefore c).find? (fun e => e.1 = bytes "query") = none := by
    rw [find?_eq_none]
    intro e he
    obtain ⟨e', he', rfl⟩ := mem_map.mp he
    rw [optionalValue] at he'
    split at he'
    · exact absurd he' not_mem_nil
    · have hne : bytes "end" ≠ bytes "query" := by decide
      rw [mem_singleton.mp he']
      simpa using hne
  rw [getValue, find?_append, hbefore, none_or, find?_cons_of_pos (by simp)]
  rfl

section

variable (h : c.Plain keys) (hscope : keys.patternScopeQuery c.query ≠ [])

include h hscope

/-- What is read from the key of a plain caller. -/
theorem readKey_cacheKey :
    keys.readKey (keys.patternsAutodetectCacheKey c) =
      some (c.tenant, keys.patternScopeQuery c.query) := by
  have hresult : ∀ more pairs, keys.pairsBefore c ++
      (bytes "query", trimSpaceBytes (keys.patternScopeQuery c.query)) :: more = pairs →
      (if trimSpaceBytes (keys.patternScopeQuery (getValue pairs (bytes "query"))) = [] then none
        else some (c.tenant, keys.patternScopeQuery (getValue pairs (bytes "query")))) =
      some (c.tenant, keys.patternScopeQuery c.query) := by
    rintro more _ rfl
    rw [getValue_pairs, h.scope_trimmed, h.scope_stable, h.scope_trimmed, if_neg hscope]
  rw [patternsAutodetectCacheKey, if_neg (by rwa [h.scope_trimmed]), authSuffix]
  split
  · rw [append_nil, encodeValues, readKey_of_parts h.tenant_colon h.tenant_trimmed
      (by simp [pairs]) (fun part hpart => ?_) (mapM_parsePart _)]
    · exact hresult _ _ rfl
    · obtain ⟨e, -, rfl⟩ := mem_map.mp hpart
      exact clean_encodePart e
  · rename_i hfp
    obtain ⟨hbehind, hplain⟩ := h.fingerprint.resolve_left hfp
    obtain ⟨init, last, hlast⟩ := eq_nil_or_concat (keys.pairsBehind c) |>.resolve_left hbehind
    rw [concat_eq_append] at hlast
    -- the fingerprint is read as the end of the last value
    have hglued : ∀ b ∈ bytes ":auth:" ++ c.authFP, unreservedByte b = true ∨ b = 58 := by
      intro b hb
      rcases mem_append.mp hb with hb | hb
      · have hall : ∀ b ∈ bytes ":auth:", unreservedByte b = true ∨ b = 58 := by
          decide +kernel
        exact hall b hb
      · exact .inl (hplain b hb)
    obtain ⟨front, hfront, hpairs⟩ : ∃ front, keys.pairsBefore c ++
        (bytes "query", trimSpaceBytes (keys.patternScopeQuery c.query)) :: init = front ∧
          keys.pairs c = front ++ [last] := ⟨_, rfl, by rw [pairs, hlast]; simp⟩
    have hparse : (front.map encodePart ++
          [encodePart last ++ (bytes ":auth:" ++ c.authFP)]).mapM parsePart =
        some (front ++ [(last.1, last.2 ++ (bytes ":auth:" ++ c.authFP))]) := by
      rw [mapM_append, mapM_parsePart, mapM_cons, parsePart_encodePart last hglued]
      simp
    rw [encodeValues, hpairs, map_append, map_singleton, intercalate_concat_append,
      readKey_of_parts h.tenant_colon h.tenant_trimmed (by simp) (fun part hpart => ?_) hparse]
    · exact hresult _ _ (by rw [← hfront, append_assoc]; rfl)
    · rcases mem_append.mp hpart with hpart | hpart
      · obtain ⟨e, -, rfl⟩ := mem_map.mp hpart
        exact clean_encodePart e
      · obtain ⟨hamp, hne, hvisible⟩ := clean_encodePart last
        rw [mem_singleton.mp hpart]
        refine ⟨fun hmem => ?_, fun hnil => hne (append_eq_nil_iff.mp hnil).1, fun b hb => ?_⟩
        · rcases mem_append.mp hmem with hmem | hmem
          · exact hamp hmem
          · rcases hglued 38 hmem with h' | h'
            all_goals exact absurd h' (by decide)
        · rcases mem_append.mp hb with hb | hb
          · exact hvisible b hb
          · rcases hglued b hb with h' | rfl
            · exact visible_of_written (by rw [writtenByte, h']; rfl)
            · decide

/-- A canonical key is read back as its tenant and scope. -/
theorem readKey_canonical :
    keys.readKey (bytes "patterns" ++ 58 :: (c.tenant ++ 58 ::
        encodeValues [(bytes "query", keys.patternScopeQuery c.query)])) =
      some (c.tenant, keys.patternScopeQuery c.query) := by
  rw [encodeValues, readKey_of_parts h.tenant_colon h.tenant_trimmed (by simp)
    (fun part hpart => ?_) (mapM_parsePart _)]
  · have hget : getValue [(bytes "query", keys.patternScopeQuery c.query)] (bytes "query") =
        keys.patternScopeQuery c.query := by simp [getValue]
    rw [hget, h.scope_stable, h.scope_trimmed, if_neg hscope]
  · obtain ⟨e, -, rfl⟩ := mem_map.mp hpart
    exact clean_encodePart e

/-- The identity of a key is the tenant and the scope that it was made of. -/
theorem identity_cacheKey :
    keys.patternSnapshotIdentityFromCacheKey (keys.patternsAutodetectCacheKey c) =
      c.tenant ++ 0 :: keys.patternScopeQuery c.query := by
  rw [patternSnapshotIdentityFromCacheKey, readKey_cacheKey h hscope]

end

theorem readKey_nil : keys.readKey [] = none := rfl

theorem identity_nil : keys.patternSnapshotIdentityFromCacheKey [] = [] := by
  rw [patternSnapshotIdentityFromCacheKey, readKey_nil]

theorem canonical_nil : keys.canonicalPatternSnapshotCacheKey [] = [] := by
  rw [canonicalPatternSnapshotCacheKey, readKey_nil]
  rfl

/-- Making a key canonical keeps its identity. -/
theorem identity_canonical (h : c.Plain keys) (hscope : keys.patternScopeQuery c.query ≠ []) :
    keys.patternSnapshotIdentityFromCacheKey (keys.canonicalPatternSnapshotCacheKey
        (keys.patternsAutodetectCacheKey c)) =
      c.tenant ++ 0 :: keys.patternScopeQuery c.query := by
  have hcanonical : keys.canonicalPatternSnapshotCacheKey (keys.patternsAutodetectCacheKey c) =
      bytes "patterns" ++ 58 :: (c.tenant ++ 58 ::
        encodeValues [(bytes "query", keys.patternScopeQuery c.query)]) := by
    rw [canonicalPatternSnapshotCacheKey, readKey_cacheKey h hscope]
  rw [hcanonical, patternSnapshotIdentityFromCacheKey, readKey_canonical h hscope]

end PatternKeys

/-! ## The stored entries -/

structure SnapshotEntry where
  value : Bytes
  updatedAt : Int
  patternCount : Int
  deriving DecidableEq, Repr

abbrev SnapshotEntries : Type := KeyMap Bytes SnapshotEntry

def betterPatternSnapshotEntry (current incoming : SnapshotEntry)
    (currentKey incomingKey : Bytes) : Bool :=
  if incoming.updatedAt ≠ current.updatedAt then incoming.updatedAt > current.updatedAt
  else if incoming.patternCount ≠ current.patternCount then
    incoming.patternCount > current.patternCount
  else if incoming.value.length ≠ current.value.length then
    incoming.value.length > current.value.length
  else incomingKey > currentKey

/-- The settings, and how a payload is normalised and its patterns are counted. -/
structure SnapshotConfig where
  keys : PatternKeys
  patternsEnabled : Bool
  persists : Bool
  hasCache : Bool
  normalizePatternSnapshotPayload : Bytes → Bytes
  patternCountFromPayload : Bytes → Nat

namespace SnapshotConfig

variable (config : SnapshotConfig)

/-- The keys of one identity that have the value of another one of them and are worse: the
inner loop of the compaction, with the keys kept and dropped so far. -/
def worseKeys (entries : SnapshotEntries) : List Bytes → List Bytes → List Bytes → List Bytes
  | _, dropped, [] => dropped
  | keep, dropped, key :: keys =>
      match (entries.find? key), keep.find? fun kept =>
          (entries.find? kept).map SnapshotEntry.value =
            (entries.find? key).map SnapshotEntry.value with
      | some entry, some kept =>
          if ((entries.find? kept).map fun current =>
              betterPatternSnapshotEntry current entry kept key).getD false then
            worseKeys entries (keep.replace kept key) (kept :: dropped) keys
          else worseKeys entries keep (key :: dropped) keys
      | _, _ => worseKeys entries (keep ++ [key]) dropped keys

variable (order : LoopOrder) (entries : SnapshotEntries)

/-- `compactPatternSnapshotEntriesLocked`. -/
def compactPatternSnapshotEntries :
    SnapshotEntries :=
  if entries.size ≤ 1 then entries
  else
    let keys := order.arrange entries.keys
    let identities := (keys.map config.keys.patternSnapshotIdentityFromCacheKey).dedup.filter (· ≠ [])
    (identities.flatMap fun identity => worseKeys entries [] []
      (keys.filter fun key => config.keys.patternSnapshotIdentityFromCacheKey key = identity)).foldl
        KeyMap.erase entries

def recordPatternSnapshotEntry (cacheKey payload : Bytes) (now : Int)
    (entries : SnapshotEntries) : SnapshotEntries :=
  if config.patternsEnabled ∧ config.persists then
    let canonicalKey := config.keys.canonicalPatternSnapshotCacheKey cacheKey
    let key := if canonicalKey = [] then cacheKey else canonicalKey
    let value := config.normalizePatternSnapshotPayload payload
    let fresh := config.compactPatternSnapshotEntries order
      (entries.insert key ⟨value, now, config.patternCountFromPayload value⟩)
    match entries.find? key with
    | some existing =>
        if existing.value = value then
          if existing.updatedAt < now then entries.insert key { existing with updatedAt := now }
          else entries
        else fresh
    | none => fresh
  else entries

/-- One entry of the loop of `applyPatternsSnapshot`. -/
def applyEntry (now : Int) (entries : SnapshotEntries) (key : Bytes) (incoming : SnapshotEntry) :
    SnapshotEntries :=
  if trimSpaceBytes key = [] ∨ incoming.value = [] then entries
  else
    let canonicalKey := config.keys.canonicalPatternSnapshotCacheKey key
    let target := if trimSpaceBytes canonicalKey = [] then key else canonicalKey
    let value := config.normalizePatternSnapshotPayload incoming.value
    let updatedAt := if incoming.updatedAt ≤ 0 then now else incoming.updatedAt
    let count := if incoming.patternCount ≤ 0 then (config.patternCountFromPayload value : Int)
      else incoming.patternCount
    match entries.find? target with
    | some existing =>
        if existing.updatedAt ≥ updatedAt then entries
        else entries.insert target ⟨value, updatedAt, count⟩
    | none => entries.insert target ⟨value, updatedAt, count⟩

/-- The loop of `latestPatternSnapshotPayload`, with the best entry so far. -/
def bestEntry : Option (Bytes × SnapshotEntry) → List (Bytes × SnapshotEntry) →
    Option (Bytes × SnapshotEntry)
  | best, [] => best
  | none, e :: es => bestEntry (some e) es
  | some best, e :: es =>
      bestEntry (if betterPatternSnapshotEntry best.2 e.2 best.1 e.1 then some e else some best) es

def latestPatternSnapshotPayload
    (cacheKey : Bytes) : Option Bytes :=
  let identity := config.keys.patternSnapshotIdentityFromCacheKey cacheKey
  if ¬ (config.patternsEnabled ∧ config.persists) ∨ identity = [] then none
  else
    (bestEntry none ((order.arrange entries.toList).filter fun e =>
      config.keys.patternSnapshotIdentityFromCacheKey e.1 = identity ∧ 0 < e.2.patternCount ∧
        e.2.value ≠ [])).map fun e => e.2.value

/-! ## Runs -/

/-- What happens to the entries.  The keys of a snapshot are those of callers; the list is in
the order in which the loop over the snapshot meets them. -/
inductive SnapshotStep where
  | record (c : PatternCaller) (payload : Bytes) (now : Int) (order : LoopOrder)
  | apply (snapshot : List (PatternCaller × SnapshotEntry)) (now : Int) (order : LoopOrder)
  | compact (order : LoopOrder)

def step : SnapshotStep → SnapshotEntries
  | .record c payload now order =>
      config.recordPatternSnapshotEntry order (config.keys.patternsAutodetectCacheKey c) payload now
        entries
  | .apply snapshot now order =>
      if config.hasCache then
        config.compactPatternSnapshotEntries order (snapshot.foldl (fun entries e =>
          config.applyEntry now entries (config.keys.patternsAutodetectCacheKey e.1) e.2) entries)
      else entries
  | .compact order => config.compactPatternSnapshotEntries order entries

/-- The payloads a step records, each with the caller it is for. -/
def recorded : SnapshotStep → List (PatternCaller × Bytes)
  | .record c payload _ _ => [(c, config.normalizePatternSnapshotPayload payload)]
  | .apply snapshot _ _ =>
      snapshot.map fun e => (e.1, config.normalizePatternSnapshotPayload e.2.value)
  | .compact _ => []

/-- The keys under which the entry of a caller may be stored. -/
def IsStoreKey (c : PatternCaller) (key : Bytes) : Prop :=
  key = config.keys.patternsAutodetectCacheKey c ∨
    key = config.keys.canonicalPatternSnapshotCacheKey (config.keys.patternsAutodetectCacheKey c)

/-- Every entry was recorded for a caller whose key it is stored under. -/
def ComesFrom (seen : List (PatternCaller × Bytes)) (entries : SnapshotEntries) : Prop :=
  ∀ key entry, entries.find? key = some entry →
    ∃ c, (c, entry.value) ∈ seen ∧ config.IsStoreKey c key

variable {config} {seen seen' : List (PatternCaller × Bytes)} {entries : SnapshotEntries}

variable {entry : SnapshotEntry}

theorem find?_foldl_erase {keys : List Bytes} {key : Bytes}
    (h : (keys.foldl KeyMap.erase entries).find? key = some entry) :
    entries.find? key = some entry := by
  induction keys generalizing entries with
  | nil => exact h
  | cons k keys ih =>
    have hrest := ih h
    rw [KeyMap.find?_erase] at hrest
    split at hrest
    · exact absurd hrest.symm (some_ne_none entry)
    · exact hrest

theorem find?_compact {order : LoopOrder} {key : Bytes}
    (h : (config.compactPatternSnapshotEntries order entries).find? key = some entry) :
    entries.find? key = some entry := by
  rw [compactPatternSnapshotEntries] at h
  split at h
  · exact h
  · exact find?_foldl_erase h

namespace ComesFrom

section

variable (h : config.ComesFrom seen entries)

include h

theorem mono (hsub : seen ⊆ seen') : config.ComesFrom seen' entries := by
  intro key entry hentry
  obtain ⟨c, hmem, hkey⟩ := h key entry hentry
  exact ⟨c, hsub hmem, hkey⟩

theorem compact (order : LoopOrder) :
    config.ComesFrom seen (config.compactPatternSnapshotEntries order entries) :=
  fun key entry hentry => h key entry (find?_compact hentry)

variable {c : PatternCaller}

theorem insert {key : Bytes} {entry : SnapshotEntry}
    (hmem : (c, entry.value) ∈ seen) (hkey : config.IsStoreKey c key) :
    config.ComesFrom seen (entries.insert key entry) := by
  intro key' entry' hentry
  rw [KeyMap.find?_insert] at hentry
  split at hentry
  · rename_i heq
    obtain rfl := some.inj hentry
    exact ⟨c, hmem, heq ▸ hkey⟩
  · exact h key' entry' hentry

theorem record {payload : Bytes}
    (hmem : (c, config.normalizePatternSnapshotPayload payload) ∈ seen) (order : LoopOrder)
    (now : Int) :
    config.ComesFrom seen (config.recordPatternSnapshotEntry order
      (config.keys.patternsAutodetectCacheKey c) payload now entries) := by
  rw [recordPatternSnapshotEntry]
  split
  · extract_lets canonicalKey key value fresh
    have hkey : config.IsStoreKey c key := by
      by_cases hnone : canonicalKey = []
      · exact .inl (if_pos hnone)
      · exact .inr (if_neg hnone)
    have hfresh : config.ComesFrom seen fresh := (h.insert hmem hkey).compact order
    split
    · rename_i existing hexisting
      split
      · rename_i hsame
        split
        · exact h.insert (hsame ▸ hmem) hkey
        · exact h
      · exact hfresh
    · exact hfresh
  · exact h

theorem applyEntry {incoming : SnapshotEntry}
    (hmem : (c, config.normalizePatternSnapshotPayload incoming.value) ∈ seen) (now : Int) :
    config.ComesFrom seen (config.applyEntry now entries
      (config.keys.patternsAutodetectCacheKey c) incoming) := by
  rw [SnapshotConfig.applyEntry]
  split
  · exact h
  · extract_lets canonicalKey target value updatedAt count
    have hkey : config.IsStoreKey c target := by
      by_cases hnone : trimSpaceBytes canonicalKey = []
      · exact .inl (if_pos hnone)
      · exact .inr (if_neg hnone)
    split
    · split
      · exact h
      · exact h.insert hmem hkey
    · exact h.insert hmem hkey

theorem applyAll {snapshot : List (PatternCaller × SnapshotEntry)}
    (hmem : ∀ e ∈ snapshot, (e.1, config.normalizePatternSnapshotPayload e.2.value) ∈ seen)
    (now : Int) :
    config.ComesFrom seen (snapshot.foldl (fun entries e =>
      config.applyEntry now entries (config.keys.patternsAutodetectCacheKey e.1) e.2) entries) := by
  induction snapshot generalizing entries with
  | nil => exact h
  | cons e snapshot ih =>
    rw [foldl_cons]
    refine ih ?_ fun e' he' => hmem e' (mem_cons_of_mem _ he')
    exact h.applyEntry (hmem e mem_cons_self) now

/-- Every step keeps the entries traced to what was recorded. -/
theorem step (s : SnapshotStep) :
    config.ComesFrom (seen ++ config.recorded s) (config.step entries s) := by
  have hmore : config.ComesFrom (seen ++ config.recorded s) entries :=
    h.mono (subset_append_left _ _)
  cases s with
  | record c payload now order =>
    have hmem : (c, config.normalizePatternSnapshotPayload payload) ∈
        config.recorded (.record c payload now order) := by
      rw [recorded]
      exact mem_cons_self
    rw [SnapshotConfig.step]
    exact hmore.record (mem_append_right _ hmem) order now
  | apply snapshot now order =>
    rw [SnapshotConfig.step]
    split
    · refine ComesFrom.compact (hmore.applyAll (fun e he => ?_) now) order
      exact mem_append_right _ (mem_map_of_mem he)
    · exact hmore
  | compact order => exact hmore.compact order

/-- Every run keeps the entries traced to what was recorded. -/
theorem run (steps : List SnapshotStep) :
    config.ComesFrom (seen ++ steps.flatMap config.recorded) (steps.foldl config.step entries) := by
  induction steps generalizing seen entries with
  | nil => simpa using h
  | cons s steps ih =>
    rw [foldl_cons, flatMap_cons, ← append_assoc]
    exact ih (h.step s)

end

end ComesFrom

/-! ## What a lookup finds -/

theorem bestEntry_mem {best : Option (Bytes × SnapshotEntry)} {es : List (Bytes × SnapshotEntry)}
    {e : Bytes × SnapshotEntry} (h : bestEntry best es = some e) : best = some e ∨ e ∈ es := by
  induction es generalizing best with
  | nil => exact .inl (by rwa [bestEntry] at h)
  | cons e' es ih =>
    cases best with
    | none =>
      rcases ih h with heq | hmem
      · exact .inr (some.inj heq ▸ mem_cons_self)
      · exact .inr (mem_cons_of_mem _ hmem)
    | some best =>
      rw [bestEntry] at h
      rcases ih h with heq | hmem
      · split at heq
        · exact .inr (some.inj heq ▸ mem_cons_self)
        · exact .inl heq
      · exact .inr (mem_cons_of_mem _ hmem)

/-- The payload that is restored is one of the entries. -/
theorem latest_found {order : LoopOrder} {cacheKey payload : Bytes}
    (h : config.latestPatternSnapshotPayload order entries cacheKey = some payload) :
    ∃ key entry, entries.find? key = some entry ∧ entry.value = payload ∧
      config.keys.patternSnapshotIdentityFromCacheKey key =
        config.keys.patternSnapshotIdentityFromCacheKey cacheKey ∧
      config.keys.patternSnapshotIdentityFromCacheKey key ≠ [] := by
  rw [latestPatternSnapshotPayload] at h
  split at h
  · exact absurd h.symm (some_ne_none payload)
  · rename_i hguard
    obtain ⟨e, hbest, hvalue⟩ := map_eq_some_iff.mp h
    have hmem := (bestEntry_mem hbest).resolve_left (some_ne_none e).symm
    obtain ⟨hlisted, hcond⟩ := mem_filter.mp hmem
    have hid := (of_decide_eq_true hcond).1
    refine ⟨e.1, e.2, ?_, hvalue, hid, ?_⟩
    · exact KeyMap.mem_toList.mp ((order.perm _).mem_iff.mp hlisted)
    · rw [hid]
      exact fun hnone => hguard (.inr hnone)

open PatternKeys

/-- The identity of a stored key is that of its caller. -/
theorem identity_storeKey {c : PatternCaller} {key : Bytes} (h : c.Plain config.keys)
    (hkey : config.IsStoreKey c key)
    (hne : config.keys.patternSnapshotIdentityFromCacheKey key ≠ []) :
    config.keys.patternSnapshotIdentityFromCacheKey key =
      c.tenant ++ 0 :: config.keys.patternScopeQuery c.query := by
  by_cases hscope : config.keys.patternScopeQuery c.query = []
  · -- without a scope the key is empty, and so is its identity
    have hempty : config.keys.patternsAutodetectCacheKey c = [] := by
      rw [patternsAutodetectCacheKey, if_pos (by rw [h.scope_trimmed, hscope])]
    rcases hkey with hkey | hkey
    · rw [hkey, hempty, identity_nil] at hne
      exact absurd rfl hne
    · rw [hkey, hempty, canonical_nil, identity_nil] at hne
      exact absurd rfl hne
  · rcases hkey with hkey | hkey
    · rw [hkey, identity_cacheKey h hscope]
    · rw [hkey, identity_canonical h hscope]

/-- The callers of a run. -/
def callers (steps : List SnapshotStep) : List PatternCaller :=
  (steps.flatMap config.recorded).map Prod.fst

/-- In a run of plain callers in which callers of one tenant and one scope have one
fingerprint, a lookup finds only what was recorded for its own tenant, fingerprint and
scope. -/
theorem latest_sameCaller {steps : List SnapshotStep} {c : PatternCaller} {order : LoopOrder}
    {payload : Bytes}
    (hplain : ∀ c' ∈ c :: config.callers steps, c'.Plain config.keys)
    (hone : ∀ c' ∈ config.callers steps, c'.tenant = c.tenant →
      config.keys.patternScopeQuery c'.query = config.keys.patternScopeQuery c.query →
      c'.authFP = c.authFP)
    (hlatest : config.latestPatternSnapshotPayload order (steps.foldl config.step ∅)
      (config.keys.patternsAutodetectCacheKey c) = some payload) :
    ∃ c', (c', payload) ∈ steps.flatMap config.recorded ∧ c'.tenant = c.tenant ∧
      c'.authFP = c.authFP ∧
      config.keys.patternScopeQuery c'.query = config.keys.patternScopeQuery c.query := by
  have hempty : config.ComesFrom [] ∅ := fun key entry hentry =>
    absurd hentry.symm (Option.some_ne_none entry)
  have hrun := hempty.run steps
  rw [nil_append] at hrun
  obtain ⟨key, entry, hentry, hvalue, hid, hne⟩ := latest_found hlatest
  obtain ⟨c', hmem, hkey⟩ := hrun key entry hentry
  rw [hvalue] at hmem
  have hcaller : c' ∈ config.callers steps := mem_map_of_mem hmem
  have hplain' := hplain c' (mem_cons_of_mem _ hcaller)
  have hown := hplain c mem_cons_self
  have hstored := identity_storeKey hplain' hkey hne
  have hasked := identity_storeKey hown (.inl rfl) (hid ▸ hne)
  rw [hid, hasked] at hstored
  obtain ⟨htenant, hscope⟩ :=
    append_cons_inj_of_notMem hown.tenant_nul hplain'.tenant_nul hstored
  exact ⟨c', hmem, htenant.symm, hone c' hcaller htenant.symm hscope.symm, hscope.symm⟩

/-! ## Two callers of one tenant -/

/-- Settings under which parts are taken as they are. -/
def plainConfig : SnapshotConfig where
  keys := ⟨fun query => query, fun step => step, fun boundary _ => boundary⟩
  patternsEnabled := true
  persists := true
  hasCache := true
  normalizePatternSnapshotPayload := fun payload => payload
  patternCountFromPayload := fun _ => 1

def oneStream : Bytes := bytes "\x7bapp=\"a\"\x7d"

/-- A caller with this fingerprint who asks for one stream with a step of a minute. -/
def askedBy (authFP : String) : PatternCaller :=
  ⟨bytes "team", bytes authFP, oneStream, [], [], bytes "60"⟩

theorem plain_askedBy {authFP : String} (h : ∀ b ∈ bytes authFP, unreservedByte b = true) :
    (askedBy authFP).Plain plainConfig.keys where
  tenant_colon := by
    change 58 ∉ bytes "team"
    decide
  tenant_nul := by
    change 0 ∉ bytes "team"
    decide
  tenant_trimmed := by
    change trimSpaceBytes (bytes "team") = bytes "team"
    decide +kernel
  scope_trimmed := by
    change trimSpaceBytes (plainConfig.keys.patternScopeQuery oneStream) =
      plainConfig.keys.patternScopeQuery oneStream
    decide +kernel
  scope_stable := by
    change plainConfig.keys.patternScopeQuery (plainConfig.keys.patternScopeQuery oneStream) =
      plainConfig.keys.patternScopeQuery oneStream
    decide +kernel
  fingerprint := by
    refine .inr ⟨?_, h⟩
    change plainConfig.keys.pairsBehind (askedBy "") ≠ []
    decide +kernel

def recordedOnce : List SnapshotStep := [.record (askedBy "f1") (bytes "p") 1 LoopOrder.listed]

theorem plain_recordedOnce {authFP : String} (h : ∀ b ∈ bytes authFP, unreservedByte b = true) :
    ∀ c ∈ askedBy authFP :: plainConfig.callers recordedOnce, c.Plain plainConfig.keys := by
  intro c hc
  rcases mem_cons.mp hc with rfl | hc
  · exact plain_askedBy h
  · have hcallers : plainConfig.callers recordedOnce = [askedBy "f1"] := rfl
    rw [hcallers, mem_singleton] at hc
    rw [hc]
    exact plain_askedBy (by decide +kernel)

/-- The caller the payload was recorded for finds it. -/
theorem latest_sameCaller_once :
    ∃ c', (c', bytes "p") ∈ recordedOnce.flatMap plainConfig.recorded ∧
      c'.tenant = (askedBy "f1").tenant ∧ c'.authFP = (askedBy "f1").authFP ∧
      plainConfig.keys.patternScopeQuery c'.query =
        plainConfig.keys.patternScopeQuery (askedBy "f1").query := by
  have hfound : plainConfig.latestPatternSnapshotPayload LoopOrder.listed
      (recordedOnce.foldl plainConfig.step ∅)
      (plainConfig.keys.patternsAutodetectCacheKey (askedBy "f1")) = some (bytes "p") := by
    decide +kernel
  exact latest_sameCaller (plain_recordedOnce (by decide +kernel))
    (by decide +kernel) hfound

/-- The caller with the other fingerprint finds it as well. -/
theorem not_latest_sameCaller :
    ¬ ∀ (steps : List SnapshotStep) (c : PatternCaller) (order : LoopOrder) (payload : Bytes),
      (∀ c' ∈ c :: plainConfig.callers steps, c'.Plain plainConfig.keys) →
      plainConfig.latestPatternSnapshotPayload order (steps.foldl plainConfig.step ∅)
        (plainConfig.keys.patternsAutodetectCacheKey c) = some payload →
      ∃ c', (c', payload) ∈ steps.flatMap plainConfig.recorded ∧ c'.tenant = c.tenant ∧
        c'.authFP = c.authFP ∧ plainConfig.keys.patternScopeQuery c'.query =
          plainConfig.keys.patternScopeQuery c.query := by
  intro h
  have hfound : plainConfig.latestPatternSnapshotPayload LoopOrder.listed
      (recordedOnce.foldl plainConfig.step ∅)
      (plainConfig.keys.patternsAutodetectCacheKey (askedBy "f2")) = some (bytes "p") := by
    decide +kernel
  obtain ⟨c', hmem, -, hfp, -⟩ := h recordedOnce (askedBy "f2") LoopOrder.listed (bytes "p")
    (plain_recordedOnce (by decide +kernel)) hfound
  have hrecorded : recordedOnce.flatMap plainConfig.recorded = [(askedBy "f1", bytes "p")] := rfl
  rw [hrecorded, mem_singleton] at hmem
  rw [(Prod.mk.inj hmem).1] at hfp
  exact absurd hfp (by decide +kernel)

end SnapshotConfig

end LokiVlProxy.Proxy
