/-
  Proxy/WindowCache.lean --- windowed log queries with the window cache.

  Source: internal/proxy/query_range_windowing.go: proxyLogQueryWindowed,
  fetchQueryRangeWindowBatch, fetchQueryRangeWindow, queryRangeWindowCacheKey,
  warmQueryRangeWindowsAsync, queryRangePrefilterQuery; internal/proxy/http_utils.go: sanitizeLimit.

  The entries of a window are cached under a key made of the request and the window.
-/
import LokiVlProxy.Foundation.KeyMap
import LokiVlProxy.Foundation.Text
import LokiVlProxy.Proxy.WindowedQuery
import LokiVlProxy.Foundation.Run

namespace LokiVlProxy.Proxy

open Foundation

/-! ## The limit of a request -/

def maxLimitValue : Int := 10000

def sanitizeLimit (limitStr : String) : String :=
  if limitStr = "" then "1000"
  else match parseInt limitStr.toList with
    | none => "1000"
    | some n =>
        if n ≤ 0 then "1000"
        else if n > maxLimitValue then toString maxLimitValue
        else limitStr

/-! ## Requests -/

/-- A `query_range` request for logs, with what is read off it.  `range` is what
`parseLokiTimeRangeToUnixNano` makes of `start` and `end`. -/
structure LogRequest where
  /-- `X-Scope-OrgID` -/
  tenant : String
  logsqlQuery : String
  range : Option (Int64 × Int64)
  direction : String
  limit : String
  categorizedLabels : Bool
  emitStructuredMetadata : Bool
  /-- the fingerprint of the LogQL pipeline -/
  shape : String
  /-- the fingerprint of the forwarded credentials, empty if there are none -/
  auth : String

/-- The settings of the proxy that a windowed query reads, and what it makes of a row: the labels
of an entry depend on the aliases of field names that the label translator has learned. -/
structure Settings (Λ E : Type) where
  queryRangeWindowing : Bool
  streamResponse : Bool
  queryRangeSplitInterval : Int64
  queryRangeAlignWindows : Bool
  maxLines : Int
  /-- `-dedupe-exact-duplicates` -/
  dedupe : Bool
  /-- the entry that a row becomes for a request, with the aliases learned so far -/
  resolve : Λ → LogRequest → Row → E

variable {Λ E : Type}

/-- The rows that each query of each tenant matches. -/
def LogStore : Type := String → String → List Row

/-- What a request meets that neither it nor the cache decides. -/
structure Circumstances (Λ : Type) where
  /-- `queryRangeWindowBatchParallelLimit` at the window with this index -/
  parallel : Nat → Int
  /-- the windows the prefilter keeps; `none` when it is off or fails -/
  hits : Option (Window → Bool)
  /-- the window's TTL is positive and the cache takes the fragment -/
  stores : Window → Bool
  /-- what was cached for the window is gone when the window is fetched -/
  lost : Window → Bool
  /-- the aliases learned when the rows of the window are converted -/
  learned : Window → Λ

/-- `prefilterQueryRangeWindowsByHits`, with the caller's fallback to all windows. -/
def prefilterQueryRangeWindowsByHits (hits : Option (Window → Bool)) (windows : List Window) :
    List Window :=
  match hits with
  | none => windows
  | some hit => windows.filter hit

namespace LogRequest

variable (r : LogRequest)

/-- `queryLimit`: the limit as it enters the cache key. -/
def queryLimit (p : Settings Λ E) : String :=
  sanitizeLimit (if r.limit = "" then toString p.maxLines else r.limit)

def limitValue (p : Settings Λ E) : Nat :=
  match parseInt (r.queryLimit p).toList with
  | none => 1000
  | some n => if n ≤ 0 then 1000 else n.toNat

def queryRangeWindowCacheKey (queryLimit : String) (w : Window) : String :=
  String.intercalate ":" (["query_range_window", r.tenant, "line-v3", r.logsqlQuery, r.direction,
    queryLimit] ++ ([toString w.startNs.toInt] ++ ([toString w.endNs.toInt] ++
    ([toString r.categorizedLabels, toString r.emitStructuredMetadata, "shape=" ++ r.shape] ++
    if r.auth = "" then [] else ["auth:" ++ r.auth]))))

end LogRequest

/-! ## The cache -/

/-- A cached fragment.  Only the entries are stored; the other fields record the fetch they
came from. -/
structure Fragment (p : Settings Λ E) (log : LogStore) where
  entries : List E
  request : LogRequest
  window : Window
  windowLimit : Nat
  learned : Λ
  fetched : entries = (window.entries p.dedupe (log request.tenant request.logsqlQuery)
    request.direction windowLimit).map (p.resolve learned request)

/-- The fragments by their keys. -/
abbrev WindowCache (p : Settings Λ E) (log : LogStore) : Type := KeyMap String (Fragment p log)

/-- The cache as the fetch of a window meets it. -/
def Circumstances.met {p : Settings Λ E} {log : LogStore} (circ : Circumstances Λ) (w : Window)
    (cacheKey : String) (cache : WindowCache p log) : WindowCache p log :=
  if circ.lost w then cache.erase cacheKey else cache

section Cached

variable (p : Settings Λ E) (log : LogStore) (r : LogRequest) (circ : Circumstances Λ)

/-- What the backend answers for a window, as a fragment. -/
def LogRequest.fetch (windowLimit : Nat) (w : Window) : Fragment p log where
  entries := (w.entries p.dedupe (log r.tenant r.logsqlQuery) r.direction windowLimit).map
    (p.resolve (circ.learned w) r)
  request := r
  window := w
  windowLimit := windowLimit
  learned := circ.learned w
  fetched := rfl

def fetchQueryRangeWindow (queryLimit : String) (windowLimit : Nat) (w : Window)
    (cache : WindowCache p log) : List E × WindowCache p log :=
  let cacheKey := r.queryRangeWindowCacheKey queryLimit w
  let cache := circ.met w cacheKey cache
  match cache.find? cacheKey with
  | some fragment => (fragment.entries, cache)
  | none =>
      let fragment := r.fetch p log circ windowLimit w
      (fragment.entries, if circ.stores w then cache.insert cacheKey fragment else cache)

/-- `fetchQueryRangeWindowBatch`.  The windows are fetched at the same time; their keys
differ, so the order does not matter. -/
def fetchQueryRangeWindowBatch (queryLimit : String) (limitForBatch : Nat) :
    List Window → WindowCache p log → List (List E) × WindowCache p log
  | [], cache => ([], cache)
  | w :: windows, cache =>
      let first := fetchQueryRangeWindow p log r circ queryLimit limitForBatch w cache
      let rest := fetchQueryRangeWindowBatch queryLimit limitForBatch windows first.2
      (first.1 :: rest.1, rest.2)

/-- The batch loop's surroundings: every batch is fetched through the cache. -/
def cacheEnv : Env (WindowCache p log) E where
  parallel := circ.parallel
  fetchBatch := fun cache _ windows limit =>
    let batch := fetchQueryRangeWindowBatch p log r circ (r.queryLimit p) limit windows cache
    (.ok batch.1, batch.2)
  ctxDone := fun _ => false
  partialResponses := false

/-- The first part of `proxyLogQueryWindowed`: the windows to fetch, or the outcome of a
request without any. -/
def LogRequest.queryWindows : Except (Outcome E) (List Window) :=
  if p.queryRangeWindowing = false ∨ p.streamResponse = true then .error .notHandled
  else match r.range with
    | none => .error .notHandled
    | some (startNs, endNs) =>
        match Window.splitQueryRangeWindowsWithOptions startNs endNs p.queryRangeSplitInterval
            r.direction p.queryRangeAlignWindows with
        | none => .error .panicked
        | some windows =>
            if windows.length ≤ 1 then .error .notHandled
            else
              let windows := prefilterQueryRangeWindowsByHits circ.hits windows
              if windows = [] then .error (.answered false []) else .ok windows

/-- `proxyLogQueryWindowed`, up to the list of collected entries. -/
def proxyLogQueryWindowed (cache : WindowCache p log) :
    Outcome E × WindowCache p log :=
  match r.queryWindows p circ with
  | .error outcome => (outcome, cache)
  | .ok windows =>
      batchLoop (cacheEnv p log r circ) windows (r.limitValue p) 0 (r.limitValue p) [] false cache

/-- `warmQueryRangeWindowsAsync`, for the windows the warmer gets to. -/
def warmQueryRangeWindows (toWarm : List Window) (cache : WindowCache p log) :
    WindowCache p log :=
  toWarm.foldl
    (fun cache w => (fetchQueryRangeWindow p log r circ (r.queryLimit p) 1000 w cache).2) cache

end Cached

/-! ## Runs -/

/-- What happens to the cache. -/
inductive Event (Λ : Type) where
  | request (r : LogRequest) (circ : Circumstances Λ)
  | warm (r : LogRequest) (circ : Circumstances Λ) (toWarm : List Window)
  | evict (key : String)

/-- The cache after an event. -/
def WindowCache.step (p : Settings Λ E) (log : LogStore) (cache : WindowCache p log) :
    Event Λ → WindowCache p log
  | .request r circ => (proxyLogQueryWindowed p log r circ cache).2
  | .warm r circ toWarm => warmQueryRangeWindows p log r circ toWarm cache
  | .evict key => cache.erase key

/-- The cache after a run that starts with nothing cached. -/
def WindowCache.after (p : Settings Λ E) (log : LogStore) (events : List (Event Λ)) :
    WindowCache p log :=
  events.foldl (WindowCache.step p log) ∅

/-! ## The prefilter -/

open List

/-- `queryRangePrefilterQuery`. -/
def queryRangePrefilterQuery (logsqlQuery : Text) : Text :=
  let query := trimSpace logsqlQuery
  match textIndex ['|'] query with
  | some idx =>
      let selector := trimSpace (query.take idx)
      if 0 < idx ∧ selector ≠ [] then selector else query
  | none => query

/-- Whether `prefilterQueryRangeWindowsByHits` keeps a window for its hit estimate. -/
def prefilterHit (hitEstimate : Text → Window → Nat) (logsqlQuery : Text) (w : Window) : Bool :=
  let query := queryRangePrefilterQuery logsqlQuery
  0 < hitEstimate (if query = [] then ['*'] else query) w

/-- A filter expression, and what follows the bar of its first pipe. -/
structure PipedQuery where
  filter : Text
  gap : Text
  pipes : Option Text
  nonempty : filter ≠ []
  trimmed : Trimmed filter
  head_ne_bar : filter.head? ≠ some '|'
  gap_blank : ∀ c ∈ gap, isSpace c = true

def PipedQuery.text (q : PipedQuery) : Text :=
  q.filter ++ q.gap ++ q.pipes.elim [] ('|' :: ·)

/-- The cut is at the first bar, wherever it stands. -/
theorem queryRangePrefilterQuery_append_bar {a : Text} (ha : '|' ∉ a) (hne : trimSpace a ≠ [])
    (b : Text) : queryRangePrefilterQuery (a ++ '|' :: b) = trimSpace a := by
  have hfront : a.dropWhile isSpace ≠ [] := fun h => hne (by simp [trimSpace, h])
  have hbar : '|' ∉ a.dropWhile isSpace := fun h => ha ((dropWhile_sublist _).subset h)
  have htrim : trimSpace (a ++ '|' :: b)
      = a.dropWhile isSpace ++ '|' :: b.rdropWhile isSpace := by
    rw [trimSpace, dropWhile_append, if_neg (by simpa using hfront),
      rdropWhile_append_cons (by decide)]
  have hself : trimSpace (a.dropWhile isSpace) = trimSpace a := by
    rw [trimSpace, dropWhile_idempotent, trimSpace]
  have hidx : textIndex ['|'] ('|' :: b.rdropWhile isSpace) = some 0 := textIndex_self_append [] _
  simp only [queryRangePrefilterQuery, htrim, textIndex_append hbar, hidx, Option.map_some]
  simp [hself, hne, length_pos_iff, hfront]

theorem PipedQuery.prefilter_eq_filter_iff (q : PipedQuery) :
    queryRangePrefilterQuery q.text = q.filter ↔ '|' ∉ q.filter := by
  have hsel : trimSpace (q.filter ++ q.gap) = q.filter := by
    rw [trimSpace_append_right q.gap_blank, trimSpace_of_trimmed q.trimmed]
  have hgap : '|' ∉ q.gap := fun h => absurd (q.gap_blank _ h) (by decide)
  constructor
  · intro h hmem
    obtain ⟨a, b, hq, ha⟩ := eq_append_cons_of_mem hmem
    have hne : trimSpace a ≠ [] := by
      cases a with
      | nil => exact absurd (by simp [hq]) q.head_ne_bar
      | cons c a =>
        have hc := q.trimmed.1 c (by simp [hq])
        exact ne_nil_of_mem (mem_trim mem_cons_self hc)
    rw [text, hq, append_assoc, append_assoc, cons_append,
      queryRangePrefilterQuery_append_bar ha hne, ← hq] at h
    exact ha ((trim_sublist _ _).subset (h ▸ hmem))
  · intro hbar
    cases hp : q.pipes with
    | none =>
      have hidx : textIndex ['|'] (q.filter ++ []) = none := textIndex_append hbar []
      simp_all [text, queryRangePrefilterQuery]
    | some p =>
      have hne : trimSpace (q.filter ++ q.gap) ≠ [] := by simpa [hsel] using q.nonempty
      rw [text, hp, Option.elim_some,
        queryRangePrefilterQuery_append_bar (by simp [hbar, hgap]) hne, hsel]

/-- The prefilter asks for the filter of a query, and so drops only windows without a match,
exactly if the filter holds no bar. -/
theorem prefilterQueryRangeWindowsByHits_sound_iff (q : PipedQuery) :
    (queryRangePrefilterQuery q.text = q.filter ∧ ∀ hitEstimate windows, ∀ w ∈ windows,
      w ∉ prefilterQueryRangeWindowsByHits (some (prefilterHit hitEstimate q.text)) windows →
        hitEstimate q.filter w = 0) ↔ '|' ∉ q.filter := by
  rw [← q.prefilter_eq_filter_iff, and_iff_left_iff_imp]
  intro h hitEstimate windows w hw hdrop
  simpa [prefilterQueryRangeWindowsByHits, prefilterHit, h, q.nonempty, hw] using hdrop

/-- The row that matches the quoted bar does not match the text before it. -/
theorem prefilterQueryRangeWindowsByHits_drops_match :
    let q : PipedQuery := ⟨"\"a|b\"".toList, [], none, by simp, by simp [Trimmed, isSpace], by simp,
      by simp⟩
    let hitEstimate := fun query (_ : Window) => if query = q.filter then 1 else 0
    queryRangePrefilterQuery q.text = "\"a".toList ∧
      prefilterQueryRangeWindowsByHits (some (prefilterHit hitEstimate q.text)) [⟨0, 9⟩] = [] := by
  decide

open LogRequest

/-! ## Keys

A request served through the cache is the request without a cache in which each window is
answered with what was cached for it, if anything was (`batchLoop_cacheEnv`). -/

theorem colon_notMem_toString (n : Int) : ':' ∉ (toString n).toList := by
  have hdigits : ∀ m : Nat, ':' ∉ m.repr.toList := by
    intro m hmem
    rw [Nat.repr_eq_ofList_toDigits, String.toList_ofList] at hmem
    exact absurd (Nat.isDigit_of_mem_toDigits (by decide) (by decide) hmem) (by decide)
  rw [Int.toString_eq_repr, Int.repr_eq_if]
  split
  · exact hdigits _
  · rw [String.toList_append, mem_append, not_or]
    exact ⟨by decide, hdigits _⟩

theorem LogRequest.queryRangeWindowCacheKey_eq (r : LogRequest) (queryLimit : String) :
    ∃ before behind : List Char, ∀ w : Window,
      (r.queryRangeWindowCacheKey queryLimit w).toList =
        before ++ ':' :: ((toString w.startNs.toInt).toList ++
          ':' :: ((toString w.endNs.toInt).toList ++ ':' :: behind)) := by
  refine ⟨(String.intercalate ":" ["query_range_window", r.tenant, "line-v3", r.logsqlQuery,
      r.direction, queryLimit]).toList,
    (String.intercalate ":" ([toString r.categorizedLabels, toString r.emitStructuredMetadata,
      "shape=" ++ r.shape] ++ if r.auth = "" then [] else ["auth:" ++ r.auth])).toList, fun w => ?_⟩
  have hcolon : (":" : String).toList = [':'] := by decide
  rw [queryRangeWindowCacheKey, String.intercalate_append_of_ne_nil (by simp) (by simp),
    String.intercalate_append_of_ne_nil (by simp) (by simp),
    String.intercalate_append_of_ne_nil (by simp) (by simp)]
  simp only [String.toList_append, hcolon, String.intercalate_singleton, append_assoc,
    singleton_append]

/-- The windows of one request have different keys. -/
theorem LogRequest.queryRangeWindowCacheKey_inj {r : LogRequest} {queryLimit : String}
    {w w' : Window}
    (h : r.queryRangeWindowCacheKey queryLimit w = r.queryRangeWindowCacheKey queryLimit w') :
    w = w' := by
  obtain ⟨before, behind, hkey⟩ := r.queryRangeWindowCacheKey_eq queryLimit
  have hlist := congrArg String.toList h
  rw [hkey, hkey, append_cancel_left_eq] at hlist
  obtain ⟨hstart, hrest⟩ := append_cons_inj_of_notMem (colon_notMem_toString _)
    (colon_notMem_toString _) (cons.inj hlist).2
  obtain ⟨hend, -⟩ := append_cons_inj_of_notMem (colon_notMem_toString _)
    (colon_notMem_toString _) hrest
  have hinj : ∀ a b : Int64, (toString a.toInt).toList = (toString b.toInt).toList → a = b := by
    intro a b hab
    have hrepr := String.toList_injective hab
    rw [Int.toString_eq_repr, Int.toString_eq_repr] at hrepr
    exact Int64.toInt_inj.mp (Int.repr_injective hrepr)
  exact Window.ext (hinj _ _ hstart) (hinj _ _ hend)

/-! ## A request through the cache -/

/-- The course of a request whose fetches all succeed. -/
def Circumstances.course (circ : Circumstances Λ) : Course where
  parallel := circ.parallel
  outcome := fun _ => none
  ctxDone := fun _ => false
  partialResponses := false

section Refinement

variable {p : Settings Λ E} {log : LogStore} {r : LogRequest} {circ : Circumstances Λ}

/-- The key of a window in this request. -/
abbrev LogRequest.key (r : LogRequest) (p : Settings Λ E) (w : Window) : String :=
  r.queryRangeWindowCacheKey (r.queryLimit p) w

/-- The fragment that a fetch of the window finds. -/
def LogRequest.found (r : LogRequest) (circ : Circumstances Λ) (cache : WindowCache p log)
    (w : Window) : Option (Fragment p log) :=
  (circ.met w (r.key p w) cache).find? (r.key p w)

/-- What a fetch of the window returns: the entries it finds, or those of the first `limit`
rows. -/
def LogRequest.answer (r : LogRequest) (circ : Circumstances Λ) (cache : WindowCache p log)
    (w : Window) (limit : Nat) : List E :=
  match r.found circ cache w with
  | some fragment => fragment.entries
  | none => (w.entries p.dedupe (log r.tenant r.logsqlQuery) r.direction limit).map
      (p.resolve (circ.learned w) r)

theorem find?_met {cache : WindowCache p log} {w : Window} {cacheKey key : String}
    (hkey : key ≠ cacheKey) : (circ.met w cacheKey cache).find? key = cache.find? key := by
  unfold Circumstances.met
  split
  · rw [KeyMap.find?_erase, if_neg hkey]
  · rfl

theorem found_eq (cache : WindowCache p log) (w : Window) :
    r.found circ cache w = if circ.lost w then none else cache.find? (r.key p w) := by
  unfold found Circumstances.met
  split
  · rw [KeyMap.find?_erase, if_pos rfl]
  · rfl

theorem answer_congr {cache cache' : WindowCache p log} {w : Window}
    (h : cache.find? (r.key p w) = cache'.find? (r.key p w)) (limit : Nat) :
    r.answer circ cache w limit = r.answer circ cache' w limit := by
  simp only [answer, found_eq, h]

/-- The answer for a window depends on the entry under its key. -/
theorem fetchQueryRangeWindow_fst (limit : Nat) (w : Window) (cache : WindowCache p log) :
    (fetchQueryRangeWindow p log r circ (r.queryLimit p) limit w cache).1 =
      r.answer circ cache w limit := by
  unfold fetchQueryRangeWindow answer
  cases hfound : r.found circ cache w with
  | none =>
    rw [found, key] at hfound
    simp only [hfound]
    rfl
  | some fragment =>
    rw [found, key] at hfound
    simp only [hfound]

/-- Fetching a window leaves the other keys alone. -/
theorem find?_fetchQueryRangeWindow {limit : Nat} {w : Window} {cache : WindowCache p log}
    {key : String} (hkey : key ≠ r.key p w) :
    (fetchQueryRangeWindow p log r circ (r.queryLimit p) limit w cache).2.find? key =
      cache.find? key := by
  have hmet : (circ.met w (r.key p w) cache).find? key = cache.find? key := find?_met hkey
  unfold fetchQueryRangeWindow
  simp only
  split
  · exact hmet
  · split
    · rw [KeyMap.find?_insert, if_neg hkey]
      exact hmet
    · exact hmet

/-- A batch of different windows is answered from the cache as it was before the batch. -/
theorem fetchQueryRangeWindowBatch_spec (r : LogRequest) (circ : Circumstances Λ) (limit : Nat)
    {windows : List Window} (hnodup : windows.Nodup) (cache : WindowCache p log) :
    (fetchQueryRangeWindowBatch p log r circ (r.queryLimit p) limit windows cache).1 =
        windows.map (fun w => r.answer circ cache w limit) ∧
      ∀ w ∉ windows,
        (fetchQueryRangeWindowBatch p log r circ (r.queryLimit p) limit windows cache).2.find?
          (r.key p w) = cache.find? (r.key p w) := by
  induction windows generalizing cache with
  | nil => exact ⟨rfl, fun _ _ => rfl⟩
  | cons w windows ih =>
    obtain ⟨hw, hrest⟩ := nodup_cons.mp hnodup
    obtain ⟨hanswers, hframe⟩ :=
      ih hrest (fetchQueryRangeWindow p log r circ (r.queryLimit p) limit w cache).2
    have hother : ∀ w', w' ≠ w →
        (fetchQueryRangeWindow p log r circ (r.queryLimit p) limit w cache).2.find? (r.key p w') =
          cache.find? (r.key p w') := fun w' hne =>
      find?_fetchQueryRangeWindow fun heq => hne (queryRangeWindowCacheKey_inj heq)
    refine ⟨?_, fun w' hw' => ?_⟩
    · have hsame : (windows.map fun w' => r.answer circ
          (fetchQueryRangeWindow p log r circ (r.queryLimit p) limit w cache).2 w' limit) =
          windows.map fun w' => r.answer circ cache w' limit := by
        refine map_congr_left fun w' hw' => answer_congr (hother w' ?_) limit
        rintro rfl
        exact hw hw'
      rw [fetchQueryRangeWindowBatch, map_cons, ← hsame, ← hanswers,
        fetchQueryRangeWindow_fst]
    · rw [mem_cons, not_or] at hw'
      exact (hframe w' hw'.2).trans (hother w' hw'.1)

/-- One round of the loop over the batches, with the cache passed on. -/
theorem batchLoop_cacheEnv_step {windows : List Window} {limit i remaining : Nat}
    (hi : i < windows.length) (hremaining : 0 < remaining) (collected : List E)
    (isPartial : Bool) (cache : WindowCache p log) :
    batchLoop (cacheEnv p log r circ) windows limit i remaining collected isPartial cache =
      let size := batchSizeAt (cacheEnv p log r circ) windows i
      let batch := fetchQueryRangeWindowBatch p log r circ (r.queryLimit p) remaining
        ((windows.drop i).take size) cache
      let appended := appendResults limit batch.1 (collected, remaining)
      batchLoop (cacheEnv p log r circ) windows limit (i + size) appended.2 appended.1 isPartial
        batch.2 := by
  have hloop : ∀ size, retryLoop (cacheEnv p log r circ) windows i remaining cache size 0 =
      .fetched (fetchQueryRangeWindowBatch p log r circ (r.queryLimit p) remaining
        ((windows.drop i).take size) cache).1 size
        (fetchQueryRangeWindowBatch p log r circ (r.queryLimit p) remaining
        ((windows.drop i).take size) cache).2 := by
    intro size
    rw [retryLoop]
    rfl
  rw [batchLoop_round _ hi hremaining, hloop]

/-- A request served through the cache is the request without a cache in which each window is
answered with what was cached for it. -/
theorem batchLoop_cacheEnv (r : LogRequest) (circ : Circumstances Λ) {windows : List Window}
    (hnodup : windows.Nodup) (start : WindowCache p log) {cache : WindowCache p log}
    {i : Nat} (hsame : ∀ w ∈ windows.drop i, cache.find? (r.key p w) = start.find? (r.key p w))
    (limit remaining : Nat) (collected : List E) (isPartial : Bool) :
    (batchLoop (cacheEnv p log r circ) windows limit i remaining collected isPartial cache).1 =
      (batchLoop (circ.course.env (r.answer circ start)) windows limit i remaining collected
        isPartial ()).1 := by
  by_cases hgo : i < windows.length ∧ 0 < remaining
  · have hpos := batchSizeAt_pos (cacheEnv p log r circ) windows i
    obtain ⟨results, hend⟩ := circ.course.batchEnd_withoutFailures windows i
    have hend' : circ.course.batchEnd windows i =
        .fetched results (batchSizeAt (cacheEnv p log r circ) windows i) () := hend
    rw [batchLoop_cacheEnv_step hgo.1 hgo.2, Course.batchLoop_step _ _ hgo.1 hgo.2, hend']
    generalize batchSizeAt (cacheEnv p log r circ) windows i = size at hpos ⊢
    -- the windows behind the batch are not in it, so their fragments are still the same
    have hparts : (windows.drop i).take size ++ windows.drop (i + size) = windows.drop i := by
      rw [← drop_drop, take_append_drop]
    have hrest : (windows.drop i).Nodup := hnodup.sublist (drop_sublist i windows)
    rw [← hparts] at hrest hsame
    obtain ⟨hbatch, -, hdisj⟩ := nodup_append'.mp hrest
    obtain ⟨hanswers, hframe⟩ := fetchQueryRangeWindowBatch_spec r circ remaining hbatch cache
    have hmap : ((windows.drop i).take size).map (fun w => r.answer circ cache w remaining) =
        ((windows.drop i).take size).map fun w => r.answer circ start w remaining :=
      map_congr_left fun w hw =>
        answer_congr (hsame w (mem_append_left _ hw)) remaining
    simp only [hanswers, hmap]
    refine batchLoop_cacheEnv r circ hnodup start (fun w hw => ?_) limit _ _ isPartial
    rw [hframe w (fun hmem => hdisj hmem hw)]
    exact hsame w (mem_append_right _ hw)
  · rw [batchLoop, if_neg hgo, batchLoop, if_neg hgo]
termination_by windows.length - i

end Refinement

/-! ## When a fragment will do -/

section Transparency

variable {p : Settings Λ E} {log : LogStore}

/-- The fragment was fetched for the same rows, with a limit that leaves out none that the request
can still use, and made the entries of them that would be made now: `budget` is what the windows
before this one leave of the request's limit. -/
structure LogRequest.Covers (r : LogRequest) (circ : Circumstances Λ) (fragment : Fragment p log)
    (w : Window) (budget : Nat) : Prop where
  tenant : fragment.request.tenant = r.tenant
  logsqlQuery : fragment.request.logsqlQuery = r.logsqlQuery
  direction : fragment.request.direction = r.direction
  window : fragment.window = w
  enough : min (w.rows (log r.tenant r.logsqlQuery) r.direction).length budget ≤
    fragment.windowLimit
  resolved : ∀ row ∈ (w.rows (log r.tenant r.logsqlQuery) r.direction).take budget,
    p.resolve fragment.learned fragment.request row = p.resolve (circ.learned w) r row

instance [DecidableEq E] (r : LogRequest) (circ : Circumstances Λ) (fragment : Fragment p log)
    (w : Window) (budget : Nat) : Decidable (r.Covers circ fragment w budget) :=
  decidable_of_iff (fragment.request.tenant = r.tenant ∧
    fragment.request.logsqlQuery = r.logsqlQuery ∧ fragment.request.direction = r.direction ∧
    fragment.window = w ∧
    min (w.rows (log r.tenant r.logsqlQuery) r.direction).length budget ≤ fragment.windowLimit ∧
    ∀ row ∈ (w.rows (log r.tenant r.logsqlQuery) r.direction).take budget,
      p.resolve fragment.learned fragment.request row = p.resolve (circ.learned w) r row)
    ⟨fun h => ⟨h.1, h.2.1, h.2.2.1, h.2.2.2.1, h.2.2.2.2.1, h.2.2.2.2.2⟩,
      fun h => ⟨h.1, h.2, h.3, h.4, h.5, h.6⟩⟩

/-- Nothing is cached for the windows; or every fragment that is there covers what the request
can use of its window, and the scan leaves out none of these rows. -/
def LogRequest.Reusable (r : LogRequest) (circ : Circumstances Λ) (cache : WindowCache p log)
    (windows : List Window) : Prop :=
  (∀ w ∈ windows, (cache.find? (r.key p w)).isNone) ∨
  (KeptUpTo p.dedupe (log r.tenant r.logsqlQuery) r.direction (r.limitValue p) windows ∧
    Along (fun w => (w.rows (log r.tenant r.logsqlQuery) r.direction).length)
      (fun budget w => ∀ fragment ∈ cache.find? (r.key p w), r.Covers circ fragment w budget)
      (r.limitValue p) windows)

instance [DecidableEq E] (r : LogRequest) (circ : Circumstances Λ) (cache : WindowCache p log)
    (windows : List Window) : Decidable (r.Reusable circ cache windows) := by
  unfold LogRequest.Reusable
  infer_instance

/-- The condition on a step: the cache will do for the request. -/
def WindowCache.Meets (p : Settings Λ E) (log : LogStore) (cache : WindowCache p log) :
    Event Λ → Prop
  | .request r circ =>
      match r.queryWindows p circ with
      | .error _ => True
      | .ok windows => r.Reusable circ cache windows
  | .warm _ _ _ => True
  | .evict _ => True

instance [DecidableEq E] (cache : WindowCache p log) : DecidablePred (WindowCache.Meets p log cache)
  | .request r circ =>
      match h : r.queryWindows p circ with
      | .error _ => .isTrue (by simp [WindowCache.Meets, h])
      | .ok windows => decidable_of_iff (r.Reusable circ cache windows) (by simp [WindowCache.Meets, h])
  | .warm _ _ _ => .isTrue trivial
  | .evict _ => .isTrue trivial

theorem prefilterQueryRangeWindowsByHits_sublist (hits : Option (Window → Bool))
    (windows : List Window) :
    (prefilterQueryRangeWindowsByHits hits windows).Sublist windows := by
  cases hits with
  | none => exact List.Sublist.refl windows
  | some hit => exact filter_sublist

variable {r : LogRequest}

theorem nodup_queryWindows {circ : Circumstances Λ} {windows : List Window}
    (h : r.queryWindows p circ = .ok windows) : windows.Nodup := by
  unfold queryWindows at h
  split at h
  · cases h
  · split at h
    · cases h
    · split at h
      · cases h
      · rename_i all hsplit
        have hall := Window.nodup_split hsplit
        split at h
        · cases h
        · simp only at h
          split at h
          · cases h
          · obtain rfl := Except.ok.inj h
            exact hall.sublist (prefilterQueryRangeWindowsByHits_sublist circ.hits all)

theorem LogRequest.Covers.take_entries {circ : Circumstances Λ} {fragment : Fragment p log}
    {w : Window} {budget : Nat} (h : r.Covers circ fragment w budget)
    (hkept : Row.AllKept p.dedupe ((w.rows (log r.tenant r.logsqlQuery) r.direction).take budget)) :
    fragment.entries.take budget =
      ((w.rows (log r.tenant r.logsqlQuery) r.direction).take budget).map
        (p.resolve (circ.learned w) r) := by
  rw [fragment.fetched, h.tenant, h.logsqlQuery, h.direction, h.window, ← map_take,
    Window.take_entries h.enough hkept]
  exact map_congr_left h.resolved

/-- Covering fragments answer as the log does, up to the budget. -/
theorem answersUpTo_of_covers (circ : Circumstances Λ)
    {cache : WindowCache p log} {budget : Nat} {windows : List Window}
    (hkept : KeptUpTo p.dedupe (log r.tenant r.logsqlQuery) r.direction budget windows)
    (hcovers : Along (fun w => (w.rows (log r.tenant r.logsqlQuery) r.direction).length)
      (fun budget w => ∀ fragment ∈ cache.find? (r.key p w), r.Covers circ fragment w budget)
      budget windows) :
    Course.AnswersUpTo (fun w => (w.rows (log r.tenant r.logsqlQuery) r.direction).map
      (p.resolve (circ.learned w) r)) (r.answer circ cache) budget windows := by
  unfold Course.AnswersUpTo
  simp only [length_map, ← map_take]
  refine (Along.and hkept hcovers).mono fun n _ w _ ⟨hrows, hcover⟩ limit hle => ?_
  unfold answer
  split
  · rename_i fragment hfound
    rw [found_eq] at hfound
    split at hfound
    · cases hfound
    · exact (hcover fragment hfound).take_entries hrows
  · rw [← map_take, Window.take_entries (by omega) hrows]

/-- One request: it returns what it would return had the cache been empty. -/
theorem proxyLogQueryWindowed_of_meets {circ : Circumstances Λ}
    {cache : WindowCache p log} (h : WindowCache.Meets p log cache (.request r circ)) :
    (proxyLogQueryWindowed p log r circ cache).1 = (proxyLogQueryWindowed p log r circ ∅).1 := by
  unfold proxyLogQueryWindowed
  unfold WindowCache.Meets at h
  cases hwindows : r.queryWindows p circ with
  | error outcome => rfl
  | ok windows =>
    simp only [hwindows] at h ⊢
    have hnodup := nodup_queryWindows hwindows
    have hempty := batchLoop_cacheEnv r circ hnodup (∅ : WindowCache p log) (i := 0)
      (fun _ _ => rfl) (r.limitValue p) (r.limitValue p) [] false
    rw [hempty]
    rcases h with hnone | ⟨hkept, hcovers⟩
    · -- nothing is found, as in the empty cache
      refine batchLoop_cacheEnv r circ hnodup ∅ (fun w hw => ?_) _ _ _ _
      exact Option.isNone_iff_eq_none.mp (hnone w (mem_of_mem_drop hw))
    · have hnothing : Along (fun w => (w.rows (log r.tenant r.logsqlQuery) r.direction).length)
          (fun budget w => ∀ fragment ∈ (∅ : WindowCache p log).find? (r.key p w),
            r.Covers circ fragment w budget) (r.limitValue p) windows :=
        Along.of_forall fun _ _ w _ fragment hfound => by cases hfound
      have hfresh := circ.course.batchLoop_withoutFailures
        (answersUpTo_of_covers circ hkept hnothing)
      have hcached := circ.course.batchLoop_withoutFailures
        (answersUpTo_of_covers circ hkept hcovers)
      rw [batchLoop_cacheEnv r circ hnodup cache fun _ _ => rfl]
      exact (congrArg Prod.fst hcached).trans (congrArg Prod.fst hfresh).symm

/-- In every run whose requests meet only fragments that will do, every request returns what
it would return had the cache been empty when it started. -/
theorem window_cache_transparent {events : List (Event Λ)}
    (hmeet : StepsMeet (WindowCache.step p log) (WindowCache.Meets p log) ∅ events)
    (before : List (Event Λ)) (r : LogRequest) (circ : Circumstances Λ)
    (hbefore : before ++ [.request r circ] <+: events) :
    (proxyLogQueryWindowed p log r circ (WindowCache.after p log before)).1 =
      (proxyLogQueryWindowed p log r circ ∅).1 := by
  obtain ⟨rest, rfl⟩ := hbefore
  rw [append_assoc, stepsMeet_append] at hmeet
  exact proxyLogQueryWindowed_of_meets hmeet.2.1

end Transparency

/-! ## Two requests that share windows -/

/-- Windows of ten nanoseconds; the label of an entry is an alias once the alias is learned. -/
def tenNs : Settings Bool (String × Row) where
  queryRangeWindowing := true
  streamResponse := false
  queryRangeSplitInterval := 10
  queryRangeAlignWindows := true
  maxLines := 1000
  dedupe := true
  resolve := fun learned _ row => (if learned then "pod" else "kubernetes_pod_name", row)

/-- A request of one tenant for one query. -/
def webRequest (startNs endNs : Int64) (limit : String) : LogRequest where
  tenant := "team"
  logsqlQuery := "app:=web"
  range := some (startNs, endNs)
  direction := "forward"
  limit := limit
  categorizedLabels := false
  emitStructuredMetadata := false
  shape := "0"
  auth := ""

/-- One window at a time, and the cache keeps what it gets. -/
def oneByOne (learned : Bool) : Circumstances Bool where
  parallel := fun _ => 1
  hits := none
  stores := fun _ => true
  lost := fun _ => false
  learned := fun _ => learned

/-- One row in the first window, three in the second, one in the third. -/
def fiveRows : LogStore := fun _ _ =>
  [usableRow 3 "a", usableRow 11 "b1", usableRow 12 "b2", usableRow 13 "b3", usableRow 25 "c"]

/-- With a limit above the number of rows, every fragment holds all of its window. -/
theorem window_cache_transparent_below_limit :
    let first := Event.request (webRequest 0 29 "10") (oneByOne true)
    let second := Event.request (webRequest 10 29 "10") (oneByOne true)
    StepsMeet (WindowCache.step tenNs fiveRows) (WindowCache.Meets tenNs fiveRows) ∅
      [first, second] ∧
    (proxyLogQueryWindowed tenNs fiveRows (webRequest 10 29 "10") (oneByOne true)
        (WindowCache.after tenNs fiveRows [first])).1 =
      (proxyLogQueryWindowed tenNs fiveRows (webRequest 10 29 "10") (oneByOne true) ∅).1 := by
  intro first second
  have hmeet : StepsMeet (WindowCache.step tenNs fiveRows) (WindowCache.Meets tenNs fiveRows) ∅
      [first, second] := ⟨by decide +kernel, by decide +kernel, trivial⟩
  exact ⟨hmeet, window_cache_transparent hmeet [first] _ _ (prefix_refl _)⟩

/-- The first request has room for one row of the second window and caches that one row under
the limit of the whole request.  The next request with the same limit starts at that window: it
finds the one row, goes on to the third window, and leaves out two rows in between.  And a request
that comes when an alias has been learned shows the rows without it. -/
theorem window_cache_serves_cut_fragment :
    let first := Event.request (webRequest 0 29 "2") (oneByOne true)
    (proxyLogQueryWindowed tenNs fiveRows (webRequest 10 29 "2") (oneByOne true)
        (WindowCache.after tenNs fiveRows [first])).1 =
      .answered false [("pod", usableRow 11 "b1"), ("pod", usableRow 25 "c")] ∧
    (proxyLogQueryWindowed tenNs fiveRows (webRequest 10 29 "2") (oneByOne true) ∅).1 =
      .answered false [("pod", usableRow 11 "b1"), ("pod", usableRow 12 "b2")] ∧
    (proxyLogQueryWindowed tenNs fiveRows (webRequest 20 39 "9") (oneByOne true)
        (WindowCache.after tenNs fiveRows [.request (webRequest 20 39 "9") (oneByOne false)])).1 =
      .answered false [("kubernetes_pod_name", usableRow 25 "c")] ∧
    (proxyLogQueryWindowed tenNs fiveRows (webRequest 20 39 "9") (oneByOne true) ∅).1 =
      .answered false [("pod", usableRow 25 "c")] := by
  decide +kernel

end LokiVlProxy.Proxy
