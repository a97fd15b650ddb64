/-
  Proxy/LabelValuesBrowse.lean --- runs of label_values requests for one label.

  Source: internal/proxy/label_handlers.go (handleLabelValues with its response cache) and
  label_metadata.go (refreshLabelValuesCacheAsync), over the handler of `Proxy/LabelValues.lean`.

  The runs have one caller, one label and one time range.
-/
import LokiVlProxy.Foundation.Run
import LokiVlProxy.Proxy.LabelValues

namespace LokiVlProxy.Proxy.LabelValues

open Foundation List Config

/-- What the cache key says of a request, for one caller, label and time range:
`normalizeReadCacheParams` trims the query and a search text that is not blank, and leaves the
rest. -/
structure CacheKey where
  query : Text
  search : Text
  limit : Text
  offset : Text
  deriving DecidableEq, Repr

namespace Request

/-- `canonicalReadCacheKey`. -/
def cacheKey (r : Request) : CacheKey where
  query := if trimSpace r.query = [] then ['*'] else trimSpace r.query
  search := if trimSpace r.searchText = [] then r.searchText else trimSpace r.searchText
  limit := r.limit
  offset := r.offset

theorem trimSpace_search (r : Request) : trimSpace r.cacheKey.search = trimSpace r.searchText := by
  unfold cacheKey
  dsimp only
  split
  · rfl
  · exact trimSpace_trimSpace _

/-- The limit that the backend is given cuts nothing off `n` values. -/
def LimitCovers (r : Request) (n : Nat) : Prop :=
  trimSpace r.limit = [] ∨
    trimSpace r.limit = r.limit ∧ ∃ k : Int, parseInt r.limit = some k ∧ (n : Int) ≤ k

/-- The backend is asked for all `n` values of the label: the lookup for `service_name` gets the
query alone, that for other labels also the search text and the limit. -/
def AsksAll (serviceName : Bool) (n : Nat) (r : Request) : Prop :=
  browseMode r.query = true ∧ (serviceName = true ∨ trimSpace r.searchText = [] ∧ r.LimitCovers n)

end Request

/-- A browse request: no query, no search, no offset, and a limit of at least `n`. -/
structure Config.BrowsesAll (c : Config) (n : Nat) (r : Request) : Prop where
  browse : browseMode r.query = true
  search : trimSpace r.searchText = []
  skip : r.skip = 0
  limit : r.LimitCovers n
  defaultLimit : trimSpace r.limit = [] → (n : Int) ≤ c.defaultLabelValuesLimit r.limit

/-- The data of the backend for a label and time range: all values, and those that it reports for
a request.  No request is told other values, and one that asks for all is told all. -/
structure Backend (serviceName : Bool) where
  values : List Text
  fetch : Request → List Text
  nodup_fetch : ∀ r, (fetch r).Nodup
  fetch_subset : ∀ r, fetch r ⊆ values
  fetch_all : ∀ r, r.AsksAll serviceName values.length → values ⊆ fetch r

/-- The index and the response cache. -/
structure State where
  index : Index
  cache : KeyMap CacheKey (List Text)

/-- Before the first request. -/
def State.start : State := ⟨∅, ∅⟩

/-- A request comes, with its cache entry still there or not; or a refresh runs for one. -/
inductive Event where
  | ask (now : Int) (r : Request) (kept : Bool)
  | refresh (now : Int) (r : Request)

/-- The cache with the body that a refresh stores, if it stores one. -/
def store (cache : KeyMap CacheKey (List Text)) (key : CacheKey) :
    Option (List Text) → KeyMap CacheKey (List Text)
  | some body => cache.insert key body
  | none => cache

section

variable (c : Config) {serviceName : Bool} (b : Backend serviceName)

/-- `handleLabelValues`: the body of the response, and what it leaves. -/
def respond (s : State) (now : Int) (r : Request) (kept : Bool) : List Text × State :=
  match if kept then s.cache.find? r.cacheKey else none with
  | some body => (body, s)
  | none =>
      let answer := c.handleLabelValues serviceName now s.index r (b.fetch r)
      (answer.1, ⟨answer.2, s.cache.insert r.cacheKey answer.1⟩)

/-- One event. -/
def step (s : State) : Event → State
  | .ask now r kept => (respond c b s now r kept).2
  | .refresh now r =>
      let refreshed := c.refreshLabelValuesCache now s.index r (b.fetch r)
      ⟨refreshed.2, store s.cache r.cacheKey refreshed.1⟩

end

/-! ## Browse requests -/

theorem browseMode_iff (r : Request) : browseMode r.query = true ↔ r.cacheKey.query = ['*'] := by
  rw [browseMode, Bool.or_eq_true, decide_eq_true_eq, decide_eq_true_eq]
  show _ ↔ (if trimSpace r.query = [] then ['*'] else trimSpace r.query) = ['*']
  split
  · next hnil => simp [hnil]
  · next hne => simp [hne]

namespace Config.BrowsesAll

variable {c : Config} {n : Nat} {r : Request}

theorem of_cacheKey (h : c.BrowsesAll n r) {r' : Request} (hkey : r'.cacheKey = r.cacheKey) :
    c.BrowsesAll n r' := by
  have hlimit : r'.limit = r.limit := congrArg CacheKey.limit hkey
  have hoffset : r'.offset = r.offset := congrArg CacheKey.offset hkey
  have hsearch : trimSpace r'.searchText = [] := by
    rw [← Request.trimSpace_search, hkey, Request.trimSpace_search, h.search]
  refine ⟨?_, hsearch, ?_, ?_, ?_⟩
  · rw [browseMode_iff, hkey, ← browseMode_iff]
    exact h.browse
  · rw [Request.skip, hoffset]
    exact h.skip
  · unfold Request.LimitCovers
    rw [hlimit]
    exact h.limit
  · rw [hlimit]
    exact h.defaultLimit

theorem asksAll (h : c.BrowsesAll n r) (serviceName : Bool) : r.AsksAll serviceName n :=
  ⟨h.browse, Or.inr ⟨h.search, h.limit⟩⟩

theorem normalized (h : c.BrowsesAll n r) : c.normalizeLabelValueSearch r.searchText = [] := by
  rw [normalizeLabelValueSearch, h.search, map_nil]

theorem le_limit (h : c.BrowsesAll n r) (hcap : (n : Int) ≤ maxLimitValue) (hn : 0 < n) :
    (n : Int) ≤ c.limit r := by
  rw [limit_of_browse h.browse]
  rcases h.limit with hblank | ⟨htrim, k, hk, hle⟩
  · exact h.defaultLimit hblank
  · by_cases hblank : trimSpace r.limit = []
    · exact h.defaultLimit hblank
    · rw [defaultLabelValuesLimit, if_pos hblank, parsePositiveInt, htrim, hk]
      dsimp only
      split_ifs <;> omega

end Config.BrowsesAll

theorem Config.le_indexLimit {c : Config} {n : Nat} {limit : Int} (h : (n : Int) ≤ limit)
    (hcap : (n : Int) ≤ maxLimitValue) : n ≤ (c.indexLimit limit).toNat := by
  simp only [indexLimit]
  split_ifs <;> omega

theorem Config.le_windowLimit {n : Nat} {limit : Int} (h : (n : Int) ≤ limit)
    (hcap : (n : Int) ≤ maxLimitValue) :
    n ≤ (if limit ≤ 0 then maxLimitValue else min limit maxLimitValue).toNat := by
  split_ifs <;> omega

/-! ## Complete states -/

section

variable {c : Config} {serviceName : Bool} {b : Backend serviceName}

/-- The index holds the values of the backend and no others. -/
structure Holds (b : Backend serviceName) (index : Index) : Prop where
  sound : ∀ v, (index.find? v).isSome → v ∈ b.values
  full : ∀ v ∈ b.values, (index.find? v).isSome

variable {index : Index}

theorem size_le (h : ∀ v, (index.find? v).isSome → v ∈ b.values) :
    index.size ≤ b.values.length := by
  rw [← length_ordered]
  exact (subperm_of_subset (nodup_ordered index) fun v hv => h v (mem_ordered.mp hv)).length_le

section

variable (hindexed : c.indexed = true)
  (hmax : c.maxEntries ≤ 0 ∨ (b.values.length : Int) < c.maxEntries)

include hindexed hmax

theorem isSome_find?_update (hsound : ∀ v, (index.find? v).isSome → v ∈ b.values) (now : Int)
    (r : Request) (v : Text) :
    ((c.updateLabelValuesIndex now index (b.fetch r)).find? v).isSome ↔
      v ∈ b.fetch r ∨ (index.find? v).isSome := by
  by_cases hvalues : b.fetch r = []
  · rw [hvalues, c.update_nil]
    simp
  · have hnoted := isSome_find?_foldl_note now (b.fetch r) index
    have hsize : ((b.fetch r).foldl (note now) index).size ≤ b.values.length := by
      refine size_le fun v hv => ?_
      rcases (hnoted v).mp hv with hfetched | hthere
      · exact b.fetch_subset r hfetched
      · exact hsound v hthere
    rw [updateLabelValuesIndex, if_neg (by simp [hindexed, hvalues])]
    dsimp only
    rw [if_pos (by omega)]
    exact hnoted v

theorem sound_update (hsound : ∀ v, (index.find? v).isSome → v ∈ b.values) (now : Int)
    (r : Request) (v : Text) (hv : ((c.updateLabelValuesIndex now index (b.fetch r)).find? v).isSome) :
    v ∈ b.values := by
  rcases (isSome_find?_update hindexed hmax hsound now r v).mp hv with hfetched | hthere
  · exact b.fetch_subset r hfetched
  · exact hsound v hthere

/-- Recording an answer of the backend keeps the index complete. -/
theorem Holds.update (h : Holds b index) (now : Int) (r : Request) :
    Holds b (c.updateLabelValuesIndex now index (b.fetch r)) where
  sound := sound_update hindexed hmax h.sound now r
  full := fun v hv =>
    (isSome_find?_update hindexed hmax h.sound now r v).mpr (Or.inr (h.full v hv))

/-- A first complete answer makes the index complete. -/
theorem holds_update_empty (now : Int) {r : Request} (hr : r.AsksAll serviceName b.values.length) :
    Holds b (c.updateLabelValuesIndex now ∅ (b.fetch r)) := by
  have hempty : ∀ v, ((∅ : Index).find? v).isSome → v ∈ b.values := by
    intro v hv
    cases hv
  refine ⟨sound_update hindexed hmax hempty now r, fun v hv => ?_⟩
  exact (isSome_find?_update hindexed hmax hempty now r v).mpr (Or.inl (b.fetch_all r hr hv))

end

theorem Holds.size_ne_zero (h : Holds b index) (hvalues : b.values ≠ []) : index.size ≠ 0 := by
  obtain ⟨v, rest, hcons⟩ := exists_cons_of_ne_nil hvalues
  refine size_ne_zero_of_mem (mem_ordered.mpr (h.full v ?_))
  rw [hcons]
  exact mem_cons_self

theorem Holds.subset_take (h : Holds b index) {limit : Nat} (hlimit : b.values.length ≤ limit) :
    b.values ⊆ (ordered index).take limit := by
  have hlength : (ordered index).length ≤ limit := by
    rw [length_ordered]
    exact Nat.le_trans (size_le h.sound) hlimit
  rw [take_of_length_le hlength]
  exact fun v hv => mem_ordered.mpr (h.full v hv)

section

variable (hcap : (b.values.length : Int) ≤ maxLimitValue) (hvalues : b.values ≠ [])
  {r : Request} (hr : c.BrowsesAll b.values.length r)

include hcap hvalues hr

theorem subset_window :
    b.values ⊆ c.selectLabelValuesWindow (b.fetch r) r.searchText r.skip (c.limit r) := by
  have hlimit := hr.le_limit hcap (length_pos_iff.mpr hvalues)
  have hcovers := le_windowLimit hlimit hcap
  have hlength : (b.fetch r).length ≤ b.values.length :=
    (subperm_of_subset (b.nodup_fetch r) (b.fetch_subset r)).length_le
  have hpos : 0 < b.values.length := length_pos_iff.mpr hvalues
  rw [selectLabelValuesWindow, hr.normalized, hr.skip, pageLoop_eq _ (by omega),
    filter_found_nil, Int.toNat_zero, drop_zero, take_of_length_le (by omega)]
  exact b.fetch_all r (hr.asksAll serviceName)

/-- A complete index answers with every value. -/
theorem subset_handle (hindex : c.indexed = true → Holds b index) (now : Int) :
    b.values ⊆ (c.handleLabelValues serviceName now index r (b.fetch r)).1 := by
  cases hindexed : c.indexed with
  | false =>
    rw [handle_of_not_indexed hr.browse hindexed]
    exact subset_window hcap hvalues hr
  | true =>
    have hholds := hindex hindexed
    have hlimit := hr.le_limit hcap (length_pos_iff.mpr hvalues)
    rw [handle_of_size hr.browse hindexed (hholds.size_ne_zero hvalues)]
    dsimp only
    rw [hr.normalized, hr.skip, filter_found_nil, Int.toNat_zero, drop_zero]
    exact hholds.subset_take (le_indexLimit hlimit hcap)

/-- So does a background refresh. -/
theorem subset_refreshed (hindex : c.indexed = true → Holds b index) :
    b.values ⊆ c.refreshedPage index r (b.fetch r) := by
  rw [refreshedPage, if_pos hr.browse]
  cases hindexed : c.indexed with
  | false =>
    rw [select_of_not_indexed hindexed, Option.getD_none]
    exact b.fetch_all r (hr.asksAll serviceName)
  | true =>
    have hholds := hindex hindexed
    have hlimit := hr.le_limit hcap (length_pos_iff.mpr hvalues)
    rw [select_of_size hindexed (hholds.size_ne_zero hvalues), Option.getD_some,
      ← limit_of_browse hr.browse, show c.normalizeLabelValueSearch [] = [] from rfl,
      filter_found_nil, Int.toNat_zero, drop_zero]
    exact hholds.subset_take (le_indexLimit hlimit hcap)

end

/-- The index is full, and the cached bodies of browse requests have every value. -/
structure Complete (c : Config) (b : Backend serviceName) (s : State) : Prop where
  index : c.indexed = true → Holds b s.index
  cached : ∀ r body, c.BrowsesAll b.values.length r → s.cache.find? r.cacheKey = some body →
    b.values ⊆ body

theorem cached_insert {cache : KeyMap CacheKey (List Text)}
    (h : ∀ r body, c.BrowsesAll b.values.length r → cache.find? r.cacheKey = some body →
      b.values ⊆ body)
    {asked : Request} {page : List Text}
    (hpage : c.BrowsesAll b.values.length asked → b.values ⊆ page) (r : Request)
    (body : List Text) (hr : c.BrowsesAll b.values.length r)
    (hbody : (cache.insert asked.cacheKey page).find? r.cacheKey = some body) :
    b.values ⊆ body := by
  rw [KeyMap.find?_insert] at hbody
  split at hbody
  · next hkey =>
    rw [← Option.some.inj hbody]
    exact hpage (hr.of_cacheKey hkey.symm)
  · exact h r body hr hbody

theorem respond_start (c : Config) (b : Backend serviceName) (now : Int) (r : Request)
    (kept : Bool) :
    respond c b State.start now r kept =
      ((c.handleLabelValues serviceName now ∅ r (b.fetch r)).1,
        ⟨(c.handleLabelValues serviceName now ∅ r (b.fetch r)).2,
          (∅ : KeyMap CacheKey (List Text)).insert r.cacheKey
            (c.handleLabelValues serviceName now ∅ r (b.fetch r)).1⟩) := by
  have hnone : (if kept then State.start.cache.find? r.cacheKey else none) = none := ite_self _
  rw [respond, hnone]
  rfl

theorem handle_empty_index {r : Request} (hbrowse : browseMode r.query = true) (now : Int)
    (values : List Text) :
    (c.handleLabelValues serviceName now ∅ r values).2 =
      c.updateLabelValuesIndex now ∅ values := by
  have hpage : c.indexedPage ∅ r = none := by
    rw [indexedPage, if_pos hbrowse]
    exact if_pos (by simp)
  rw [handleLabelValues, hpage]

section

variable (hmax : c.maxEntries ≤ 0 ∨ (b.values.length : Int) < c.maxEntries)
  (hcap : (b.values.length : Int) ≤ maxLimitValue) (hvalues : b.values ≠ [])
include hmax

/-- Handling a request keeps the index complete. -/
theorem Holds.handle {index : Index} (h : Holds b index) (hindexed : c.indexed = true) (now : Int)
    (r : Request) : Holds b (c.handleLabelValues serviceName now index r (b.fetch r)).2 := by
  rw [handleLabelValues]
  split
  · exact h
  · exact h.update hindexed hmax now r

include hcap hvalues

/-- Every event keeps the state complete. -/
theorem Complete.step {s : State} (h : Complete c b s) (e : Event) :
    Complete c b (step c b s e) := by
  cases e with
  | ask now r kept =>
    show Complete c b (respond c b s now r kept).2
    rw [respond]
    split
    · exact h
    · exact ⟨fun hindexed => (h.index hindexed).handle hmax hindexed now r,
        cached_insert h.cached fun hr => subset_handle hcap hvalues hr h.index now⟩
  | refresh now r =>
    have hindex : c.indexed = true →
        Holds b (c.updateLabelValuesIndex now s.index (b.fetch r)) :=
      fun hindexed => (h.index hindexed).update hindexed hmax now r
    refine ⟨hindex, ?_⟩
    show ∀ (r' : Request) (body : List Text), _ → (store s.cache r.cacheKey
      (c.refreshLabelValuesCache now s.index r (b.fetch r)).1).find? r'.cacheKey = _ → _
    rw [refreshLabelValuesCache]
    dsimp only
    split
    · exact h.cached
    · exact cached_insert h.cached fun hr => subset_refreshed hcap hvalues hr hindex

theorem subset_handle_empty (hindexed : c.indexed = true) (now : Int) {r : Request}
    (hr : c.BrowsesAll b.values.length r) :
    b.values ⊆ (c.handleLabelValues serviceName now ∅ r (b.fetch r)).1 := by
  rw [handle_of_empty KeyMap.size_empty serviceName now (b.fetch r)]
  exact subset_handle hcap hvalues hr
    (fun _ => holds_update_empty hindexed hmax now (hr.asksAll serviceName)) now

/-- The first request for all the values makes the state complete. -/
theorem complete_first (hindexed : c.indexed = true) (now : Int) {r : Request} (kept : Bool)
    (hr : r.AsksAll serviceName b.values.length) :
    Complete c b (LabelValues.step c b State.start (.ask now r kept)) := by
  have hstep : LabelValues.step c b State.start (.ask now r kept) =
      ⟨c.updateLabelValuesIndex now ∅ (b.fetch r), (∅ : KeyMap CacheKey (List Text)).insert
        r.cacheKey (c.handleLabelValues serviceName now ∅ r (b.fetch r)).1⟩ := by
    show (respond c b State.start now r kept).2 = _
    rw [respond_start]
    dsimp only
    rw [handle_empty_index hr.1]
  rw [hstep]
  refine ⟨fun _ => holds_update_empty hindexed hmax now hr,
    cached_insert (fun r body _ hbody => ?_) (subset_handle_empty hmax hcap hvalues hindexed now)⟩
  cases hbody

end

/-- The first request asks the backend for all values. -/
def FirstAsksAll (serviceName : Bool) (n : Nat) : List Event → Prop
  | [] => True
  | .ask _ r _ :: _ => r.AsksAll serviceName n
  | .refresh _ _ :: _ => False

/-- In a complete state the answer has every value. -/
theorem Complete.respond {s : State} (h : Complete c b s)
    (hcap : (b.values.length : Int) ≤ maxLimitValue) (hvalues : b.values ≠ []) (now : Int)
    {r : Request} (kept : Bool) (hr : c.BrowsesAll b.values.length r) :
    b.values ⊆ (respond c b s now r kept).1 := by
  rw [LabelValues.respond]
  split
  · next body hbody =>
    split at hbody
    · exact h.cached r body hr hbody
    · cases hbody
  · exact subset_handle hcap hvalues hr h.index now

/-- Browsing is complete in every run whose first request, if the index is on, asked the backend
for all values. -/
theorem browse_complete (hmax : c.maxEntries ≤ 0 ∨ (b.values.length : Int) < c.maxEntries)
    (hcap : (b.values.length : Int) ≤ maxLimitValue) (events : List Event)
    (hfirst : c.indexed = true → FirstAsksAll serviceName b.values.length events) (now : Int)
    (r : Request) (kept : Bool) (hr : c.BrowsesAll b.values.length r) :
    b.values ⊆ (respond c b (events.foldl (step c b) State.start) now r kept).1 := by
  by_cases hvalues : b.values = []
  · rw [hvalues]
    exact nil_subset _
  · have hrun : ∀ {s : State}, Complete c b s → ∀ events : List Event,
        Complete c b (events.foldl (step c b) s) :=
      fun hs => run_invariant (fun s e h => h.step hmax hcap hvalues e) hs
    cases hindexed : c.indexed with
    | false =>
      have hstart : Complete c b State.start := by
        refine ⟨fun h => ?_, fun r body _ hbody => ?_⟩
        · rw [hindexed] at h
          cases h
        · cases hbody
      exact (hrun hstart events).respond hcap hvalues now kept hr
    | true =>
      cases events with
      | nil =>
        -- the browse request is the first one
        rw [foldl_nil, respond_start]
        exact subset_handle_empty hmax hcap hvalues hindexed now hr
      | cons e events =>
        cases e with
        | refresh now r => exact (hfirst hindexed).elim
        | ask first asked present =>
          have hcomplete := complete_first hmax hcap hvalues hindexed first present
            (hfirst hindexed)
          exact (hrun hcomplete events).respond hcap hvalues now kept hr

end

/-! ## A narrower request first -/

/-- A label with two values; a query is told the first of them. -/
def twoValues : Backend false where
  values := [['a'], ['b']]
  fetch r := if browseMode r.query then [['a'], ['b']] else [['a']]
  nodup_fetch r := by
    split_ifs <;> decide
  fetch_subset r := by
    split_ifs <;> decide
  fetch_all r hr := by
    rw [if_pos hr.1]
    exact List.Subset.refl _

/-- A request for all values. -/
def allValues : Request := ⟨[], [], [], [], []⟩

/-- A request with a query. -/
def queried : Request := ⟨['q'], [], [], [], []⟩

theorem browsesAll_allValues : usual.BrowsesAll twoValues.values.length allValues where
  browse := rfl
  search := rfl
  skip := rfl
  limit := Or.inl rfl
  defaultLimit := fun _ => by decide

/-- After a request for all values and one with a query, browsing is complete. -/
theorem browse_complete_twoValues :
    twoValues.values ⊆ (respond Config.usual twoValues
      ([Event.ask 1 allValues true, .ask 2 queried true].foldl (step Config.usual twoValues)
        State.start) 3 allValues false).1 :=
  browse_complete (Or.inr (by decide)) (by decide) [.ask 1 allValues true, .ask 2 queried true]
    (fun _ => browsesAll_allValues.asksAll false) 3 allValues false browsesAll_allValues

/-- After a request with a query alone it is not. -/
theorem not_browse_complete :
    ¬ ∀ events : List Event,
      twoValues.values ⊆ (respond Config.usual twoValues
        (events.foldl (step Config.usual twoValues) State.start) 3 allValues false).1 := by
  intro h
  have hb : ['b'] ∈ (respond Config.usual twoValues
      ([Event.ask 1 queried true].foldl (step Config.usual twoValues) State.start) 3 allValues
        false).1 := h _ (by decide)
  exact absurd hb (by decide +kernel)

end LokiVlProxy.Proxy.LabelValues
