/-
  Proxy/LabelValues.lean --- the values of a label: index, handler and background refresh.

  Source: internal/proxy/label_index.go (labelValuesBrowseMode, defaultLabelValuesLimit,
  parsePositiveInt, parseNonNegativeInt, normalizeLabelValueSearch, labelValueIndexLess,
  labelValueIndexEnsureOrderedLocked, updateLabelValuesIndex, selectLabelValuesFromIndex,
  selectLabelValuesWindow), label_handlers.go (handleLabelValues on a miss) and
  label_metadata.go (refreshLabelValuesCacheAsync).

  The index is that of one caller and one label.
-/
import LokiVlProxy.Foundation.Text
import LokiVlProxy.Foundation.KeyMap
import Mathlib.Data.List.Infix
import Mathlib.Data.List.Sort

namespace LokiVlProxy.Proxy.LabelValues

open Foundation List

def maxLimitValue : Int := 10000

/-- The settings of the handlers; `lower` is `unicode.ToLower`. -/
structure Config where
  /-- `labelValuesIndexedCache` -/
  indexed : Bool
  /-- `labelValuesIndexMaxEntries` -/
  maxEntries : Int
  /-- `labelValuesHotLimit` -/
  hotLimit : Int
  lower : Char → Char

/-- The parameters of a label_values request. -/
structure Request where
  query : Text
  search : Text
  q : Text
  limit : Text
  offset : Text
  deriving DecidableEq, Repr

/-- `labelValuesBrowseMode`. -/
def browseMode (rawQuery : Text) : Bool := trimSpace rawQuery = [] || trimSpace rawQuery = ['*']

def parsePositiveInt (raw : Text) (fallback : Int) : Int :=
  match parseInt (trimSpace raw) with
  | some n => if n ≤ 0 then fallback else n
  | none => fallback

def parseNonNegativeInt (raw : Text) (fallback : Int) : Int :=
  match parseInt (trimSpace raw) with
  | some n => if n < 0 then fallback else n
  | none => fallback

namespace Request

/-- The search text: that of `search`, or of `q` when it is blank. -/
def searchText (r : Request) : Text := if trimSpace r.search = [] then r.q else r.search

/-- The values to skip. -/
def skip (r : Request) : Int := parseNonNegativeInt r.offset 0

end Request

namespace Config

variable (c : Config)

def defaultLabelValuesLimit (limitRaw : Text) : Int :=
  if trimSpace limitRaw ≠ [] then min (parsePositiveInt limitRaw c.hotLimit) maxLimitValue
  else min (if c.hotLimit ≤ 0 then 200 else c.hotLimit) maxLimitValue

/-- The limit of the handler. -/
def limit (r : Request) : Int :=
  if r.limit = [] ∧ browseMode r.query = false then maxLimitValue
  else c.defaultLabelValuesLimit r.limit

def normalizeLabelValueSearch (raw : Text) : Text := (trimSpace raw).map c.lower

/-- Whether a value is on the pages of a search. -/
def found (search value : Text) : Bool := search = [] || search <:+: value.map c.lower

end Config

/-! ## Pages -/

/-- The loop over the values: those found, without the first `skip`, up to `limit`. -/
def pageLoop (found : Text → Bool) : Nat → Nat → List Text → List Text
  | _, _, [] => []
  | skip, limit, value :: values =>
      if !found value then pageLoop found skip limit values
      else if 0 < skip then pageLoop found (skip - 1) limit values
      else if limit ≤ 1 then [value]
      else value :: pageLoop found 0 (limit - 1) values

/-- The loop takes the page of the values found. -/
theorem pageLoop_eq (found : Text → Bool) {limit : Nat} (hlimit : 1 ≤ limit) (skip : Nat)
    (values : List Text) :
    pageLoop found skip limit values = ((values.filter found).drop skip).take limit := by
  induction values generalizing skip limit with
  | nil => simp [pageLoop]
  | cons value values ih =>
    rw [pageLoop]
    cases hfound : found value with
    | false =>
      rw [filter_cons_of_neg (by simp [hfound])]
      exact ih hlimit skip
    | true =>
      rw [filter_cons_of_pos hfound]
      cases skip with
      | succ skip => exact ih hlimit skip
      | zero =>
        by_cases hlast : limit ≤ 1
        · obtain rfl : limit = 1 := by omega
          rfl
        · obtain ⟨n, rfl⟩ : ∃ n, limit = n + 1 := ⟨limit - 1, by omega⟩
          have hrest := ih (show 1 ≤ n by omega) 0
          simp only [drop_zero, take_succ_cons] at hrest ⊢
          simp [hlast, hrest]

namespace Config

variable (c : Config)

def selectLabelValuesWindow (values : List Text) (search : Text) (offset limit : Int) :
    List Text :=
  let limit := if limit ≤ 0 then maxLimitValue else min limit maxLimitValue
  pageLoop (c.found (c.normalizeLabelValueSearch search)) offset.toNat limit.toNat values

end Config

/-! ## The index -/

/-- `labelValueIndexEntry`. -/
structure IndexEntry where
  seenCount : Nat
  lastSeen : Int
  deriving DecidableEq, Repr

/-- The entries of a `labelValuesIndexState`. -/
abbrev Index : Type := KeyMap Text IndexEntry

def labelValueIndexLess (a b : Text × IndexEntry) : Bool :=
  if a.2.seenCount ≠ b.2.seenCount then b.2.seenCount < a.2.seenCount
  else if a.2.lastSeen ≠ b.2.lastSeen then b.2.lastSeen < a.2.lastSeen
  else a.1 < b.1

variable (index : Index)

/-- `labelValueIndexEnsureOrderedLocked`. -/
def ordered : List Text :=
  (index.toList.insertionSort fun a b => labelValueIndexLess b a = false).map Prod.fst

/-- One value is seen. -/
def note (now : Int) (index : Index) (value : Text) : Index :=
  let count := ((index.find? value).map IndexEntry.seenCount).getD 0
  index.insert value ⟨if count < 4294967295 then count + 1 else count, now⟩

/-- The entry of a value is kept. -/
def keepEntry (index pruned : Index) (value : Text) : Index :=
  match index.find? value with
  | some entry => pruned.insert value entry
  | none => pruned

/-- Only the entries of some values are kept. -/
def restrict (keep : List Text) : Index := keep.foldl (keepEntry index) ∅

namespace Config

variable (c : Config)

def updateLabelValuesIndex (now : Int) (index : Index) (values : List Text) : Index :=
  if !c.indexed || values.isEmpty then index
  else
    let index := values.foldl (note now) index
    if c.maxEntries ≤ 0 ∨ index.size ≤ c.maxEntries then index
    else restrict index ((ordered index).take c.maxEntries.toNat)

/-- The limit in `selectLabelValuesFromIndex`. -/
def indexLimit (limit : Int) : Int :=
  let limit := if limit ≤ 0 then c.hotLimit else limit
  let limit := if limit ≤ 0 then 200 else limit
  min limit maxLimitValue

def selectLabelValuesFromIndex (index : Index) (search : Text) (offset limit : Int) :
    Option (List Text) :=
  if !c.indexed || index.size = 0 then none
  else some (pageLoop (c.found (c.normalizeLabelValueSearch search)) offset.toNat
    (c.indexLimit limit).toNat (ordered index))

/-! ## Handler and refresh -/

/-- The page of a request whose values came from the backend. -/
def fetchedPage (serviceName : Bool) (index : Index) (r : Request) (values : List Text) :
    List Text :=
  if browseMode r.query then
    (c.selectLabelValuesFromIndex index r.searchText r.skip (c.limit r)).getD
      (c.selectLabelValuesWindow values r.searchText r.skip (c.limit r))
  else if serviceName then values
  else if r.searchText ≠ [] ∨ 0 < r.skip ∨ r.limit ≠ [] then
    c.selectLabelValuesWindow values r.searchText r.skip (c.limit r)
  else values

/-- The page that the index alone gives. -/
def indexedPage (index : Index) (r : Request) : Option (List Text) :=
  if browseMode r.query then c.selectLabelValuesFromIndex index r.searchText r.skip (c.limit r)
  else none

/-- `handleLabelValues` behind a miss, for the label `service_name` or another one; `values` is
what the backend answers when it is asked. -/
def handleLabelValues (serviceName : Bool) (now : Int) (index : Index) (r : Request)
    (values : List Text) : List Text × Index :=
  match c.indexedPage index r with
  | some page => (page, index)
  | none =>
      let index := c.updateLabelValuesIndex now index values
      (c.fetchedPage serviceName index r values, index)

/-- The page that a refresh selects. -/
def refreshedPage (index : Index) (r : Request) (values : List Text) : List Text :=
  if browseMode r.query then
    (c.selectLabelValuesFromIndex index [] 0 (c.defaultLabelValuesLimit r.limit)).getD values
  else values

/-- `refreshLabelValuesCacheAsync`: the body it stores, if it stores one, and the index. -/
def refreshLabelValuesCache (now : Int) (index : Index) (r : Request) (values : List Text) :
    Option (List Text) × Index :=
  let index := c.updateLabelValuesIndex now index values
  let page := c.refreshedPage index r values
  (if page.isEmpty then none else some page, index)

end Config

/-! ## What is in the index -/

theorem perm_ordered : (ordered index).Perm index.keys :=
  (perm_insertionSort _ _).map Prod.fst

theorem nodup_ordered : (ordered index).Nodup :=
  (perm_ordered index).nodup_iff.mpr index.nodup_keys

theorem mem_ordered {index : Index} {value : Text} :
    value ∈ ordered index ↔ (index.find? value).isSome :=
  (perm_ordered index).mem_iff.trans KeyMap.mem_keys

theorem length_ordered : (ordered index).length = index.size := by
  rw [(perm_ordered index).length_eq, KeyMap.keys, length_map]
  rfl

theorem isSome_find?_note (now : Int) (index : Index) (value v : Text) :
    ((note now index value).find? v).isSome ↔ v = value ∨ (index.find? v).isSome := by
  rw [note, KeyMap.find?_insert]
  split
  · next heq => simp [heq]
  · next hne => simp [hne]

theorem isSome_find?_foldl_note (now : Int) (values : List Text) (index : Index) (v : Text) :
    ((values.foldl (note now) index).find? v).isSome ↔ v ∈ values ∨ (index.find? v).isSome := by
  induction values generalizing index with
  | nil => simp
  | cons value values ih =>
    rw [foldl_cons, ih, isSome_find?_note, mem_cons]
    tauto

/-- An index of given values. -/
def indexOf (values : List Text) : Index := values.foldl (note 0) ∅

/-- The index of a list holds its values. -/
theorem mem_ordered_indexOf {values : List Text} {v : Text} :
    v ∈ ordered (indexOf values) ↔ v ∈ values := by
  rw [mem_ordered, indexOf, isSome_find?_foldl_note]
  simp

theorem size_ne_zero_of_mem {index : Index} {v : Text} (h : v ∈ ordered index) :
    index.size ≠ 0 := by
  rw [← length_ordered]
  exact Nat.ne_of_gt (length_pos_of_mem h)

theorem find?_restrict (index : Index) (keep : List Text) (v : Text) :
    (restrict index keep).find? v = if v ∈ keep then index.find? v else none := by
  induction keep using List.reverseRecOn with
  | nil => rfl
  | append_singleton keep w ih =>
    rw [restrict, foldl_concat, ← restrict, keepEntry]
    split
    · rw [KeyMap.find?_insert, ih]
      grind
    · rw [ih]
      grind

/-! ## Pages that differ -/

namespace Config

variable (c : Config)

theorem indexLimit_pos (limit : Int) : 1 ≤ (c.indexLimit limit).toNat := by
  simp only [indexLimit, maxLimitValue]
  split_ifs <;> omega

variable {index : Index}

/-- The page of an index that holds values. -/
theorem select_of_size {c : Config} (hindexed : c.indexed = true) (hsize : index.size ≠ 0)
    (search : Text) (offset limit : Int) :
    c.selectLabelValuesFromIndex index search offset limit =
      some ((((ordered index).filter (c.found (c.normalizeLabelValueSearch search))).drop
        offset.toNat).take (c.indexLimit limit).toNat) := by
  rw [selectLabelValuesFromIndex, if_neg (by simp [hindexed, hsize]),
    pageLoop_eq _ (c.indexLimit_pos limit)]

theorem select_of_not_indexed {c : Config} (h : c.indexed = false) (index : Index) (search : Text)
    (offset limit : Int) : c.selectLabelValuesFromIndex index search offset limit = none := by
  rw [selectLabelValuesFromIndex, if_pos (by simp [h])]

theorem select_of_empty {c : Config} (h : index.size = 0) (search : Text) (offset limit : Int) :
    c.selectLabelValuesFromIndex index search offset limit = none := by
  rw [selectLabelValuesFromIndex, if_pos (by simp [h])]

theorem update_nil (now : Int) (index : Index) :
    c.updateLabelValuesIndex now index [] = index := by
  simp [updateLabelValuesIndex]

theorem update_of_not_indexed {c : Config} (h : c.indexed = false) (now : Int) (index : Index)
    (values : List Text) : c.updateLabelValuesIndex now index values = index := by
  rw [updateLabelValuesIndex, if_pos (by simp [h])]

/-- Values that are seen leave entries in the index. -/
theorem update_size_ne_zero {c : Config} (hindexed : c.indexed = true) {values : List Text}
    (hvalues : values ≠ []) (now : Int) (index : Index) :
    (c.updateLabelValuesIndex now index values).size ≠ 0 := by
  obtain ⟨value, rest, rfl⟩ := exists_cons_of_ne_nil hvalues
  have hnoted : value ∈ ordered ((value :: rest).foldl (note now) index) := by
    rw [mem_ordered, isSome_find?_foldl_note]
    exact Or.inl mem_cons_self
  rw [updateLabelValuesIndex, if_neg (by simp [hindexed])]
  dsimp only
  split
  · exact size_ne_zero_of_mem hnoted
  · next hmany =>
    -- what is kept is not nothing, since the limit is positive
    obtain ⟨first, others, hordered⟩ := exists_cons_of_ne_nil (ne_nil_of_mem hnoted)
    have hfirst : first ∈ ordered ((value :: rest).foldl (note now) index) := by
      rw [hordered]
      exact mem_cons_self
    have hkept : first ∈ (ordered ((value :: rest).foldl (note now) index)).take
        c.maxEntries.toNat := by
      obtain ⟨n, hn⟩ : ∃ n, c.maxEntries.toNat = n + 1 := ⟨c.maxEntries.toNat - 1, by omega⟩
      rw [hordered, hn, take_succ_cons]
      exact mem_cons_self
    refine size_ne_zero_of_mem (v := first) (mem_ordered.mpr ?_)
    rw [find?_restrict, if_pos hkept]
    exact mem_ordered.mp hfirst

theorem found_nil (value : Text) : c.found [] value = true := rfl

theorem filter_found_nil (values : List Text) : values.filter (c.found []) = values :=
  filter_eq_self.mpr fun value _ => c.found_nil value

theorem found_append (search rest : Text) :
    c.found (c.normalizeLabelValueSearch search) (trimSpace search ++ rest) = true := by
  rw [found, normalizeLabelValueSearch, map_append, Bool.or_eq_true]
  exact Or.inr (decide_eq_true (prefix_append _ _).isInfix)

theorem window_replicate {value search : Text} (offset limit : Int) (n : Nat)
    (hfound : c.found (c.normalizeLabelValueSearch search) value = true) :
    ∃ m : Nat, 1 ≤ m ∧ m ≤ 10000 ∧
      c.selectLabelValuesWindow (List.replicate n value) search offset limit =
        (List.replicate (n - offset.toNat) value).take m := by
  refine ⟨(if limit ≤ 0 then maxLimitValue else min limit maxLimitValue).toNat, ?_, ?_, ?_⟩
  · simp only [maxLimitValue]
    split_ifs <;> omega
  · simp only [maxLimitValue]
    split_ifs <;> omega
  · rw [selectLabelValuesWindow, pageLoop_eq _ (by simp only [maxLimitValue]; split_ifs <;> omega),
      filter_eq_self.mpr fun v hv => by rw [eq_of_mem_replicate hv]; exact hfound,
      drop_replicate]

end Config

/-! ## When a refresh stores the handler's answer -/

/-- The requests for which a refresh selects what the handler selects: when browsing, the first
page of the index, and otherwise all values that were asked for. -/
def Config.RefreshKeeps (c : Config) (serviceName : Bool) (r : Request) : Prop :=
  if browseMode r.query then
    c.indexed = true ∧ c.normalizeLabelValueSearch r.searchText = [] ∧ r.skip = 0
  else serviceName = true ∨ r.searchText = [] ∧ r.skip = 0 ∧ r.limit = []

theorem Request.skip_nonneg (r : Request) : 0 ≤ r.skip := by
  rw [skip, parseNonNegativeInt]
  split
  · split_ifs <;> omega
  · exact Int.le_refl 0

namespace Config

variable {c : Config} {r : Request}

theorem limit_of_browse (h : browseMode r.query = true) :
    c.limit r = c.defaultLabelValuesLimit r.limit := by
  rw [limit, if_neg (by simp [h])]

theorem handle_of_not_browse (hbrowse : ¬ browseMode r.query = true) (serviceName : Bool)
    (now : Int) (index : Index) (values : List Text) :
    (c.handleLabelValues serviceName now index r values).1 =
      if serviceName then values
      else if r.searchText ≠ [] ∨ 0 < r.skip ∨ r.limit ≠ [] then
        c.selectLabelValuesWindow values r.searchText r.skip (c.limit r)
      else values := by
  rw [handleLabelValues, indexedPage, if_neg hbrowse]
  dsimp only
  rw [fetchedPage, if_neg hbrowse]

variable {index : Index} {values : List Text}

/-- In browse mode an index that holds values answers for the backend. -/
theorem handle_of_size (hbrowse : browseMode r.query = true) (hindexed : c.indexed = true)
    (hsize : index.size ≠ 0) (serviceName : Bool) (now : Int) (values : List Text) :
    c.handleLabelValues serviceName now index r values =
      (((((ordered index).filter (c.found (c.normalizeLabelValueSearch r.searchText))).drop
        r.skip.toNat).take (c.indexLimit (c.limit r)).toNat), index) := by
  rw [handleLabelValues, indexedPage, if_pos hbrowse, select_of_size hindexed hsize]

/-- Without an index, the answer is a page of what the backend returned. -/
theorem handle_of_not_indexed (hbrowse : browseMode r.query = true) (hindexed : c.indexed = false)
    (serviceName : Bool) (now : Int) (index : Index) (values : List Text) :
    (c.handleLabelValues serviceName now index r values).1 =
      c.selectLabelValuesWindow values r.searchText r.skip (c.limit r) := by
  rw [handleLabelValues, indexedPage, if_pos hbrowse, select_of_not_indexed hindexed]
  dsimp only
  rw [fetchedPage, if_pos hbrowse, select_of_not_indexed hindexed, Option.getD_none]

theorem handle_nil (hbrowse : browseMode r.query = true) (hsize : index.size = 0)
    (serviceName : Bool) (now : Int) : (c.handleLabelValues serviceName now index r []).1 = [] := by
  rw [handleLabelValues, indexedPage, if_pos hbrowse, select_of_empty hsize]
  dsimp only
  rw [update_nil, fetchedPage, if_pos hbrowse, select_of_empty hsize]
  rfl

/-- An empty index is filled before it answers. -/
theorem handle_of_empty (hsize : index.size = 0) (serviceName : Bool) (now : Int)
    (values : List Text) :
    (c.handleLabelValues serviceName now index r values).1 =
      (c.handleLabelValues serviceName now (c.updateLabelValuesIndex now index values) r
        values).1 := by
  by_cases hbrowse : browseMode r.query = true
  · cases hindexed : c.indexed with
    | false => rw [update_of_not_indexed hindexed]
    | true =>
      by_cases hvalues : values = []
      · rw [hvalues, update_nil]
      · have hleft := update_size_ne_zero hindexed hvalues now index
        rw [handle_of_size hbrowse hindexed hleft, handleLabelValues, indexedPage, if_pos hbrowse,
          select_of_empty hsize]
        dsimp only
        rw [fetchedPage, if_pos hbrowse, select_of_size hindexed hleft, Option.getD_some]
  · rw [handle_of_not_browse hbrowse, handle_of_not_browse hbrowse]

/-- What the refresh selects is the handler's answer on the index that the refresh left. -/
theorem refreshedPage_of_keeps {serviceName : Bool} (hkeeps : c.RefreshKeeps serviceName r)
    (hindex : c.indexed = true → values ≠ [] → index.size ≠ 0) {now : Int}
    (hanswer : (c.handleLabelValues serviceName now index r values).1 ≠ []) :
    c.refreshedPage index r values = (c.handleLabelValues serviceName now index r values).1 := by
  by_cases hbrowse : browseMode r.query = true
  · rw [RefreshKeeps, if_pos hbrowse] at hkeeps
    obtain ⟨hindexed, hsearch, hskip⟩ := hkeeps
    have hsize : index.size ≠ 0 := by
      by_cases hvalues : values = []
      · intro hsize
        rw [hvalues, handle_nil hbrowse hsize] at hanswer
        exact hanswer rfl
      · exact hindex hindexed hvalues
    rw [refreshedPage, if_pos hbrowse, handle_of_size hbrowse hindexed hsize,
      select_of_size hindexed hsize, hsearch, hskip, limit_of_browse hbrowse]
    rfl
  · rw [RefreshKeeps, if_neg hbrowse] at hkeeps
    rw [refreshedPage, if_neg hbrowse, handle_of_not_browse hbrowse]
    rcases hkeeps with hservice | ⟨hsearch, hskip, hlimit⟩
    · rw [if_pos hservice]
    · rw [if_neg (show ¬(r.searchText ≠ [] ∨ 0 < r.skip ∨ r.limit ≠ []) by
        simp [hsearch, hskip, hlimit]), ite_self]

theorem exists_longer_than_window (c : Config) (search : Text) (offset limit : Int) :
    ∃ values, c.selectLabelValuesWindow values search offset limit ≠ [] ∧
      c.selectLabelValuesWindow values search offset limit ≠ values := by
  have hfound := c.found_append search []
  obtain ⟨m, hm, hmax, hwindow⟩ :=
    c.window_replicate offset limit (offset.toNat + 10001) hfound
  have hlength : (c.selectLabelValuesWindow
      (List.replicate (offset.toNat + 10001) (trimSpace search ++ [])) search offset limit).length
        = m := by
    rw [hwindow, length_take, length_replicate]
    omega
  refine ⟨List.replicate (offset.toNat + 10001) (trimSpace search ++ []), ?_, ?_⟩
  · intro hnil
    rw [hnil, length_nil] at hlength
    omega
  · intro hall
    rw [hall, length_replicate] at hlength
    omega

theorem exists_unfound_first {search : Text} (hsearch : c.normalizeLabelValueSearch search ≠ []) :
    ∃ index : Index, ordered index = [[], trimSpace search] := by
  have hne : trimSpace search ≠ [] := by
    intro hnil
    rw [normalizeLabelValueSearch, hnil] at hsearch
    exact hsearch rfl
  refine ⟨((∅ : Index).insert (trimSpace search) ⟨1, 0⟩).insert [] ⟨2, 0⟩, ?_⟩
  have hfresh : ((∅ : Index).insert (trimSpace search) ⟨1, 0⟩).find? [] = none := by
    rw [KeyMap.find?_insert, if_neg hne.symm]
    rfl
  rw [ordered, KeyMap.toList_insert, KeyMap.erase_of_none hfresh]
  rfl

theorem found_empty {search : Text} (hsearch : search ≠ []) : c.found search [] = false := by
  rw [found, map_nil, Bool.or_eq_false_iff]
  refine ⟨decide_eq_false hsearch, decide_eq_false ?_⟩
  rw [infix_nil]
  exact hsearch

variable (search : Text)

/-- Any number of values can be found. -/
def foundValues (n : Nat) : List Text :=
  (List.range (n + 1)).map fun i => trimSpace search ++ List.replicate i 'x'

theorem nodup_foundValues (n : Nat) : (foundValues search n).Nodup := by
  refine List.Nodup.map ?_ nodup_range
  intro i j h
  have hlength := congrArg List.length (append_cancel_left h)
  simpa using hlength

theorem perm_ordered_foundValues (n : Nat) :
    (ordered (indexOf (foundValues search n))).Perm (foundValues search n) :=
  (perm_ext_iff_of_nodup (nodup_ordered _) (nodup_foundValues search n)).mpr
    fun _ => mem_ordered_indexOf

theorem take_ne_take_drop (hnodup : values.Nodup) {skip limit : Nat} (hskip : 0 < skip)
    (hlength : skip < values.length) (hlimit : 1 ≤ limit) :
    values.take limit ≠ (values.drop skip).take limit := by
  intro h
  have hfirst := congrArg (·[0]?) h
  simp only [getElem?_take, getElem?_drop] at hfirst
  rw [if_pos (by omega), if_pos (by omega), Nat.add_zero, getElem?_eq_getElem hlength,
    getElem?_eq_getElem (by omega), Option.some.injEq, hnodup.getElem_inj_iff] at hfirst
  omega

/-- An index whose first page is not what a search or an offset leads to. -/
theorem exists_other_page (c : Config) (hplain : ¬(c.normalizeLabelValueSearch r.searchText = [] ∧
    r.skip = 0)) {limit : Nat} (hlimit : 1 ≤ limit) :
    ∃ index : Index, index.size ≠ 0 ∧
      (((ordered index).filter (c.found (c.normalizeLabelValueSearch r.searchText))).drop
        r.skip.toNat).take limit ≠ [] ∧
      (ordered index).take limit ≠
        (((ordered index).filter (c.found (c.normalizeLabelValueSearch r.searchText))).drop
          r.skip.toNat).take limit := by
  have hskip := r.skip_nonneg
  obtain ⟨n, hn⟩ : ∃ n, limit = n + 1 := ⟨limit - 1, by omega⟩
  by_cases hzero : r.skip = 0
  · have hsearch := fun hnil => hplain ⟨hnil, hzero⟩
    obtain ⟨index, hordered⟩ := exists_unfound_first hsearch
    have hfilter : (ordered index).filter (c.found (c.normalizeLabelValueSearch r.searchText)) =
        [trimSpace r.searchText] := by
      have hfound := c.found_append r.searchText []
      rw [append_nil] at hfound
      rw [hordered, filter_cons_of_neg (by simp [found_empty hsearch]),
        filter_cons_of_pos hfound, filter_nil]
    refine ⟨index, size_ne_zero_of_mem (v := []) (by simp [hordered]), ?_, ?_⟩
    · simp [hfilter, hzero, hn]
    · have hne : trimSpace r.searchText ≠ [] := by
        intro hnil
        exact hsearch (by rw [normalizeLabelValueSearch, hnil, map_nil])
      rw [hfilter, hordered, hzero, hn]
      simp [hne.symm]
  · have hperm := perm_ordered_foundValues r.searchText r.skip.toNat
    have hfilter : (ordered (indexOf (foundValues r.searchText r.skip.toNat))).filter
        (c.found (c.normalizeLabelValueSearch r.searchText)) =
        ordered (indexOf (foundValues r.searchText r.skip.toNat)) := by
      refine filter_eq_self.mpr fun value hvalue => ?_
      obtain ⟨i, -, rfl⟩ := mem_map.mp (hperm.mem_iff.mp hvalue)
      exact c.found_append _ _
    have hlength : (ordered (indexOf (foundValues r.searchText r.skip.toNat))).length =
        r.skip.toNat + 1 := by
      rw [hperm.length_eq, foundValues, length_map, length_range]
    refine ⟨indexOf (foundValues r.searchText r.skip.toNat), ?_, ?_, ?_⟩
    · rw [← length_ordered, hlength]
      omega
    · rw [hfilter, ← length_pos_iff, length_take, length_drop, hlength]
      omega
    · rw [hfilter]
      exact take_ne_take_drop (nodup_ordered _) (by omega) (by omega) hlimit

end Config

/-- For a request, a refresh stores the answer that the handler computes from the same values of
the backend and the same index: the one with these values in it, or an empty one that the handler
fills with them itself. -/
def Config.Preserves (c : Config) (serviceName : Bool) (r : Request) : Prop :=
  ∀ (now : Int) (index start : Index) (values : List Text),
    start = (c.refreshLabelValuesCache now index r values).2 ∨ start = index ∧ index.size = 0 →
    (c.handleLabelValues serviceName now start r values).1 ≠ [] →
    (c.refreshLabelValuesCache now index r values).1 =
      some (c.handleLabelValues serviceName now start r values).1

/-- A refresh preserves what a cache entry means exactly for requests for the first page of the
index, and for queries without search, offset and limit. -/
theorem refresh_eq_handler_iff (c : Config) (serviceName : Bool) (r : Request) :
    c.Preserves serviceName r ↔ c.RefreshKeeps serviceName r := by
  constructor
  · intro h
    have hpage : ∀ (index left : Index) (values : List Text),
        c.updateLabelValuesIndex 0 index values = left →
        (c.handleLabelValues serviceName 0 left r values).1 ≠ [] →
        c.refreshedPage left r values = (c.handleLabelValues serviceName 0 left r values).1 := by
      intro index left values hupdate hanswer
      have hstored := h 0 index left values (Or.inl hupdate.symm) hanswer
      rw [Config.refreshLabelValuesCache, hupdate] at hstored
      dsimp only at hstored
      split at hstored
      · cases hstored
      · exact Option.some.inj hstored
    unfold Config.RefreshKeeps
    split
    · next hbrowse =>
      cases hindexed : c.indexed with
      | false =>
        obtain ⟨values, hne, hother⟩ :=
          c.exists_longer_than_window r.searchText r.skip (c.limit r)
        have hstored := hpage ∅ ∅ values (Config.update_of_not_indexed hindexed 0 ∅ values)
        rw [Config.handle_of_not_indexed hbrowse hindexed, Config.refreshedPage, if_pos hbrowse,
          Config.select_of_not_indexed hindexed, Option.getD_none] at hstored
        exact absurd (hstored hne).symm hother
      | true =>
        refine ⟨rfl, ?_⟩
        by_contra hplain
        obtain ⟨index, hsize, hne, hother⟩ :=
          c.exists_other_page hplain (c.indexLimit_pos (c.limit r))
        have hstored := hpage index index [] (c.update_nil 0 index)
        rw [Config.handle_of_size hbrowse hindexed hsize, Config.refreshedPage, if_pos hbrowse,
          Config.select_of_size hindexed hsize, Option.getD_some, ← Config.limit_of_browse hbrowse,
          show c.normalizeLabelValueSearch [] = [] from rfl, Config.filter_found_nil] at hstored
        exact hother (hstored hne)
    · next hbrowse =>
      by_contra hkeeps
      obtain ⟨hservice, hplain⟩ := not_or.mp hkeeps
      have hwindow : r.searchText ≠ [] ∨ 0 < r.skip ∨ r.limit ≠ [] := by
        have hskip := r.skip_nonneg
        by_contra hnone
        simp only [not_or, not_not] at hnone
        exact hplain ⟨hnone.1, by omega, hnone.2.2⟩
      obtain ⟨values, hne, hother⟩ := c.exists_longer_than_window r.searchText r.skip (c.limit r)
      have hstored := hpage ∅ _ values rfl
      rw [Config.handle_of_not_browse hbrowse, if_neg hservice, if_pos hwindow,
        Config.refreshedPage, if_neg hbrowse] at hstored
      exact hother (hstored hne).symm
  · intro hkeeps now index start values hstart hanswer
    have hpage : (c.handleLabelValues serviceName now start r values).1 =
        (c.handleLabelValues serviceName now
          (c.updateLabelValuesIndex now index values) r values).1 := by
      rcases hstart with rfl | ⟨rfl, hsize⟩
      · rfl
      · exact Config.handle_of_empty hsize serviceName now values
    rw [hpage] at hanswer ⊢
    have hrefreshed := Config.refreshedPage_of_keeps hkeeps
      (fun hindexed hvalues => Config.update_size_ne_zero hindexed hvalues now index) hanswer
    rw [Config.refreshLabelValuesCache]
    dsimp only
    rw [hrefreshed, if_neg (by simpa using hanswer)]

/-- Browsing with an index and the usual sizes. -/
def Config.usual : Config where
  indexed := true
  maxEntries := 200000
  hotLimit := 200
  lower := Char.toLower

/-- A request for the second value. -/
def secondValue : Request := ⟨[], [], [], [], ['1']⟩

/-- A refresh of a request for the second value stores the first page. -/
theorem not_preserves_secondValue : ¬ Config.usual.Preserves false secondValue := by
  intro h
  have hkept := h 0 ∅ _ [['a'], ['b']] (Or.inl rfl) (by decide +kernel)
  exact absurd hkept (by decide +kernel)

end LokiVlProxy.Proxy.LabelValues
