/-
  Proxy/LabelIndex.lean --- the label values of all scopes and labels in one index.

  Source: internal/proxy/label_index.go: labelValuesIndexKey, updateLabelValuesIndex,
  selectLabelValuesFromIndex.
-/
import LokiVlProxy.Proxy.LabelValues

namespace LokiVlProxy.Proxy.LabelValues

open Foundation List

/-- `labelValuesIndex`. -/
abbrev States : Type := KeyMap Text Index

/-- A call of `updateLabelValuesIndex` at a time. -/
structure Recording where
  /-- `orgID` and `labelName` -/
  pair : Text × Text
  values : List Text
  now : Int

namespace Config

variable (c : Config)

def labelValuesIndexKey (pair : Text × Text) : Text :=
  pair.1 ++ '|' :: (trimSpace pair.2).map c.lower

/-- `updateLabelValuesIndex`, with the index of every key. -/
def record (states : States) (r : Recording) : States :=
  if !c.indexed || r.values.isEmpty then states
  else
    states.insert (c.labelValuesIndexKey r.pair) (c.updateLabelValuesIndex r.now
      ((states.find? (c.labelValuesIndexKey r.pair)).getD ∅) r.values)

/-- `selectLabelValuesFromIndex`, with the index of every key. -/
def select (states : States) (pair : Text × Text) (search : Text) (offset limit : Int) :
    Option (List Text) :=
  (states.find? (c.labelValuesIndexKey pair)).bind fun index =>
    c.selectLabelValuesFromIndex index search offset limit

/-- Every value selected after a run was recorded for the same scope and label.  A selection
leaves the entries as they are, so that the updates before it are all of its run. -/
def KeepsApart (rs : List Recording) (pair : Text × Text) : Prop :=
  ∀ search offset limit values,
    c.select (rs.foldl c.record ∅) pair search offset limit = some values →
      ∀ v ∈ values, ∃ r ∈ rs, r.pair = pair ∧ v ∈ r.values

variable {c} {rs : List Recording} {pair pair' : Text × Text} {index : Index} {v : Text}

/-- What an update leaves was there or is one of its values. -/
theorem mem_keys_update {now : Int} {values : List Text}
    (h : v ∈ (c.updateLabelValuesIndex now index values).keys) : v ∈ values ∨ v ∈ index.keys := by
  rw [KeyMap.mem_keys] at h ⊢
  rw [updateLabelValuesIndex] at h
  split at h
  · exact .inr h
  · dsimp only at h
    rw [← isSome_find?_foldl_note now]
    split at h
    · exact h
    · rw [find?_restrict] at h
      split at h
      · exact h
      · cases h

/-- The values under a key were recorded under it. -/
theorem recorded_of_mem {key : Text} (hfind : (rs.foldl c.record ∅).find? key = some index)
    (hv : v ∈ index.keys) : ∃ r ∈ rs, c.labelValuesIndexKey r.pair = key ∧ v ∈ r.values := by
  induction rs using List.reverseRecOn generalizing index with
  | nil => cases hfind
  | append_singleton rs last ih =>
    have hbefore {index : Index} (h : (rs.foldl c.record ∅).find? key = some index)
        (hv : v ∈ index.keys) :
        ∃ r ∈ rs ++ [last], c.labelValuesIndexKey r.pair = key ∧ v ∈ r.values := by
      obtain ⟨r, hr, hrest⟩ := ih h hv
      exact ⟨r, mem_append_left _ hr, hrest⟩
    rw [foldl_concat, record] at hfind
    split at hfind
    · exact hbefore hfind hv
    · rw [KeyMap.find?_insert] at hfind
      split at hfind
      · next hkey =>
        cases hfind
        rcases mem_keys_update hv with hvalue | hold
        · exact ⟨last, by simp, hkey.symm, hvalue⟩
        · cases hprev : (rs.foldl c.record ∅).find? (c.labelValuesIndexKey last.pair) with
          | none => simp [hprev, KeyMap.mem_keys] at hold
          | some old =>
            rw [hprev] at hold
            exact hbefore (hkey ▸ hprev) hold
      · exact hbefore hfind hv

theorem mem_keys_of_select {search : Text} {offset limit : Int} {values : List Text}
    (h : c.selectLabelValuesFromIndex index search offset limit = some values) (hv : v ∈ values) :
    c.indexed = true ∧ v ∈ index.keys := by
  cases hindexed : c.indexed with
  | false =>
    rw [select_of_not_indexed hindexed] at h
    cases h
  | true =>
    by_cases hsize : index.size = 0
    · rw [select_of_empty hsize] at h
      cases h
    · rw [select_of_size hindexed hsize] at h
      cases h
      have hordered := (mem_filter.mp (mem_of_mem_drop (mem_of_mem_take hv))).1
      exact ⟨rfl, (perm_ordered index).mem_iff.mp hordered⟩

/-- Something is found under the key of what was recorded. -/
theorem select_recorded (hindexed : c.indexed = true)
    (hkey : c.labelValuesIndexKey pair = c.labelValuesIndexKey pair') :
    ∃ v values, c.select ([⟨pair, [[]], 0⟩].foldl c.record ∅) pair' [] 0 1 =
      some (v :: values) := by
  have hsize := update_size_ne_zero hindexed (cons_ne_nil ([] : Text) []) 0 ∅
  obtain ⟨first, others, hordered⟩ := exists_cons_of_ne_nil (ne_nil_of_length_pos
    ((length_ordered _).symm ▸ Nat.pos_of_ne_zero hsize))
  obtain ⟨n, hn⟩ : ∃ n, (c.indexLimit 1).toNat = n + 1 :=
    ⟨(c.indexLimit 1).toNat - 1, by have := c.indexLimit_pos 1; omega⟩
  refine ⟨first, others.take n, ?_⟩
  have hnil : c.normalizeLabelValueSearch [] = [] := rfl
  rw [foldl_cons, foldl_nil, record, if_neg (by simp [hindexed]), select, ← hkey,
    KeyMap.find?_insert_self]
  simp only [Option.bind_some, KeyMap.find?_empty, Option.getD_none]
  rw [select_of_size hindexed hsize, hnil, filter_found_nil, hordered, hn]
  rfl

/-- Labels and scopes are kept apart in every run over given pairs exactly when no two of these
pairs have the same key. -/
theorem keepsApart_iff_injOn (pairs : Set (Text × Text)) :
    (∀ rs : List Recording, (∀ r ∈ rs, r.pair ∈ pairs) → ∀ pair ∈ pairs, c.KeepsApart rs pair) ↔
      c.indexed = false ∨ Set.InjOn c.labelValuesIndexKey pairs := by
  constructor
  · intro h
    refine or_iff_not_imp_left.mpr fun hindexed pair hpair pair' hpair' hkey => ?_
    obtain ⟨v, values, hselect⟩ := select_recorded (Bool.eq_true_of_not_eq_false hindexed) hkey
    obtain ⟨r, hr, heq, -⟩ := h [⟨pair, [[]], 0⟩] (by simp [hpair]) pair' hpair' _ _ _ _ hselect v
      mem_cons_self
    cases mem_singleton.mp hr
    exact heq
  · intro h rs hrs pair hpair search offset limit values hselect v hv
    obtain ⟨index, hfind, hselect⟩ := Option.bind_eq_some_iff.mp hselect
    obtain ⟨hindexed, hmem⟩ := mem_keys_of_select hselect hv
    obtain ⟨r, hr, hkey, hvalue⟩ := recorded_of_mem hfind hmem
    have hinj := h.resolve_left (by simp [hindexed])
    exact ⟨r, hr, hinj (hrs r hr) hpair hkey, hvalue⟩

/-- The values of `App` are returned for `app`. -/
theorem not_keepsApart_case :
    ¬ usual.KeepsApart [⟨(['t'], "App".toList), [['v']], 0⟩] (['t'], "app".toList) := by
  intro h
  obtain ⟨r, hr, heq, -⟩ := h [] 0 10 [['v']] (by decide +kernel) _ mem_cons_self
  cases mem_singleton.mp hr
  exact absurd heq (by decide)

end Config

end LokiVlProxy.Proxy.LabelValues
