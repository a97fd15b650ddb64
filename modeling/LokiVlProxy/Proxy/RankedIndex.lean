/-
  Proxy/RankedIndex.lean --- the ranked list of a label's values, kept from use to use.

  Source: internal/proxy/label_index.go: labelValueIndexEnsureOrderedLocked,
  updateLabelValuesIndex, selectLabelValuesFromIndex.

  The state of a label keeps the ranked list and sorts again only when the list may be out of
  date.
-/
import LokiVlProxy.Proxy.LabelIndex

namespace LokiVlProxy.Proxy.LabelValues

open Foundation List

/-! ## The ranked list -/

/-- `labelValuesIndexState`. -/
structure RankedIndex where
  entries : Index
  ordered : List Text
  dirty : Bool

namespace RankedIndex

variable (c : Config) (s : RankedIndex)

/-- `labelValueIndexEnsureOrderedLocked`. -/
def ensureOrdered : RankedIndex :=
  if s.dirty = false ∧ s.ordered ≠ [] then s else ⟨s.entries, LabelValues.ordered s.entries, false⟩

/-- `updateLabelValuesIndex`. -/
def update (now : Int) (values : List Text) : RankedIndex :=
  if !c.indexed || values.isEmpty then s
  else
    let s : RankedIndex := ⟨values.foldl (note now) s.entries, s.ordered, true⟩
    if c.maxEntries ≤ 0 ∨ s.entries.size ≤ c.maxEntries then s
    else
      let s := s.ensureOrdered
      if s.ordered.length ≤ c.maxEntries then s
      else
        let keep := s.ordered.take c.maxEntries.toNat
        ⟨restrict s.entries keep, keep, false⟩

/-- `selectLabelValuesFromIndex`. -/
def select (search : Text) (offset limit : Int) : Option (List Text) × RankedIndex :=
  if !c.indexed || s.entries.size = 0 then (none, s)
  else
    let s := s.ensureOrdered
    (if s.ordered = [] then none
      else some (pageLoop (c.found (c.normalizeLabelValueSearch search)) offset.toNat
        (c.indexLimit limit).toNat s.ordered), s)

/-- The states of a label. -/
inductive Reachable : RankedIndex → Prop
  | start : Reachable ⟨∅, [], false⟩
  | update {s : RankedIndex} (now : Int) (values : List Text) :
      Reachable s → Reachable (s.update c now values)
  | select {s : RankedIndex} (search : Text) (offset limit : Int) :
      Reachable s → Reachable (s.select c search offset limit).2

end RankedIndex

/-- `w` does not rank before `v`. -/
def InRank (index : Index) (v w : Text) : Prop :=
  ∀ e ∈ index.find? v, ∀ f ∈ index.find? w, labelValueIndexLess (w, f) (v, e) = false

/-- What is kept has the entries it had, and nothing that goes ranks before it. -/
def KeepsFirst (noted kept : Index) : Prop :=
  ∀ v ∈ kept.keys, kept.find? v = noted.find? v ∧
    ∀ w ∈ noted.keys, w ∉ kept.keys → InRank noted v w

instance : Std.Total fun a b : Text × IndexEntry => labelValueIndexLess b a = false where
  total := fun a b => by
    unfold labelValueIndexLess
    split_ifs <;> simp_all <;> grind

instance : IsTrans (Text × IndexEntry) fun a b => labelValueIndexLess b a = false where
  trans := fun a b c hab hbc => by
    unfold labelValueIndexLess at *
    split_ifs at * <;> simp_all <;> grind

variable (index : Index)

theorem pairwise_ordered : (ordered index).Pairwise (InRank index) := by
  rw [ordered, pairwise_map]
  refine (pairwise_insertionSort _ index.toList).imp_of_mem ?_
  intro a b ha hb hab e he f hf
  rw [mem_insertionSort] at ha hb
  rw [KeyMap.mem_toList.mp ha] at he
  rw [KeyMap.mem_toList.mp hb] at hf
  cases he
  cases hf
  exact hab

/-- Two values never rank alike. -/
theorem InRank.antisymm {index : Index} {v w : Text} (hv : v ∈ index.keys) (hw : w ∈ index.keys)
    (hvw : InRank index v w) (hwv : InRank index w v) : v = w := by
  obtain ⟨e, he⟩ := Option.isSome_iff_exists.mp (KeyMap.mem_keys.mp hv)
  obtain ⟨f, hf⟩ := Option.isSome_iff_exists.mp (KeyMap.mem_keys.mp hw)
  have h := hvw e he f hf
  have h' := hwv f hf e he
  unfold labelValueIndexLess at h h'
  split_ifs at h h' <;> simp_all <;> grind

section

variable (n : Nat)

theorem mem_keys_restrict {v : Text} :
    v ∈ (restrict index ((ordered index).take n)).keys ↔ v ∈ (ordered index).take n := by
  rw [KeyMap.mem_keys, find?_restrict]
  split
  · next hv => exact iff_of_true (mem_ordered.mp (mem_of_mem_take hv)) hv
  · next hv => exact iff_of_false (by simp) hv

theorem keepsFirst_restrict : KeepsFirst index (restrict index ((ordered index).take n)) := by
  intro v hv
  rw [mem_keys_restrict] at hv
  refine ⟨by rw [find?_restrict, if_pos hv], ?_⟩
  intro w hw hgone
  rw [mem_keys_restrict] at hgone
  have hsorted := pairwise_ordered index
  rw [← take_append_drop n (ordered index), pairwise_append] at hsorted
  rw [← (perm_ordered index).mem_iff, ← take_append_drop n (ordered index), mem_append] at hw
  exact hsorted.2.2 v hv w (hw.resolve_left hgone)

/-- The list that was cut is the ranked list of what is kept. -/
theorem ordered_restrict :
    ordered (restrict index ((ordered index).take n)) = (ordered index).take n := by
  have hperm : (ordered (restrict index ((ordered index).take n))).Perm ((ordered index).take n) := by
    rw [perm_ext_iff_of_nodup (nodup_ordered _) ((nodup_ordered index).sublist (take_sublist n _))]
    intro v
    rw [(perm_ordered _).mem_iff, mem_keys_restrict]
  refine hperm.eq_of_pairwise ?_ (pairwise_ordered _) ?_
  · intro v w hv hw
    exact InRank.antisymm ((perm_ordered _).mem_iff.mp hv) ((mem_keys_restrict index n).mpr hw)
  · refine ((pairwise_ordered index).sublist (take_sublist n _)).imp_of_mem ?_
    intro v w hv hw h
    rwa [InRank, find?_restrict, find?_restrict, if_pos hv, if_pos hw]

end

namespace RankedIndex

variable {c : Config} {s : RankedIndex}

/-- What an update does to the state of the index. -/
theorem update_eq (c : Config) (s : RankedIndex) (now : Int) (values : List Text) :
    ∃ noted, noted = values.foldl (note now) s.entries ∧ s.update c now values =
      if !c.indexed || values.isEmpty then s
      else if c.maxEntries ≤ 0 ∨ noted.size ≤ c.maxEntries then ⟨noted, s.ordered, true⟩
      else
        ⟨restrict noted ((LabelValues.ordered noted).take c.maxEntries.toNat),
          (LabelValues.ordered noted).take c.maxEntries.toNat, false⟩ := by
  refine ⟨_, rfl, ?_⟩
  unfold update
  simp only [ensureOrdered, length_ordered, Bool.true_eq_false, false_and, if_false]
  grind

/-- A list that is not out of date is the ranked list. -/
theorem Reachable.ordered_eq (h : Reachable c s) (hclean : s.dirty = false) (hne : s.ordered ≠ []) :
    s.ordered = LabelValues.ordered s.entries := by
  induction h with
  | start => exact absurd rfl hne
  | @update s now values hs ih =>
    obtain ⟨noted, -, heq⟩ := update_eq c s now values
    generalize s.update c now values = s' at heq hclean hne ⊢
    split at heq
    · subst heq
      exact ih hclean hne
    · split at heq <;> subst heq
      · cases hclean
      · exact (ordered_restrict _ _).symm
  | @select s search offset limit hs ih =>
    unfold RankedIndex.select ensureOrdered at *
    split_ifs at * <;> first | exact ih hclean hne | rfl

/-- The order that is kept is that of the entries. -/
theorem Reachable.ensureOrdered (h : Reachable c s) :
    s.ensureOrdered.ordered = LabelValues.ordered s.entries := by
  unfold RankedIndex.ensureOrdered
  split
  · next hclean => exact h.ordered_eq hclean.1 hclean.2
  · rfl

theorem Reachable.of_off (h : Reachable c s) (hoff : c.indexed = false) : s = ⟨∅, [], false⟩ := by
  induction h with
  | start => rfl
  | update now values hs ih => simpa [RankedIndex.update, hoff] using ih
  | select search offset limit hs ih => simpa [RankedIndex.select, hoff] using ih

/-- The index stays within its bound. -/
theorem Reachable.size_le (h : Reachable c s) (hmax : 1 ≤ c.maxEntries) :
    s.entries.size ≤ c.maxEntries := by
  induction h with
  | start => exact Int.le_trans (by decide) hmax
  | @update s now values hs ih =>
    obtain ⟨noted, -, heq⟩ := update_eq c s now values
    rw [heq]
    split
    · exact ih
    · split
      · next hfits => exact hfits.resolve_left (by omega)
      · rw [← length_ordered, ordered_restrict, length_take]
        omega
  | @select s search offset limit hs ih =>
    unfold RankedIndex.select RankedIndex.ensureOrdered
    split_ifs <;> exact ih

/-- What an update drops does not rank before what it keeps. -/
theorem Reachable.keepsFirst (h : Reachable c s) (now : Int) (values : List Text) :
    KeepsFirst (values.foldl (note now) s.entries) (s.update c now values).entries := by
  have hself (index : Index) : KeepsFirst index index :=
    fun v _ => ⟨rfl, fun w hw hgone => absurd hw hgone⟩
  obtain ⟨noted, hnoted, heq⟩ := update_eq c s now values
  rw [heq, ← hnoted]
  split
  · next hskip =>
    rcases Bool.or_eq_true_iff.mp hskip with hoff | hnil
    · rw [h.of_off (by simpa using hoff)]
      exact nofun
    · rw [hnoted, isEmpty_iff.mp hnil]
      exact hself s.entries
  · split
    · exact hself noted
    · exact keepsFirst_restrict noted _

/-- The page of a state is the page of its entries. -/
theorem Reachable.select_eq (h : Reachable c s) (search : Text) (offset limit : Int) :
    (s.select c search offset limit).1 =
      c.selectLabelValuesFromIndex s.entries search offset limit := by
  rw [RankedIndex.select, Config.selectLabelValuesFromIndex]
  split
  · rfl
  · next hsome =>
    have hne : LabelValues.ordered s.entries ≠ [] := by
      rw [← length_pos_iff, length_ordered]
      simp at hsome
      omega
    simp only [h.ensureOrdered, hne, if_false]

/-- Selecting changes no entry. -/
theorem entries_select (search : Text) (offset limit : Int) :
    (s.select c search offset limit).2.entries = s.entries := by
  unfold RankedIndex.select RankedIndex.ensureOrdered
  split_ifs <;> rfl

theorem flatMap_pages {α : Type} (l : List α) (limit n : Nat) :
    ((range n).flatMap fun i => (l.drop (i * limit)).take limit) = l.take (n * limit) := by
  induction n with
  | zero => simp
  | succ n ih => simp [range_succ, ih, Nat.succ_mul, take_add]

/-- What a page of a label is, also when nothing is recorded. -/
theorem Reachable.page_eq (h : Reachable c s) (search : Text) {limit : Int} (hlimit : 1 ≤ limit)
    (hmax : limit ≤ maxLimitValue) (i : Nat) :
    (s.select c search (i * limit) limit).1.getD [] =
      (((LabelValues.ordered s.entries).filter
        (c.found (c.normalizeLabelValueSearch search))).drop (i * limit.toNat)).take limit.toNat := by
  rw [h.select_eq]
  by_cases hsize : s.entries.size = 0
  · have hnil : LabelValues.ordered s.entries = [] :=
      length_eq_zero_iff.mp ((length_ordered _).trans hsize)
    rw [Config.select_of_empty hsize, hnil]
    simp
  · have hindexed : c.indexed = true := by
      by_contra hoff
      rw [h.of_off (Bool.eq_false_iff.mpr hoff)] at hsize
      exact hsize rfl
    have hpage : (c.indexLimit limit).toNat = limit.toNat := by
      simp only [Config.indexLimit]
      rw [if_neg (by omega), if_neg (by omega), min_eq_left hmax]
    have hoffset : ((i : Int) * limit).toNat = i * limit.toNat := by
      rw [Int.toNat_mul (Int.natCast_nonneg i) (by omega), Int.toNat_natCast]
    rw [Config.select_of_size hindexed hsize, hpage, hoffset, Option.getD_some]

/-- In every state that calls can reach: a label has at most `maxEntries` values, also after a
further update, which drops no value that ranks before one it keeps; and the pages of one size,
taken one after the other while the entries stay, have every value that is found once, in the
order of the ranking. -/
theorem ranked_index_pages (h : Reachable c s) (hmax : 1 ≤ c.maxEntries) :
    s.entries.size ≤ c.maxEntries ∧
    (∀ now values, (s.update c now values).entries.size ≤ c.maxEntries ∧
      KeepsFirst (values.foldl (note now) s.entries) (s.update c now values).entries) ∧
    ∀ (search : Text) (limit : Int), 1 ≤ limit → limit ≤ maxLimitValue →
      ∀ (states : Nat → RankedIndex), (∀ i, Reachable c (states i) ∧ (states i).entries = s.entries) →
      ∀ n : Nat, s.entries.size ≤ n * limit.toNat →
        ∃ found, ((range n).flatMap fun i =>
            ((states i).select c search (i * limit) limit).1.getD []) = found ∧
          found.Nodup ∧ found.Pairwise (InRank s.entries) ∧
          ∀ v, v ∈ found ↔
            v ∈ s.entries.keys ∧ c.found (c.normalizeLabelValueSearch search) v = true := by
  refine ⟨h.size_le hmax, fun now values => ⟨(h.update now values).size_le hmax,
    h.keepsFirst now values⟩, ?_⟩
  intro search limit hlimit hlarge states hstates n hn
  let found := (LabelValues.ordered s.entries).filter (c.found (c.normalizeLabelValueSearch search))
  have hpages : ((range n).flatMap fun i =>
      ((states i).select c search (i * limit) limit).1.getD []) = found := by
    have hpage : ∀ i, ((states i).select c search (i * limit) limit).1.getD [] =
        (found.drop (i * limit.toNat)).take limit.toNat := by
      intro i
      rw [(hstates i).1.page_eq search hlimit hlarge, (hstates i).2]
    simp only [hpage]
    rw [flatMap_pages]
    refine take_of_length_le (le_trans (length_filter_le _ _) ?_)
    rw [length_ordered]
    exact hn
  refine ⟨found, hpages, (nodup_ordered _).filter _, (pairwise_ordered _).filter _, fun v => ?_⟩
  rw [mem_filter, (perm_ordered _).mem_iff]

/-- Two values, recorded once and twice. -/
def twoValues : RankedIndex :=
  (RankedIndex.mk ∅ [] false).update Config.usual 0 [['x'], ['y'], ['y']]

/-- The state that the first page of one value leaves. -/
def afterFirstPage : RankedIndex := (twoValues.select Config.usual [] 0 1).2

/-- Two pages of one value each, the second one from the state that the first one leaves. -/
theorem ranked_index_pages_two :
    ∃ found, ((range 2).flatMap fun i =>
        ((if i = 0 then twoValues else afterFirstPage).select Config.usual [] (i * 1) 1).1.getD []) =
        found ∧
      found.Nodup ∧ found.Pairwise (InRank twoValues.entries) ∧
      ∀ v, v ∈ found ↔ v ∈ twoValues.entries.keys ∧
        Config.usual.found (Config.usual.normalizeLabelValueSearch []) v = true := by
  have h : Reachable Config.usual twoValues := .update 0 _ .start
  have hstates : ∀ i, Reachable Config.usual (if i = 0 then twoValues else afterFirstPage) ∧
      (if i = 0 then twoValues else afterFirstPage).entries = twoValues.entries := by
    intro i
    split
    · exact ⟨h, rfl⟩
    · exact ⟨h.select [] 0 1, entries_select [] 0 1⟩
  exact (ranked_index_pages h (by decide)).2.2 [] 1 (by decide) (by decide)
    (fun i => if i = 0 then twoValues else afterFirstPage) hstates 2 (by decide +kernel)

end RankedIndex

end LokiVlProxy.Proxy.LabelValues
