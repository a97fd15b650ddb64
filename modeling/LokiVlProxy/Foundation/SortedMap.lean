/-
  Foundation/SortedMap.lean --- finite maps as strictly sorted lists of entries.

  Two maps with the same lookups are the same value, so that a map can be compared,
  used as a key and printed in one way only.
-/
import Mathlib.Data.List.Sort
import Mathlib.Data.List.Perm.Basic

namespace LokiVlProxy.Foundation

open List

theorem filter_eq_singleton {β : Type} {R : β → β → Prop} {xs : List β} (hxs : xs.Pairwise R)
    {x : β} (hx : x ∈ xs) {p : β → Bool} (hpx : p x = true)
    (hp : ∀ y, R x y ∨ R y x → ¬ p y = true) : xs.filter p = [x] := by
  induction xs with
  | nil => cases hx
  | cons y ys ih =>
    obtain ⟨hhead, htail⟩ := pairwise_cons.mp hxs
    rcases mem_cons.mp hx with rfl | hx
    · rw [filter_cons_of_pos hpx, filter_eq_nil_iff.mpr]
      exact fun z hz => hp z (Or.inl (hhead z hz))
    · rw [filter_cons_of_neg (hp y (Or.inr (hhead x hx))), ih htail hx]

/-- A finite map whose entries are listed by ascending key. -/
structure SortedMap (κ ν : Type) [LinearOrder κ] where
  entries : List (κ × ν)
  sorted : entries.Pairwise fun a b => a.1 < b.1

namespace SortedMap

variable {κ ν : Type} [LinearOrder κ]

instance [DecidableEq ν] : DecidableEq (SortedMap κ ν) := fun m n =>
  decidable_of_iff (m.entries = n.entries) (by cases m; cases n; simp)

instance : EmptyCollection (SortedMap κ ν) := ⟨⟨[], List.Pairwise.nil⟩⟩

variable (m : SortedMap κ ν)

def find? (k : κ) : Option ν :=
  (m.entries.find? fun e => e.1 = k).map Prod.snd

/-- The entries that meet a condition. -/
def filter (p : κ → ν → Bool) : SortedMap κ ν where
  entries := m.entries.filter fun e => p e.1 e.2
  sorted := m.sorted.filter _

def erase (k : κ) : SortedMap κ ν := m.filter fun k' _ => k' ≠ k

/-- The entries with one put at its place, in a list without its key. -/
def place (e : κ × ν) : List (κ × ν) → List (κ × ν)
  | [] => [e]
  | e' :: es => if e.1 < e'.1 then e :: e' :: es else e' :: place e es

variable {e : κ × ν} {es : List (κ × ν)} {m : SortedMap κ ν}

theorem mem_place {x : κ × ν} : x ∈ place e es ↔ x = e ∨ x ∈ es := by
  induction es with
  | nil => simp [place]
  | cons e' es ih =>
    rw [place]
    split
    · simp
    · rw [mem_cons, ih, mem_cons]
      exact or_left_comm

/-- Placing a new key keeps the entries ordered. -/
theorem sorted_place (hes : es.Pairwise fun a b => a.1 < b.1) (hnew : ∀ x ∈ es, x.1 ≠ e.1) :
    (place e es).Pairwise fun a b => a.1 < b.1 := by
  induction es with
  | nil => exact pairwise_singleton _ _
  | cons e' es ih =>
    obtain ⟨hhead, htail⟩ := pairwise_cons.mp hes
    rw [place]
    split
    · next hlt =>
      refine pairwise_cons.mpr ⟨?_, hes⟩
      intro x hx
      rcases mem_cons.mp hx with rfl | hx
      · exact hlt
      · exact hlt.trans (hhead x hx)
    · next hge =>
      refine pairwise_cons.mpr ⟨?_, ih htail fun x hx => hnew x (mem_cons_of_mem _ hx)⟩
      intro x hx
      rcases mem_place.mp hx with rfl | hx
      · exact lt_of_le_of_ne (not_lt.mp hge) (hnew e' mem_cons_self)
      · exact hhead x hx

def insert (m : SortedMap κ ν) (k : κ) (v : ν) : SortedMap κ ν where
  entries := place (k, v) (m.erase k).entries
  sorted := by
    apply sorted_place (m.erase k).sorted
    intro x hx
    simpa using (mem_filter.mp hx).2

/-! ## Lookups -/

/-- The entries of a map are what its lookups find. -/
theorem mem_entries_iff : e ∈ m.entries ↔ m.find? e.1 = some e.2 := by
  obtain ⟨entries, sorted⟩ := m
  unfold find?
  induction entries with
  | nil => simp
  | cons e' es ih =>
    obtain ⟨hhead, htail⟩ := pairwise_cons.mp sorted
    rw [mem_cons, find?_cons, ih htail]
    by_cases hk : e'.1 = e.1
    · have hnot : (es.find? fun x => decide (x.1 = e.1)) = none := by
        apply find?_eq_none.mpr
        intro x hx
        have := hhead x hx
        rw [hk] at this
        simpa using this.ne'
      simp only [hk, hnot, decide_true, Option.map_none, Option.map_some, Option.some.injEq,
        reduceCtorEq, or_false]
      constructor
      · rintro rfl
        rfl
      · intro hv
        exact Prod.ext hk.symm hv.symm
    · have hne : e ≠ e' := fun h => hk (congrArg Prod.fst h.symm)
      simp [hk, hne]

/-- A map is determined by its lookups. -/
theorem ext_find? {n : SortedMap κ ν} (h : ∀ k, m.find? k = n.find? k) : m = n := by
  have hperm : m.entries.Perm n.entries := by
    apply (perm_ext_iff_of_nodup (m.sorted.imp fun h => ?_) (n.sorted.imp fun h => ?_)).mpr
    · intro e
      rw [mem_entries_iff, mem_entries_iff, h]
    all_goals
      rintro rfl
      exact lt_irrefl _ h
  have hentries : m.entries = n.entries :=
    List.Perm.eq_of_pairwise (fun a b _ _ hab hba => absurd hba hab.asymm) m.sorted n.sorted hperm
  cases m
  cases n
  simpa using hentries

theorem filter_key (he : e ∈ m.entries) {p : κ × ν → Bool} (hp : ∀ x, p x = true ↔ x.1 = e.1) :
    m.entries.filter p = [e] :=
  filter_eq_singleton m.sorted he ((hp e).mpr rfl) fun x h hpx =>
    h.elim (fun hlt => hlt.ne' ((hp x).mp hpx)) fun hlt => hlt.ne ((hp x).mp hpx)

@[simp] theorem find?_empty (k : κ) : (∅ : SortedMap κ ν).find? k = none := rfl

theorem find?_eq_some_iff {k : κ} {v : ν} : m.find? k = some v ↔ (k, v) ∈ m.entries := by
  rw [mem_entries_iff]

theorem find?_filter (m : SortedMap κ ν) (p : κ → ν → Bool) (k : κ) :
    (m.filter p).find? k = (m.find? k).filter (p k) := by
  apply Option.ext
  intro v
  rw [Option.filter_eq_some_iff, find?_eq_some_iff, find?_eq_some_iff]
  exact mem_filter

theorem find?_erase (m : SortedMap κ ν) (k k' : κ) :
    (m.erase k).find? k' = if k' = k then none else m.find? k' := by
  rw [erase, find?_filter]
  split
  · next h => simp [h]
  · next h => cases m.find? k' <;> simp [h]

theorem find?_insert (m : SortedMap κ ν) (k k' : κ) (v : ν) :
    (m.insert k v).find? k' = if k' = k then some v else m.find? k' := by
  apply Option.ext
  intro w
  rw [find?_eq_some_iff, insert, mem_place, ← find?_eq_some_iff, find?_erase]
  split
  · next h => simp [h, eq_comm]
  · next h => simp [h]

end SortedMap

end LokiVlProxy.Foundation
