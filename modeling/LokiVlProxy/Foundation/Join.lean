/-
  Foundation/Join.lean --- the join of two lists on a relation.

  The join is defined by two nested loops.
-/
import Mathlib.Data.List.Perm.Basic
import Mathlib.Data.List.Nodup

namespace LokiVlProxy.Foundation

open List

open Classical in
/-- The pairs of rows that are related, by two nested loops. -/
noncomputable def join {α β : Type} (r : α → β → Prop) (as : List α) (bs : List β) : List (α × β) :=
  as.flatMap fun a => (bs.filter fun b => r a b).map fun b => (a, b)

section Join

variable {α β κ : Type} {r : α → β → Prop} {as : List α} {bs : List β}

/-- The join of two lists, up to order, does not depend on their order. -/
theorem join_perm {as' : List α} {bs' : List β} (ha : as.Perm as') (hb : bs.Perm bs') :
    (join r as bs).Perm (join r as' bs') := by
  apply List.Perm.flatMap ha
  intro a _
  exact (hb.filter _).map _

theorem join_cons (a : α) (as : List α) (bs : List β) :
    join r (a :: as) bs = join r [a] bs ++ join r as bs := by
  simp [join]

variable [DecidableEq κ] {ka : α → κ} {kb : β → κ}

theorem filter_eq_find?_toList (hbs : (bs.map kb).Nodup) (k : κ) :
    bs.filter (fun b => k = kb b) = (bs.find? fun b => kb b = k).toList := by
  induction bs with
  | nil => rfl
  | cons b bs ih =>
    obtain ⟨hnew, hbs⟩ := nodup_cons.mp hbs
    rw [filter_cons, find?_cons]
    by_cases hk : kb b = k
    · have hnone : bs.filter (fun b => k = kb b) = [] := by
        apply filter_eq_nil_iff.mpr
        intro c hc hkc
        apply hnew
        rw [hk, of_decide_eq_true hkc]
        exact mem_map_of_mem hc
      simp [hk, hnone]
    · have hk' : ¬ k = kb b := fun h => hk h.symm
      simp [hk, hk', ih hbs]

/-- With one right entry a key, a join looks the right entry of each left entry up. -/
theorem join_eq_filterMap (hr : ∀ a b, r a b ↔ ka a = kb b) (hbs : (bs.map kb).Nodup) :
    join r as bs = as.filterMap fun a => (bs.find? fun b => kb b = ka a).map fun b => (a, b) := by
  induction as with
  | nil => rfl
  | cons a as ih =>
    have hrow : join r [a] bs = (bs.find? fun b => kb b = ka a).toList.map fun b => (a, b) := by
      simp [join, hr, ← filter_eq_find?_toList hbs (ka a)]
    rw [join_cons, ih, hrow, filterMap_cons]
    cases bs.find? fun b => kb b = ka a with
    | none | some b => rfl

open Classical in
/-- The left entries of a join are those with a partner, in their order. -/
theorem map_fst_join (hr : ∀ a b, r a b ↔ ka a = kb b) (hbs : (bs.map kb).Nodup) :
    (join r as bs).map Prod.fst = as.filter fun a => ∃ b ∈ bs, r a b := by
  rw [join_eq_filterMap hr hbs, map_filterMap]
  induction as with
  | nil => rfl
  | cons a as ih =>
    have hsome : (∃ b ∈ bs, r a b) ↔ (bs.find? fun b => kb b = ka a).isSome := by
      simp only [find?_isSome, hr, decide_eq_true_eq, eq_comm (a := ka a)]
    rw [filterMap_cons, filter_cons, ih]
    cases hfind : bs.find? fun b => kb b = ka a with
    | none | some b => simp [hsome, hfind]

end Join

end LokiVlProxy.Foundation
