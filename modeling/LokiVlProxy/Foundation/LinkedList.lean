/-
  Foundation/LinkedList.lean --- a doubly linked list with an index of its elements.

  A linked list hands out element handles: `MoveToFront` and `Remove` take the
  handle, not the value, and do nothing for a handle that is no longer in the list.
-/
import LokiVlProxy.Foundation.KeyMap

namespace LokiVlProxy.Foundation

open List

variable {κ : Type}

/-- A list element: its identity and the key it holds. -/
structure Element (κ : Type) where
  id : Nat
  value : κ
  deriving DecidableEq, Repr

namespace LinkedList

variable (l : List (Element κ))

/-- Take the element with this identity out, wherever it is. -/
def remove (id : Nat) : List (Element κ) :=
  l.filter fun e => e.id ≠ id

/-- Move the element with this identity to the front. -/
def moveToFront (id : Nat) : List (Element κ) :=
  match l.find? fun e => e.id = id with
  | none => l
  | some e => e :: remove l id

theorem remove_sublist (id : Nat) : (remove l id).Sublist l :=
  filter_sublist

variable {e : Element κ} {l : List (Element κ)}

theorem mem_remove {id : Nat} : e ∈ remove l id ↔ e ∈ l ∧ e.id ≠ id := by
  simp [remove]

theorem eq_of_id_eq (hids : (l.map Element.id).Nodup) {e' : Element κ}
    (he : e ∈ l) (he' : e' ∈ l) (h : e.id = e'.id) : e = e' :=
  inj_on_of_nodup_map hids he he' h

/-- An element is moved to the front, and the others keep their order. -/
theorem moveToFront_of_mem (hids : (l.map Element.id).Nodup) (he : e ∈ l) :
    moveToFront l e.id = e :: remove l e.id := by
  unfold moveToFront
  cases hf : l.find? fun e' => e'.id = e.id with
  | none =>
    have := find?_eq_none.mp hf e he
    simp at this
  | some e' =>
    have hid : e'.id = e.id := by simpa using find?_some hf
    rw [eq_of_id_eq hids (mem_of_find?_eq_some hf) he hid]

theorem mem_moveToFront (hids : (l.map Element.id).Nodup) {e' : Element κ}
    (he : e ∈ l) : e' ∈ moveToFront l e.id ↔ e' ∈ l := by
  rw [moveToFront_of_mem hids he, mem_cons, mem_remove]
  constructor
  · rintro (rfl | ⟨h, _⟩)
    · exact he
    · exact h
  · intro h
    by_cases hid : e'.id = e.id
    · exact .inl (eq_of_id_eq hids h he hid)
    · exact .inr ⟨h, hid⟩

theorem nodup_remove (hids : (l.map Element.id).Nodup) (id : Nat) :
    ((remove l id).map Element.id).Nodup :=
  hids.sublist ((remove_sublist l id).map _)

theorem nodup_moveToFront (hids : (l.map Element.id).Nodup) (he : e ∈ l) :
    ((moveToFront l e.id).map Element.id).Nodup := by
  rw [moveToFront_of_mem hids he, map_cons, nodup_cons]
  refine ⟨fun hmem => ?_, nodup_remove hids e.id⟩
  obtain ⟨e', he', hid⟩ := mem_map.mp hmem
  exact (mem_remove.mp he').2 hid

/-- Removing the back element drops the end of the list. -/
theorem remove_getLast (hids : (l.map Element.id).Nodup)
    {back : Element κ} (hb : l.getLast? = some back) : remove l back.id = l.dropLast := by
  obtain ⟨pre, rfl⟩ := getLast?_eq_some_iff.mp hb
  rw [map_append, nodup_append] at hids
  have hpre : pre.filter (fun e => e.id ≠ back.id) = pre := by
    refine filter_eq_self.mpr fun e he => ?_
    have := hids.2.2 e.id (mem_map_of_mem he) back.id (by simp)
    simpa using this
  simp only [remove, filter_append, hpre, dropLast_concat]
  simp

end LinkedList

/-! ## List and index together -/

/-- The list `l` and the index `idx` describe the same keys: identities are
distinct and below the next one handed out, and the index maps a key to an
identity exactly when the list holds that element. -/
structure Linked [DecidableEq κ] (next : Nat) (l : List (Element κ)) (idx : KeyMap κ Nat) :
    Prop where
  ids : (l.map Element.id).Nodup
  fresh : ∀ e ∈ l, e.id < next
  index : ∀ k i, idx.find? k = some i ↔ (⟨i, k⟩ : Element κ) ∈ l

namespace Linked

open LinkedList

variable [DecidableEq κ] {next : Nat} {l : List (Element κ)} {idx : KeyMap κ Nat}

theorem empty : Linked 0 ([] : List (Element κ)) ∅ where
  ids := nodup_nil
  fresh := by simp
  index := by simp

/-- The index finds each element of the list. -/
theorem lookup_of_mem (h : Linked next l idx) {e : Element κ} (he : e ∈ l) :
    idx.find? e.value = some e.id :=
  (h.index e.value e.id).mpr he

theorem nodup_keys (h : Linked next l idx) : (l.map Element.value).Nodup := by
  refine (nodup_map_iff_inj_on (List.Nodup.of_map _ h.ids)).mpr fun e he e' he' hv => ?_
  have h1 := h.lookup_of_mem he
  have h2 := h.lookup_of_mem he'
  rw [hv, h2] at h1
  exact eq_of_id_eq h.ids he he' (by simpa using h1.symm)

variable {k : κ}

theorem mem_keys_iff (h : Linked next l idx) : k ∈ l.map Element.value ↔ (idx.find? k).isSome := by
  rw [Option.isSome_iff_exists]
  constructor
  · intro hk
    obtain ⟨e, he, rfl⟩ := mem_map.mp hk
    exact ⟨e.id, h.lookup_of_mem he⟩
  · rintro ⟨i, hi⟩
    exact mem_map.mpr ⟨⟨i, k⟩, (h.index k i).mp hi, rfl⟩

/-- The index stays right when an element is moved to the front. -/
theorem moveToFront (h : Linked next l idx) {i : Nat} (hk : idx.find? k = some i) :
    Linked next (LinkedList.moveToFront l i) idx := by
  have he : (⟨i, k⟩ : Element κ) ∈ l := (h.index k i).mp hk
  have hmem : ∀ e', e' ∈ LinkedList.moveToFront l i ↔ e' ∈ l := fun e' =>
    mem_moveToFront h.ids he
  exact {
    ids := nodup_moveToFront h.ids he
    fresh := fun e he' => h.fresh e ((hmem e).mp he')
    index := fun k' i' => (h.index k' i').trans (hmem _).symm }

/-- The index stays right when an element and its key are removed. -/
theorem remove (h : Linked next l idx) {i : Nat} (hk : idx.find? k = some i) :
    Linked next (LinkedList.remove l i) (idx.erase k) where
  ids := nodup_remove h.ids i
  fresh := fun e he => h.fresh e (mem_remove.mp he).1
  index := by
    intro k' i'
    have he : (⟨i, k⟩ : Element κ) ∈ l := (h.index k i).mp hk
    rw [KeyMap.find?_erase, mem_remove, ← h.index k' i']
    by_cases hkk : k' = k
    · subst hkk
      simp [hk]
      exact fun hi => hi.symm
    · simp only [hkk, if_false]
      refine ⟨fun hl => ⟨hl, fun hi => hkk ?_⟩, And.left⟩
      -- equal identities would make the two elements one
      have := eq_of_id_eq h.ids ((h.index k' i').mp hl) he hi
      simpa using congrArg Element.value this

/-- The index stays right when an element with a fresh id is put in front. -/
theorem pushFront (h : Linked next l idx) (hk : idx.find? k = none) :
    Linked (next + 1) (⟨next, k⟩ :: l) (idx.insert k next) where
  ids := by
    rw [map_cons, nodup_cons]
    refine ⟨fun hmem => ?_, h.ids⟩
    obtain ⟨e, he, hid⟩ := mem_map.mp hmem
    exact absurd (h.fresh e he) (by simp [hid])
  fresh := by
    intro e he
    rcases mem_cons.mp he with rfl | he
    · simp
    · exact Nat.lt_succ_of_lt (h.fresh e he)
  index := by
    intro k' i'
    rw [KeyMap.find?_insert, mem_cons, ← h.index k' i']
    by_cases hkk : k' = k
    · subst hkk
      simp [hk, eq_comm]
    · simp [hkk]

end Linked

end LokiVlProxy.Foundation
