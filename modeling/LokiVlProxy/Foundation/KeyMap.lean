/-
  Foundation/KeyMap.lean --- finite maps with a weight on their values.

  `KeyMap` is Mathlib's association list with distinct keys at one value type, so
  that a lookup has a plain option type.
-/
import Mathlib.Data.List.AList
import Mathlib.Data.List.FinRange
import Mathlib.Algebra.Order.BigOperators.Group.List
import Mathlib.Algebra.Order.Ring.Int

namespace LokiVlProxy.Foundation

open List

/-- A finite map from `κ` to `ν`. -/
def KeyMap (κ ν : Type) : Type := AList fun _ : κ => ν

/-- The order in which a loop over a map of any size meets its entries. -/
def LoopOrder : Type := ∀ n, Equiv.Perm (Fin n)

namespace LoopOrder

/-- The order in which the entries are listed. -/
def listed : LoopOrder := fun _ => Equiv.refl _

/-- The entries in the order in which the loop meets them. -/
def arrange {α : Type} (order : LoopOrder) (entries : List α) : List α :=
  List.ofFn (entries.get ∘ order entries.length)

/-- Whatever order a loop takes, it visits each entry once. -/
theorem perm {α : Type} (order : LoopOrder) (entries : List α) :
    (order.arrange entries).Perm entries := by
  have h := Equiv.Perm.ofFn_comp_perm (order entries.length) entries.get
  rwa [ofFn_get] at h

end LoopOrder

namespace KeyMap

variable {κ ν : Type}

instance : EmptyCollection (KeyMap κ ν) := ⟨(∅ : AList fun _ : κ => ν)⟩

/-- The bindings in the order a loop over the map meets them. -/
def toList (m : KeyMap κ ν) : List (κ × ν) := m.entries.map fun e => (e.1, e.2)

def keys (m : KeyMap κ ν) : List κ := m.toList.map Prod.fst

/-- The number of keys. -/
def size (m : KeyMap κ ν) : Nat := m.toList.length

variable (w : ν → Int)

/-- The sum of the weights of the stored values. -/
def total (m : KeyMap κ ν) : Int := (m.toList.map fun e => w e.2).sum

@[simp] theorem size_empty : (∅ : KeyMap κ ν).size = 0 := rfl

theorem nodup_keys (m : KeyMap κ ν) : m.keys.Nodup := by
  have h : m.keys = m.entries.map Sigma.fst := by simp [keys, toList, Function.comp_def]
  rw [h]
  exact m.nodupKeys

theorem nodup_toList (m : KeyMap κ ν) : m.toList.Nodup := m.nodup_keys.of_map _

variable {m : KeyMap κ ν} {k : κ} {v : ν}

theorem total_of_size_zero (h : m.size = 0) : m.total w = 0 := by
  simp [total, length_eq_zero_iff.mp h]

variable [DecidableEq κ]

def find? (m : KeyMap κ ν) (k : κ) : Option ν := AList.lookup k m

def insert (m : KeyMap κ ν) (k : κ) (v : ν) : KeyMap κ ν := AList.insert k v m

def erase (m : KeyMap κ ν) (k : κ) : KeyMap κ ν := AList.erase k m

@[simp] theorem find?_empty (k : κ) : (∅ : KeyMap κ ν).find? k = none := rfl

/-- What a map holds after a key is erased. -/
theorem find?_erase (m : KeyMap κ ν) (k k' : κ) :
    (m.erase k).find? k' = if k' = k then none else m.find? k' := by
  by_cases h : k' = k
  · subst h
    rw [if_pos rfl]
    exact AList.lookup_erase k' m
  · rw [if_neg h]
    exact AList.lookup_erase_ne h

/-- What a map holds after an insertion. -/
theorem find?_insert (m : KeyMap κ ν) (k k' : κ) (v : ν) :
    (m.insert k v).find? k' = if k' = k then some v else m.find? k' := by
  by_cases h : k' = k
  · subst h
    rw [if_pos rfl]
    exact AList.lookup_insert m
  · rw [if_neg h]
    exact AList.lookup_insert_ne h

@[simp] theorem find?_insert_self (m : KeyMap κ ν) (k : κ) (v : ν) :
    (m.insert k v).find? k = some v := by
  rw [find?_insert, if_pos rfl]

/-- The entries of a map are what its lookups find. -/
theorem mem_toList : (k, v) ∈ m.toList ↔ m.find? k = some v := by
  have h : (k, v) ∈ m.toList ↔ (⟨k, v⟩ : Sigma fun _ : κ => ν) ∈ m.entries := by
    simp only [toList, mem_map]
    constructor
    · rintro ⟨⟨k', v'⟩, he, heq⟩
      cases heq
      exact he
    · exact fun he => ⟨⟨k, v⟩, he, rfl⟩
  rw [h]
  exact AList.mem_lookup_iff.symm

theorem mem_keys : k ∈ m.keys ↔ (m.find? k).isSome := by
  rw [Option.isSome_iff_exists, keys, mem_map]
  constructor
  · rintro ⟨⟨k', v⟩, he, rfl⟩
    exact ⟨v, mem_toList.mp he⟩
  · rintro ⟨v, hv⟩
    exact ⟨(k, v), mem_toList.mpr hv, rfl⟩

/-! ## Size and total -/

theorem perm_erase (h : m.find? k = some v) : m.toList.Perm ((k, v) :: (m.erase k).toList) := by
  have hfresh : (k, v) ∉ (m.erase k).toList := by
    rw [mem_toList, find?_erase]
    simp
  refine (perm_ext_iff_of_nodup m.nodup_toList
    (nodup_cons.mpr ⟨hfresh, nodup_toList _⟩)).mpr ?_
  rintro ⟨k', v'⟩
  rw [mem_cons, mem_toList, mem_toList, find?_erase]
  by_cases hk : k' = k
  · subst hk
    simp [h, eq_comm]
  · simp [hk]

theorem toList_insert (m : KeyMap κ ν) (k : κ) (v : ν) :
    (m.insert k v).toList = (k, v) :: (m.erase k).toList := rfl

theorem erase_of_none (h : m.find? k = none) : m.erase k = m := by
  have hk : k ∉ AList.keys m := fun hmem =>
    absurd (AList.lookup_isSome.mpr (AList.mem_keys.mpr hmem))
      (by simp [show AList.lookup k m = none from h])
  exact AList.ext (kerase_of_notMem_keys hk)

theorem size_erase_add_one (h : m.find? k = some v) : (m.erase k).size + 1 = m.size :=
  (perm_erase h).length_eq.symm

theorem size_erase_le (m : KeyMap κ ν) (k : κ) : (m.erase k).size ≤ m.size := by
  cases h : m.find? k with
  | none => rw [erase_of_none h]
  | some v => exact Nat.le_of_lt (by have := size_erase_add_one h; omega)

theorem size_insert_le (m : KeyMap κ ν) (k : κ) (v : ν) : (m.insert k v).size ≤ m.size + 1 :=
  Nat.succ_le_succ (size_erase_le m k)

theorem total_erase_of_some (h : m.find? k = some v) : (m.erase k).total w = m.total w - w v := by
  have := ((perm_erase h).map fun e => w e.2).sum_eq
  simp only [map_cons, sum_cons] at this
  simp only [total]
  omega

/-- An insertion replaces the weight of the entry that the key had. -/
theorem total_insert (m : KeyMap κ ν) (k : κ) (v : ν) :
    (m.insert k v).total w = m.total w - ((m.find? k).map w).getD 0 + w v := by
  have hcons : (m.insert k v).total w = w v + (m.erase k).total w := by
    simp [total, toList_insert]
  cases h : m.find? k with
  | none =>
    rw [erase_of_none h] at hcons
    simp only [Option.map_none, Option.getD_none]
    omega
  | some v' =>
    rw [total_erase_of_some w h] at hcons
    simp only [Option.map_some, Option.getD_some]
    omega

theorem size_eq_zero (h : ∀ k, m.find? k = none) : m.size = 0 := by
  refine length_eq_zero_iff.mpr (eq_nil_iff_forall_not_mem.mpr ?_)
  rintro ⟨k, v⟩ hmem
  rw [mem_toList, h] at hmem
  cases hmem

theorem find?_of_size_zero (h : m.size = 0) (k : κ) : m.find? k = none := by
  cases hk : m.find? k with
  | none => rfl
  | some v => have := size_erase_add_one hk; omega

theorem toList_eq_singleton (h : ∀ k', m.find? k' = if k' = k then some v else none) :
    m.toList = [(k, v)] := by
  have hnone : (m.erase k).size = 0 := by
    refine size_eq_zero fun k' => ?_
    rw [find?_erase, h]
    split_ifs <;> rfl
  have hperm := perm_erase ((h k).trans (if_pos rfl))
  rw [length_eq_zero_iff.mp hnone] at hperm
  exact perm_singleton.mp hperm

/-! ## Gathering items under their keys -/

section Gather

variable {β : Type} (key : β → κ) (first : β → ν) (next : ν → β → ν)

/-- One item: the first of its key starts a value, a later one extends it. -/
def gatherStep (m : KeyMap κ ν) (x : β) : KeyMap κ ν :=
  m.insert (key x) (match m.find? (key x) with
    | none => first x
    | some v => next v x)

variable (xs : List β)

/-- What a loop over the items gathers under their keys. -/
def gather : KeyMap κ ν := xs.foldl (gatherStep key first next) ∅

/-- What the items of one key give, after a value that is already there. -/
def extend (found : Option ν) : List β → Option ν
  | [] => found
  | x :: xs => some (xs.foldl next (match found with
      | none => first x
      | some v => next v x))

theorem extend_cons (found : Option ν) (x : β) (xs : List β) :
    extend first next found (x :: xs) =
      extend first next (some (match found with
        | none => first x
        | some v => next v x)) xs := by
  cases xs with
  | nil => rfl
  | cons y ys => rfl

/-- Gathering into a map extends the entry of each key by the elements of that key. -/
theorem find?_foldl_gatherStep (m : KeyMap κ ν) (k : κ) :
    (xs.foldl (gatherStep key first next) m).find? k =
      extend first next (m.find? k) (xs.filter fun x => key x = k) := by
  induction xs generalizing m with
  | nil => rfl
  | cons x xs ih =>
    rw [foldl_cons, ih, gatherStep, find?_insert, filter_cons]
    by_cases hk : k = key x
    · subst hk
      rw [if_pos rfl, if_pos (decide_eq_true rfl), extend_cons]
    · rw [if_neg hk, if_neg (by simpa using Ne.symm hk)]

/-- The entry of a key is made of the elements of that key, in their order. -/
theorem find?_gather (k : κ) :
    (gather key first next xs).find? k =
      extend first next none (xs.filter fun x => key x = k) :=
  find?_foldl_gatherStep key first next xs ∅ k

end Gather

end KeyMap

end LokiVlProxy.Foundation
