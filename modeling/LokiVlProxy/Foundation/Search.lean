/-
  Foundation/Search.lean --- binary search for the first index that passes a test.

  `sort.Search` of Go's library: it keeps an interval below which the test fails and from
  whose end on it passes, and halves it.
-/
import Mathlib.Data.List.Basic

namespace LokiVlProxy.Foundation

open List

/-- The loop of `sort.Search`; each round at least halves `hi - lo`. -/
def searchLoop (test : Nat → Bool) : Nat → Nat → Nat → Nat
  | 0, lo, _ => lo
  | fuel + 1, lo, hi =>
      if lo < hi then
        if test ((lo + hi) / 2) then searchLoop test fuel lo ((lo + hi) / 2)
        else searchLoop test fuel ((lo + hi) / 2 + 1) hi
      else lo

def search (n : Nat) (test : Nat → Bool) : Nat := searchLoop test n 0 n

/-- The result lies in the interval, fails before it and passes from it on. -/
structure FirstPass (test : Nat → Bool) (n i : Nat) : Prop where
  le : i ≤ n
  before : ∀ j < i, test j = false
  passes : ∀ j, i ≤ j → j < n → test j = true

variable {test : Nat → Bool}

/-- The loop keeps the first index that passes between its bounds. -/
theorem searchLoop_firstPass {n : Nat}
    (hmono : ∀ i j, i ≤ j → j < n → test i = true → test j = true) (fuel : Nat) {lo hi : Nat}
    (hle : lo ≤ hi) (hhi : hi ≤ n) (hfuel : hi - lo ≤ fuel) (hbefore : ∀ j < lo, test j = false)
    (hpasses : ∀ j, hi ≤ j → j < n → test j = true) :
    FirstPass test n (searchLoop test fuel lo hi) := by
  induction fuel generalizing lo hi with
  | zero =>
    have heq : lo = hi := by omega
    rw [searchLoop]
    exact ⟨by omega, hbefore, fun j hj => hpasses j (by omega)⟩
  | succ fuel ih =>
    rw [searchLoop]
    split
    · split
      · rename_i hmid
        refine ih (by omega) (by omega) (by omega) hbefore fun j hj hjn => ?_
        exact hmono _ j hj hjn hmid
      · rename_i hlt hmid
        refine ih (by omega) hhi (by omega) (fun j hj => ?_) hpasses
        -- a passed test below the middle would be passed at the middle
        by_contra hpass
        exact hmid (hmono j _ (by omega) (by omega) (by simpa using hpass))
    · exact ⟨by omega, hbefore, fun j hj => hpasses j (by omega)⟩

/-- Binary search over a monotone test finds the first index that passes. -/
theorem search_firstPass {n : Nat} (hmono : ∀ i j, i ≤ j → j < n → test i = true → test j = true) :
    FirstPass test n (search n test) :=
  searchLoop_firstPass hmono n (Nat.zero_le n) (Nat.le_refl _) (by omega) (by omega) (by omega)

/-- The element at the first index that passes is the first that passes. -/
theorem FirstPass.getElem?_eq_find? {α : Type} {xs : List α} {p : α → Bool} {i : Nat}
    (h : FirstPass (fun j => xs[j]?.any p) xs.length i) : xs[i]? = xs.find? p := by
  rcases Nat.lt_or_ge i xs.length with hlt | hge
  · have hpass : p xs[i] = true := by
      simpa [getElem?_eq_getElem hlt] using h.passes i (Nat.le_refl _) hlt
    rw [getElem?_eq_getElem hlt]
    refine (find?_eq_some_iff_getElem.mpr ⟨hpass, i, hlt, rfl, fun j hj => ?_⟩).symm
    have hfail := h.before j hj
    rw [getElem?_eq_getElem (by omega)] at hfail
    simpa using hfail
  · rw [getElem?_eq_none hge]
    refine (find?_eq_none.mpr fun x hx => ?_).symm
    obtain ⟨j, hj, hjx⟩ := getElem_of_mem hx
    have hfail := h.before j (by omega)
    rw [getElem?_eq_getElem hj, hjx] at hfail
    simpa using hfail

end LokiVlProxy.Foundation
