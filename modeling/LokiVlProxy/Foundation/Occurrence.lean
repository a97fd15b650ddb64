/-
  Foundation/Occurrence.lean --- where a pattern stands in a text.

  `List.dropInfix?` cuts a text at the first place of a pattern; `cutLast` cuts it at the last
  one.
-/
import Mathlib.Data.List.Infix
import Mathlib.Data.List.TakeWhile

namespace LokiVlProxy.Foundation

open List

variable {α : Type} [DecidableEq α] {pat a b s : List α} {c : α}

/-- The text before the last place of a pattern and the text behind it. -/
def cutLast (pat s : List α) : Option (List α × List α) :=
  (s.reverse.dropInfix? pat.reverse).map fun cut => (cut.2.reverse, cut.1.reverse)

theorem dropInfix?_go_eq_none_iff (pat s acc : List α) :
    dropInfix?.go pat s acc = none ↔ ¬ pat <:+: s := by
  induction s generalizing acc with
  | nil =>
    rw [dropInfix?.go]
    cases pat with
    | nil | cons => simp
  | cons x s ih =>
    rw [dropInfix?.go]
    cases hpre : (x :: s).dropPrefix? pat with
    | none =>
      have hno : ¬ pat <+: x :: s := by
        rintro ⟨rest, hrest⟩
        have hcut : (x :: s).dropPrefix? pat = some rest :=
          dropPrefix?_eq_some_iff.mpr ⟨pat, hrest.symm, beq_self_eq_true pat⟩
        rw [hpre] at hcut
        cases hcut
      simp [ih, infix_cons_iff, hno]
    | some rest =>
      obtain ⟨pat', hs, hpat⟩ := dropPrefix?_eq_some_iff.mp hpre
      obtain rfl : pat' = pat := by simpa using hpat
      have hstands : pat' <:+: x :: s := hs ▸ (prefix_append pat' rest).isInfix
      simp [hstands]

/-- A cut fails exactly when the pattern does not occur. -/
theorem dropInfix?_eq_none_iff : s.dropInfix? pat = none ↔ ¬ pat <:+: s :=
  dropInfix?_go_eq_none_iff pat s []

/-- A cut at the last occurrence fails exactly when there is none. -/
theorem cutLast_eq_none_iff : cutLast pat s = none ↔ ¬ pat <:+: s := by
  rw [cutLast, Option.map_eq_none_iff, dropInfix?_eq_none_iff, reverse_infix]

/-- Where the first letter of the pattern is not met before it, the cut is there. -/
theorem dropInfix?_of_head_notMem (hc : c ∉ a) :
    (a ++ (c :: pat) ++ b).dropInfix? (c :: pat) = some (a, b) := by
  refine dropInfix?_eq_some_iff.mpr ⟨⟨c :: pat, rfl, by simp⟩, ?_⟩
  intro before pat' after hsplit hpat
  obtain rfl : pat' = c :: pat := by simpa using hpat
  by_contra hlt
  have hlt : before.length < a.length := by omega
  -- The earlier place starts inside `a`, at a letter that is not there.
  have hget := congrArg (·[before.length]?) hsplit
  simp [getElem?_append_left hlt] at hget
  exact hc (mem_of_getElem? hget)

/-- A pattern that ends in a letter it has nowhere else is found where it is when it does not
stand before that. -/
theorem dropInfix?_of_last_notMem (hc : c ∉ pat) (ha : ¬ pat ++ [c] <:+: a) :
    (a ++ (pat ++ [c]) ++ b).dropInfix? (pat ++ [c]) = some (a, b) := by
  refine dropInfix?_eq_some_iff.mpr ⟨⟨pat ++ [c], rfl, by simp⟩, ?_⟩
  intro before pat' after hsplit hpat
  obtain rfl : pat' = pat ++ [c] := by simpa using hpat
  by_contra hlt
  have hlt : before.length < a.length := by omega
  obtain ⟨rest, hfirst, hsecond⟩ | ⟨rest, hfirst, hsecond⟩ :=
    append_eq_append_iff.mp ((append_assoc a _ b).symm.trans
      (hsplit.trans (append_assoc before _ after)))
  · rw [hfirst, length_append] at hlt
    omega
  · obtain ⟨r, hr, -⟩ | ⟨r, hr, hafter⟩ := append_eq_append_iff.mp hsecond
    · exact ha ⟨before, r, by simp [hfirst, hr]⟩
    · -- The earlier place ends inside the pattern, at a letter that stands at its end only.
      obtain rfl | ⟨r, last, rfl⟩ := r.eq_nil_or_concat'
      · exact ha ⟨before, [], by simp [hfirst, hr]⟩
      · rw [← append_assoc] at hr
        obtain ⟨hpat, hlast⟩ := append_inj' hr rfl
        obtain rfl : c = last := by simpa using hlast
        have hr : r.length < pat.length := by
          simp [hpat, hfirst] at hlt ⊢
          omega
        have hget := congrArg (·[r.length]?) hafter
        simp [getElem?_append_left hr] at hget
        exact hc (mem_of_getElem? hget)

theorem cutLast_of_last_notMem (hc : c ∉ b) :
    cutLast (pat ++ [c]) (a ++ (pat ++ [c]) ++ b) = some (a, b) := by
  have hrev : (a ++ (pat ++ [c]) ++ b).reverse =
      b.reverse ++ (c :: pat.reverse) ++ a.reverse := by simp
  have hpat : (pat ++ [c]).reverse = c :: pat.reverse := by simp
  rw [cutLast, hrev, hpat, dropInfix?_of_head_notMem (by simpa using hc)]
  simp

/-- The two sides of a cut, with the pattern between them, are the text. -/
theorem eq_of_cutLast (h : cutLast pat s = some (a, b)) : s = a ++ pat ++ b := by
  obtain ⟨⟨after, before⟩, hcut, hpair⟩ := Option.map_eq_some_iff.mp h
  obtain ⟨rfl, rfl⟩ := Prod.mk.inj hpair
  obtain ⟨⟨pat', hs, hpat⟩, -⟩ := dropInfix?_eq_some_iff.mp hcut
  obtain rfl : pat' = pat.reverse := by simpa using hpat
  have hreverse := congrArg reverse hs
  simpa using hreverse

/-! ## Where a pattern can stand in a text that is put together -/

omit [DecidableEq α] in
theorem infix_append_cons (hc : c ∉ pat) (h : pat ++ [c] <:+: a ++ c :: b) :
    pat ++ [c] <:+: a ∨ pat <:+ a ∨ pat ++ [c] <:+: b := by
  obtain ⟨before, after, h⟩ := h
  have h : (before ++ pat) ++ c :: after = a ++ c :: b := by simpa using h
  obtain ⟨rest, ha, hrest⟩ | ⟨rest, ha, hrest⟩ := append_eq_append_iff.mp h
  · cases rest with
    | nil => exact .inr (.inl ⟨before, by simpa using ha.symm⟩)
    | cons r rest =>
      obtain ⟨rfl, -⟩ := cons.inj hrest
      exact .inl ⟨before, rest, by simp [ha]⟩
  · cases rest with
    | nil => exact .inr (.inl ⟨before, by simpa using ha⟩)
    | cons r rest =>
      obtain ⟨rfl, hb⟩ := cons.inj hrest
      obtain ⟨more, hmore, hpat⟩ | ⟨more, -, hpat⟩ := append_eq_append_iff.mp ha
      · exact absurd (hpat ▸ by simp) hc
      · cases more with
        | nil =>
          obtain rfl : c :: rest = pat := hpat
          exact absurd mem_cons_self hc
        | cons r more =>
          obtain ⟨-, rfl⟩ := cons.inj hpat
          exact .inr (.inr ⟨more, after, by simp [hb]⟩)

omit [DecidableEq α] in
theorem infix_of_infix_append (hc : c ∉ b) (h : pat ++ [c] <:+: a ++ b) : pat ++ [c] <:+: a := by
  obtain ⟨before, after, h⟩ := h
  obtain ⟨rest, ha, -⟩ | ⟨rest, hpat, hb⟩ := append_eq_append_iff.mp h
  · exact ⟨before, rest, ha.symm⟩
  · cases rest.eq_nil_or_concat' with
    | inl hnil => exact ⟨before, [], by simpa [hnil] using hpat⟩
    | inr hlast =>
      obtain ⟨rest, last, rfl⟩ := hlast
      rw [← append_assoc, ← append_assoc] at hpat
      obtain ⟨-, hlast⟩ := append_inj' hpat rfl
      obtain rfl : c = last := by simpa using hlast
      exact absurd (hb ▸ by simp) hc

omit [DecidableEq α] in
/-- A pattern does not occur across a place with a letter that it cannot hold. -/
theorem infix_append_of_boundary {p : α → Prop} (hpat : ∀ x ∈ pat, p x)
    (hplace : (∀ x ∈ a.getLast?, ¬ p x) ∨ ∀ x ∈ b.head?, ¬ p x) (h : pat <:+: a ++ b) :
    pat <:+: a ∨ pat <:+: b := by
  obtain ⟨before, after, h⟩ := h
  rw [append_assoc] at h
  obtain ⟨c, rfl, hc⟩ | ⟨c, -, hb⟩ := append_eq_append_iff.mp h
  · obtain ⟨d, rfl, -⟩ | ⟨d, rfl, rfl⟩ := append_eq_append_iff.mp hc
    · exact .inl ⟨before, d, by simp⟩
    · -- The pattern lies over the place: the part on one side of it is empty.
      cases hplace with
      | inl hlast =>
        obtain rfl | ⟨c, last, rfl⟩ := c.eq_nil_or_concat'
        · exact .inr ⟨[], after, rfl⟩
        · exact absurd (hpat last (by simp)) (hlast last (by simp))
      | inr hhead =>
        cases d with
        | nil => exact .inl ⟨before, [], by simp⟩
        | cons x d => exact absurd (hpat x (by simp)) (hhead x rfl)
  · exact .inr ⟨c, after, by simp [hb]⟩

omit [DecidableEq α] in
omit [DecidableEq α] in
theorem suffix_of_notMem (hc : c ∉ s) (h : s <:+ a ++ c :: b) : s <:+ b := by
  obtain ⟨before, h⟩ := h
  obtain ⟨rest, -, hrest⟩ | ⟨rest, rfl, hrest⟩ := append_eq_append_iff.mp h
  · exact absurd (hrest ▸ by simp) hc
  · cases rest with
    | nil =>
      obtain rfl : c :: b = s := hrest
      exact absurd mem_cons_self hc
    | cons r rest => exact ⟨rest, (cons.inj hrest).2.symm⟩

/-! ## Splitting at a letter -/

/-- The parts of a text between the first places of a letter, as many places as the number. -/
def splitN (c : α) : Nat → List α → List (List α)
  | 0, s => [s]
  | n + 1, s =>
      match s.dropWhile (· ≠ c) with
      | [] => [s]
      | _ :: rest => s.takeWhile (· ≠ c) :: splitN c n rest

theorem splitN_succ (hc : c ∉ a) (n : Nat) :
    splitN c (n + 1) (a ++ c :: b) = a :: splitN c n b := by
  have ha : ∀ x ∈ a, decide (x ≠ c) = true := fun x hx => by
    simpa using fun h : x = c => hc (h ▸ hx)
  rw [splitN, dropWhile_append_of_pos ha, takeWhile_append_of_pos ha]
  simp

/-- A text with enough separators is split into one part more than the cuts. -/
theorem length_splitN {n : Nat} (h : n ≤ s.count c) : (splitN c n s).length = n + 1 := by
  induction n generalizing s with
  | zero => rfl
  | succ n ih =>
    have hmem : c ∈ s := count_pos_iff.mp (by omega)
    obtain ⟨a, b, rfl, ha⟩ := eq_append_cons_of_mem hmem
    rw [count_append, count_eq_zero_of_not_mem ha, count_cons_self] at h
    rw [splitN_succ ha, length_cons, ih (by omega)]

theorem notMem_of_splitN {n : Nat} {next : List α} {more : List (List α)}
    (h : splitN c (n + 1) s = a :: next :: more) : c ∉ a ∧ ∃ rest, splitN c n rest = next :: more := by
  rw [splitN] at h
  split at h
  · cases h
  next rest hrest =>
    obtain ⟨rfl, hmore⟩ := cons.inj h
    exact ⟨fun hmem => by simpa using mem_takeWhile_imp hmem, rest, hmore⟩

end LokiVlProxy.Foundation
