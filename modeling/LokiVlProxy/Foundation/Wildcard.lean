/-
  Foundation/Wildcard.lean --- texts with holes in them.

  A pattern is a text in which every `<_>` is a hole: it stands for any text, also for none,
  and everything else stands for itself.
-/
import LokiVlProxy.Foundation.Quoting

namespace LokiVlProxy.Foundation

open List

/-- `<_>`. -/
def hole : Bytes := [60, 95, 62]

/-- A text fits a pattern. -/
def fits : Bytes → Bytes → Prop
  | 60 :: 95 :: 62 :: pattern, text => ∃ filled rest, text = filled ++ rest ∧ fits pattern rest
  | c :: pattern, text => ∃ rest, text = c :: rest ∧ fits pattern rest
  | [], text => text = []

theorem fits_nil : fits [] [] := by
  rw [fits]

variable {pattern text : Bytes} {c : UInt8}

theorem fits_hole (filled : Bytes) (h : fits pattern text) :
    fits (hole ++ pattern) (filled ++ text) := by
  rw [hole, cons_append, cons_append, cons_append, nil_append, fits]
  exact ⟨filled, text, rfl, h⟩

/-- A leading hole takes a first part of the text. -/
theorem fits_hole_inv (h : fits (hole ++ pattern) text) :
    ∃ filled rest, text = filled ++ rest ∧ fits pattern rest := by
  rw [hole, cons_append, cons_append, cons_append, nil_append, fits] at h
  exact h

/-- A leading letter is matched by itself. -/
theorem fits_cons_inv (hhole : ¬ hole <+: c :: pattern) (h : fits (c :: pattern) text) :
    ∃ rest, text = c :: rest ∧ fits pattern rest := by
  unfold fits at h
  split at h
  · rename_i heq
    exact absurd ⟨_, heq.symm⟩ hhole
  · rename_i heq
    obtain ⟨rfl, rfl⟩ := cons.inj heq
    exact h
  · rename_i heq
    exact absurd heq (cons_ne_nil _ _)

theorem not_hole_of_ne (hc : c ≠ 60) (pattern : Bytes) : ¬ hole <+: c :: pattern := by
  rintro ⟨rest, hrest⟩
  exact hc (cons.inj hrest).1.symm

theorem fits_cons (c : UInt8) (h : fits pattern text) : fits (c :: pattern) (c :: text) := by
  by_cases hhole : hole <+: c :: pattern
  · obtain ⟨rest, hrest⟩ := hhole
    obtain ⟨rfl, rfl⟩ := cons.inj (show 60 :: (95 :: 62 :: rest) = c :: pattern from hrest)
    -- the two letters behind it stand for themselves, and the hole can be filled with the three
    obtain ⟨text₁, rfl, h₁⟩ := fits_cons_inv (not_hole_of_ne (by decide) _) h
    obtain ⟨text₂, rfl, h₂⟩ := fits_cons_inv (not_hole_of_ne (by decide) _) h₁
    exact fits_hole [60, 95, 62] h₂
  · unfold fits
    split
    · rename_i heq
      exact absurd ⟨_, heq.symm⟩ hhole
    · rename_i heq
      obtain ⟨rfl, rfl⟩ := cons.inj heq
      exact ⟨text, rfl, h⟩
    · rename_i heq
      exact absurd heq (cons_ne_nil _ _)

/-- A literal matches itself, whatever follows. -/
theorem fits_append (literal : Bytes) (h : fits pattern text) :
    fits (literal ++ pattern) (literal ++ text) := by
  induction literal with
  | nil => exact h
  | cons c literal ih => exact fits_cons c ih

/-! ## Runs of holes -/

/-- What stands behind the holes at the front of a pattern. -/
def dropHoles : Bytes → Bytes
  | 60 :: 95 :: 62 :: pattern => dropHoles pattern
  | pattern => pattern

theorem length_dropHoles_le (pattern : Bytes) : (dropHoles pattern).length ≤ pattern.length := by
  fun_induction dropHoles pattern with
  | case1 pattern ih => simp only [length_cons]; omega
  | case2 => exact le_rfl

/-- A text that fits a pattern has an end that fits it without its leading holes. -/
theorem fits_dropHoles (h : fits pattern text) :
    ∃ filled rest, text = filled ++ rest ∧ fits (dropHoles pattern) rest := by
  fun_induction dropHoles pattern generalizing text with
  | case1 pattern ih =>
    obtain ⟨filled, rest, rfl, hrest⟩ := fits_hole_inv h
    obtain ⟨filled', rest', rfl, hrest'⟩ := ih hrest
    exact ⟨filled ++ filled', rest', (append_assoc _ _ _).symm, hrest'⟩
  | case2 pattern _ => exact ⟨[], text, rfl, h⟩

/-- `deduplicatePlaceholders`: a run of holes becomes one. -/
def dedupHoles : Bytes → Bytes
  | 60 :: 95 :: 62 :: 60 :: 95 :: 62 :: pattern => hole ++ dedupHoles (dropHoles pattern)
  | c :: pattern => c :: dedupHoles pattern
  | [] => []
  termination_by pattern => pattern.length
  decreasing_by
    · have hle := length_dropHoles_le pattern
      simp only [length_cons]
      omega
    · simp

theorem dedupHoles_hole (h : ¬ hole <+: pattern) :
    dedupHoles (hole ++ pattern) = hole ++ dedupHoles pattern := by
  have hstep : dedupHoles (60 :: 95 :: 62 :: pattern) = 60 :: dedupHoles (95 :: 62 :: pattern) := by
    rw [dedupHoles]
    intro rest _ hrest
    exact h ⟨rest, (cons.inj (cons.inj hrest).2).2.symm⟩
  rw [hole, cons_append, cons_append, cons_append, nil_append, hstep,
    dedupHoles, dedupHoles]
  · rfl
  all_goals exact fun _ heq => absurd heq (by simp)

theorem dedupHoles_cons (h : ¬ hole <+: c :: pattern) :
    dedupHoles (c :: pattern) = c :: dedupHoles pattern := by
  rw [dedupHoles]
  rintro rest rfl rfl
  exact h ⟨_, rfl⟩

/-- What fits a pattern fits it with its runs of holes made one. -/
theorem fits_dedupHoles (h : fits pattern text) : fits (dedupHoles pattern) text := by
  induction hlen : pattern.length using Nat.strong_induction_on generalizing pattern text with
  | _ n ih =>
    subst hlen
    by_cases hhole : hole <+: pattern
    · obtain ⟨rest, rfl⟩ := hhole
      obtain ⟨filled, text, rfl, hrest⟩ := fits_hole_inv h
      by_cases hrun : hole <+: rest
      · obtain ⟨rest, rfl⟩ := hrun
        obtain ⟨filled', text₁, rfl, hrest₁⟩ := fits_hole_inv hrest
        obtain ⟨more, text₂, rfl, hbehind⟩ := fits_dropHoles hrest₁
        have hle := length_dropHoles_le rest
        have hstep : dedupHoles (hole ++ (hole ++ rest)) = hole ++ dedupHoles (dropHoles rest) := by
          conv_lhs => rw [hole]
          rw [cons_append, cons_append, cons_append, nil_append,
            cons_append, cons_append, cons_append, nil_append, dedupHoles]
        rw [hstep, ← append_assoc, ← append_assoc]
        refine fits_hole _ (ih _ ?_ hbehind rfl)
        simp only [length_append, hole, length_cons, length_nil]
        omega
      · rw [dedupHoles_hole hrun]
        refine fits_hole _ (ih _ ?_ hrest rfl)
        simp only [length_append, hole, length_cons, length_nil]
        omega
    · cases pattern with
      | nil => simpa [dedupHoles] using h
      | cons c pattern =>
        obtain ⟨text, rfl, hrest⟩ := fits_cons_inv hhole h
        rw [dedupHoles_cons hhole]
        exact fits_cons c (ih _ (by simp) hrest rfl)

end LokiVlProxy.Foundation
