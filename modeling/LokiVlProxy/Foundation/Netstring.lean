/-
  Foundation/Netstring.lean --- texts written one behind the other, each with its length.

  A part is the length of a text in bytes, a colon and the text.
-/
import Mathlib
import LokiVlProxy.Foundation.Text

namespace LokiVlProxy.Foundation

open List

/-- The length of a text in bytes. -/
def byteLength (v : Text) : Nat := (v.map Char.utf8Size).sum

/-- A text with its length before it. -/
def part (v : Text) : Text := Nat.toDigits 10 (byteLength v) ++ ':' :: v

/-- Texts one behind the other. -/
def parts (vs : List Text) : Text := vs.flatMap part

theorem byteLength_eq_zero {v : Text} (h : byteLength v = 0) : v = [] := by
  cases v with
  | nil => rfl
  | cons c v =>
    have hpos := c.utf8Size_pos
    simp only [byteLength, map_cons, sum_cons] at h
    omega

theorem append_inj_of_byteLength {v w x y : Text} (hlength : byteLength v = byteLength w)
    (h : v ++ x = w ++ y) : v = w ∧ x = y := by
  induction v generalizing w with
  | nil =>
    obtain rfl := byteLength_eq_zero hlength.symm
    exact ⟨rfl, h⟩
  | cons c v ih =>
    cases w with
    | nil => exact absurd (byteLength_eq_zero hlength) (cons_ne_nil c v)
    | cons d w =>
      obtain ⟨rfl, htail⟩ := cons.inj h
      simp only [byteLength, map_cons, sum_cons, Nat.add_left_cancel_iff] at hlength
      obtain ⟨rfl, rfl⟩ := ih hlength htail
      exact ⟨rfl, rfl⟩

/-- A part carries its length, so that it ends where it says. -/
theorem part_append_inj {v w x y : Text} (h : part v ++ x = part w ++ y) : v = w ∧ x = y := by
  have hcolon : ∀ n, ':' ∉ Nat.toDigits 10 n := fun n hmem =>
    absurd (Nat.isDigit_of_mem_toDigits (by decide) (by decide) hmem) (by decide)
  simp only [part, append_assoc, cons_append] at h
  obtain ⟨hdigits, htail⟩ := append_cons_inj_of_notMem (hcolon _) (hcolon _) h
  have hlength : byteLength v = byteLength w :=
    calc byteLength v
      _ = Nat.ofDigitChars 10 (Nat.toDigits 10 (byteLength v)) 0 :=
        Nat.ofDigitChars_ten_toDigits.symm
      _ = Nat.ofDigitChars 10 (Nat.toDigits 10 (byteLength w)) 0 := by rw [hdigits]
      _ = byteLength w := Nat.ofDigitChars_ten_toDigits
  exact append_inj_of_byteLength hlength htail

theorem part_ne_nil (v : Text) : part v ≠ [] := by
  simp [part]

/-- Texts written one after the other, each with its length, are determined by the whole. -/
theorem parts_injective : Function.Injective parts :=
  flatMap_injective part_ne_nil fun _ _ _ _ => part_append_inj

end LokiVlProxy.Foundation
