/-
  Foundation/Base64.lean --- base64 with padding.

  Three bytes are written as four digits of six bits; what is left at the end is padded.
-/
import Mathlib.Data.List.Basic

namespace LokiVlProxy.Foundation.Base64

open List

/-- The digit of a number below 64. -/
def digit (n : Nat) : Char :=
  if n < 26 then Char.ofNat (65 + n)
  else if n < 52 then Char.ofNat (71 + n)
  else if n < 62 then Char.ofNat (n - 4)
  else if n = 62 then '+'
  else '/'

/-- The number of a digit. -/
def value (c : Char) : Option Nat :=
  if 'A' ≤ c ∧ c ≤ 'Z' then some (c.toNat - 65)
  else if 'a' ≤ c ∧ c ≤ 'z' then some (c.toNat - 71)
  else if '0' ≤ c ∧ c ≤ '9' then some (c.toNat + 4)
  else if c = '+' then some 62
  else if c = '/' then some 63
  else none

def encodeToString : List UInt8 → List Char
  | [] => []
  | [a] => [digit (a.toNat / 4), digit (a.toNat % 4 * 16), '=', '=']
  | [a, b] =>
      [digit (a.toNat / 4), digit (a.toNat % 4 * 16 + b.toNat / 16), digit (b.toNat % 16 * 4), '=']
  | a :: b :: c :: rest =>
      digit (a.toNat / 4) :: digit (a.toNat % 4 * 16 + b.toNat / 16) ::
        digit (b.toNat % 16 * 4 + c.toNat / 64) :: digit (c.toNat % 64) :: encodeToString rest

/-- The bytes of groups of four digits. -/
def decodeGroups : List Char → Option (List UInt8)
  | [] => some []
  | [c₀, c₁, '=', '='] => do
      let n₀ ← value c₀
      let n₁ ← value c₁
      return [UInt8.ofNat (n₀ * 4 + n₁ / 16)]
  | [c₀, c₁, c₂, '='] => do
      let n₀ ← value c₀
      let n₁ ← value c₁
      let n₂ ← value c₂
      return [UInt8.ofNat (n₀ * 4 + n₁ / 16), UInt8.ofNat (n₁ % 16 * 16 + n₂ / 4)]
  | c₀ :: c₁ :: c₂ :: c₃ :: rest => do
      let n₀ ← value c₀
      let n₁ ← value c₁
      let n₂ ← value c₂
      let n₃ ← value c₃
      let bytes ← decodeGroups rest
      return UInt8.ofNat (n₀ * 4 + n₁ / 16) :: UInt8.ofNat (n₁ % 16 * 16 + n₂ / 4) ::
        UInt8.ofNat (n₂ % 4 * 64 + n₃) :: bytes
  | _ => none

def decodeString (s : List Char) : Option (List UInt8) :=
  decodeGroups (s.filter fun c => c ≠ '\r' ∧ c ≠ '\n')

/-! ## Reading what was written -/

variable {n : Nat}

theorem value_digit (hn : n < 64) : value (digit n) = some n := by
  decide +revert

/-- The letters of written text. -/
def IsLetter (c : Char) : Prop := (value c).isSome ∨ c = '='

theorem isLetter_digit (hn : n < 64) : IsLetter (digit n) := by
  left
  rw [value_digit hn]
  rfl

theorem digit_ne_pad (hn : n < 64) : digit n ≠ '=' := by
  intro h
  have hvalue := value_digit hn
  rw [h] at hvalue
  cases hvalue

/-- An encoding holds letters of the alphabet and padding only. -/
theorem isLetter_of_mem {bs : List UInt8} {c : Char} (h : c ∈ encodeToString bs) :
    IsLetter c := by
  fun_induction encodeToString bs with
  | case1 => cases h
  | case2 a =>
    have ha := a.toNat_lt
    simp only [mem_cons, not_mem_nil, or_false] at h
    obtain rfl | rfl | rfl | rfl := h
    iterate 2 exact isLetter_digit (by omega)
    all_goals exact .inr rfl
  | case3 a b =>
    have ha := a.toNat_lt
    have hb := b.toNat_lt
    simp only [mem_cons, not_mem_nil, or_false] at h
    obtain rfl | rfl | rfl | rfl := h
    iterate 3 exact isLetter_digit (by omega)
    exact .inr rfl
  | case4 a b c rest ih =>
    have ha := a.toNat_lt
    have hb := b.toNat_lt
    have hc := c.toNat_lt
    simp only [mem_cons] at h
    obtain rfl | rfl | rfl | rfl | h := h
    iterate 4 exact isLetter_digit (by omega)
    exact ih h

theorem ofNat_eq {a : UInt8} (h : n = a.toNat) : UInt8.ofNat n = a := by
  rw [h, UInt8.ofNat_toNat]

/-- Reading the groups of four gives back the encoded bytes. -/
theorem decodeGroups_encodeToString (bs : List UInt8) :
    decodeGroups (encodeToString bs) = some bs := by
  fun_induction encodeToString bs with
  | case1 => rfl
  | case2 a =>
    have ha := a.toNat_lt
    simp only [decodeGroups, value_digit (show a.toNat / 4 < 64 by omega),
      value_digit (show a.toNat % 4 * 16 < 64 by omega)]
    exact congrArg (some [·]) (ofNat_eq (by omega))
  | case3 a b =>
    have ha := a.toNat_lt
    have hb := b.toNat_lt
    have h₂ : b.toNat % 16 * 4 < 64 := by omega
    rw [decodeGroups]
    · simp only [value_digit (show a.toNat / 4 < 64 by omega),
        value_digit (show a.toNat % 4 * 16 + b.toNat / 16 < 64 by omega), value_digit h₂]
      refine congrArg some ?_
      rw [ofNat_eq (a := a) (by omega), ofNat_eq (a := b) (by omega)]
    · exact digit_ne_pad h₂
  | case4 a b c rest ih =>
    have ha := a.toNat_lt
    have hb := b.toNat_lt
    have hc := c.toNat_lt
    have h₃ : c.toNat % 64 < 64 := by omega
    rw [decodeGroups]
    · simp only [value_digit (show a.toNat / 4 < 64 by omega),
        value_digit (show a.toNat % 4 * 16 + b.toNat / 16 < 64 by omega),
        value_digit (show b.toNat % 16 * 4 + c.toNat / 64 < 64 by omega), value_digit h₃, ih]
      refine congrArg some ?_
      rw [ofNat_eq (a := a) (by omega), ofNat_eq (a := b) (by omega), ofNat_eq (a := c) (by omega)]
    · intro _ hpad
      exact absurd hpad (digit_ne_pad h₃)
    · intro hpad
      exact absurd hpad (digit_ne_pad h₃)

/-- Decoding undoes encoding, for every byte string. -/
theorem decodeString_encodeToString (bs : List UInt8) :
    decodeString (encodeToString bs) = some bs := by
  have hfilter : (encodeToString bs).filter (fun c => c ≠ '\r' ∧ c ≠ '\n') =
      encodeToString bs := by
    refine filter_eq_self.mpr ?_
    intro c hc
    have hletter := isLetter_of_mem hc
    have hr : c ≠ '\r' := by
      rintro rfl
      exact absurd hletter (by simp [IsLetter, value])
    have hn : c ≠ '\n' := by
      rintro rfl
      exact absurd hletter (by simp [IsLetter, value])
    simp [hr, hn]
  rw [decodeString, hfilter, decodeGroups_encodeToString]

end LokiVlProxy.Foundation.Base64
