/-
  Foundation/Rune.lean --- strings as UTF-8 decoding reads them.

  A string is a sequence of bytes, in UTF-8 or not.
-/
import LokiVlProxy.Foundation.Text

namespace LokiVlProxy.Foundation

open List

/-- What one step of decoding reads. -/
inductive Rune where
  | point (c : Char)
  | stray (b : UInt8)
  deriving DecidableEq, Repr

/-- A string, rune by rune. -/
abbrev Runes : Type := List Rune

/-- A text as a string. -/
def runes (text : Text) : Runes := text.map .point

/-- Text that a program spells out. -/
def literal (s : String) : Runes := runes s.toList

namespace Rune

def bytes : Rune → List UInt8
  | .point c => String.utf8EncodeChar c
  | .stray b => [b]

theorem bytes_ne_nil (r : Rune) : r.bytes ≠ [] := by
  cases r with
  | point c => exact String.utf8EncodeChar_ne_nil
  | stray b => exact List.cons_ne_nil _ _

def isPoint : Rune → Bool
  | .point _ => true
  | .stray _ => false

/-- A class of characters, as a class of runes: a stray byte reads as U+FFFD, which is no
letter, digit or space. -/
def is (p : Char → Bool) : Rune → Bool
  | .point c => p c
  | .stray _ => false

/-- `string(r)`: what a program that holds the decoded character writes for it. -/
def rewritten : Rune → Rune
  | .point c => .point c
  | .stray _ => .point '\ufffd'

/-- The character, where the rune is one. -/
def char? : Rune → Option Char
  | .point c => some c
  | .stray _ => none

/-- The rune of a byte of its own. -/
def ofByte (b : UInt8) : Rune := if b < 128 then .point (Char.ofNat b.toNat) else .stray b

end Rune

/-! ## Decoding -/

def encode (s : Runes) : List UInt8 := s.flatMap Rune.bytes

/-- The number that the bytes of a code carry. -/
def payload : List UInt8 → Nat
  | [a] => a.toNat
  | [a, b] => a.toNat % 32 * 64 + b.toNat % 64
  | [a, b, c] => a.toNat % 16 * 4096 + b.toNat % 64 * 64 + c.toNat % 64
  | [a, b, c, d] => a.toNat % 8 * 262144 + b.toNat % 64 * 4096 + c.toNat % 64 * 64 + d.toNat % 64
  | _ => 0

variable (bs : List UInt8)

/-- Whether the first `n` bytes are the code of a character. -/
def IsCode (n : Nat) : Prop :=
  String.utf8EncodeChar (Char.ofNat (payload (bs.take n))) = bs.take n
  deriving Decidable

/-- `utf8.DecodeRuneInString` on the bytes `b :: bs`, with the bytes behind the rune. -/
def decodeRune (b : UInt8) (bs : List UInt8) : Rune × List UInt8 :=
  match [1, 2, 3, 4].find? fun n => IsCode (b :: bs) n with
  | some n => (.point (Char.ofNat (payload ((b :: bs).take n))), (b :: bs).drop n)
  | none => (.stray b, bs)

/-- Decoding, rune by rune, with at most as many runes as the first argument. -/
def decodeUpTo : Nat → List UInt8 → Runes
  | 0, _ => []
  | _ + 1, [] => []
  | n + 1, b :: bs => (decodeRune b bs).1 :: decodeUpTo n (decodeRune b bs).2

def decode : Runes := decodeUpTo bs.length bs

/-! ## Writing out what was read -/

theorem encode_append (s t : Runes) : encode (s ++ t) = encode s ++ encode t :=
  flatMap_append

theorem encode_cons (r : Rune) (s : Runes) : encode (r :: s) = r.bytes ++ encode s :=
  flatMap_cons

/-- Decoding one rune loses no byte. -/
theorem encode_decodeRune (b : UInt8) (bs : List UInt8) :
    (decodeRune b bs).1.bytes ++ (decodeRune b bs).2 = b :: bs := by
  unfold decodeRune
  split
  next n hn =>
    have hcode : IsCode (b :: bs) n := by simpa using find?_some hn
    exact (congrArg (· ++ (b :: bs).drop n) hcode).trans (take_append_drop n _)
  next => rfl

theorem length_decodeRune_le (b : UInt8) (bs : List UInt8) :
    (decodeRune b bs).2.length ≤ bs.length := by
  unfold decodeRune
  split
  next n hn =>
    have hmem := mem_of_find?_eq_some hn
    have hpos : 1 ≤ n := by
      simp only [mem_cons, not_mem_nil, or_false] at hmem
      omega
    simp only [length_drop, length_cons]
    omega
  next => exact le_rfl

theorem encode_decodeUpTo (n : Nat) (bs : List UInt8) (h : bs.length ≤ n) :
    encode (decodeUpTo n bs) = bs := by
  induction n generalizing bs with
  | zero =>
    obtain rfl := length_eq_zero_iff.mp (Nat.le_zero.mp h)
    rfl
  | succ n ih =>
    cases bs with
    | nil => rfl
    | cons b bs =>
      have hlength := length_decodeRune_le b bs
      rw [decodeUpTo, encode_cons, ih _ (by simp only [length_cons] at h; omega)]
      exact encode_decodeRune b bs

/-- Encoding undoes decoding, for valid and for stray bytes. -/
theorem encode_decode : encode (decode bs) = bs :=
  encode_decodeUpTo _ bs le_rfl

/-- The bytes of a character beyond ASCII are not those of ASCII characters. -/
theorem toNat_of_mem_utf8EncodeChar {c : Char} {b : UInt8} (hb : b ∈ String.utf8EncodeChar c)
    (hascii : b.toNat < 128) : c.toNat = b.toNat := by
  have hlarge : ∀ n, 128 ≤ n → n < 256 → b ≠ UInt8.ofNat n := by
    intro n hle hlt hn
    rw [hn, UInt8.toNat_ofNat_of_lt' hlt] at hascii
    omega
  unfold String.utf8EncodeChar at hb
  simp only at hb
  split at hb
  next h =>
    obtain rfl := mem_singleton.mp hb
    have hlt : c.val.toNat < UInt8.size := by
      show c.val.toNat < 256
      omega
    rw [UInt8.toNat_ofNat_of_lt' hlt]
    rfl
  next =>
    split at hb
    · obtain h | h := mem_pair.mp hb
      all_goals exact absurd h (hlarge _ (by omega) (by omega))
    · split at hb
      · simp only [mem_cons, not_mem_nil, or_false] at hb
        obtain h | h | h := hb <;> exact absurd h (hlarge _ (by omega) (by omega))
      · simp only [mem_cons, not_mem_nil, or_false] at hb
        obtain h | h | h | h := hb <;> exact absurd h (hlarge _ (by omega) (by omega))

end LokiVlProxy.Foundation
