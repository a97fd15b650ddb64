/-
  Foundation/BigEndian.lean --- fixed-width big-endian integers as bytes.
-/
import Mathlib.Tactic.Ring

namespace LokiVlProxy.Foundation.BigEndian

/-- The `width` low-order bytes of `n`, most significant first. -/
def encode : Nat → Nat → List UInt8
  | 0, _ => []
  | width + 1, n => UInt8.ofNat (n / 256 ^ width) :: encode width n

/-- The number whose bytes these are, most significant first. -/
def decode (bs : List UInt8) : Nat := bs.foldl (fun n b => n * 256 + b.toNat) 0

@[simp] theorem length_encode (width n : Nat) : (encode width n).length = width := by
  induction width with
  | zero => rfl
  | succ width ih => simp [encode, ih]

/-- The fold that reads a number, from any accumulator, over the bytes of `encode`. -/
theorem foldl_encode (width n acc : Nat) :
    (encode width n).foldl (fun n b => n * 256 + b.toNat) acc =
      acc * 256 ^ width + n % 256 ^ width := by
  induction width generalizing acc with
  | zero => simp [encode, Nat.mod_one]
  | succ width ih =>
    have hsplit : n % 256 ^ (width + 1) =
        256 ^ width * (n / 256 ^ width % 256) + n % 256 ^ width := by
      rw [pow_succ, Nat.mod_mul, Nat.add_comm]
    rw [encode, List.foldl_cons, ih, hsplit, UInt8.toNat_ofNat']
    ring

/-- A number read back from its bytes is the number, as far as the width holds it. -/
theorem decode_encode (width n : Nat) : decode (encode width n) = n % 256 ^ width := by
  rw [decode, foldl_encode, Nat.zero_mul, Nat.zero_add]

end LokiVlProxy.Foundation.BigEndian
