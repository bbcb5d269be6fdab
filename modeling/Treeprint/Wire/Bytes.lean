/-!
# Integers as bytes

Integers are written with a fixed number of bytes, the least significant first.
-/

namespace Treeprint.Wire

/-- The `width` low bytes of a number, least significant first. -/
def leBytes : Nat → Nat → List UInt8
  | 0, _ => []
  | width + 1, n => UInt8.ofNat n :: leBytes width (n / 256)

/-- The number that bytes spell, least significant first. -/
def leValue : List UInt8 → Nat
  | [] => 0
  | b :: bs => b.toNat + 256 * leValue bs

@[simp] theorem length_leBytes (width n : Nat) : (leBytes width n).length = width := by
  induction width generalizing n with
  | zero => rfl
  | succ width ih => simp [leBytes, ih]

/-- Bytes read back as the number, less what does not fit into them. -/
theorem leValue_leBytes (width n : Nat) : leValue (leBytes width n) = n % Nat.pow 256 width := by
  induction width generalizing n with
  | zero => simp [leBytes, leValue, Nat.mod_one]
  | succ width ih =>
    have hp : Nat.pow 256 (width + 1) = 256 * Nat.pow 256 width := Nat.mul_comm _ _
    rw [leBytes, leValue, ih, hp, Nat.mod_mul]
    simp

/-- Bytes are those of the number that they spell. -/
theorem leBytes_leValue (bs : List UInt8) : leBytes bs.length (leValue bs) = bs := by
  induction bs with
  | nil => rfl
  | cons b bs ih =>
    have hd : (b.toNat + 256 * leValue bs) / 256 = leValue bs := by
      have := b.toNat_lt
      omega
    rw [List.length_cons, leBytes, leValue, hd, ih]
    congr 1
    apply UInt8.toNat_inj.1
    simp

end Treeprint.Wire
