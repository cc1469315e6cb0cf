import Mathlib.Data.Nat.Bitwise

/-!
# Mixed Boolean arithmetic

Sums and differences of machine integers through bitwise operations, at every width.
-/

namespace Lib

/-- Without carries a sum is an exclusive or; the carries are the common bits, one place up. -/
theorem nat_xor_add_two_mul_and (m n : Nat) : (m ^^^ n) + 2 * (m &&& n) = m + n := by
  induction m using Nat.binaryRec generalizing n with
  | zero => simp
  | bit x m ih =>
    induction n using Nat.binaryRec with
    | zero => simp
    | bit y n _ =>
      rw [Nat.xor_bit, Nat.land_bit]
      have h := ih n
      cases x <;> cases y <;> simp only [Nat.bit_val] <;> simp <;> omega

variable {w : Nat}

theorem xor_add_two_mul_and (a b : BitVec w) : (a ^^^ b) + 2 * (a &&& b) = a + b := by
  apply BitVec.eq_of_toNat_eq
  have h := nat_xor_add_two_mul_and a.toNat b.toNat
  rw [BitVec.toNat_add, BitVec.toNat_add, BitVec.toNat_mul, ← h]
  simp [Nat.add_mod, Nat.mul_mod]

theorem add_not_add_one (a b : BitVec w) : a + ~~~b + 1 = a - b := by
  rw [BitVec.sub_eq_add_neg, BitVec.neg_eq_not_add, BitVec.add_assoc]
  rfl

end Lib
