import Mathlib.Data.Nat.Basic
import Mathlib.Algebra.Order.Ring.Nat

/-!
# Alignment

`alignUp a x` is the first multiple of `a` that is not below `x`.
-/

namespace Lib.Align

variable {a x y : Nat}

/-- The distance from `x` to the next multiple of `a`. -/
def padding (a x : Nat) : Nat := (a - x % a) % a

def alignUp (a x : Nat) : Nat := x + padding a x

theorem padding_lt (ha : 0 < a) (x : Nat) : padding a x < a := Nat.mod_lt _ ha

theorem le_alignUp (a x : Nat) : x ≤ alignUp a x := Nat.le_add_right x _

theorem alignUp_lt (ha : 0 < a) (x : Nat) : alignUp a x < x + a :=
  Nat.add_lt_add_left (padding_lt ha x) x

theorem dvd_alignUp (ha : 0 < a) (x : Nat) : a ∣ alignUp a x := by
  have hlt := Nat.mod_lt x ha
  have hdiv := Nat.div_add_mod x a
  unfold alignUp padding
  rcases Nat.eq_zero_or_pos (x % a) with hzero | hpos
  · rw [hzero, Nat.sub_zero, Nat.mod_self, Nat.add_zero]
    exact Nat.dvd_of_mod_eq_zero hzero
  · rw [Nat.mod_eq_of_lt (Nat.sub_lt ha hpos)]
    refine ⟨x / a + 1, ?_⟩
    rw [Nat.mul_add, Nat.mul_one]
    omega

/-- Of two powers of two the smaller divides the larger. -/
theorem two_pow_dvd_of_le {i j : Nat} (h : 2 ^ i ≤ 2 ^ j) : 2 ^ i ∣ 2 ^ j :=
  Nat.pow_dvd_pow 2 ((Nat.pow_le_pow_iff_right (by decide)).mp h)

/-- Multiples of a power of two keep their alignment modulo another power of two. -/
theorem two_pow_dvd_mod {i : Nat} (j : Nat) (h : 2 ^ i ∣ x) : 2 ^ i ∣ x % 2 ^ j := by
  rcases Nat.le_total i j with hij | hji
  · exact (Nat.dvd_mod_iff (Nat.pow_dvd_pow 2 hij)).mpr h
  · rw [Nat.mod_eq_zero_of_dvd ((Nat.pow_dvd_pow 2 hji).trans h)]
    exact Nat.dvd_zero _

end Lib.Align
