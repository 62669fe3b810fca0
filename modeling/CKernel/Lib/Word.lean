/-
# `CKernel.Lib.Word` — unsigned machine arithmetic on naturals

An unsigned integer of width `w` is a natural below `2 ^ w`; the operations
wrap.  The programs verified here stay with these operations exactly where a
wrap could be observed, and leave them for plain `Nat` arithmetic through the
exactness lemmas, whose hypotheses are the no-overflow conditions.
-/
import Mathlib

namespace CKernel.Word

/-- `a + b` in width `w`. -/
def add (w a b : Nat) : Nat := (a + b) % 2 ^ w

/-- `a - b` in width `w`; a negative difference wraps. -/
def sub (w a b : Nat) : Nat := (a + (2 ^ w - b % 2 ^ w)) % 2 ^ w

/-- `a * b` in width `w`. -/
def mul (w a b : Nat) : Nat := (a * b) % 2 ^ w

theorem add_eq {w a b : Nat} (h : a + b < 2 ^ w) : add w a b = a + b :=
  Nat.mod_eq_of_lt h

theorem mul_eq {w a b : Nat} (h : a * b < 2 ^ w) : mul w a b = a * b :=
  Nat.mod_eq_of_lt h

theorem sub_eq {w a b : Nat} (ha : a < 2 ^ w) (h : b ≤ a) : sub w a b = a - b := by
  have hb : b % 2 ^ w = b := Nat.mod_eq_of_lt (by omega)
  have hsum : a + (2 ^ w - b) = (a - b) + 2 ^ w := by omega
  unfold sub
  rw [hb, hsum, Nat.add_mod_right]
  exact Nat.mod_eq_of_lt (by omega)

/-- The decrement-then-offset idiom `a - 1 + c` of an unsigned index: the wrap
at `a = 0` is undone by the addition. -/
theorem add_sub_one {w a c : Nat} (hc : 0 < c) (h : a + c ≤ 2 ^ w) :
    add w (sub w a 1) c = a + c - 1 := by
  unfold add sub
  cases a with
  | zero =>
      by_cases hw : 2 ^ w = 1
      · simp only [hw, Nat.mod_one]
        omega
      · have hlt : 2 ^ w - 1 < 2 ^ w := by omega
        have h1 : 1 % 2 ^ w = 1 := Nat.mod_eq_of_lt (by omega)
        have h2 : 2 ^ w - 1 + c = (c - 1) + 2 ^ w := by omega
        rw [h1, Nat.zero_add, Nat.mod_eq_of_lt hlt, h2, Nat.add_mod_right,
          Nat.mod_eq_of_lt (by omega), Nat.zero_add]
  | succ a =>
      have h1 : 1 % 2 ^ w = 1 := Nat.mod_eq_of_lt (by omega)
      have h2 : a + 1 + (2 ^ w - 1) = a + 2 ^ w := by omega
      rw [h1, h2, Nat.add_mod_right, Nat.mod_eq_of_lt (a := a) (by omega),
        Nat.mod_eq_of_lt (by omega)]
      omega

/-- Clearing the low bits: `a & ~(2^k - 1)` in width `w`. -/
theorem and_high {w k a : Nat} (hk : k ≤ w) (ha : a < 2 ^ w) :
    a &&& (2 ^ w - 2 ^ k) = 2 ^ k * (a / 2 ^ k) := by
  have hmask : 2 ^ w - 2 ^ k = (2 ^ (w - k) - 1) <<< k := by
    rw [Nat.shiftLeft_eq, Nat.sub_mul, ← Nat.pow_add, Nat.sub_add_cancel hk, Nat.one_mul]
  refine Nat.eq_of_testBit_eq fun i => ?_
  rw [Nat.testBit_and, hmask, Nat.testBit_shiftLeft, Nat.testBit_two_pow_sub_one,
    Nat.testBit_two_pow_mul, Nat.testBit_div_two_pow]
  by_cases hi : k ≤ i
  · rw [Nat.sub_add_cancel hi]
    by_cases hlt : i - k < w - k
    · simp [hi, hlt]
    · have hbit : a.testBit i = false :=
        Nat.testBit_lt_two_pow (lt_of_lt_of_le ha (Nat.pow_le_pow_right Nat.two_pos (by omega)))
      simp [hbit]
  · simp [hi]

/-- An index that wraps at most once. -/
theorem mod_wrap {a c : Nat} (h : a < 2 * c) :
    a % c = if a < c then a else a - c := by
  by_cases hlt : a < c
  · rw [if_pos hlt, Nat.mod_eq_of_lt hlt]
  · have hsub : a - c < c := by omega
    rw [if_neg hlt, Nat.mod_eq_sub_mod (Nat.le_of_not_lt hlt), Nat.mod_eq_of_lt hsub]

end CKernel.Word
