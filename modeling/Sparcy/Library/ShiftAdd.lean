import Mathlib.Tactic.Common
import Mathlib.Tactic.Ring
import Mathlib.Logic.Function.Iterate

/-!
# Multiplication by shifting and adding

One number holds the bits of the multiplier that are still to come and, above them, the
sum so far.  A step drops the lowest bit and adds the multiplicand above the rest if that
bit was set.
-/

namespace ShiftAdd

/-- One step for a multiplicand that stands `w` bits high. -/
def step (w b n : Nat) : Nat := n / 2 + n % 2 * (b * 2 ^ w)

@[simp]
theorem step_zero (w b : Nat) : step w b 0 = 0 := by
  simp [step]

/-- After `k` steps the lowest `k` bits of the multiplier have been taken. -/
theorem iterate_step (w b m : Nat) {k : Nat} (within : k ≤ w) :
    (step w b)^[k] m = m / 2 ^ k + 2 * (b * (m % 2 ^ k) * 2 ^ (w - k)) := by
  induction k with
  | zero => simp [Nat.mod_one]
  | succ k induction =>
      have rest : w - k = w - (k + 1) + 1 := by omega
      have whole : 2 ^ (w - (k + 1)) * 2 * 2 ^ k = 2 ^ w := by
        rw [← Nat.pow_succ, ← Nat.pow_add]
        congr 1
        omega
      have quotient : m / 2 ^ (k + 1) = m / 2 ^ k / 2 := by
        rw [Nat.pow_succ, Nat.div_div_eq_div_mul]
      rw [Function.iterate_succ_apply', induction (by omega), step, quotient, Nat.mod_pow_succ,
        rest, Nat.pow_succ, Nat.add_mul_div_left _ _ (by decide), Nat.add_mul_mod_self_left,
        ← whole]
      ring

/-- The last step has nothing to add, and only shifts. -/
theorem product (b : Nat) {w m : Nat} (fits : m < 2 ^ w) :
    step w 0 ((step w b)^[w] m) = b * m := by
  rw [iterate_step w b m (Nat.le_refl w), Nat.div_eq_of_lt fits, Nat.mod_eq_of_lt fits, step]
  simp

end ShiftAdd
