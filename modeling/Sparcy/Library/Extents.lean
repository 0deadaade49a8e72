import Mathlib.Algebra.Group.Nat.Defs
import Mathlib.Data.List.Basic
import Mathlib.Tactic.Common

/-!
# Extents of addresses

Rounding up to a unit, in numbers and in machine words, ranges of addresses that are
apart, and the rule by which a pointer that only moves up hands out such ranges.
-/

namespace Extents

/-! ### Rounding up -/

/-- The least multiple of `unit` that is not below `n`. -/
def roundUp (unit n : Nat) : Nat := (n + (unit - 1)) / unit * unit

@[simp]
theorem roundUp_mod (unit n : Nat) : roundUp unit n % unit = 0 := Nat.mul_mod_left _ _

theorem le_roundUp {unit : Nat} (positive : 0 < unit) (n : Nat) : n ≤ roundUp unit n := by
  have split := Nat.div_add_mod (n + (unit - 1)) unit
  have low := Nat.mod_lt (n + (unit - 1)) positive
  rw [roundUp, Nat.mul_comm]
  omega

theorem roundUp_lt {unit : Nat} (positive : 0 < unit) (n : Nat) : roundUp unit n < n + unit := by
  have below := Nat.div_mul_le_self (n + (unit - 1)) unit
  rw [roundUp]
  omega

/-- Nothing is added to a multiple, and only to a multiple. -/
theorem roundUp_eq_self_iff {unit : Nat} (positive : 0 < unit) {n : Nat} :
    roundUp unit n = n ↔ n % unit = 0 := by
  constructor
  · intro same
    rw [← same]
    exact roundUp_mod unit n
  · intro whole
    obtain ⟨k, rfl⟩ := Nat.dvd_of_mod_eq_zero whole
    rw [roundUp, Nat.mul_add_div positive, Nat.div_eq_of_lt (by omega), Nat.add_zero, Nat.mul_comm]

/-- A word without its low bits is the multiple below it. -/
theorem toNat_and_shifted {w : Nat} (x : BitVec w) (k : Nat) :
    (x &&& BitVec.allOnes w <<< k).toNat = x.toNat / 2 ^ k * 2 ^ k := by
  have shifted : x &&& BitVec.allOnes w <<< k = (x >>> k) <<< k := by
    apply BitVec.eq_of_getLsbD_eq
    intro i below
    rw [BitVec.getLsbD_and, BitVec.getLsbD_shiftLeft, BitVec.getLsbD_shiftLeft,
      BitVec.getLsbD_allOnes, BitVec.getLsbD_ushiftRight]
    by_cases low : i < k
    · simp [low]
    · have inside : i - k < w := by omega
      have index : k + (i - k) = i := by omega
      simp [below, low, inside, index]
  have fits : x.toNat / 2 ^ k * 2 ^ k < 2 ^ w :=
    Nat.lt_of_le_of_lt (Nat.div_mul_le_self _ _) x.isLt
  rw [shifted, BitVec.toNat_shiftLeft, BitVec.toNat_ushiftRight, Nat.shiftRight_eq_div_pow,
    Nat.shiftLeft_eq, Nat.mod_eq_of_lt fits]

end Extents

/-! ### Ranges -/

/-- A range of addresses. -/
structure Extent where
  start : Nat
  size : Nat
deriving DecidableEq

namespace Extent

/-- The first address behind a range. -/
def stop (e : Extent) : Nat := e.start + e.size

/-- An address lies in the range. -/
def Holds (e : Extent) (b : Nat) : Prop := e.start ≤ b ∧ b < e.stop

/-- Two ranges have no address in common. -/
def Apart (e e' : Extent) : Prop := e.stop ≤ e'.start ∨ e'.stop ≤ e.start

instance (e : Extent) (b : Nat) : Decidable (e.Holds b) := inferInstanceAs (Decidable (_ ∧ _))

instance (e e' : Extent) : Decidable (e.Apart e') := inferInstanceAs (Decidable (_ ∨ _))

theorem Apart.symm {e e' : Extent} (apart : e.Apart e') : e'.Apart e := Or.symm apart

/-- A range from where all others stop on is apart from them. -/
theorem pairwise_apart_cons {e : Extent} {others : List Extent}
    (behind : ∀ e' ∈ others, e'.stop ≤ e.start) (apart : others.Pairwise Apart) :
    (e :: others).Pairwise Apart :=
  List.pairwise_cons.mpr ⟨fun e' member => .inr (behind e' member), apart⟩

end Extent
