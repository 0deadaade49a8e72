import Mathlib.Data.Bool.Basic
import Mathlib.Tactic.Common
import Mathlib.Tactic.Positivity
import Mathlib.Tactic.Ring

/-!
# Integers in words

A sum or a difference of two words, computed in a wider word, is an integer that needs at
most one bit more than its operands.  This file reads the sign, the carry and the overflow
of that integer off the bits, for every width.
-/

namespace SignedWords

variable {w v : Nat}

theorem setWidth_ofInt (narrow : w ≤ v) (s : Int) :
    (BitVec.ofInt v s).setWidth w = BitVec.ofInt w s := by
  apply BitVec.eq_of_toNat_eq
  have divides : ((2 ^ w : Nat) : Int) ∣ ((2 ^ v : Nat) : Int) := by
    exact_mod_cast Nat.pow_dvd_pow 2 narrow
  have positive : (0 : Int) ≤ s % ((2 ^ v : Nat) : Int) :=
    Int.emod_nonneg _ (by positivity)
  have positive' : (0 : Int) ≤ s % ((2 ^ w : Nat) : Int) :=
    Int.emod_nonneg _ (by positivity)
  rw [BitVec.toNat_setWidth, BitVec.toNat_ofInt, BitVec.toNat_ofInt]
  apply Int.ofNat.inj
  change ((((s % ((2 ^ v : Nat) : Int)).toNat % 2 ^ w : Nat)) : Int) = _
  rw [Int.natCast_emod, Int.toNat_of_nonneg positive, Int.emod_emod_of_dvd _ divides]
  exact (Int.toNat_of_nonneg positive').symm

theorem ofInt_sub (s t : Int) : BitVec.ofInt w (s - t) = BitVec.ofInt w s - BitVec.ofInt w t := by
  rw [BitVec.sub_eq_add_neg, ← BitVec.ofInt_neg, ← BitVec.ofInt_add, Int.sub_eq_add_neg]

theorem ofInt_add_two_pow (s : Int) : BitVec.ofInt w (s + 2 ^ w) = BitVec.ofInt w s := by
  apply BitVec.eq_of_toInt_eq
  rw [BitVec.toInt_ofInt, BitVec.toInt_ofInt]
  exact_mod_cast Int.add_bmod_right s (2 ^ w)

theorem ofInt_toNat (a : BitVec w) : BitVec.ofInt w a.toNat = a := by
  rw [BitVec.ofInt_natCast, BitVec.ofNat_toNat, BitVec.setWidth_eq]

theorem ofInt_eq_zero_iff (s : Int) : BitVec.ofInt w s = 0 ↔ (2 : Int) ^ w ∣ s := by
  have divides : ((2 ^ w : Nat) : Int) ∣ s ↔ s.bmod (2 ^ w) = 0 := Int.dvd_iff_bmod_eq_zero
  rw [← BitVec.toInt_inj, BitVec.toInt_ofInt, BitVec.ofNat_eq_ofNat, BitVec.toInt_zero, ← divides]
  exact_mod_cast Iff.rfl

/-- A number of fewer than two words' size is a multiple of it in three cases. -/
theorem two_pow_dvd_iff {s : Int} (low : -2 ^ (w + 1) < s) (high : s < 2 ^ (w + 1)) :
    (2 : Int) ^ w ∣ s ↔ s = 0 ∨ s = 2 ^ w ∨ s = -2 ^ w := by
  have positive : (0 : Int) < 2 ^ w := by positivity
  constructor
  · rintro ⟨k, rfl⟩
    have below : k < 2 := by
      apply Int.lt_of_mul_lt_mul_left (a := 2 ^ w) _ positive.le
      rwa [← Int.pow_succ]
    have above : -2 < k := by
      apply Int.lt_of_mul_lt_mul_left (a := 2 ^ w) _ positive.le
      rwa [Int.mul_neg, ← Int.pow_succ]
    obtain rfl | rfl | rfl : k = 0 ∨ k = 1 ∨ k = -1 := by omega
    · exact .inl (Int.mul_zero _)
    · exact .inr (.inl (Int.mul_one _))
    · exact .inr (.inr (Int.mul_neg_one _))
  · rintro (rfl | rfl | rfl)
    · exact Int.dvd_zero _
    · exact Int.dvd_refl _
    · exact Int.dvd_neg.mpr (Int.dvd_refl _)

/-- A word and the number that it stands for. -/
theorem sign_cases (a : BitVec (w + 1)) :
    (a.msb = false ∧ a.toNat < 2 ^ w ∧ a.toInt = a.toNat) ∨
      a.msb = true ∧ 2 ^ w ≤ a.toNat ∧ a.toInt = -((2 ^ (w + 1) - a.toNat : Nat) : Int) := by
  have bound := a.isLt
  have sign := BitVec.msb_eq_decide a
  rw [Nat.add_sub_cancel] at sign
  rw [BitVec.toInt_eq_msb_cond]
  cases negative : a.msb with
  | false =>
      have below := of_decide_eq_false (sign.symm.trans negative)
      exact .inl ⟨rfl, Nat.lt_of_not_le below, rfl⟩
  | true =>
      have above := of_decide_eq_true (sign.symm.trans negative)
      refine .inr ⟨rfl, above, ?_⟩
      rw [if_pos rfl, Int.ofNat_sub bound.le, Int.neg_sub]

/-- The sign bit of a number that needs at most one bit more than the word has. -/
theorem msb_ofInt {s : Int} (low : -2 ^ (w + 1) ≤ s) (high : s < 2 ^ (w + 1)) :
    (BitVec.ofInt (w + 1) s).msb = decide (-2 ^ w ≤ s ∧ s < 0 ∨ 2 ^ w ≤ s) := by
  have double : (2 : Int) ^ (w + 1) = 2 ^ w + 2 ^ w := by ring
  have sign {t : Int} (low : -2 ^ w ≤ t) (high : t < 2 ^ w) :
      (BitVec.ofInt (w + 1) t).msb = decide (t < 0) := by
    rw [BitVec.msb_eq_toInt, BitVec.toInt_ofInt_eq_self (Nat.succ_pos w) low high]
  by_cases below : s < -2 ^ w
  · rw [← ofInt_add_two_pow, sign (by omega) (by omega)]
    apply decide_eq_decide.mpr
    omega
  · by_cases above : 2 ^ w ≤ s
    · have shifted : s = s - 2 ^ (w + 1) + 2 ^ (w + 1) := by omega
      rw [shifted, ofInt_add_two_pow, sign (by omega) (by omega)]
      apply decide_eq_decide.mpr
      omega
    · rw [sign (by omega) (by omega)]
      apply decide_eq_decide.mpr
      omega

/-- A number that is cut to a word and extended again comes back if the word holds it. -/
theorem signExtend_ofInt_iff (wider : w < v) {s : Int} (low : -2 ^ (v - 1) ≤ s)
    (high : s < 2 ^ (v - 1)) :
    (BitVec.ofInt (w + 1) s).signExtend v = BitVec.ofInt v s ↔ -2 ^ w ≤ s ∧ s < 2 ^ w := by
  have positive : 0 < v := by omega
  rw [← BitVec.toInt_inj, BitVec.toInt_signExtend_of_le wider,
    BitVec.toInt_ofInt_eq_self positive low high]
  constructor
  · intro same
    rw [← same]
    exact ⟨BitVec.le_toInt _, BitVec.toInt_lt⟩
  · rintro ⟨above, below⟩
    exact BitVec.toInt_ofInt_eq_self (Nat.succ_pos w) above below

/-- The true sign is the sign bit, turned round by an overflow. -/
theorem msb_xor_overflow {s : Int} (low : -2 ^ (w + 1) ≤ s) (high : s < 2 ^ (w + 1)) :
    ((BitVec.ofInt (w + 1) s).msb ^^ decide (¬ (-2 ^ w ≤ s ∧ s < 2 ^ w))) = decide (s < 0) := by
  have positive : (0 : Int) < 2 ^ w := by positivity
  have double : (2 : Int) ^ (w + 1) = 2 ^ w + 2 ^ w := by ring
  rw [msb_ofInt low high, Bool.eq_iff_iff, Bool.xor_iff_ne]
  simp only [ne_eq, decide_eq_decide, decide_eq_true_eq]
  omega

/-- The last bit of a narrower word. -/
theorem getLsbD_ofInt (narrow : w < v) (s : Int) :
    (BitVec.ofInt v s).getLsbD w = (BitVec.ofInt (w + 1) s).msb := by
  rw [← setWidth_ofInt narrow, BitVec.msb_eq_getLsbD_last, BitVec.getLsbD_setWidth]
  simp

/-- The bit above a word is the carry of a sum and the borrow of a difference. -/
theorem carry_ofInt (narrow : w < v) {s : Int} (low : -2 ^ w ≤ s) (high : s < 2 ^ (w + 1)) :
    (BitVec.ofInt v s).getLsbD w = decide (¬ (0 ≤ s ∧ s < 2 ^ w)) := by
  have positive : (0 : Int) < 2 ^ w := by positivity
  have double : (2 : Int) ^ (w + 1) = 2 ^ w + 2 ^ w := by ring
  rw [getLsbD_ofInt narrow, msb_ofInt (by omega) high]
  apply decide_eq_decide.mpr
  omega

section

variable (a b : BitVec (w + 1)) {c : Int}

theorem sum_range (bit : c = 0 ∨ c = 1) :
    -2 ^ (w + 1) ≤ a.toInt + b.toInt + c ∧ a.toInt + b.toInt + c < 2 ^ (w + 1) := by
  have double : (2 : Int) ^ (w + 1) = 2 ^ w + 2 ^ w := by ring
  have lowA : -2 ^ w ≤ a.toInt := a.le_toInt
  have highA : a.toInt < 2 ^ w := a.toInt_lt
  have lowB : -2 ^ w ≤ b.toInt := b.le_toInt
  have highB : b.toInt < 2 ^ w := b.toInt_lt
  omega

theorem difference_range (bit : c = 0 ∨ c = 1) :
    -2 ^ (w + 1) ≤ a.toInt - b.toInt - c ∧ a.toInt - b.toInt - c < 2 ^ (w + 1) := by
  have double : (2 : Int) ^ (w + 1) = 2 ^ w + 2 ^ w := by ring
  have lowA : -2 ^ w ≤ a.toInt := a.le_toInt
  have highA : a.toInt < 2 ^ w := a.toInt_lt
  have lowB : -2 ^ w ≤ b.toInt := b.le_toInt
  have highB : b.toInt < 2 ^ w := b.toInt_lt
  omega

/-- A sum overflows if the signs of the operands agree and that of the result differs. -/
theorem addOverflow_eq (bit : c = 0 ∨ c = 1) :
    ((a.msb == b.msb) && (a.msb != (BitVec.ofInt (w + 1) (a.toInt + b.toInt + c)).msb)) =
      decide (¬ (-2 ^ w ≤ a.toInt + b.toInt + c ∧ a.toInt + b.toInt + c < 2 ^ w)) := by
  obtain ⟨low, high⟩ := sum_range a b bit
  have double : (2 : Int) ^ (w + 1) = 2 ^ w + 2 ^ w := by ring
  have lowA : -2 ^ w ≤ a.toInt := a.le_toInt
  have highA : a.toInt < 2 ^ w := a.toInt_lt
  have lowB : -2 ^ w ≤ b.toInt := b.le_toInt
  have highB : b.toInt < 2 ^ w := b.toInt_lt
  rw [msb_ofInt low high, BitVec.msb_eq_toInt, BitVec.msb_eq_toInt, Bool.eq_iff_iff]
  simp only [Bool.and_eq_true, beq_iff_eq, bne_iff_ne, ne_eq, decide_eq_decide, decide_eq_true_eq]
  omega

/-- A difference overflows if the signs of the operands differ and the result does not have
the first one's. -/
theorem subOverflow_eq (bit : c = 0 ∨ c = 1) :
    ((a.msb != b.msb) && (a.msb != (BitVec.ofInt (w + 1) (a.toInt - b.toInt - c)).msb)) =
      decide (¬ (-2 ^ w ≤ a.toInt - b.toInt - c ∧ a.toInt - b.toInt - c < 2 ^ w)) := by
  obtain ⟨low, high⟩ := difference_range a b bit
  have double : (2 : Int) ^ (w + 1) = 2 ^ w + 2 ^ w := by ring
  have lowA : -2 ^ w ≤ a.toInt := a.le_toInt
  have highA : a.toInt < 2 ^ w := a.toInt_lt
  have lowB : -2 ^ w ≤ b.toInt := b.le_toInt
  have highB : b.toInt < 2 ^ w := b.toInt_lt
  rw [msb_ofInt low high, BitVec.msb_eq_toInt, BitVec.msb_eq_toInt, Bool.eq_iff_iff]
  simp only [Bool.and_eq_true, bne_iff_ne, ne_eq, decide_eq_decide, decide_eq_true_eq]
  omega

end

end SignedWords
