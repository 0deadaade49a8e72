import Sparcy.ConditionCodes
import Sparcy.Library.ShiftAdd
import Sparcy.Library.Words

/-!
# Multiplication in steps

`MULScc` shifts a pair of words to the right and adds its operand above them.  The bit that
it builds for the top of the shifted word does not reach the sum, so the pair is an
unsigned one.
-/

namespace Sparcy

/-- The partial sum, Y with what is left of the multiplier, and the condition codes. -/
structure MulState where
  acc : BitVec 32
  y : BitVec 32
  icc : BitVec 4
deriving DecidableEq

namespace MulState

/-- Both words. -/
def pair (s : MulState) : BitVec 64 := s.acc ++ s.y

/-- Before the first step. -/
def start (m : BitVec 31) : MulState := { acc := 0, y := m.setWidth 32, icc := 0 }

/-- A `MULScc` of the partial sum and an operand.  The other inputs of the ALU are those of
`x`. -/
def inputs (x : AluIn) (b : BitVec 32) (s : MulState) : AluIn :=
  { x with
    op := 0b10
    op3 := Op3.MULScc
    i := false
    valA := s.acc
    valB := b
    icc := s.icc
    y := s.y }

/-- One step. -/
def step (x : AluIn) (syscall b : BitVec 32) (s : MulState) : MulState :=
  let out := (s.inputs x b).alu syscall
  { acc := out.res.setWidth 32, y := out.y, icc := out.icc }

/-- The 32 steps for a multiplicand, and the last one without. -/
def multiplied (x : AluIn) (syscall : BitVec 32) (m : BitVec 31) (b : BitVec 32) : MulState :=
  step x syscall 0 ((step x syscall b)^[32] (start m))

end MulState

namespace AluIn

variable (x : AluIn)

/-- The inserted bit is the 33rd of the concatenation. -/
theorem step2_eq : x.step2 = x.valA >>> 1 :=
  BitVec.setWidth_append.trans (dif_pos (Nat.le_refl 32))

theorem toNat_step2 : x.step2.toNat = x.valA.toNat / 2 := by
  rw [step2_eq, BitVec.toNat_ushiftRight, Nat.shiftRight_eq_div_pow]

/-- What is added to it. -/
def mulAddend (x : AluIn) : BitVec 32 := if x.y.getLsbD 0 then x.operand2 else 0

theorem mulscc_res :
    x.mulscc.res = BitVec.ofInt 64 ((x.valA.toNat / 2 + x.mulAddend.toNat : Nat) : Int) := by
  have added : x.mulscc.res = wide x.mulAddend + wide x.step2 := by
    unfold mulscc mulAddend
    cases x.y.getLsbD 0 <;> rfl
  rw [added, wide_eq, wide_eq, toNat_step2, ← BitVec.ofInt_add, Int.natCast_add, Int.add_comm]

theorem toNat_mulscc_y : x.mulscc.y.toNat = x.valA.toNat % 2 * 2 ^ 31 + x.y.toNat / 2 := by
  have bound := x.y.isLt
  have low : (x.valA.getLsbD 0).toNat = x.valA.toNat % 2 := by
    rw [BitVec.getLsbD, Nat.testBit_zero]
    rcases Nat.mod_two_eq_zero_or_one x.valA.toNat with even | odd
    · rw [even]
      rfl
    · rw [odd]
      rfl
  change (BitVec.ofBool (x.valA.getLsbD 0) ++ x.y.extractLsb' 1 31).toNat = _
  rw [Words.toNat_append_eq, BitVec.toNat_ofBool, low, BitVec.extractLsb'_toNat,
    Nat.shiftRight_eq_div_pow]
  omega

end AluIn

namespace MulState

section

variable (x : AluIn) (syscall : BitVec 32)

theorem toNat_step_acc (b : BitVec 32) (s : MulState)
    (fits : s.acc.toNat / 2 + (if s.y.getLsbD 0 then b.toNat else 0) < 2 ^ 32) :
    (step x syscall b s).acc.toNat =
      s.acc.toNat / 2 + if s.y.getLsbD 0 then b.toNat else 0 := by
  have acc : (step x syscall b s).acc = (s.inputs x b).mulscc.res.setWidth 32 := rfl
  have addend : (s.inputs x b).mulAddend.toNat = if s.y.getLsbD 0 then b.toNat else 0 :=
    apply_ite BitVec.toNat _ _ _
  rw [acc, AluIn.mulscc_res, SignedWords.setWidth_ofInt (by decide), BitVec.ofInt_natCast,
    BitVec.toNat_ofNat, addend]
  exact Nat.mod_eq_of_lt fits

theorem toNat_step_y (b : BitVec 32) (s : MulState) :
    (step x syscall b s).y.toNat = s.acc.toNat % 2 * 2 ^ 31 + s.y.toNat / 2 :=
  (s.inputs x b).toNat_mulscc_y

theorem toNat_pair_step (b : BitVec 32) (s : MulState)
    (fits : s.acc.toNat / 2 + (if s.y.getLsbD 0 then b.toNat else 0) < 2 ^ 32) :
    (step x syscall b s).pair.toNat = ShiftAdd.step 32 b.toNat s.pair.toNat := by
  have bit : s.y.getLsbD 0 = decide (s.y.toNat % 2 = 1) := Nat.testBit_zero _
  have parity : (s.acc.toNat * 2 ^ 32 + s.y.toNat) % 2 = s.y.toNat % 2 := by omega
  rw [pair, pair, Words.toNat_append_eq, Words.toNat_append_eq, toNat_step_acc x syscall b s fits,
    toNat_step_y, ShiftAdd.step, parity, bit]
  rcases Nat.mod_two_eq_zero_or_one s.y.toNat with even | odd
  · rw [even, if_neg (by decide)]
    omega
  · rw [odd, if_pos (by decide)]
    omega

/-- With a multiplicand that is not negative no sum needs a 33rd bit. -/
theorem toNat_pair_iterate {b : BitVec 32} (positive : b.toNat < 2 ^ 31) (s : MulState) (k : Nat) :
    ((step x syscall b)^[k] s).pair.toNat = (ShiftAdd.step 32 b.toNat)^[k] s.pair.toNat := by
  induction k with
  | zero => rfl
  | succ k induction =>
      rw [Function.iterate_succ_apply', Function.iterate_succ_apply', toNat_pair_step, induction]
      have bound := ((step x syscall b)^[k] s).acc.isLt
      split <;> omega

/-- Without a multiplier nothing is ever added. -/
theorem pair_iterate_of_zero (b : BitVec 32) {s : MulState} (zero : s.pair.toNat = 0) (k : Nat) :
    ((step x syscall b)^[k] s).pair.toNat = 0 := by
  induction k with
  | zero => exact zero
  | succ k induction =>
      rw [Function.iterate_succ_apply']
      generalize (step x syscall b)^[k] s = t at induction ⊢
      have words := induction
      rw [pair, Words.toNat_append_eq] at words
      have none : t.y.getLsbD 0 = false := by
        rw [BitVec.getLsbD, Nat.testBit_zero]
        apply decide_eq_false
        omega
      rw [toNat_pair_step, induction, ShiftAdd.step_zero]
      rw [none, if_neg Bool.false_ne_true]
      omega

/-- The last step shifts a zero into the top bit. -/
theorem multiplied_acc (m : BitVec 31) (b : BitVec 32) :
    (multiplied x syscall m b).acc.toNat < 2 ^ 31 := by
  generalize before : (step x syscall b)^[32] (start m) = s
  have bound := s.acc.isLt
  have none : (if s.y.getLsbD 0 then (0 : BitVec 32).toNat else 0) = 0 := ite_self 0
  rw [multiplied, before, toNat_step_acc, none]
  · omega
  · rw [none]
    omega

theorem multiplied_of_positive (m : BitVec 31) {b : BitVec 32} (positive : b.toNat < 2 ^ 31) :
    (multiplied x syscall m b).pair.toNat = b.toNat * m.toNat := by
  have bound := m.isLt
  have first : (start m).pair.toNat = m.toNat := by
    rw [pair, Words.toNat_append_eq]
    change 0 * _ + (m.setWidth 32).toNat = _
    rw [BitVec.toNat_setWidth]
    omega
  have last (s : MulState) :
      (step x syscall 0 s).pair.toNat = ShiftAdd.step 32 0 s.pair.toNat := by
    have bound := s.acc.isLt
    have none : (if s.y.getLsbD 0 then (0 : BitVec 32).toNat else 0) = 0 := ite_self 0
    apply toNat_pair_step
    rw [none]
    omega
  rw [multiplied, last, toNat_pair_iterate x syscall positive, first]
  exact ShiftAdd.product b.toNat (by omega)

theorem multiplied_of_zero (b : BitVec 32) : (multiplied x syscall 0 b).pair.toNat = 0 :=
  pair_iterate_of_zero x syscall 0 (pair_iterate_of_zero x syscall b rfl 32) 1

/-- The product is right exactly if it is not negative. -/
theorem multiplied_iff (m : BitVec 31) (b : BitVec 32) :
    (multiplied x syscall m b).pair = BitVec.ofInt 64 (m.toNat * b.toInt) ↔
      0 ≤ b.toInt ∨ m = 0 := by
  have small := m.isLt
  constructor
  · intro same
    by_contra neither
    obtain ⟨negative, positive⟩ := not_or.mp neither
    have factor : (0 : Int) < m.toNat := by
      have other : m.toNat ≠ 0 := fun zero => positive (BitVec.eq_of_toNat_eq zero)
      omega
    have below : (m.toNat : Int) * b.toInt < 0 :=
      Int.mul_neg_of_pos_of_neg factor (Int.not_le.mp negative)
    have above : -2 ^ 62 ≤ (m.toNat : Int) * b.toInt := by
      have least : -2 ^ 31 ≤ b.toInt := b.le_toInt
      have scaled : (m.toNat : Int) * -2 ^ 31 ≤ m.toNat * b.toInt :=
        Int.mul_le_mul_of_nonneg_left least factor.le
      omega
    -- a negative product has its top bit set
    have sign := SignedWords.msb_ofInt (w := 63) (s := m.toNat * b.toInt) (by omega) (by omega)
    have clear := multiplied_acc x syscall m b
    have bound := (multiplied x syscall m b).y.isLt
    rw [← same, BitVec.msb_eq_decide, pair, Words.toNat_append_eq, decide_eq_decide] at sign
    omega
  · rintro (positive | rfl)
    · have below : b.toNat < 2 ^ 31 := by
        have bound := b.isLt
        rw [BitVec.toInt_eq_toNat_cond] at positive
        split at positive <;> omega
      have read : b.toInt = b.toNat := BitVec.toInt_eq_toNat_of_lt (by omega)
      apply BitVec.eq_of_toNat_eq
      rw [multiplied_of_positive x syscall m below, read, ← Int.natCast_mul, BitVec.ofInt_natCast,
        BitVec.toNat_ofNat, Nat.mul_comm]
      have fits : m.toNat * b.toNat < 2 ^ 31 * 2 ^ 31 := Nat.mul_lt_mul'' small below
      exact (Nat.mod_eq_of_lt (by omega)).symm
    · apply BitVec.eq_of_toNat_eq
      rw [multiplied_of_zero]
      simp

end

end MulState

namespace AluIn

/-- The first operand of the addition: `n ^ v` above the shifted word. -/
def mulShifted (x : AluIn) : BitVec 32 :=
  BitVec.ofBool (x.icc.getLsbD 3 ^^ x.icc.getLsbD 1) ++ x.valA.extractLsb' 1 31

/-- What a single step is to leave: the sum, its codes, and the shifted Y. -/
def MulStepRight (x : AluIn) (out : AluOut) : Prop :=
  out.res.setWidth 32 = x.mulShifted + x.mulAddend ∧
    out.icc = iccOf (x.mulShifted + x.mulAddend).msb (decide (x.mulShifted + x.mulAddend = 0))
      (decide (¬ (-2 ^ 31 ≤ x.mulShifted.toInt + x.mulAddend.toInt ∧
        x.mulShifted.toInt + x.mulAddend.toInt < 2 ^ 31)))
      (decide (2 ^ 32 ≤ x.mulShifted.toNat + x.mulAddend.toNat)) ∧
    out.y = BitVec.ofBool (x.valA.getLsbD 0) ++ x.y.extractLsb' 1 31

instance (x : AluIn) (out : AluOut) : Decidable (x.MulStepRight out) :=
  inferInstanceAs (Decidable (_ ∧ _ ∧ _))

/-- The bit to insert is zero, the sum is not `2^32`, and a set sign of the unshifted word
does not mislead the test for overflow. -/
def MulStepSafe (x : AluIn) : Prop :=
  x.icc.getLsbD 3 = x.icc.getLsbD 1 ∧
    (x.y.getLsbD 0 = true → x.valA.toNat / 2 + x.operand2.toNat ≠ 2 ^ 32) ∧
    (x.valA.msb = true →
      (x.y.getLsbD 0 = false → x.operand2.msb = false) ∧
        (x.y.getLsbD 0 = true →
          x.valA.toNat / 2 + x.operand2.toNat < if x.operand2.msb then 2 ^ 32 else 2 ^ 31))

instance (x : AluIn) : Decidable x.MulStepSafe := inferInstanceAs (Decidable (_ ∧ _ ∧ _))

section

variable (x : AluIn)

theorem toNat_mulShifted :
    x.mulShifted.toNat =
      (x.icc.getLsbD 3 ^^ x.icc.getLsbD 1).toNat * 2 ^ 31 + x.valA.toNat / 2 := by
  have bound := x.valA.isLt
  rw [mulShifted, Words.toNat_append_eq, BitVec.toNat_ofBool, BitVec.extractLsb'_toNat,
    Nat.shiftRight_eq_div_pow]
  omega

/-- The sum is that of the words with a zero inserted. -/
theorem mulscc_low_iff :
    x.mulscc.res.setWidth 32 = x.mulShifted + x.mulAddend ↔
      x.icc.getLsbD 3 = x.icc.getLsbD 1 := by
  rw [mulscc_res, SignedWords.setWidth_ofInt (by decide), BitVec.ofInt_natCast, BitVec.toNat_eq,
    BitVec.toNat_add, BitVec.toNat_ofNat, toNat_mulShifted]
  cases x.icc.getLsbD 3 <;> cases x.icc.getLsbD 1 <;> simp
  all_goals omega

/-- The test for overflow takes the sign of the unshifted word. -/
theorem mulscc_overflow_iff (zero : x.icc.getLsbD 3 = x.icc.getLsbD 1) :
    (x.addOverflow x.mulscc.res = decide (¬ (-2 ^ 31 ≤ x.mulShifted.toInt + x.mulAddend.toInt ∧
        x.mulShifted.toInt + x.mulAddend.toInt < 2 ^ 31))) ↔
      (x.valA.msb = true →
        (x.y.getLsbD 0 = false → x.operand2.msb = false) ∧
          (x.y.getLsbD 0 = true →
            x.valA.toNat / 2 + x.operand2.toNat < if x.operand2.msb then 2 ^ 32 else 2 ^ 31)) := by
  have first := x.valA.isLt
  have second := x.operand2.isLt
  have shifted : x.mulShifted.toNat = x.valA.toNat / 2 := by
    rw [toNat_mulShifted, zero, Bool.xor_self, Bool.toNat_false, Nat.zero_mul, Nat.zero_add]
  have low : x.mulShifted.toInt = x.valA.toNat / 2 := by
    rw [BitVec.toInt_eq_toNat_of_lt (by omega), shifted]
    rfl
  have sign : x.valA.getLsbD 31 = decide (2 ^ 31 ≤ x.valA.toNat) := BitVec.msb_eq_decide x.valA
  have sign' : x.operand2.getLsbD 31 = decide (2 ^ 31 ≤ x.operand2.toNat) :=
    BitVec.msb_eq_decide x.operand2
  have signSum : x.mulscc.res.getLsbD 31 =
      decide (2 ^ 31 ≤ (x.valA.toNat / 2 + x.mulAddend.toNat) % 2 ^ 32) := by
    rw [mulscc_res, SignedWords.getLsbD_ofInt (by decide), BitVec.ofInt_natCast,
      BitVec.msb_eq_decide, BitVec.toNat_ofNat]
  rw [addOverflow, sign, sign', signSum, low, BitVec.msb_eq_decide, BitVec.msb_eq_decide,
    Bool.eq_iff_iff]
  simp only [Bool.and_eq_true, beq_iff_eq, bne_iff_ne, ne_eq, decide_eq_decide, decide_eq_true_eq,
    decide_eq_false_iff_not]
  unfold mulAddend
  cases x.y.getLsbD 0 with
  | false =>
      simp
      omega
  | true =>
      have signed := BitVec.toInt_eq_toNat_cond x.operand2
      simp
      split <;> split at signed <;> omega

theorem mulscc_right_iff (syscall : BitVec 32) :
    x.MulStepRight ({ x with op := 0b10, op3 := Op3.MULScc }.alu syscall) ↔ x.MulStepSafe := by
  change x.MulStepRight x.mulscc ↔ _
  rw [MulStepRight, mulscc_low_iff, MulStepSafe]
  apply and_congr_right
  intro zero
  have first := x.valA.isLt
  have second := x.mulAddend.isLt
  have shifted : x.mulShifted.toNat = x.valA.toNat / 2 := by
    rw [toNat_mulShifted, zero, Bool.xor_self, Bool.toNat_false, Nat.zero_mul, Nat.zero_add]
  have icc : x.mulscc.icc = arithIcc x.mulscc.res (x.addOverflow x.mulscc.res) := rfl
  have sum : BitVec.ofInt 32 ((x.valA.toNat / 2 + x.mulAddend.toNat : Nat) : Int) =
      x.mulShifted + x.mulAddend := by
    rw [← x.mulscc_low_iff.mpr zero, mulscc_res, SignedWords.setWidth_ofInt (by decide)]
  have codes : x.mulscc.icc = iccOf (x.mulShifted + x.mulAddend).msb
      (decide (x.valA.toNat / 2 + x.mulAddend.toNat = 0)) (x.addOverflow x.mulscc.res)
      (decide (2 ^ 32 ≤ x.mulShifted.toNat + x.mulAddend.toNat)) := by
    rw [icc]
    nth_rewrite 1 [mulscc_res]
    rw [arithIcc_ofInt (by omega) (by omega), sum, shifted, iccOf_inj]
    refine ⟨rfl, ?_, rfl, ?_⟩
    · apply decide_eq_decide.mpr
      omega
    · apply decide_eq_decide.mpr
      omega
  have carries : (x.valA.toNat / 2 + x.mulAddend.toNat = 0 ↔ x.mulShifted + x.mulAddend = 0) ↔
      (x.y.getLsbD 0 = true → x.valA.toNat / 2 + x.operand2.toNat ≠ 2 ^ 32) := by
    rw [BitVec.toNat_eq, BitVec.toNat_add, shifted]
    unfold mulAddend at second ⊢
    cases x.y.getLsbD 0 with
    | false =>
        simp
        omega
    | true =>
        simp
        omega
  rw [codes, iccOf_inj, decide_eq_decide, carries, x.mulscc_overflow_iff zero]
  exact ⟨fun right => ⟨right.1.2.1, right.1.2.2.1⟩, fun safe => ⟨⟨rfl, safe.1, safe.2, rfl⟩, rfl⟩⟩

end

end AluIn

namespace MulState

/-- The steps of a multiplication, together and one by one. -/
theorem multiply_steps_iff (x : AluIn) (syscall : BitVec 32) (m : BitVec 31) (b : BitVec 32) :
    ((multiplied x syscall m b).pair = BitVec.ofInt 64 (m.toNat * b.toInt) ↔
        0 ≤ b.toInt ∨ m = 0) ∧
      (x.MulStepRight ({ x with op := 0b10, op3 := Op3.MULScc }.alu syscall) ↔ x.MulStepSafe) :=
  ⟨multiplied_iff x syscall m b, x.mulscc_right_iff syscall⟩

/-- `1 * -1` does not come out negative. -/
theorem multiply_steps_negative :
    ¬ ∀ (x : AluIn) (syscall : BitVec 32) (m : BitVec 31) (b : BitVec 32),
      (multiplied x syscall m b).pair = BitVec.ofInt 64 (m.toNat * b.toInt) ∧
        x.MulStepRight ({ x with op := 0b10, op3 := Op3.MULScc }.alu syscall) := fun right =>
  absurd ((multiplied_iff .zero 0 1 0xffffffff).mp (right .zero 0 1 0xffffffff).1) (by decide)

end MulState

end Sparcy
