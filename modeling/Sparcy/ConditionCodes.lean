import Sparcy.Alu
import Sparcy.Library.SignedWords

/-!
# The arithmetic condition codes

The opcodes that add or subtract take all four codes from one 64-bit value.  Its bit 31 is
the sign of the result and its bit 32 the carry or the borrow, but the test for zero looks
at all of it.  A branch on the codes of a `SUBcc` sees the relation of the operands.
-/

namespace Sparcy

theorem iccOf_inj {n z v c n' z' v' c' : Bool} :
    iccOf n z v c = iccOf n' z' v' c' ↔ n = n' ∧ z = z' ∧ v = v' ∧ c = c' := by
  revert n z v c n' z' v' c'
  decide

section

variable (n z v c : Bool)

theorem iccOf_c : (iccOf n z v c).getLsbD 0 = c := by
  revert n z v c
  decide

theorem iccOf_v : (iccOf n z v c).getLsbD 1 = v := by
  revert n z v c
  decide

theorem iccOf_z : (iccOf n z v c).getLsbD 2 = z := by
  revert n z v c
  decide

theorem iccOf_n : (iccOf n z v c).getLsbD 3 = n := by
  revert n z v c
  decide

end

/-- The opcodes that set the codes from a sum or a difference. -/
inductive ArithCc where
  | addcc
  | addxcc
  | subcc
  | subxcc
  | taddcc
  | tsubcc
deriving DecidableEq

namespace ArithCc

def op3 : ArithCc → BitVec 6
  | addcc => Op3.ADDcc
  | addxcc => Op3.ADDXcc
  | subcc => Op3.SUBcc
  | subxcc => Op3.SUBXcc
  | taddcc => Op3.TADDcc
  | tsubcc => Op3.TSUBcc

/-- The incoming carry counts for two of them. -/
def carry : ArithCc → Bool → Int
  | addxcc, true | subxcc, true => 1
  | _, _ => 0

/-- The sum or the difference itself, from two operands read as integers. -/
def exact (k : ArithCc) (c : Bool) (a b : Int) : Int :=
  match k with
  | addcc | addxcc | taddcc => a + b + k.carry c
  | subcc | subxcc | tsubcc => a - b - k.carry c

/-- The result, of operands read unsigned. -/
def unsigned (k : ArithCc) (x : AluIn) : Int :=
  k.exact (x.icc.getLsbD 0) x.valA.toNat x.operand2.toNat

/-- The result, of operands read signed. -/
def signed (k : ArithCc) (x : AluIn) : Int :=
  k.exact (x.icc.getLsbD 0) x.valA.toInt x.operand2.toInt

/-- One of the two low bits of an operand is set, where the opcode minds. -/
def tag (k : ArithCc) (x : AluIn) : Bool :=
  match k with
  | taddcc | tsubcc => decide (x.valA.toNat % 4 ≠ 0 ∨ x.operand2.toNat % 4 ≠ 0)
  | _ => false

/-- The word that an opcode is to return, and its codes. -/
def Right (k : ArithCc) (x : AluIn) (out : AluOut) : Prop :=
  out.res.setWidth 32 = BitVec.ofInt 32 (k.unsigned x) ∧
    out.icc = iccOf (BitVec.ofInt 32 (k.unsigned x)).msb
      (decide (BitVec.ofInt 32 (k.unsigned x) = 0))
      (k.tag x || decide (¬ (-2 ^ 31 ≤ k.signed x ∧ k.signed x < 2 ^ 31)))
      (decide (¬ (0 ≤ k.unsigned x ∧ k.unsigned x < 2 ^ 32)))

instance (k : ArithCc) (x : AluIn) (out : AluOut) : Decidable (k.Right x out) :=
  inferInstanceAs (Decidable (_ ∧ _))

theorem carry_bit (k : ArithCc) (c : Bool) : k.carry c = 0 ∨ k.carry c = 1 := by
  cases k <;> cases c <;> decide

theorem unsigned_range (k : ArithCc) (x : AluIn) :
    -2 ^ 32 ≤ k.unsigned x ∧ k.unsigned x < 2 ^ 33 := by
  have bit := k.carry_bit (x.icc.getLsbD 0)
  have first := x.valA.isLt
  have second := x.operand2.isLt
  unfold unsigned exact
  split <;> omega

/-- The two readings of the operands give one word. -/
theorem ofInt_unsigned (k : ArithCc) (x : AluIn) :
    BitVec.ofInt 32 (k.unsigned x) = BitVec.ofInt 32 (k.signed x) := by
  unfold unsigned signed exact
  split
  all_goals
    simp only [BitVec.ofInt_add, SignedWords.ofInt_sub, SignedWords.ofInt_toNat,
      BitVec.ofInt_toInt]

end ArithCc

namespace AluIn

section

variable (x : AluIn)

/-- The inputs of the ALU with their opcode written out. -/
theorem eq_with_op {op : BitVec 2} {op3 : BitVec 6} (sameOp : x.op = op) (sameOp3 : x.op3 = op3) :
    x = { x with op := op, op3 := op3 } := by
  rw [← sameOp, ← sameOp3]

theorem wide_eq (value : BitVec 32) : wide value = BitVec.ofInt 64 value.toNat := by
  rw [BitVec.ofInt_natCast, BitVec.ofNat_toNat]

/-- The codes of a sum or a difference with at most a carry into bit 32. -/
theorem arithIcc_ofInt {s : Int} (low : -2 ^ 32 ≤ s) (high : s < 2 ^ 33) (v : Bool) :
    arithIcc (BitVec.ofInt 64 s) v =
      iccOf (BitVec.ofInt 32 s).msb (decide (s = 0)) v (decide (¬ (0 ≤ s ∧ s < 2 ^ 32))) := by
  have zero : BitVec.ofInt 64 s = 0 ↔ s = 0 := by
    rw [SignedWords.ofInt_eq_zero_iff]
    omega
  rw [arithIcc, SignedWords.getLsbD_ofInt (by decide),
    SignedWords.carry_ofInt (by decide) low high, decide_eq_decide.mpr zero]

theorem tagged_eq :
    x.tagged = decide (x.valA.toNat % 4 ≠ 0 ∨ x.operand2.toNat % 4 ≠ 0) := by
  rw [Bool.eq_iff_iff]
  simp only [tagged, BitVec.getLsbD, Nat.testBit_eq_decide_div_mod_eq, Bool.or_eq_true,
    decide_eq_true_eq]
  omega

/-- The 64-bit value that an opcode drives on the result bus. -/
def arithValue (x : AluIn) : ArithCc → BitVec 64
  | .addcc | .taddcc => x.sum
  | .addxcc => x.sum + x.carryIn
  | .subcc | .tsubcc => x.difference
  | .subxcc => x.difference - x.carryIn

theorem arithValue_eq (k : ArithCc) : x.arithValue k = BitVec.ofInt 64 (k.unsigned x) := by
  have sum : x.sum = BitVec.ofInt 64 (x.valA.toNat + x.operand2.toNat) := by
    rw [AluIn.sum, wide_eq, wide_eq, BitVec.ofInt_add]
  have difference : x.difference = BitVec.ofInt 64 (x.valA.toNat - x.operand2.toNat) := by
    rw [AluIn.difference, wide_eq, wide_eq, SignedWords.ofInt_sub]
  have carry {k : ArithCc} (takes : k = .addxcc ∨ k = .subxcc) :
      x.carryIn = BitVec.ofInt 64 (k.carry (x.icc.getLsbD 0)) := by
    unfold carryIn
    obtain rfl | rfl := takes <;> cases x.icc.getLsbD 0 <;> rfl
  cases k with
  | addcc | taddcc => exact sum.trans (congrArg _ (Int.add_zero _).symm)
  | subcc | tsubcc => exact difference.trans (congrArg _ (Int.sub_zero _).symm)
  | addxcc =>
      change x.sum + x.carryIn = _
      rw [sum, carry (.inl rfl), ← BitVec.ofInt_add]
      rfl
  | subxcc =>
      change x.difference - x.carryIn = _
      rw [difference, carry (.inr rfl), ← SignedWords.ofInt_sub]
      rfl

/-- The overflow test of an opcode. -/
def arithOverflow (x : AluIn) : ArithCc → Bool
  | .addcc => x.addOverflow x.sum
  | .addxcc => x.addOverflow (x.sum + x.carryIn)
  | .taddcc => x.tagged || x.addOverflow x.sum
  | .subcc => x.subOverflow x.difference
  | .subxcc => x.subOverflow (x.difference - x.carryIn)
  | .tsubcc => x.tagged || x.subOverflow x.difference

theorem addOverflow_eq {k : ArithCc} (adds : k.signed x =
      x.valA.toInt + x.operand2.toInt + k.carry (x.icc.getLsbD 0)) :
    x.addOverflow (x.arithValue k) =
      decide (¬ (-2 ^ 31 ≤ k.signed x ∧ k.signed x < 2 ^ 31)) := by
  rw [addOverflow, arithValue_eq, SignedWords.getLsbD_ofInt (by decide), k.ofInt_unsigned, adds]
  exact SignedWords.addOverflow_eq x.valA x.operand2 (k.carry_bit _)

theorem subOverflow_eq {k : ArithCc} (subtracts : k.signed x =
      x.valA.toInt - x.operand2.toInt - k.carry (x.icc.getLsbD 0)) :
    x.subOverflow (x.arithValue k) =
      decide (¬ (-2 ^ 31 ≤ k.signed x ∧ k.signed x < 2 ^ 31)) := by
  rw [subOverflow, arithValue_eq, SignedWords.getLsbD_ofInt (by decide), k.ofInt_unsigned,
    subtracts]
  exact SignedWords.subOverflow_eq x.valA x.operand2 (k.carry_bit _)

theorem arithOverflow_eq (k : ArithCc) :
    x.arithOverflow k =
      (k.tag x || decide (¬ (-2 ^ 31 ≤ k.signed x ∧ k.signed x < 2 ^ 31))) := by
  cases k with
  | addcc => exact x.addOverflow_eq (k := .addcc) rfl
  | addxcc => exact x.addOverflow_eq (k := .addxcc) rfl
  | subcc => exact x.subOverflow_eq (k := .subcc) rfl
  | subxcc => exact x.subOverflow_eq (k := .subxcc) rfl
  | taddcc =>
      rw [← x.addOverflow_eq (k := .taddcc) rfl]
      exact congrArg (· || _) x.tagged_eq
  | tsubcc =>
      rw [← x.subOverflow_eq (k := .tsubcc) rfl]
      exact congrArg (· || _) x.tagged_eq

theorem alu_arithCc (k : ArithCc) (syscall : BitVec 32) :
    { x with op := 0b10, op3 := k.op3 }.alu syscall =
      { x.default with
        res := x.arithValue k
        icc := arithIcc (x.arithValue k) (x.arithOverflow k) } := by
  cases k <;> rfl

end

/-- The result is always right, and so are all codes but that for zero, which misses the
results that are a carry or a borrow alone. -/
theorem arithCc_right_iff (k : ArithCc) (x : AluIn) (syscall : BitVec 32) :
    k.Right x ({ x with op := 0b10, op3 := k.op3 }.alu syscall) ↔
      k.unsigned x ≠ 2 ^ 32 ∧ k.unsigned x ≠ -2 ^ 32 := by
  obtain ⟨low, high⟩ := k.unsigned_range x
  rw [alu_arithCc, ArithCc.Right, arithOverflow_eq, arithValue_eq, arithIcc_ofInt low high,
    SignedWords.setWidth_ofInt (by decide), iccOf_inj, decide_eq_decide,
    SignedWords.ofInt_eq_zero_iff, SignedWords.two_pow_dvd_iff (by omega) high]
  simp only [true_and, and_true]
  omega

/-- The multiplications and divisions take their codes from the low word. -/
theorem lowIcc_eq (res : BitVec 64) (v : Bool) :
    lowIcc res v = iccOf (res.setWidth 32).msb (decide (res.setWidth 32 = 0)) v false := by
  rw [lowIcc, BitVec.msb_eq_getLsbD_last, BitVec.getLsbD_setWidth]
  rfl

/-- All inputs zero. -/
def zero : AluIn :=
  { valA := 0, valB := 0, op := 0, op2 := 0, imm22 := 0, op3 := 0, i := false, simm13 := 0
    pc := 0, a := false, cond := 0, disp30 := 0, icc := 0, y := 0 }

/-- `1 + 0xffffffff` is zero, with a carry. -/
theorem addcc_wraps_to_zero :
    ¬ ∀ (k : ArithCc) (x : AluIn) (syscall : BitVec 32),
      k.Right x ({ x with op := 0b10, op3 := k.op3 }.alu syscall) := fun right =>
  absurd (right .addcc { zero with valA := 1, valB := 0xffffffff } 0) (by decide)

/-! ### A branch after a comparison -/

end AluIn

/-- The relation that a branch is named after. -/
def Cond.relation (cond : BitVec 4) (a b : BitVec 32) : Prop :=
  if cond = Cond.BA then True
  else if cond = Cond.BN then False
  else if cond = Cond.BE then a = b
  else if cond = Cond.BNE then a ≠ b
  else if cond = Cond.BL then a.toInt < b.toInt
  else if cond = Cond.BLE then a.toInt ≤ b.toInt
  else if cond = Cond.BG then b.toInt < a.toInt
  else if cond = Cond.BGE then b.toInt ≤ a.toInt
  else if cond = Cond.BCS then a.toNat < b.toNat
  else if cond = Cond.BLEU then a.toNat ≤ b.toNat
  else if cond = Cond.BGU then b.toNat < a.toNat
  else if cond = Cond.BCC then b.toNat ≤ a.toNat
  else if cond = Cond.BNEG then (a - b).toInt < 0
  else if cond = Cond.BPOS then 0 ≤ (a - b).toInt
  else if cond = Cond.BVS then ¬ (-2 ^ 31 ≤ a.toInt - b.toInt ∧ a.toInt - b.toInt < 2 ^ 31)
  else -2 ^ 31 ≤ a.toInt - b.toInt ∧ a.toInt - b.toInt < 2 ^ 31

theorem Cond.cases (cond : BitVec 4) :
    cond = BA ∨ cond = BN ∨ cond = BE ∨ cond = BNE ∨ cond = BL ∨ cond = BLE ∨ cond = BG ∨
      cond = BGE ∨ cond = BCS ∨ cond = BLEU ∨ cond = BGU ∨ cond = BCC ∨ cond = BNEG ∨
      cond = BPOS ∨ cond = BVS ∨ cond = BVC := by
  revert cond
  decide

namespace AluIn

/-- The codes that a `SUBcc` leaves. -/
def compared (a b : BitVec 32) : BitVec 4 :=
  iccOf (a - b).msb (decide (a = b))
    (decide (¬ (-2 ^ 31 ≤ a.toInt - b.toInt ∧ a.toInt - b.toInt < 2 ^ 31)))
    (decide (a.toNat < b.toNat))

theorem subcc_icc (x : AluIn) (syscall : BitVec 32) :
    ({ x with op := 0b10, op3 := Op3.SUBcc }.alu syscall).icc = compared x.valA x.operand2 := by
  obtain ⟨low, high⟩ := ArithCc.subcc.unsigned_range x
  have first := x.valA.isLt
  have second := x.operand2.isLt
  have unsigned : ArithCc.subcc.unsigned x = x.valA.toNat - x.operand2.toNat := Int.sub_zero _
  have signed : ArithCc.subcc.signed x = x.valA.toInt - x.operand2.toInt := Int.sub_zero _
  have word : BitVec.ofInt 32 (ArithCc.subcc.unsigned x) = x.valA - x.operand2 := by
    rw [unsigned, SignedWords.ofInt_sub, SignedWords.ofInt_toNat, SignedWords.ofInt_toNat]
  have codes := congrArg AluOut.icc (x.alu_arithCc .subcc syscall)
  refine codes.trans ?_
  change arithIcc (x.arithValue .subcc) (x.arithOverflow .subcc) = _
  rw [arithOverflow_eq, arithValue_eq, arithIcc_ofInt low high, word, compared, iccOf_inj,
    unsigned, signed]
  refine ⟨rfl, ?_, Bool.false_or _, ?_⟩
  · apply decide_eq_decide.mpr
    rw [BitVec.toNat_eq]
    omega
  · apply decide_eq_decide.mpr
    omega

/-- The test of a conditional branch on them. -/
theorem condition_compared (cond : BitVec 4) (a b : BitVec 32) :
    (cond = Cond.BA ∨ condition cond (compared a b) = true) ↔ Cond.relation cond a b := by
  obtain ⟨low, high⟩ := SignedWords.difference_range a b (.inl rfl)
  have word : BitVec.ofInt 32 (a.toInt - b.toInt) = a - b := by
    rw [SignedWords.ofInt_sub, BitVec.ofInt_toInt, BitVec.ofInt_toInt]
  -- the true sign of the difference
  have less := SignedWords.msb_xor_overflow (w := 31) (s := a.toInt - b.toInt)
    (by omega) (by omega)
  rw [word] at less
  have equal : a = b ↔ a.toInt = b.toInt := BitVec.toInt_inj.symm
  have equal' : a = b ↔ a.toNat = b.toNat := BitVec.toNat_inj.symm
  have negative : (a - b).msb = decide ((a - b).toInt < 0) := BitVec.msb_eq_toInt
  unfold condition compared Cond.relation
  simp only [iccOf_c, iccOf_v, iccOf_z, iccOf_n]
  generalize overflow :
    decide (¬ (-2 ^ 31 ≤ a.toInt - b.toInt ∧ a.toInt - b.toInt < 2 ^ 31)) = v at less ⊢
  generalize (a - b).msb = n at less negative ⊢
  generalize (a - b).toInt = d at negative ⊢
  rcases Cond.cases cond with rfl | rfl | rfl | rfl | rfl | rfl | rfl | rfl | rfl | rfl | rfl |
    rfl | rfl | rfl | rfl | rfl
  all_goals simp [less]
  -- `BLE`, `BG`, `BLEU` and `BGU` join two codes
  · rw [equal]
    omega
  · rw [equal]
    omega
  · rw [equal']
    omega
  · rw [equal']
    omega
  -- `BNEG` and `BPOS`
  · simp [negative]
  · simp [negative]
  -- `BVS` and `BVC`
  · rw [← overflow, decide_eq_true_eq]
    omega
  · rw [← overflow, decide_eq_false_iff_not]
    omega

section

variable (x : AluIn)

theorem bicc_muxSel :
    x.bicc.muxSel = true ↔ x.cond = Cond.BA ∨ condition x.cond x.icc = true := by
  unfold bicc
  split
  · rename_i always
    exact iff_of_true rfl (.inl always)
  · rename_i other
    split
    · rename_i holds
      exact iff_of_true rfl (.inr holds)
    · rename_i fails
      exact iff_of_false Bool.false_ne_true fun taken => taken.elim other fails

theorem bicc_target : x.bicc.target = BitVec.ofInt 32 (x.pc.toNat + 4 * x.imm22.toInt) := by
  have target : x.bicc.target = x.pc + 4 * x.imm22.signExtend 32 := by
    unfold bicc
    split
    · rfl
    · split <;> rfl
  rw [target, BitVec.ofInt_add, BitVec.ofInt_mul, SignedWords.ofInt_toNat]
  rfl

theorem bicc_a_of_taken (other : x.cond ≠ Cond.BA) (taken : x.bicc.muxSel = true) :
    x.bicc.a = false := by
  have holds := (x.bicc_muxSel.mp taken).resolve_left other
  rw [bicc, if_neg other, if_pos holds]

theorem bicc_a_of_other (kept : x.cond = Cond.BA ∨ x.bicc.muxSel ≠ true) : x.bicc.a = x.a := by
  by_cases always : x.cond = Cond.BA
  · rw [bicc, if_pos always]
    rfl
  · have fails : ¬ condition x.cond x.icc = true := fun holds =>
      kept.resolve_left always (x.bicc_muxSel.mpr (.inr holds))
    rw [bicc, if_neg always, if_neg fails]
    rfl

end

/-- A branch after a `SUBcc` of two operands is taken exactly when they are related as its
name says, and asks for an annulment with its `a` bit unless it is a taken conditional
branch. -/
theorem bicc_after_subcc (x y : AluIn) (syscall syscall' : BitVec 32) :
    let codes := ({ x with op := 0b10, op3 := Op3.SUBcc }.alu syscall).icc
    let branch := { y with op := 0b00, op2 := Op2.Bicc, icc := codes }.alu syscall'
    let related := Cond.relation y.cond x.valA x.operand2
    (branch.muxSel = true ↔ related) ∧
      branch.target = BitVec.ofInt 32 (y.pc.toNat + 4 * y.imm22.toInt) ∧
      (y.cond = Cond.BA ∨ y.cond = Cond.BN ∨ ¬ related → branch.a = y.a) ∧
      (y.cond ≠ Cond.BA → y.cond ≠ Cond.BN → related → branch.a = false) := by
  intro codes branch related
  let inputs : AluIn := { y with op := 0b00, op2 := Op2.Bicc, icc := codes }
  have evaluated : branch = inputs.bicc := rfl
  have taken : inputs.bicc.muxSel = true ↔ related := by
    rw [bicc_muxSel]
    change y.cond = Cond.BA ∨ condition y.cond codes = true ↔ _
    have left : codes = compared x.valA x.operand2 := subcc_icc x syscall
    rw [left]
    exact condition_compared y.cond x.valA x.operand2
  rw [evaluated]
  refine ⟨taken, inputs.bicc_target, fun kept => ?_, fun conditional _ holds => ?_⟩
  · apply inputs.bicc_a_of_other
    rcases kept with always | never | unrelated
    · exact .inl always
    · right
      intro selected
      have holds : Cond.relation y.cond x.valA x.operand2 := taken.mp selected
      rw [never] at holds
      exact holds
    · exact .inr fun selected => unrelated (taken.mp selected)
  · exact inputs.bicc_a_of_taken conditional (taken.mpr holds)

end AluIn

end Sparcy
