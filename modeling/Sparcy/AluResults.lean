import Sparcy.ConditionCodes
import Sparcy.Sequential

/-!
# Results of the ALU in the register file

An instruction that makes no access carries its 64-bit result and its codes through Mem
and write-back.  The register file keeps the low word for `rd` and the high word for Y.
-/

namespace Sparcy

open MemPath (entry)

/-- An instruction in `IDEXReg`, with the operands that it has read. -/
def issued (inst : Inst) (operands : Operands) (pc : BitVec 64) : IDEX :=
  { pcPlus4 := pc, fields := Decode.decodeFields inst, operands := operands }

/-- The inputs of the ALU for it. -/
abbrev issuedAlu (inst : Inst) (operands : Operands) (pc : BitVec 64) : AluIn :=
  Execute.aluIn (issued inst operands pc)

namespace RegFile

theorem read_writeFirst_self (rf : RegFile) {r : BitVec 5} (other : r ≠ 0) (value : BitVec 32) :
    (rf.writeFirst r value).read r = value := by
  obtain ⟨row, named⟩ : ∃ row, rowOf rf.cwp r = some row := by
    rw [rowOf, if_neg other]
    split
    · exact ⟨_, rfl⟩
    · exact ⟨_, rfl⟩
  rw [read_of_ne _ other, writeFirst_cwp, word_writeFirst, named]
  exact Function.update_self _ _ _

theorem read_writeBack_single (rf : RegFile) {wb : WBOut} (writes : wb.regEn = true)
    (single : wb.regDoubleEn = false) (other : wb.regD ≠ 0) :
    (rf.writeBack wb).read wb.regD = wb.data.setWidth 32 := by
  have words : rf.writeRegs wb = rf.writeFirst wb.regD (wb.data.setWidth 32) := by
    simp [writeRegs, writes, single]
  change (rf.writeRegs wb).read wb.regD = _
  rw [words]
  exact read_writeFirst_self rf other _

theorem writeBack_word (rf : RegFile) (r : BitVec 5) (data : BitVec 64) (icc : BitVec 4) :
    rf.writeBack
        { regEn := true, regDoubleEn := false, data := data, regD := r, yEn := false
          iccEn := false, icc := icc } =
      rf.writeFirst r (data.setWidth 32) := by
  change { rf.writeFirst r (data.setWidth 32) with icc := rf.icc, y := rf.y } = _
  rw [writeFirst]
  split
  · split <;> rfl
  · rfl

end RegFile

namespace Sequential

section

variable (σ : Sequential) {inst : Inst} (operands : Operands) (pc : BitVec 64)
  (syscall : BitVec 32)

/-- What an instruction drives into the register file. -/
theorem out_issued (shown : ¬ isBubble inst.op inst.op2 (Decode.destination inst) = true)
    (data : BitVec 64) :
    WB.out (entry (Execute.live (issued inst operands pc) syscall) data) =
      { regEn := Decode.regWrite inst.op inst.op3 inst.op2 inst.cond
        regDoubleEn := Decode.regWriteDouble inst.op inst.op3
        data := WB.data (entry (Execute.live (issued inst operands pc) syscall) data)
        regD := Decode.destination inst
        yEn := Decode.yWrite inst.op inst.op3
        iccEn := Decode.ccWrite inst.op inst.op3
        icc := ((issuedAlu inst operands pc).alu syscall).icc } :=
  if_neg shown

theorem perform_issued_regs (op : inst.op = 0b10) :
    (σ.perform (Execute.live (issued inst operands pc) syscall)).regs =
      σ.regs.writeBack
        { regEn := Decode.regWrite inst.op inst.op3 inst.op2 inst.cond
          regDoubleEn := Decode.regWriteDouble inst.op inst.op3
          data := ((issuedAlu inst operands pc).alu syscall).res
          regD := Decode.destination inst
          yEn := Decode.yWrite inst.op inst.op3
          iccEn := Decode.ccWrite inst.op inst.op3
          icc := ((issuedAlu inst operands pc).alu syscall).icc } := by
  have passes : Mem.accesses (Execute.live (issued inst operands pc) syscall) = false := by
    apply accesses_of_op
    change inst.op ≠ 0b11
    rw [op]
    decide
  have shown : ¬ isBubble inst.op inst.op2 (Decode.destination inst) = true := by
    rw [op]
    exact Bool.false_ne_true
  have data : WB.data (entry (Execute.live (issued inst operands pc) syscall) 0) =
      ((issuedAlu inst operands pc).alu syscall).res := by
    apply if_neg
    change inst.op ≠ 0b11
    rw [op]
    decide
  rw [perform_of_passes passes]
  change σ.regs.step (WB.out (entry _ 0)) false false = _
  rw [RegFile.step_eq_writeBack, out_issued operands pc syscall shown, data]

theorem read_perform_issued (op : inst.op = 0b10) (computes : inst.op3 ≠ Op3.Ticc)
    (writes : inst.op3 ≠ Op3.WRY) (other : inst.rd ≠ 0) :
    (σ.perform (Execute.live (issued inst operands pc) syscall)).regs.read inst.rd =
      ((issuedAlu inst operands pc).alu syscall).res.setWidth 32 := by
  have notCall : inst.op ≠ 0b01 := by
    rw [op]
    decide
  have notBranch : inst.op ≠ 0b00 := by
    rw [op]
    decide
  have notStore : inst.op ≠ 0b11 := by
    rw [op]
    decide
  have destination : Decode.destination inst = inst.rd := by
    rw [Decode.destination, if_neg notCall, if_neg fun both => computes both.2]
  have enabled : Decode.regWrite inst.op inst.op3 inst.op2 inst.cond = true := by
    rw [Decode.regWrite, if_neg fun both => notStore both.1, if_neg fun both => notBranch both.1,
      if_neg fun both => computes both.2.1, if_neg fun both => writes both.2]
  have single : Decode.regWriteDouble inst.op inst.op3 = false := by
    simp [Decode.regWriteDouble, op]
  rw [perform_issued_regs σ operands pc syscall op, destination, enabled, single]
  exact σ.regs.read_writeBack_single rfl rfl other

theorem icc_perform_issued (op : inst.op = 0b10) :
    (σ.perform (Execute.live (issued inst operands pc) syscall)).regs.icc =
      if Decode.setsCc inst.op3 then ((issuedAlu inst operands pc).alu syscall).icc
      else σ.regs.icc := by
  have enabled : Decode.ccWrite inst.op inst.op3 = Decode.setsCc inst.op3 := by
    rw [Decode.ccWrite, op]
    exact Bool.true_and _
  rw [perform_issued_regs σ operands pc syscall op, enabled]
  rfl

theorem y_perform_issued (op : inst.op = 0b10) :
    (σ.perform (Execute.live (issued inst operands pc) syscall)).regs.y =
      if Decode.yWrite inst.op inst.op3 then
        ((issuedAlu inst operands pc).alu syscall).res.extractLsb' 32 32
      else σ.regs.y := by
  rw [perform_issued_regs σ operands pc syscall op]
  rfl

end

end Sequential

/-- The opcodes that set the codes from a bitwise result. -/
inductive LogicalCc where
  | andcc
  | andncc
  | orcc
  | orncc
  | xorcc
  | xnorcc
deriving DecidableEq

namespace LogicalCc

def op3 : LogicalCc → BitVec 6
  | andcc => Op3.ANDcc
  | andncc => Op3.ANDNcc
  | orcc => Op3.ORcc
  | orncc => Op3.ORNcc
  | xorcc => Op3.XORcc
  | xnorcc => Op3.XNORcc

def bitwise : LogicalCc → BitVec 32 → BitVec 32 → BitVec 32
  | andcc, a, b => a &&& b
  | andncc, a, b => a &&& ~~~b
  | orcc, a, b => a ||| b
  | orncc, a, b => a ||| ~~~b
  | xorcc, a, b => a ^^^ b
  | xnorcc, a, b => ~~~(a ^^^ b)

/-- The result of an instruction. -/
def result (k : LogicalCc) (x : AluIn) : BitVec 32 := k.bitwise x.valA x.operand2

/-- The high word of the result bus. -/
def high : LogicalCc → BitVec 32
  | orncc | xnorcc => BitVec.allOnes 32
  | _ => 0

/-- What an instruction is to leave in the register file. -/
def Right (k : LogicalCc) (inst : Inst) (x : AluIn) (after : RegFile) : Prop :=
  (inst.rd ≠ 0 → after.read inst.rd = k.result x) ∧
    after.icc = iccOf (k.result x).msb (decide (k.result x = 0)) false false

instance (k : LogicalCc) (inst : Inst) (x : AluIn) (after : RegFile) :
    Decidable (k.Right inst x after) :=
  inferInstanceAs (Decidable (_ ∧ _))

end LogicalCc

namespace AluIn

variable (x : AluIn)

def logicalValue (x : AluIn) : LogicalCc → BitVec 64
  | .andcc => wide x.valA &&& wide x.operand2
  | .andncc => wide x.valA &&& ~~~wide x.operand2
  | .orcc => wide x.valA ||| wide x.operand2
  | .orncc => wide x.valA ||| ~~~wide x.operand2
  | .xorcc => wide x.valA ^^^ wide x.operand2
  | .xnorcc => wide x.valA ^^^ ~~~wide x.operand2

/-- An operand is complemented after it is widened, which fills the high word. -/
theorem logicalValue_eq (k : LogicalCc) : x.logicalValue k = k.high ++ k.result x := by
  apply BitVec.eq_of_getLsbD_eq
  intro i below
  rw [BitVec.getLsbD_append]
  by_cases low : i < 32
  · rw [if_pos low]
    cases k <;> simp [logicalValue, LogicalCc.result, LogicalCc.bitwise, low, below]
  · have past : x.valA.getLsbD i = false := BitVec.getLsbD_of_ge _ _ (by omega)
    have past' : x.operand2.getLsbD i = false := BitVec.getLsbD_of_ge _ _ (by omega)
    have above : i - 32 < 32 := by omega
    rw [if_neg low]
    cases k <;>
      simp [logicalValue, LogicalCc.high, below, above, past, past', -BitVec.reduceAllOnes]

theorem alu_logicalCc (k : LogicalCc) (op : x.op = 0b10) (op3 : x.op3 = k.op3)
    (syscall : BitVec 32) : x.alu syscall = x.logicalcc (x.logicalValue k) := by
  rw [x.eq_with_op op op3]
  cases k <;> rfl

end AluIn

namespace Sequential

/-- The result is always delivered.  The codes keep three of the four that came in, and
the test for zero never succeeds where an operand is complemented last. -/
theorem logicalCc_right_iff (σ : Sequential) (k : LogicalCc) {inst : Inst} (op : inst.op = 0b10)
    (op3 : inst.op3 = k.op3) (operands : Operands) (pc : BitVec 64) (syscall : BitVec 32) :
    k.Right inst (issuedAlu inst operands pc)
        (σ.perform (Execute.live (issued inst operands pc) syscall)).regs ↔
      (operands.icc.getLsbD 3 = (k.result (issuedAlu inst operands pc)).msb ∧
        operands.icc.getLsbD 1 = false ∧ operands.icc.getLsbD 0 = false) ∧
        (k = .orncc ∨ k = .xnorcc → k.result (issuedAlu inst operands pc) ≠ 0) := by
  let x := issuedAlu inst operands pc
  have out : x.alu syscall = x.logicalcc (k.high ++ k.result x) := by
    rw [x.alu_logicalCc k op op3, x.logicalValue_eq]
  have computes : inst.op3 ≠ Op3.Ticc := by
    rw [op3]
    cases k <;> decide
  have writes : inst.op3 ≠ Op3.WRY := by
    rw [op3]
    cases k <;> decide
  have setsCc : Decode.setsCc inst.op3 = true := by
    rw [op3]
    cases k <;> decide
  have delivered (other : inst.rd ≠ 0) :
      (σ.perform (Execute.live (issued inst operands pc) syscall)).regs.read inst.rd =
        k.result x := by
    rw [read_perform_issued σ operands pc syscall op computes writes other, out]
    exact BitVec.setWidth_append.trans (dif_pos (Nat.le_refl 32))
  have zero : k.high ++ k.result x = (0 : BitVec 64) ↔
      k.result x = 0 ∧ ¬ (k = .orncc ∨ k = .xnorcc) := by
    have high : k.high.toNat = 0 ↔ ¬ (k = .orncc ∨ k = .xnorcc) := by cases k <;> decide
    rw [BitVec.toNat_eq, Words.toNat_append_eq, ← high, BitVec.toNat_eq (y := (0 : BitVec 32))]
    change _ = 0 ↔ _ = 0 ∧ _
    omega
  rw [LogicalCc.Right, icc_perform_issued σ operands pc syscall op, if_pos setsCc, out,
    and_iff_right delivered]
  change iccOf _ _ _ _ = _ ↔ _
  rw [iccOf_inj, decide_eq_decide, zero, and_iff_left_iff_imp, imp_not_comm]
  constructor
  · rintro ⟨n, z, v, c⟩
    exact ⟨⟨n, v, c⟩, z⟩
  · rintro ⟨⟨n, v, c⟩, z⟩
    exact ⟨n, z, v, c⟩

/-- No instruction has run. -/
def idle : Sequential := { regs := .reset, memory := fun _ => 0, effects := [] }

/-- `ANDcc %g2, %g3, %g1`. -/
abbrev andccWord : Inst := 0x82888003

/-- The sign of `0x80000000` is not seen. -/
theorem andcc_keeps_n :
    ¬ ∀ (σ : Sequential) (k : LogicalCc) (inst : Inst), inst.op = 0b10 → inst.op3 = k.op3 →
      ∀ (operands : Operands) (pc : BitVec 64) (syscall : BitVec 32),
        k.Right inst (issuedAlu inst operands pc)
          (σ.perform (Execute.live (issued inst operands pc) syscall)).regs := fun right =>
  absurd (right idle .andcc andccWord (by decide) (by decide)
    { Operands.reset with valA := 0x80000000, valB := 0x80000000 } 0 0) (by decide)

/-- The zero of operands without a common bit is. -/
theorem logicalCc_right_iff_andcc :
    LogicalCc.andcc.Right andccWord
      (issuedAlu andccWord { Operands.reset with valA := 1, valB := 2 } 0)
      (idle.perform (Execute.live
        (issued andccWord { Operands.reset with valA := 1, valB := 2 } 0) 0)).regs :=
  (logicalCc_right_iff idle .andcc (by decide) (by decide) _ 0 0).mpr (by decide)

end Sequential

/-! ### Products -/

inductive MulOp where
  | umul
  | smul
  | umulcc
  | smulcc
deriving DecidableEq

namespace MulOp

def op3 : MulOp → BitVec 6
  | umul => Op3.UMUL
  | smul => Op3.SMUL
  | umulcc => Op3.UMULcc
  | smulcc => Op3.SMULcc

/-- The product is that of the signed operands. -/
def isSigned : MulOp → Bool
  | smul | smulcc => true
  | _ => false

/-- The condition codes are set. -/
def setsCc : MulOp → Bool
  | umulcc | smulcc => true
  | _ => false

/-- The product itself. -/
def product (k : MulOp) (x : AluIn) : Int :=
  if k.isSigned then x.valA.toInt * x.operand2.toInt else x.valA.toNat * x.operand2.toNat

/-- The codes that a product is to leave. -/
def codes (k : MulOp) (x : AluIn) : BitVec 4 :=
  iccOf (BitVec.ofInt 32 (k.product x)).msb (decide (BitVec.ofInt 32 (k.product x) = 0)) false
    false

/-- What an instruction is to leave in the register file: the product in Y and `rd`, and
the codes of its low word. -/
def Right (k : MulOp) (inst : Inst) (x : AluIn) (before after : RegFile) : Prop :=
  after.y = (BitVec.ofInt 64 (k.product x)).extractLsb' 32 32 ∧
    (inst.rd ≠ 0 → after.read inst.rd = (BitVec.ofInt 64 (k.product x)).setWidth 32) ∧
    after.icc = if k.setsCc then k.codes x else before.icc

instance (k : MulOp) (inst : Inst) (x : AluIn) (before after : RegFile) :
    Decidable (k.Right inst x before after) :=
  inferInstanceAs (Decidable (_ ∧ _ ∧ _))

end MulOp

namespace AluIn

variable (x : AluIn)

/-- The value on the result bus. -/
def mulValue (k : MulOp) : BitVec 64 := if k.isSigned then x.smul else x.umul

theorem alu_mul (k : MulOp) (op : x.op = 0b10) (op3 : x.op3 = k.op3) (syscall : BitVec 32) :
    x.alu syscall =
      if k.setsCc then x.mulcc (x.mulValue k) else { x.default with res := x.mulValue k } := by
  rw [x.eq_with_op op op3]
  cases k <;> rfl

theorem umul_eq : x.umul = BitVec.ofInt 64 (x.valA.toNat * x.operand2.toNat) := by
  rw [umul, wide_eq, wide_eq, BitVec.ofInt_mul]

theorem smul_eq :
    x.smul = (BitVec.ofInt 32 (x.valA.toInt * x.operand2.toInt)).signExtend 64 := by
  rw [smul, BitVec.ofInt_mul, BitVec.ofInt_toInt, BitVec.ofInt_toInt]

/-- Both products have the right low word. -/
theorem mulValue_low (k : MulOp) :
    (x.mulValue k).setWidth 32 = BitVec.ofInt 32 (k.product x) := by
  unfold mulValue MulOp.product
  cases k.isSigned with
  | false =>
      change x.umul.setWidth 32 = _
      rw [umul_eq]
      exact SignedWords.setWidth_ofInt (by decide) _
  | true =>
      change x.smul.setWidth 32 = _
      rw [smul_eq, BitVec.signExtend, SignedWords.setWidth_ofInt (by decide), BitVec.ofInt_toInt]
      rfl

/-- So only the high word can be wrong. -/
theorem mulValue_high_iff (k : MulOp) :
    (x.mulValue k).extractLsb' 32 32 = (BitVec.ofInt 64 (k.product x)).extractLsb' 32 32 ↔
      x.mulValue k = BitVec.ofInt 64 (k.product x) := by
  constructor
  · intro same
    have width : 64 = 2 * 32 := rfl
    apply Words.eq_of_word_eq width
    intro i below
    obtain rfl | rfl : i = 0 ∨ i = 1 := by omega
    · change (x.mulValue k).extractLsb' 0 32 = (BitVec.ofInt 64 (k.product x)).extractLsb' 0 32
      rw [← BitVec.setWidth_eq_extractLsb' (by decide), ← BitVec.setWidth_eq_extractLsb' (by decide),
        x.mulValue_low, SignedWords.setWidth_ofInt (by decide)]
    · exact same
  · intro same
    rw [same]

/-- The high word of a signed product is a copy of bit 31. -/
theorem mulValue_eq_iff (k : MulOp) :
    x.mulValue k = BitVec.ofInt 64 (k.product x) ↔
      (k.isSigned = true → -2 ^ 31 ≤ k.product x ∧ k.product x < 2 ^ 31) := by
  unfold mulValue MulOp.product
  cases k.isSigned with
  | false => exact iff_of_true x.umul_eq fun signed => absurd signed Bool.false_ne_true
  | true =>
      have low : -2 ^ 62 ≤ x.valA.toInt * x.operand2.toInt := BitVec.le_toInt_mul_toInt
      have high : x.valA.toInt * x.operand2.toInt ≤ 2 ^ 62 := BitVec.toInt_mul_toInt_le
      change x.smul = BitVec.ofInt 64 (x.valA.toInt * x.operand2.toInt) ↔ _
      rw [smul_eq, SignedWords.signExtend_ofInt_iff (by decide) (by omega) (by omega)]
      exact ⟨fun fits _ => fits, fun fits => fits rfl⟩

end AluIn

namespace Sequential

/-- The product and its codes are always right, but for the high word of a signed product
that does not fit in 32 bits. -/
theorem mul_right_iff (σ : Sequential) (k : MulOp) {inst : Inst} (op : inst.op = 0b10)
    (op3 : inst.op3 = k.op3) (operands : Operands) (pc : BitVec 64) (syscall : BitVec 32) :
    k.Right inst (issuedAlu inst operands pc) σ.regs
        (σ.perform (Execute.live (issued inst operands pc) syscall)).regs ↔
      (k.isSigned = true → -2 ^ 31 ≤ k.product (issuedAlu inst operands pc) ∧
        k.product (issuedAlu inst operands pc) < 2 ^ 31) := by
  let x := issuedAlu inst operands pc
  have computes : inst.op3 ≠ Op3.Ticc := by
    rw [op3]
    cases k <;> decide
  have writes : inst.op3 ≠ Op3.WRY := by
    rw [op3]
    cases k <;> decide
  have setsCc : Decode.setsCc inst.op3 = k.setsCc := by
    rw [op3]
    cases k <;> decide
  have yWrite : Decode.yWrite inst.op inst.op3 = true := by
    rw [op, op3]
    cases k <;> decide
  have value : (x.alu syscall).res = x.mulValue k := by
    rw [x.alu_mul k op op3]
    split <;> rfl
  have codes : k.setsCc = true → (x.alu syscall).icc = k.codes x := by
    intro sets
    rw [x.alu_mul k op op3, if_pos sets, MulOp.codes, ← x.mulValue_low]
    exact AluIn.lowIcc_eq _ false
  have delivered (other : inst.rd ≠ 0) :
      (σ.perform (Execute.live (issued inst operands pc) syscall)).regs.read inst.rd =
        (BitVec.ofInt 64 (k.product x)).setWidth 32 := by
    rw [read_perform_issued σ operands pc syscall op computes writes other, value,
      x.mulValue_low, SignedWords.setWidth_ofInt (by decide)]
  have left : (σ.perform (Execute.live (issued inst operands pc) syscall)).regs.icc =
      if k.setsCc then k.codes x else σ.regs.icc := by
    rw [icc_perform_issued σ operands pc syscall op, setsCc]
    cases sets : k.setsCc with
    | false => rfl
    | true => exact codes sets
  rw [MulOp.Right, y_perform_issued σ operands pc syscall op, if_pos yWrite, value,
    x.mulValue_high_iff, x.mulValue_eq_iff]
  exact and_iff_left ⟨delivered, left⟩

/-- `SMUL %g2, %g3, %g1`. -/
abbrev smulWord : Inst := 0x82588003

/-- The square of `2^16` leaves zero in Y. -/
theorem smul_loses_high_word :
    ¬ ∀ (σ : Sequential) (k : MulOp) (inst : Inst), inst.op = 0b10 → inst.op3 = k.op3 →
      ∀ (operands : Operands) (pc : BitVec 64) (syscall : BitVec 32),
        k.Right inst (issuedAlu inst operands pc) σ.regs
          (σ.perform (Execute.live (issued inst operands pc) syscall)).regs := fun right =>
  absurd (right idle .smul smulWord (by decide) (by decide)
    { Operands.reset with valA := 0x10000, valB := 0x10000 } 0 0) (by decide)

/-- `3 * -1`. -/
theorem mul_right_iff_smul :
    MulOp.smul.Right smulWord
      (issuedAlu smulWord { Operands.reset with valA := 3, valB := 0xffffffff } 0) idle.regs
      (idle.perform (Execute.live
        (issued smulWord { Operands.reset with valA := 3, valB := 0xffffffff } 0) 0)).regs :=
  (mul_right_iff idle .smul (by decide) (by decide) _ 0 0).mpr (by decide)

end Sequential

end Sparcy
