import Sparcy.AluResults

/-!
# The trapping tagged opcodes

`TADDccTV` and `TSUBccTV` are to leave the processor as it is when an operand has a tag or
the result overflows.  The ALU then puts the incoming codes back, but the write of `rd` was
enabled in decode and takes the result all the same.
-/

namespace Sparcy

inductive TrapCc where
  | taddcctv
  | tsubcctv
deriving DecidableEq

namespace TrapCc

def op3 : TrapCc → BitVec 6
  | taddcctv => Op3.TADDccTV
  | tsubcctv => Op3.TSUBccTV

/-- The opcode that computes the same and does not trap. -/
def plain : TrapCc → ArithCc
  | taddcctv => .taddcc
  | tsubcctv => .tsubcc

/-- A tag bit is set or the exact result does not fit. -/
def traps (k : TrapCc) (x : AluIn) : Bool :=
  k.plain.tag x || decide (¬ (-2 ^ 31 ≤ k.plain.signed x ∧ k.plain.signed x < 2 ^ 31))

/-- What an instruction is to leave in the register file. -/
def Right (k : TrapCc) (inst : Inst) (x : AluIn) (before after : RegFile) : Prop :=
  if k.traps x then after.read inst.rd = before.read inst.rd ∧ after.icc = before.icc
  else
    (inst.rd ≠ 0 → after.read inst.rd = BitVec.ofInt 32 (k.plain.unsigned x)) ∧
      after.icc = ({ x with op := 0b10, op3 := k.plain.op3 }.alu 0).icc

instance (k : TrapCc) (inst : Inst) (x : AluIn) (before after : RegFile) :
    Decidable (k.Right inst x before after) :=
  inferInstanceAs (Decidable (ite _ _ _))

end TrapCc

theorem AluIn.alu_trapCc (x : AluIn) (k : TrapCc) (op : x.op = 0b10) (op3 : x.op3 = k.op3)
    (syscall : BitVec 32) :
    x.alu syscall =
      { x.default with
        res := x.arithValue k.plain
        icc :=
          if k.traps x then x.icc
          else ({ x with op := 0b10, op3 := k.plain.op3 }.alu 0).icc } := by
  have traps : k.traps x = x.arithOverflow k.plain := (x.arithOverflow_eq k.plain).symm
  have plain : ({ x with op := 0b10, op3 := k.plain.op3 }.alu 0).icc =
      AluIn.arithIcc (x.arithValue k.plain) (x.arithOverflow k.plain) := by
    rw [x.alu_arithCc k.plain 0]
  have kept : (if k.traps x then x.icc
        else ({ x with op := 0b10, op3 := k.plain.op3 }.alu 0).icc) =
      if x.arithOverflow k.plain then x.icc
      else AluIn.arithIcc (x.arithValue k.plain) false := by
    rw [traps, plain]
    cases x.arithOverflow k.plain <;> rfl
  rw [kept, x.eq_with_op op op3]
  cases k <;> rfl

namespace Sequential

theorem read_zero_perform_issued (σ : Sequential) {inst : Inst} (operands : Operands)
    (pc : BitVec 64) (syscall : BitVec 32) (op : inst.op = 0b10) :
    (σ.perform (Execute.live (issued inst operands pc) syscall)).regs.read 0 =
      σ.regs.read 0 := by
  have single : Decode.regWriteDouble inst.op inst.op3 = false := by
    simp [Decode.regWriteDouble, op]
  rw [perform_issued_regs σ operands pc syscall op, single, ← RegFile.step_eq_writeBack]
  apply RegFile.read_step
  · exact fun _ other => other.symm
  · exact fun _ double => absurd double Bool.false_ne_true

/-- Without a trap the result and the codes are right.  With one the codes are kept, but
`rd` is only if it is `%g0` or holds the result already. -/
theorem trapCc_right_iff (σ : Sequential) (k : TrapCc) {inst : Inst} (op : inst.op = 0b10)
    (op3 : inst.op3 = k.op3) (operands : Operands) (pc : BitVec 64) (syscall : BitVec 32) :
    let x := issuedAlu inst { operands with icc := σ.regs.icc } pc
    k.Right inst x σ.regs
        (σ.perform (Execute.live
          (issued inst { operands with icc := σ.regs.icc } pc) syscall)).regs ↔
      (k.traps x = true →
        inst.rd = 0 ∨ σ.regs.read inst.rd = BitVec.ofInt 32 (k.plain.unsigned x)) := by
  intro x
  let after := (σ.perform (Execute.live
    (issued inst { operands with icc := σ.regs.icc } pc) syscall)).regs
  have out := x.alu_trapCc k op op3 syscall
  have computes : inst.op3 ≠ Op3.Ticc := by
    rw [op3]
    cases k <;> decide
  have writes : inst.op3 ≠ Op3.WRY := by
    rw [op3]
    cases k <;> decide
  have setsCc : Decode.setsCc inst.op3 = true := by
    rw [op3]
    cases k <;> decide
  have delivered (other : inst.rd ≠ 0) :
      after.read inst.rd = BitVec.ofInt 32 (k.plain.unsigned x) := by
    rw [read_perform_issued σ _ pc syscall op computes writes other, out, x.arithValue_eq]
    exact SignedWords.setWidth_ofInt (by decide) _
  have codes := icc_perform_issued σ { operands with icc := σ.regs.icc } pc syscall op
  rw [if_pos setsCc, out] at codes
  cases trapped : k.traps x with
  | false =>
      rw [trapped] at codes
      rw [TrapCc.Right, trapped]
      exact iff_of_true ⟨delivered, codes⟩ fun trap => absurd trap Bool.false_ne_true
  | true =>
      rw [trapped] at codes
      have kept : after.icc = σ.regs.icc := codes
      rw [TrapCc.Right, trapped, if_pos rfl]
      refine (and_iff_left kept).trans ?_
      by_cases zero : inst.rd = 0
      · rw [zero]
        exact iff_of_true (read_zero_perform_issued σ _ pc syscall op) fun _ => .inl rfl
      · constructor
        · exact fun same _ => .inr (same.symm.trans (delivered zero))
        · exact fun holds => (delivered zero).trans ((holds rfl).resolve_left zero).symm

/-- `TADDccTV %g2, %g3, %g1`. -/
abbrev taddcctvWord : Inst := 0x83108003

/-- A tagged operand is added all the same. -/
theorem taddcctv_writes_rd :
    ¬ ∀ (σ : Sequential) (k : TrapCc) (inst : Inst), inst.op = 0b10 → inst.op3 = k.op3 →
      ∀ (operands : Operands) (pc : BitVec 64) (syscall : BitVec 32),
        k.Right inst (issuedAlu inst { operands with icc := σ.regs.icc } pc) σ.regs
          (σ.perform (Execute.live
            (issued inst { operands with icc := σ.regs.icc } pc) syscall)).regs := fun right =>
  absurd (right idle .taddcctv taddcctvWord (by decide) (by decide)
    { Operands.reset with valA := 1, valB := 4 } 0 0) (by decide)

/-- `4 + 8`. -/
theorem trapCc_right_iff_taddcctv :
    let operands := { Operands.reset with valA := 4, valB := 8, icc := idle.regs.icc }
    TrapCc.taddcctv.Right taddcctvWord (issuedAlu taddcctvWord operands 0) idle.regs
      (idle.perform (Execute.live (issued taddcctvWord operands 0) 0)).regs :=
  (@trapCc_right_iff idle .taddcctv taddcctvWord (by decide) (by decide)
    { Operands.reset with valA := 4, valB := 8 } 0 0).mpr (by decide)

end Sequential

end Sparcy
