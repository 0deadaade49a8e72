import Sparcy.AluResults

/-!
# Conditional traps

A trap repeats the tests of the branches on the condition codes, with macros of its own of
which `TNEG` has the value of `TLEU`.  Decode enables the write of `%o0` for every trap but
`TN`, and the ALU drives zero for one that is not taken.
-/

namespace Sparcy

namespace AluIn

/-- A branch with this condition field and these codes is taken. -/
def branches (cond icc : BitVec 4) : Bool := cond == Cond.BA || condition cond icc

theorem muxSel_bicc (x : AluIn) (syscall : BitVec 32) :
    ({ x with op := 0b00, op2 := Op2.Bicc }.alu syscall).muxSel = branches x.cond x.icc := by
  rw [Bool.eq_iff_iff, branches, Bool.or_eq_true, beq_iff_eq]
  exact bicc_muxSel { x with op := 0b00, op2 := Op2.Bicc }

/-- A trap line calls for every taken branch and no other, but on the two codes of `TNEG`. -/
theorem trapCalls_eq_iff (cond icc : BitVec 4) :
    trapCalls cond icc = (branches cond icc).toNat ↔
      (cond = Cond.TLEU ∨ cond = Cond.BNEG → icc.getLsbD 3 = false) := by
  revert cond icc
  decide

end AluIn

namespace RegFile

theorem writeFirst_eq_self_iff (rf : RegFile) {r : BitVec 5} (other : r ≠ 0) (value : BitVec 32) :
    rf.writeFirst r value = rf ↔ rf.read r = value := by
  constructor
  · intro same
    rw [← same]
    exact read_writeFirst_self rf other value
  · rintro rfl
    rw [writeFirst, read]
    split
    · simp [Function.update_eq_self]
    · simp [Function.update_eq_self]

end RegFile

/-- What a trap finds and what it leaves. -/
structure TrapRun where
  before : RegFile
  after : RegFile
  /-- How many system calls it makes, the value of the last, and the memory behind them. -/
  calls : Nat
  result : BitVec 32
  ram : Ram

namespace TrapRun

/-- A trap on the registers of a register file: the ALU block settles and makes the calls,
and its result is written back. -/
def of (syscall : Syscall) (inst : Inst) (σ : Sequential) (pc : BitVec 64) (last : BitVec 32)
    (ram : Ram) : TrapRun :=
  let x := issued inst (Decode.operands σ.regs inst) pc
  let called := Core.runSyscalls syscall x last ram
  { before := σ.regs
    after := (σ.perform (Execute.live x called.1)).regs
    calls := (Execute.aluIn x).syscalls
    result := called.1
    ram := called.2 }

/-- One call, whose result is all that changes, or no call and no change. -/
def Right (t : TrapRun) (taken : Bool) (call : BitVec 32 × Ram) : Prop :=
  if taken then
    t.calls = 1 ∧ (t.result, t.ram) = call ∧ t.after = t.before.writeFirst 8 call.1
  else t.calls = 0 ∧ t.after = t.before

section

variable (syscall : Syscall) {inst : Inst} (σ : Sequential) (pc : BitVec 64) (last : BitVec 32)
  (ram : Ram)

theorem of_calls (op : inst.op = 0b10) (op3 : inst.op3 = Op3.Ticc) :
    (of syscall inst σ pc last ram).calls = AluIn.trapCalls inst.cond σ.regs.icc :=
  if_pos ⟨op, op3⟩

/-- The value that is written back, under every condition but `TN`. -/
theorem of_after (op : inst.op = 0b10) (op3 : inst.op3 = Op3.Ticc) :
    (of syscall inst σ pc last ram).after =
      if inst.cond = Cond.TN then σ.regs
      else σ.regs.writeFirst 8
        (if AluIn.trapCalls inst.cond σ.regs.icc = 0 then 0
          else (of syscall inst σ pc last ram).result) := by
  let x := issued inst (Decode.operands σ.regs inst) pc
  let called := Core.runSyscalls syscall x last ram
  have notCall : inst.op ≠ 0b01 := by
    rw [op]
    decide
  have destination : Decode.destination inst = 8 := by
    rw [Decode.destination, if_neg notCall, if_pos ⟨op, op3⟩]
  have enabled : Decode.regWrite inst.op inst.op3 inst.op2 inst.cond =
      decide (inst.cond ≠ Cond.TN) := by
    rw [Decode.regWrite, op, op3]
    by_cases never : inst.cond = Cond.TN <;> simp [never]
  have single : Decode.regWriteDouble inst.op inst.op3 = false := by
    rw [op, op3]
    decide
  have y : Decode.yWrite inst.op inst.op3 = false := by
    rw [op, op3]
    decide
  have icc : Decode.ccWrite inst.op inst.op3 = false := by
    rw [op, op3]
    decide
  have out : (Execute.aluIn x).alu called.1 = (Execute.aluIn x).ticc called.1 := by
    rw [(Execute.aluIn x).eq_with_op op op3]
    rfl
  change (σ.perform (Execute.live x called.1)).regs = _
  rw [Sequential.perform_issued_regs σ _ pc called.1 op, destination, enabled, single, y, icc, out]
  split
  · rename_i never
    simp [RegFile.writeBack, RegFile.writeRegs, never]
  · rename_i other
    rw [decide_eq_true other, RegFile.writeBack_word]
    congr 1
    change BitVec.setWidth 32 (if AluIn.trapCalls inst.cond σ.regs.icc = 0 then 0 else _) = _
    split
    · rfl
    · rw [BitVec.signExtend, SignedWords.setWidth_ofInt (by decide), BitVec.ofInt_toInt]
      rfl

/-- Where the calls are right, so is all the rest of a taken trap, and a trap that is not
taken keeps `%o0` if it was zero. -/
theorem of_right_iff (op : inst.op = 0b10) (op3 : inst.op3 = Op3.Ticc) :
    (of syscall inst σ pc last ram).Right (AluIn.branches inst.cond σ.regs.icc)
        (syscall (Core.syscallArgs (issued inst (Decode.operands σ.regs inst) pc)) ram) ↔
      (inst.cond = Cond.TLEU ∨ inst.cond = Cond.BNEG → σ.regs.icc.getLsbD 3 = false) ∧
        (inst.cond ≠ Cond.TN →
          AluIn.branches inst.cond σ.regs.icc = true ∨ σ.regs.read 8 = 0) := by
  have calls := of_calls syscall σ pc last ram op op3
  have after := of_after syscall σ pc last ram op op3
  rw [← AluIn.trapCalls_eq_iff]
  cases taken : AluIn.branches inst.cond σ.regs.icc with
  | true =>
      have other : inst.cond ≠ Cond.TN := by
        intro never
        rw [never] at taken
        cases taken
      rw [Right, if_pos rfl, calls, Bool.toNat_true]
      refine ⟨fun right => ⟨right.1, fun _ => .inl rfl⟩, fun right => ?_⟩
      have once : (Execute.aluIn (issued inst (Decode.operands σ.regs inst) pc)).syscalls = 1 :=
        calls.trans right.1
      have called : ((of syscall inst σ pc last ram).result, (of syscall inst σ pc last ram).ram) =
          syscall (Core.syscallArgs (issued inst (Decode.operands σ.regs inst) pc)) ram := by
        change Core.callTimes syscall _ last ram _ = _
        rw [once]
        rfl
      rw [if_neg other, right.1, if_neg (by decide)] at after
      exact ⟨right.1, called, after.trans (congrArg (fun call => σ.regs.writeFirst 8 call.1) called)⟩
  | false =>
      rw [Right, if_neg Bool.false_ne_true, calls, Bool.toNat_false]
      refine and_congr_right fun none => ?_
      rw [after, none, if_pos rfl]
      by_cases never : inst.cond = Cond.TN
      · rw [if_pos never]
        exact iff_of_true rfl fun other => absurd never other
      · rw [if_neg never]
        refine (σ.regs.writeFirst_eq_self_iff (by decide) 0).trans ?_
        exact ⟨fun zero _ => .inr zero, fun kept => (kept never).resolve_left Bool.false_ne_true⟩

end

/-- After a `SUBcc` a trap acts as the branch with its condition field does, but for the
codes of `TLEU` and `TNEG` under a negative difference, and for a `%o0` that is not zero
behind a trap that is not taken. -/
theorem ticc_right_iff (σ : Sequential) {sub inst : Inst} (subOp : sub.op = 0b10)
    (subOp3 : sub.op3 = Op3.SUBcc) (op : inst.op = 0b10) (op3 : inst.op3 = Op3.Ticc)
    (operands : Operands) (subPc pc : BitVec 64) (syscall : Syscall) (called last : BitVec 32)
    (ram : Ram) :
    let x := issuedAlu sub operands subPc
    let compared := σ.perform (Execute.live (issued sub operands subPc) called)
    let trap := issued inst (Decode.operands compared.regs inst) pc
    let branch := { Execute.aluIn trap with op := 0b00, op2 := Op2.Bicc }.alu called
    (of syscall inst compared pc last ram).Right branch.muxSel
        (syscall (Core.syscallArgs trap) ram) ↔
      (inst.cond = Cond.TLEU ∨ inst.cond = Cond.BNEG → (x.valA - x.operand2).msb = false) ∧
        (inst.cond ≠ Cond.TN →
          Cond.relation inst.cond x.valA x.operand2 ∨ compared.regs.read 8 = 0) := by
  intro x compared trap branch
  have codes : compared.regs.icc = AluIn.compared x.valA x.operand2 := by
    have setsCc : Decode.setsCc sub.op3 = true := by
      rw [subOp3]
      decide
    have same : x = { x with op := 0b10, op3 := Op3.SUBcc } := x.eq_with_op subOp subOp3
    refine (Sequential.icc_perform_issued σ operands subPc called subOp).trans ?_
    rw [if_pos setsCc]
    change (x.alu called).icc = _
    rw [same]
    exact AluIn.subcc_icc x called
  have selected : branch.muxSel = AluIn.branches inst.cond compared.regs.icc :=
    AluIn.muxSel_bicc (Execute.aluIn trap) called
  have negative : compared.regs.icc.getLsbD 3 = (x.valA - x.operand2).msb := by
    rw [codes]
    exact iccOf_n _ _ _ _
  have related : AluIn.branches inst.cond compared.regs.icc = true ↔
      Cond.relation inst.cond x.valA x.operand2 := by
    rw [codes, AluIn.branches, Bool.or_eq_true, beq_iff_eq]
    exact AluIn.condition_compared inst.cond x.valA x.operand2
  rw [selected]
  refine (of_right_iff syscall compared pc last ram op op3).trans ?_
  rw [negative, related]

/-- `SUBcc %g1, %g2, %g0` and `TE 16`. -/
abbrev subccWord : Inst := 0x80a04002

abbrev teWord : Inst := 0x83d02010

/-- No instruction has run, and `%o0` is five. -/
def five : Sequential :=
  { Sequential.idle with regs := RegFile.reset.writeFirst 8 5 }

/-- `TE` after a comparison of 1 with 2 leaves zero in `%o0`. -/
theorem te_clears_o0 :
    ¬ ∀ (σ : Sequential) (sub inst : Inst), sub.op = 0b10 → sub.op3 = Op3.SUBcc →
      inst.op = 0b10 → inst.op3 = Op3.Ticc →
      ∀ (operands : Operands) (subPc pc : BitVec 64) (syscall : Syscall)
        (called last : BitVec 32) (ram : Ram),
        let compared := σ.perform (Execute.live (issued sub operands subPc) called)
        let trap := issued inst (Decode.operands compared.regs inst) pc
        let branch := { Execute.aluIn trap with op := 0b00, op2 := Op2.Bicc }.alu called
        (of syscall inst compared pc last ram).Right branch.muxSel
          (syscall (Core.syscallArgs trap) ram) := by
  intro right
  have kept := (right five subccWord teWord (by decide) (by decide) (by decide) (by decide)
    { Operands.reset with valA := 1, valB := 2 } 0 0 (fun _ ram => (0, ram)) 0 0 fun _ => 0).2
  exact absurd (congrArg (fun regs => regs.read 8) kept) (by decide)

/-- `TE` after a comparison of 2 with 2 calls. -/
theorem ticc_right_iff_te :
    let operands := { Operands.reset with valA := 2, valB := 2 }
    let compared := five.perform (Execute.live (issued subccWord operands 0) 0)
    let trap := issued teWord (Decode.operands compared.regs teWord) 0
    let branch := { Execute.aluIn trap with op := 0b00, op2 := Op2.Bicc }.alu 0
    (of (fun args ram => (args.o0 + 1, ram)) teWord compared 0 0 fun _ => 0).Right branch.muxSel
      ((Core.syscallArgs trap).o0 + 1, fun _ => 0) :=
  (@ticc_right_iff five subccWord teWord (by decide) (by decide) (by decide) (by decide)
    { Operands.reset with valA := 2, valB := 2 } 0 0 (fun args ram => (args.o0 + 1, ram)) 0 0
    fun _ => 0).mpr ⟨by decide, fun _ => .inl ((AluIn.condition_compared _ _ _).mp (by decide))⟩

end TrapRun

end Sparcy
