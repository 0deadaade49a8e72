import Sparcy.ExecuteStall
import Sparcy.Fetch
import Sparcy.Sequential

/-!
# Delayed control transfer

The sequential machine with its two program counters.  A taken transfer replaces the second
one, so the instruction behind it is executed before its target, unless the transfer annuls
that instruction.
-/

namespace Sparcy

open Execute (idle requestsAnnul takenAnnulling)
open Sparcy.Sequential (Agree Plain SameEffect)

/-! ### Transfers in the ALU -/

theorem Fetch.isTransfer_eq_true (inst : Inst) :
    Fetch.isTransfer inst = true ↔
      (inst.op = 0b00 ∧ inst.op2 = Op2.Bicc) ∨ inst.op = 0b01 ∨
        (inst.op = 0b10 ∧ inst.op3 = Op3.JMPL) := decide_eq_true_iff

theorem AluOut.ite_muxSel {c : Prop} [Decidable c] {out out' : AluOut}
    (left : out.muxSel = false) (right : out'.muxSel = false) :
    (if c then out else out').muxSel = false := by
  split
  · exact left
  · exact right

namespace AluIn

/-- The ALU asks for the target of a `CALL`, a `Bicc` or a `JMPL` only. -/
theorem muxSel_of_others (x : AluIn) (syscall : BitVec 32) (call : x.op ≠ 0b01)
    (branch : ¬ (x.op = 0b00 ∧ x.op2 = Op2.Bicc)) (jump : ¬ (x.op = 0b10 ∧ x.op3 = Op3.JMPL)) :
    (x.alu syscall).muxSel = false := by
  rw [alu, if_neg call]
  split
  · rfl
  · split
    · rename_i short
      have other : ¬ x.op2 = Op2.Bicc := fun bicc => branch ⟨short, bicc⟩
      rw [format2, if_neg other]
      split <;> rfl
    · rename_i load short
      have long : x.op = 0b10 := by
        have four : ∀ op : BitVec 2, op ≠ 0b01 → op ≠ 0b11 → op ≠ 0b00 → op = 0b10 := by decide
        exact four _ call load short
      have other : ¬ x.op3 = Op3.JMPL := fun jmpl => jump ⟨long, jmpl⟩
      unfold format3
      dsimp only
      rw [if_neg other]
      repeat' refine AluOut.ite_muxSel ?_ ?_
      all_goals rfl

/-- The outputs of the ALU that a transfer uses. -/
structure SameTransfer (out out' : AluOut) : Prop where
  res : out.res = out'.res
  muxSel : out.muxSel = out'.muxSel
  target : out.target = out'.target

/-- A transfer does not look at Y, and only a `Bicc` looks at the condition codes. -/
theorem alu_transfer (x : AluIn) (y : BitVec 32) (icc : BitVec 4) (syscall syscall' : BitVec 32)
    (transfer : (x.op = 0b00 ∧ x.op2 = Op2.Bicc) ∨ x.op = 0b01 ∨
      (x.op = 0b10 ∧ x.op3 = Op3.JMPL))
    (codes : x.op = 0b00 → x.op2 = Op2.Bicc → x.icc = icc) :
    SameTransfer (x.alu syscall) (({ x with y := y, icc := icc } : AluIn).alu syscall') := by
  rcases transfer with ⟨op, op2⟩ | op | ⟨op, op3⟩
  · obtain rfl := codes op op2
    have branch : ∀ (z : AluIn) (result : BitVec 32), z.op = 0b00 → z.op2 = Op2.Bicc →
        z.alu result = z.bicc := by
      intro z result op op2
      simp [alu, format2, op, op2]
    rw [branch x _ op op2, branch { x with y := y } _ op op2, bicc, bicc]
    dsimp only
    split
    · exact ⟨rfl, rfl, rfl⟩
    · split
      · exact ⟨rfl, rfl, rfl⟩
      · exact ⟨rfl, rfl, rfl⟩
  · rw [alu, alu, if_pos op, if_pos op]
    exact ⟨rfl, rfl, rfl⟩
  · have jump : ∀ (z : AluIn) (result : BitVec 32), z.op = 0b10 → z.op3 = Op3.JMPL →
        z.alu result = z.jmpl := by
      intro z result op op3
      simp [alu, format3, op, op3]
    rw [jump x _ op op3, jump { x with y := y, icc := icc } _ op op3]
    exact ⟨rfl, rfl, rfl⟩

end AluIn

/-- The fields of `IDEXReg` are not those of a transfer. -/
def IDEX.Straight (x : IDEX) : Prop :=
  x.fields.op ≠ 0b01 ∧ ¬ (x.fields.op = 0b00 ∧ x.fields.op2 = Op2.Bicc) ∧
    ¬ (x.fields.op = 0b10 ∧ x.fields.op3 = Op3.JMPL)

namespace IDEX.Straight

variable {x : IDEX}

theorem muxSel (straight : x.Straight) (syscall : BitVec 32) :
    (Execute.aluOut x syscall).muxSel = false :=
  AluIn.muxSel_of_others (Execute.aluIn x) syscall straight.1 straight.2.1 straight.2.2

theorem not_isBicc (straight : x.Straight) :
    Execute.isBicc x.fields.op x.fields.op2 = false := by
  rw [← Bool.not_eq_true, Execute.isBicc_eq_true]
  exact straight.2.1

theorem not_requestsAnnul (straight : x.Straight) : requestsAnnul x = false := by
  rw [requestsAnnul, straight.not_isBicc, Bool.false_and, Bool.false_and]

theorem not_takenAnnulling (straight : x.Straight) : takenAnnulling x = false := by
  rw [takenAnnulling, straight.not_isBicc, Bool.false_and, Bool.false_and]

theorem of_isNop {inst : Inst} (nop : Decode.isNop inst = true)
    (fields : x.fields = Decode.bubbleFields inst) : x.Straight := by
  rw [Straight, fields]
  simp only [Decode.isNop, Bool.or_eq_true, beq_iff_eq] at nop
  rcases nop with rfl | rfl <;> decide

end IDEX.Straight

/-- A no-op changes nothing. -/
theorem Sequential.perform_of_isNop {σ : Sequential} {inst : Inst} {x : IDEX}
    {syscall : BitVec 32} (nop : Decode.isNop inst = true)
    (fields : x.fields = Decode.bubbleFields inst) : σ.perform (Execute.live x syscall) = σ := by
  have op : x.fields.op ≠ 0b11 := by
    rw [fields]
    simp only [Decode.isNop, Bool.or_eq_true, beq_iff_eq] at nop
    rcases nop with rfl | rfl <;> decide
  apply Sequential.perform_of_zero (Sequential.accesses_of_op op)
  · intro writes
    have none : x.fields.regWrite = false := congrArg Fields.regWrite fields
    exact absurd (writes.symm.trans none) (by decide)
  · exact congrArg Fields.iccWrite fields
  · exact congrArg Fields.yWrite fields

/-! ### The machine -/

/-- What the next instruction finds. -/
structure Machine where
  state : Sequential
  pc : BitVec 32
  nPc : BitVec 32
  /-- The instruction at `pc` is annulled. -/
  annul : Bool
  /-- The last instruction loads or stores.  Bubbles do not count, as the pipeline drops
  them. -/
  access : Bool

namespace Machine

/-- Plain instructions and control transfers. -/
def Ordinary (inst : Inst) : Prop := Plain inst ∨ Fetch.isTransfer inst = true

instance (inst : Inst) : Decidable (Ordinary inst) := inferInstanceAs (Decidable (_ ∨ _))

/-- What decode makes of an instruction at the program counter. -/
def issued (m : Machine) (inst : Inst) : IDEX :=
  { Sequential.decoded m.state.regs inst with pcPlus4 := m.pc.setWidth 64 }

/-- The instruction transfers control, and where to. -/
def transfers (m : Machine) (inst : Inst) : Bool :=
  (Execute.aluOut (m.issued inst) 0).muxSel

def target (m : Machine) (inst : Inst) : BitVec 32 := (Execute.aluOut (m.issued inst) 0).target

/-- The instruction is skipped, or executed in front of the one at `nPc`. -/
def next (m : Machine) (inst : Inst) : Machine :=
  if m.annul then { m with pc := m.nPc, nPc := m.nPc + 4, annul := false }
  else
    { state := m.state.perform (Execute.live (m.issued inst) 0)
      pc := m.nPc
      nPc := if m.transfers inst then m.target inst else m.nPc + 4
      annul := requestsAnnul (m.issued inst)
      access :=
        if Decode.isNop inst || idle (m.issued inst) then m.access
        else Mem.accesses (Execute.live (m.issued inst) 0) }

/-- The instruction is one of those above and avoids what the pipeline does not do right: an
annulled one is no bubble and annuls nothing; a transfer does not go to its own delay slot or
to address 0; and a conditional branch that would annul, but is taken, is not behind a load
or store. -/
structure Regular (m : Machine) (inst : Inst) : Prop where
  ordinary : Ordinary inst
  annulled : m.annul = true →
    Decode.isNop inst = false ∧ idle (m.issued inst) = false ∧ requestsAnnul (m.issued inst) = false
  moves : m.annul = false → m.transfers inst = true →
    m.target inst ≠ m.nPc ∧ m.target inst ≠ 0
  unstalled : m.annul = false → takenAnnulling (m.issued inst) = true → m.access = false

theorem regular_iff {m : Machine} {inst : Inst} :
    m.Regular inst ↔ Ordinary inst ∧
      (m.annul = true → Decode.isNop inst = false ∧ idle (m.issued inst) = false ∧
        requestsAnnul (m.issued inst) = false) ∧
      (m.annul = false → m.transfers inst = true →
        m.target inst ≠ m.nPc ∧ m.target inst ≠ 0) ∧
      (m.annul = false → takenAnnulling (m.issued inst) = true → m.access = false) :=
  ⟨fun regular => ⟨regular.ordinary, regular.annulled, regular.moves, regular.unstalled⟩,
    fun ⟨ordinary, annulled, moves, unstalled⟩ => ⟨ordinary, annulled, moves, unstalled⟩⟩

instance (m : Machine) (inst : Inst) : Decidable (m.Regular inst) :=
  decidable_of_iff _ regular_iff.symm

section

variable {m : Machine} {inst : Inst}

theorem next_of_annul (annul : m.annul = true) :
    m.next inst = { m with pc := m.nPc, nPc := m.nPc + 4, annul := false } := if_pos annul

theorem next_of_kept (kept : m.annul = false) :
    m.next inst =
      { state := m.state.perform (Execute.live (m.issued inst) 0)
        pc := m.nPc
        nPc := if m.transfers inst then m.target inst else m.nPc + 4
        annul := requestsAnnul (m.issued inst)
        access :=
          if Decode.isNop inst || idle (m.issued inst) then m.access
          else Mem.accesses (Execute.live (m.issued inst) 0) } := if_neg (by simp [kept])

theorem next_pc (m : Machine) (inst : Inst) : (m.next inst).pc = m.nPc := by
  rw [next]
  split <;> rfl

theorem effects_prefix_next (m : Machine) (inst : Inst) :
    m.state.effects <+: (m.next inst).state.effects := by
  cases annul : m.annul with
  | true =>
      have same : (m.next inst).state = m.state := by rw [next_of_annul annul]
      exact same ▸ List.prefix_rfl
  | false =>
      rw [next_of_kept annul]
      exact Sequential.effects_prefix_perform _ _

theorem issued_fields_of_isNop (nop : Decode.isNop inst = true) :
    (m.issued inst).fields = Decode.bubbleFields inst := if_pos nop

theorem issued_of_other (other : Decode.isNop inst = false) :
    m.issued inst =
      { pcPlus4 := m.pc.setWidth 64, fields := Decode.decodeFields inst
        operands := Decode.operands m.state.regs inst } := by
  rw [issued, Sequential.decoded, other]
  rfl

/-- A no-op only moves the program counters. -/
theorem next_of_isNop (nop : Decode.isNop inst = true) (kept : m.annul = false) :
    m.next inst = { m with pc := m.nPc, nPc := m.nPc + 4, annul := false } := by
  have fields := issued_fields_of_isNop (m := m) nop
  have straight : (m.issued inst).Straight := .of_isNop nop fields
  rw [next_of_kept kept, transfers, straight.muxSel, straight.not_requestsAnnul, nop,
    Sequential.perform_of_isNop nop fields]
  rfl

/-! ### Ordinary instructions -/

theorem Ordinary.even (ordinary : Ordinary inst) (other : Decode.isNop inst = false)
    (op : inst.op = 0b11) (op3 : inst.op3 = Op3.STD) : inst.rd.getLsbD 0 = false := by
  rcases ordinary with plain | transfer
  · exact plain.even other op (.inr op3)
  · rcases (Fetch.isTransfer_eq_true inst).mp transfer with ⟨bicc, -⟩ | call | ⟨jmpl, -⟩
    · exact absurd (bicc.symm.trans op) (by decide)
    · exact absurd (call.symm.trans op) (by decide)
    · exact absurd (jmpl.symm.trans op) (by decide)

/-- None of them is a trap or moves the window. -/
theorem Ordinary.not_control (ordinary : Ordinary inst) :
    ¬ (inst.op = 0b10 ∧
      (inst.op3 = Op3.Ticc ∨ inst.op3 = Op3.SAVE ∨ inst.op3 = Op3.RESTORE)) := by
  rintro ⟨op, control⟩
  rcases ordinary with (nop | ⟨-, -, others, -⟩) | transfer
  · simp only [Decode.isNop, Bool.or_eq_true, beq_iff_eq] at nop
    rcases nop with rfl | rfl <;> revert control <;> decide
  · exact others ⟨op, .inr control⟩
  · rcases (Fetch.isTransfer_eq_true inst).mp transfer with ⟨bicc, -⟩ | call | ⟨-, jmpl⟩
    · exact absurd (bicc.symm.trans op) (by decide)
    · exact absurd (call.symm.trans op) (by decide)
    · rw [jmpl] at control
      revert control
      decide

end

/-! ### Instructions in Execute that look the same -/

/-- Contents of `IDEXReg` with which Execute does the same. -/
structure SameIssue (x x' : IDEX) (syscall syscall' : BitVec 32) : Prop where
  fields : x.fields = x'.fields
  performs : ∀ σ : Sequential,
    σ.perform (Execute.live x syscall) = σ.perform (Execute.live x' syscall')
  muxSel : (Execute.aluOut x syscall).muxSel = (Execute.aluOut x' syscall').muxSel
  target : (Execute.aluOut x' syscall').muxSel = true →
    (Execute.aluOut x syscall).target = (Execute.aluOut x' syscall').target
  annul : requestsAnnul x = requestsAnnul x'
  taken : takenAnnulling x = takenAnnulling x'

section

variable {x x' : IDEX} {syscall syscall' : BitVec 32} {inst : Inst} {regs regs' : RegFile}

/-- Without a transfer the results are all that counts. -/
theorem SameIssue.of_straight (fields : x.fields = x'.fields)
    (performs : ∀ σ : Sequential,
      σ.perform (Execute.live x syscall) = σ.perform (Execute.live x' syscall'))
    (straight : x'.Straight) : SameIssue x x' syscall syscall' := by
  have straight' : x.Straight := by rwa [IDEX.Straight, fields]
  refine ⟨fields, performs, ?_, ?_, ?_, ?_⟩
  · rw [straight'.muxSel, straight.muxSel]
  · intro taken
    rw [straight.muxSel] at taken
    cases taken
  · rw [straight'.not_requestsAnnul, straight.not_requestsAnnul]
  · rw [straight'.not_takenAnnulling, straight.not_takenAnnulling]

theorem sameIssue_of_isNop (nop : Decode.isNop inst = true)
    (fields : x.fields = Decode.bubbleFields inst)
    (fields' : x'.fields = Decode.bubbleFields inst) : SameIssue x x' syscall syscall' := by
  refine .of_straight (fields.trans fields'.symm) ?_ (.of_isNop nop fields')
  intro σ
  rw [Sequential.perform_of_isNop nop fields, Sequential.perform_of_isNop nop fields']

theorem sameIssue_of_plain (plain : Plain inst) (other : Decode.isNop inst = false)
    (agree : Agree inst regs regs') (pc pc' : BitVec 64) (syscall syscall' : BitVec 32) :
    SameIssue
      { pcPlus4 := pc, fields := Decode.decodeFields inst, operands := Decode.operands regs inst }
      { pcPlus4 := pc', fields := Decode.decodeFields inst
        operands := Decode.operands regs' inst } syscall syscall' := by
  have same := Sequential.sameEffect_live plain other agree pc pc' syscall syscall'
  refine .of_straight rfl (fun _ => same.perform) ?_
  rcases plain with nop | ⟨call, branch, control, -⟩
  · rw [other] at nop
    cases nop
  · exact ⟨call, branch, fun jmpl => control ⟨jmpl.1, .inl jmpl.2⟩⟩

theorem sameIssue_of_isTransfer (transfer : Fetch.isTransfer inst = true)
    (agree : Agree inst regs regs') (pc : BitVec 64) (syscall syscall' : BitVec 32) :
    SameIssue
      { pcPlus4 := pc, fields := Decode.decodeFields inst, operands := Decode.operands regs inst }
      { pcPlus4 := pc, fields := Decode.decodeFields inst
        operands := Decode.operands regs' inst } syscall syscall' := by
  have kind := (Fetch.isTransfer_eq_true inst).mp transfer
  have codes : inst.op = 0b00 → inst.op2 = Op2.Bicc → regs.icc = regs'.icc :=
    fun op op2 => agree.icc (by simp [Decode.ccDep, op, op2])
  let aluIn := Execute.aluIn
    { pcPlus4 := pc, fields := Decode.decodeFields inst, operands := Decode.operands regs inst }
  have alu := AluIn.alu_transfer aluIn regs'.y regs'.icc syscall syscall' kind codes
  have operands : ({ aluIn with y := regs'.y, icc := regs'.icc } : AluIn) =
      Execute.aluIn { pcPlus4 := pc, fields := Decode.decodeFields inst
                      operands := Decode.operands regs' inst } := by
    simp only [aluIn, Execute.aluIn, Decode.operands, agree.rs1, agree.rs2]
  rw [operands] at alu
  have silent : Decode.ccWrite inst.op inst.op3 = false ∧ inst.op ≠ 0b11 := by
    rcases kind with ⟨op, -⟩ | op | ⟨op, op3⟩
    · simp [Decode.ccWrite, op]
    · simp [Decode.ccWrite, op]
    · simp [Decode.ccWrite, Decode.setsCc, op, op3]
  have item : ∀ (x : IDEX) (syscall : BitVec 32),
      (Execute.live x syscall).item = x.fields.item := fun _ _ => rfl
  have effect : SameEffect
      (Execute.live { pcPlus4 := pc, fields := Decode.decodeFields inst
                      operands := Decode.operands regs inst } syscall)
      (Execute.live { pcPlus4 := pc, fields := Decode.decodeFields inst
                      operands := Decode.operands regs' inst } syscall') := by
    refine ⟨alu.res, by rw [item, item], ?_, ?_, fun _ op => absurd op silent.2⟩
    · intro writes
      have none : Decode.ccWrite inst.op inst.op3 = true := writes
      rw [silent.1] at none
      cases none
    · intro store
      simp only [Mem.storeOp, decide_eq_true_eq] at store
      exact absurd store.1 silent.2
  refine ⟨rfl, fun _ => effect.perform, alu.muxSel, fun _ => alu.target, ?_, ?_⟩
  all_goals
    cases bicc : Execute.isBicc inst.op inst.op2 with
    | false =>
        simp only [requestsAnnul, takenAnnulling,
          show (Decode.decodeFields inst).op = inst.op from rfl,
          show (Decode.decodeFields inst).op2 = inst.op2 from rfl, bicc, Bool.false_and]
    | true =>
        obtain ⟨op, op2⟩ := (Execute.isBicc_eq_true _ _).mp bicc
        simp only [requestsAnnul, takenAnnulling, Decode.operands, codes op op2]

/-- An instruction does the same with operands that it cannot tell apart. -/
theorem sameIssue (ordinary : Ordinary inst) (other : Decode.isNop inst = false)
    (agree : Agree inst regs regs') (pc : BitVec 64) (syscall syscall' : BitVec 32) :
    SameIssue
      { pcPlus4 := pc, fields := Decode.decodeFields inst, operands := Decode.operands regs inst }
      { pcPlus4 := pc, fields := Decode.decodeFields inst
        operands := Decode.operands regs' inst } syscall syscall' := by
  rcases ordinary with plain | transfer
  · exact sameIssue_of_plain plain other agree pc pc syscall syscall'
  · exact sameIssue_of_isTransfer transfer agree pc syscall syscall'

end

end Machine

end Sparcy
