import Sparcy.Alu
import Sparcy.Decode

/-!
# Execute

`Execute.sv` runs the ALU on the contents of `IDEXReg` in `STATEA` and keeps a
copy of the result in `STATEB` while Mem is busy.  `annul_in` is the annul
request of the previous cycle; while it is set the outputs are squashed and
`ex_ready` is not assigned, so synthesis infers a latch for it.
-/

namespace Sparcy

namespace Execute

inductive State where
  | a
  | b
deriving DecidableEq

/-- The registers of `Execute.sv` that reach an output.  `exReadyLatch` is the
value `ex_ready` had when the previous cycle settled. -/
structure Regs where
  pState : State
  pRes : BitVec 64
  pTarget : BitVec 32
  pMuxSel : Bool
  pRd : BitVec 5
  pOp : BitVec 2
  pOp2 : BitVec 3
  pOp3 : BitVec 6
  pValD : BitVec 64
  pRegWrite : Bool
  pRegWriteDouble : Bool
  pIcc : BitVec 4
  pIccWrite : Bool
  pY : BitVec 32
  pYWrite : Bool
  pA : Bool
  annulIn : Bool
  exReadyLatch : Bool
deriving DecidableEq

/-- The state after a reset, in which the unassigned latch has settled at 1. -/
def reset : Regs :=
  { pState := .a, pRes := 0, pTarget := 0, pMuxSel := false, pRd := 0, pOp := 0, pOp2 := 0
    pOp3 := 0, pValD := 0, pRegWrite := false, pRegWriteDouble := false, pIcc := 0
    pIccWrite := false, pY := 0, pYWrite := false, pA := false, annulIn := false
    exReadyLatch := true }

/-- The ALU inputs wired to `IDEXReg`. -/
def aluIn (x : IDEX) : AluIn :=
  { valA := x.operands.valA
    valB := x.operands.valB
    op := x.fields.op
    op2 := x.fields.op2
    imm22 := x.fields.disp22
    op3 := x.fields.op3
    i := x.fields.i
    simm13 := x.fields.imm13
    pc := x.pcPlus4.setWidth 32
    a := x.fields.a
    cond := x.fields.cond
    disp30 := x.fields.disp30
    icc := x.operands.icc
    y := x.operands.y }

/-- The ALU outputs for the contents of `IDEXReg`. -/
def aluOut (x : IDEX) (syscall : BitVec 32) : AluOut := (aluIn x).alu syscall

/-- The test of Execute for a bubble in `IDEXReg`. -/
def idle (x : IDEX) : Bool := isBubble x.fields.op x.fields.op2 x.fields.rd

/-- `op == 2'b00 && op2 == 3'b010`. -/
def isBicc (op : BitVec 2) (op2 : BitVec 3) : Bool := op == 0b00 && op2 == Op2.Bicc

/-- The outputs of `STATEA`: the live ALU results. -/
def live (x : IDEX) (syscall : BitVec 32) : EXMem :=
  let out := aluOut x syscall
  { target := out.target.setWidth 64
    muxSel := out.muxSel
    regD := x.fields.rd
    alures := out.res
    op := x.fields.op
    op2 := x.fields.op2
    op3 := x.fields.op3
    valD := x.operands.valD
    regWrite := x.fields.regWrite
    regWriteDouble := x.fields.regWriteDouble
    icc := out.icc
    iccWrite := x.fields.iccWrite
    y := out.y
    yWrite := x.fields.yWrite }

namespace Regs

/-- The outputs of `STATEB`: the stored copy. -/
def held (r : Regs) : EXMem :=
  { target := r.pTarget.setWidth 64
    muxSel := r.pMuxSel
    regD := r.pRd
    alures := r.pRes
    op := r.pOp
    op2 := r.pOp2
    op3 := r.pOp3
    valD := r.pValD
    regWrite := r.pRegWrite
    regWriteDouble := r.pRegWriteDouble
    icc := r.pIcc
    iccWrite := r.pIccWrite
    y := r.pY
    yWrite := r.pYWrite }

/-- The outputs while `annul_in` is set: a bubble with leftover data. -/
def squashed (r : Regs) : EXMem :=
  { target := r.pTarget.setWidth 64
    muxSel := false
    regD := 0
    alures := r.pRes
    op := 0b00
    op2 := 0b100
    op3 := 0b100000
    valD := r.pValD
    regWrite := false
    regWriteDouble := false
    icc := 0
    iccWrite := false
    y := r.pY
    yWrite := false }

/-- The tuple driven into `EXMemReg`. -/
def out (r : Regs) (x : IDEX) (syscall : BitVec 32) : EXMem :=
  if r.annulIn then r.squashed
  else match r.pState with
    | .a => live x syscall
    | .b => r.held

/-- `ex_ready`: not assigned while `annul_in` is set. -/
def exReady (r : Regs) : Bool :=
  if r.annulIn then r.exReadyLatch
  else match r.pState with
    | .a => true
    | .b => false

/-- The report to the stall predicates: the instruction in `IDEXReg` or, in
`STATEB`, the stored one. -/
def hazard (r : Regs) (x : IDEX) : Decode.Hazard :=
  if r.annulIn then
    { rd := 0, regWrite := false, regWriteDouble := false, iccWrite := false, yWrite := false }
  else match r.pState with
    | .a =>
        { rd := x.fields.rd
          regWrite := x.fields.regWrite
          regWriteDouble := x.fields.regWriteDouble
          iccWrite := x.fields.iccWrite
          yWrite := x.fields.yWrite }
    | .b =>
        { rd := r.pRd
          regWrite := r.pRegWrite
          regWriteDouble := r.pRegWriteDouble
          iccWrite := r.pIccWrite
          yWrite := r.pYWrite }

/-- `n_state`. -/
def nState (r : Regs) (x : IDEX) (memReady : Bool) : State :=
  match r.pState with
  | .a => if idle x || memReady then .a else .b
  | .b => if memReady then .a else .b

/-- `annul_out`.  A stalled branch asks with its `a` bit (`p_a`), an unstalled one
with the ALU's answer. -/
def annulOut (r : Regs) (x : IDEX) (memReady : Bool) (syscall : BitVec 32) : Bool :=
  match r.pState with
  | .a =>
      if idle x then r.annulIn
      else memReady && (isBicc x.fields.op x.fields.op2 && (aluOut x syscall).a)
  | .b => memReady && (isBicc r.pOp r.pOp2 && r.pA)

/-- The stored copy after the next edge. -/
def copy (r : Regs) (x : IDEX) (syscall : BitVec 32) : Regs :=
  match r.pState with
  | .a =>
      let out := aluOut x syscall
      { r with
        pRes := out.res
        pTarget := out.target
        pMuxSel := out.muxSel
        pRd := x.fields.rd
        pOp := x.fields.op
        pOp2 := x.fields.op2
        pOp3 := x.fields.op3
        pValD := x.operands.valD
        pRegWrite := x.fields.regWrite
        pRegWriteDouble := x.fields.regWriteDouble
        pIcc := out.icc
        pIccWrite := x.fields.iccWrite
        pY := out.y
        pYWrite := x.fields.yWrite
        pA := x.fields.a }
  | .b => r

/-- The registers after the next edge. -/
def step (r : Regs) (x : IDEX) (memReady : Bool) (syscall : BitVec 32) : Regs :=
  { r.copy x syscall with
    pState := r.nState x memReady
    annulIn := r.annulOut x memReady syscall
    exReadyLatch := r.exReady }

section

variable (r : Regs) (x : IDEX) (memReady : Bool) (syscall : BitVec 32)

@[simp]
theorem step_pState : (r.step x memReady syscall).pState = r.nState x memReady := rfl

@[simp]
theorem step_annulIn :
    (r.step x memReady syscall).annulIn = r.annulOut x memReady syscall := rfl

@[simp]
theorem step_exReadyLatch : (r.step x memReady syscall).exReadyLatch = r.exReady := rfl

theorem copy_of_held {r : Regs} (holding : r.pState = .b) : r.copy x syscall = r := by
  simp [copy, holding]

theorem exReady_of_unstalled {r : Regs} (unstalled : r.pState = .a)
    (latched : r.annulIn = true → r.exReadyLatch = true) : r.exReady = true := by
  cases annulled : r.annulIn with
  | false => simp [exReady, annulled, unstalled]
  | true => simp [exReady, annulled, latched annulled]

theorem exReady_of_held {r : Regs} (holding : r.pState = .b) (kept : r.annulIn = false) :
    r.exReady = false := by
  simp [exReady, holding, kept]

end

end Regs

end Execute

/-- `IDEXReg` after the next edge. -/
def IDEX.step (x next : IDEX) (exReady : Bool) : IDEX := if exReady then next else x

/-- `EXMemReg` after the next edge. -/
def EXMem.step (x next : EXMem) (memReady : Bool) : EXMem := if memReady then next else x

/-- `IFIDReg` after the next edge. -/
def IFID.step (x next : IFID) (idReady : Bool) : IFID := if idReady then next else x

end Sparcy
