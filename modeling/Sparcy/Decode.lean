import Sparcy.Stages

/-!
# Instruction decode

`InstructionDecode.sv`: the stall predicates, and a three-state machine that
presents the instruction in `IFIDReg` (`STATEA`), holds one that Execute cannot
take yet (`STATEB`), or holds one that waits for an older writer (`STATES`).
-/

namespace Sparcy

namespace Decode

inductive State where
  | a
  | b
  | s
deriving DecidableEq

/-- The function `reg_write`. -/
def regWrite (op : BitVec 2) (op3 : BitVec 6) (op2 : BitVec 3) (cond : BitVec 4) : Bool :=
  if op = 0b11 ∧ (op3 = Op3.STB ∨ op3 = Op3.STH ∨ op3 = Op3.ST ∨ op3 = Op3.STD) then false
  else if op = 0b00 ∧ op2 = Op2.Bicc then false
  else if op = 0b10 ∧ op3 = Op3.Ticc ∧ cond = Cond.TN then false
  else if op = 0b10 ∧ op3 = Op3.WRY then false
  else true

/-- The function `reg_write_double`. -/
def regWriteDouble (op : BitVec 2) (op3 : BitVec 6) : Bool :=
  decide (op = 0b11 ∧ op3 = Op3.LDD)

/-- The function `instruction_dependancy`; `rd+1` is computed in 32 bits, so it
never wraps to register 0. -/
def instructionDependancy (rs1 rs2 rd : BitVec 5) (regwrite regwritedouble : Bool) : Bool :=
  ((rs1 == rd || rs2 == rd) && rd != 0 && regwrite) ||
    ((rs1.toNat == rd.toNat + 1 || rs2.toNat == rd.toNat + 1) && regwritedouble)

/-- The opcodes that set the condition codes. -/
def setsCc (op3 : BitVec 6) : Bool :=
  decide (op3 = Op3.ANDcc ∨ op3 = Op3.ANDNcc ∨ op3 = Op3.ORcc ∨ op3 = Op3.ORNcc ∨
    op3 = Op3.XORcc ∨ op3 = Op3.XNORcc ∨ op3 = Op3.ADDcc ∨ op3 = Op3.ADDXcc ∨
    op3 = Op3.TADDcc ∨ op3 = Op3.TADDccTV ∨ op3 = Op3.SUBcc ∨ op3 = Op3.SUBXcc ∨
    op3 = Op3.TSUBcc ∨ op3 = Op3.TSUBccTV ∨ op3 = Op3.MULScc ∨ op3 = Op3.UMULcc ∨
    op3 = Op3.SMULcc ∨ op3 = Op3.UDIVcc ∨ op3 = Op3.SDIVcc)

/-- The function `cc_dep`.  Its list is that of `cc_write` with the trap and the
two carry readers added; an `op == 2'b10` that matches nothing falls off the
end, which leaves the two-state return value at 0. -/
def ccDep (op : BitVec 2) (op2 : BitVec 3) (op3 : BitVec 6) (write : Bool) : Bool :=
  write &&
    (decide (op = 0b00 ∧ op2 = Op2.Bicc) ||
      (decide (op = 0b10) &&
        (decide (op3 = Op3.Ticc) || setsCc op3 || decide (op3 = Op3.ADDX ∨ op3 = Op3.SUBX))))

/-- The function `cc_write`. -/
def ccWrite (op : BitVec 2) (op3 : BitVec 6) : Bool :=
  decide (op = 0b10) && setsCc op3

/-- The function `Y_write`. -/
def yWrite (op : BitVec 2) (op3 : BitVec 6) : Bool :=
  decide (op = 0b10 ∧ (op3 = Op3.MULScc ∨ op3 = Op3.UMUL ∨ op3 = Op3.UMULcc ∨
    op3 = Op3.SMUL ∨ op3 = Op3.SMULcc ∨ op3 = Op3.WRY))

/-- The function `Y_dep`. -/
def yDep (op : BitVec 2) (op3 : BitVec 6) (exwrite memwrite wbwrite : Bool) : Bool :=
  (exwrite || memwrite || wbwrite) &&
    decide (op = 0b10 ∧ (op3 = Op3.UDIV ∨ op3 = Op3.SDIV ∨ op3 = Op3.UDIVcc ∨
      op3 = Op3.SDIVcc ∨ op3 = Op3.RDY))

/-- The function `store_dep`, on the store's own data register `rs`. -/
def storeDep (op : BitVec 2) (op3 : BitVec 6) (rs rd : BitVec 5)
    (write writeDouble : Bool) : Bool :=
  if op = 0b11 ∧ (op3 = Op3.STB ∨ op3 = Op3.STH ∨ op3 = Op3.ST ∨ op3 = Op3.SWAP) then
    (rs == rd && write) || (rs.toNat == rd.toNat + 1 && writeDouble)
  else if op = 0b11 ∧ op3 = Op3.STD then
    (write && (rs == rd || rs.toNat + 1 == rd.toNat)) ||
      (writeDouble && (rs.toNat == rd.toNat + 1 || rs.toNat + 1 == rd.toNat + 1))
  else false

/-- `%g1` and `%o0` to `%o5`, the registers a trap reads implicitly. -/
def trapRegister (rd : BitVec 5) : Bool :=
  decide (rd = 1 ∨ rd = 8 ∨ rd = 9 ∨ rd = 10 ∨ rd = 11 ∨ rd = 12 ∨ rd = 13)

/-- The function `trap_dep`. -/
def trapDep (op : BitVec 2) (op3 : BitVec 6) (exregd : BitVec 5) (exwrite : Bool)
    (memregd : BitVec 5) (memwrite : Bool) (wbregd : BitVec 5) (wbwrite : Bool) : Bool :=
  decide (op = 0b10 ∧ op3 = Op3.Ticc) &&
    ((exwrite && trapRegister exregd) || (memwrite && trapRegister memregd) ||
      (wbwrite && trapRegister wbregd))

/-- What one later stage reports to the stall predicates. -/
structure Hazard where
  rd : BitVec 5
  regWrite : Bool
  regWriteDouble : Bool
  iccWrite : Bool
  yWrite : Bool
deriving DecidableEq

/-- The reports of Execute, Mem and WB.  `Core.sv` leaves `MemWB_Y_write`
unconnected, so the write-back report has `yWrite = false`. -/
structure Hazards where
  ex : Hazard
  mem : Hazard
  wb : Hazard
deriving DecidableEq

/-- The disjunction tested in `STATEA` on the new instruction and in `STATES` on
the held one. -/
def stalls (inst : Inst) (h : Hazards) : Bool :=
  instructionDependancy inst.rs1 inst.rs2 h.ex.rd h.ex.regWrite h.ex.regWriteDouble ||
  instructionDependancy inst.rs1 inst.rs2 h.mem.rd h.mem.regWrite h.mem.regWriteDouble ||
  instructionDependancy inst.rs1 inst.rs2 h.wb.rd h.wb.regWrite h.wb.regWriteDouble ||
  ccDep inst.op inst.op2 inst.op3 h.ex.iccWrite ||
  ccDep inst.op inst.op2 inst.op3 h.mem.iccWrite ||
  ccDep inst.op inst.op2 inst.op3 h.wb.iccWrite ||
  yDep inst.op inst.op3 h.ex.yWrite h.mem.yWrite h.wb.yWrite ||
  storeDep inst.op inst.op3 inst.rd h.ex.rd h.ex.regWrite h.ex.regWriteDouble ||
  storeDep inst.op inst.op3 inst.rd h.mem.rd h.mem.regWrite h.mem.regWriteDouble ||
  storeDep inst.op inst.op3 inst.rd h.wb.rd h.wb.regWrite h.wb.regWriteDouble ||
  trapDep inst.op inst.op3 h.ex.rd h.ex.regWrite h.mem.rd h.mem.regWrite h.wb.rd h.wb.regWrite

/-- The destination decode names: `%o7` for `CALL` and `%o0` for a trap. -/
def destination (inst : Inst) : BitVec 5 :=
  if inst.op = 0b01 then 0b01111
  else if inst.op = 0b10 ∧ inst.op3 = Op3.Ticc then 0b01000
  else inst.rd

/-- The fields of a released instruction, with its write enables. -/
def fieldsOf (inst : Inst) (regWrite regWriteDouble iccWrite yWrite : Bool) : Fields :=
  { a := inst.a, op3 := inst.op3, i := inst.i, imm13 := inst.imm13
    disp22 := inst.disp22, op := inst.op, cond := inst.cond, op2 := inst.op2
    rd := destination inst, disp30 := inst.disp30, regWrite := regWrite
    regWriteDouble := regWriteDouble, iccWrite := iccWrite, yWrite := yWrite }

/-- The outputs of the no-op branch of `STATEA`: the word's fields, no destination
and no write enable. -/
def bubbleFields (inst : Inst) : Fields :=
  { fieldsOf inst false false false false with rd := 0 }

/-- The constant outputs driven while an instruction waits for an older writer. -/
def stallFields : Fields :=
  { Fields.reset with op3 := 0b100000, op2 := 0b100 }

/-- The fields decode computes for a word in `STATEA`. -/
def decodeFields (inst : Inst) : Fields :=
  fieldsOf inst (regWrite inst.op inst.op3 inst.op2 inst.cond)
    (regWriteDouble inst.op inst.op3) (ccWrite inst.op inst.op3) (yWrite inst.op inst.op3)

/-- The two words that `STATEA` passes on without any check. -/
def isNop (inst : Inst) : Bool := inst == Inst.nop || inst == Inst.stbar

/-- The registers of `InstructionDecode.sv`. -/
structure Regs where
  pState : State
  pPc : BitVec 64
  pInst : Inst
  pRegWrite : Bool
  pRegWriteDouble : Bool
  pIccWrite : Bool
  pYWrite : Bool
deriving DecidableEq

namespace Regs

def reset : Regs :=
  { pState := .a, pPc := 0, pInst := 0, pRegWrite := false, pRegWriteDouble := false
    pIccWrite := false, pYWrite := false }

/-- `id_ready`. -/
def idReady (r : Regs) : Bool := r.pState == .a

/-- `n_inst`, which also addresses the register file's read ports. -/
def nInst (r : Regs) (ifid : IFID) : Inst :=
  match r.pState with
  | .a => ifid.inst
  | _ => r.pInst

/-- `n_pc`. -/
def nPc (r : Regs) (ifid : IFID) : BitVec 64 :=
  match r.pState with
  | .a => ifid.pcPlus4
  | _ => r.pPc

/-- The fields of the instruction under decode: computed in `STATEA`, and
rebuilt from the stored write enables in the two holding states. -/
def nFields (r : Regs) (ifid : IFID) : Fields :=
  match r.pState with
  | .a => decodeFields ifid.inst
  | _ => fieldsOf r.pInst r.pRegWrite r.pRegWriteDouble r.pIccWrite r.pYWrite

/-- Whether the instruction under decode is kept back by an older writer;
`STATEB` does not look again. -/
def waits (r : Regs) (ifid : IFID) (h : Hazards) : Bool :=
  match r.pState with
  | .a => !isNop ifid.inst && stalls ifid.inst h
  | .b => false
  | .s => stalls r.pInst h

/-- Whether `STATEA` sees one of the words it passes on unchecked. -/
def passesNop (r : Regs) (ifid : IFID) : Bool :=
  r.pState == .a && isNop ifid.inst

/-- The fields and the program counter driven into `IDEXReg`. -/
def outFields (r : Regs) (ifid : IFID) (h : Hazards) : Fields :=
  if r.passesNop ifid then bubbleFields ifid.inst
  else if r.waits ifid h then stallFields
  else r.nFields ifid

def outPc (r : Regs) (ifid : IFID) (h : Hazards) : BitVec 64 :=
  if r.waits ifid h then 0 else r.nPc ifid

/-- The instruction under decode moves to `IDEXReg` at the next edge. -/
def releases (r : Regs) (ifid : IFID) (h : Hazards) (exReady : Bool) : Bool :=
  !r.passesNop ifid && !r.waits ifid h && exReady

/-- `n_state`. -/
def nState (r : Regs) (ifid : IFID) (h : Hazards) (exReady : Bool) : State :=
  if r.passesNop ifid then .a
  else if r.waits ifid h then .s
  else if exReady then .a
  else .b

/-- `cwp_dec` and `cwp_inc`, pulsed when a `SAVE` or `RESTORE` is released. -/
def cwpDec (r : Regs) (ifid : IFID) (h : Hazards) (exReady : Bool) : Bool :=
  r.releases ifid h exReady &&
    decide ((r.nInst ifid).op = 0b10 ∧ (r.nInst ifid).op3 = Op3.SAVE)

def cwpInc (r : Regs) (ifid : IFID) (h : Hazards) (exReady : Bool) : Bool :=
  r.releases ifid h exReady &&
    decide ((r.nInst ifid).op = 0b10 ∧ (r.nInst ifid).op3 = Op3.RESTORE)

/-- The registers after the next edge. -/
def step (r : Regs) (ifid : IFID) (h : Hazards) (exReady : Bool) : Regs :=
  let fields := r.nFields ifid
  { pState := r.nState ifid h exReady
    pPc := r.nPc ifid
    pInst := r.nInst ifid
    pRegWrite := fields.regWrite
    pRegWriteDouble := fields.regWriteDouble
    pIccWrite := fields.iccWrite
    pYWrite := fields.yWrite }

end Regs

/-- The operands that `RegFile` shows for the word under decode. -/
def operands (rf : RegFile) (inst : Inst) : Operands :=
  { valA := rf.read inst.rs1
    valB := rf.read inst.rs2
    valD := rf.readDouble inst.rd
    icc := rf.icc
    y := rf.y
    g1 := rf.read 1
    o0 := rf.read 8
    o1 := rf.read 9
    o2 := rf.read 10
    o3 := rf.read 11
    o4 := rf.read 12
    o5 := rf.read 13 }

end Decode

end Sparcy
