import Sparcy.RegFile

/-!
# Pipeline registers

The contents of `IFIDReg`, `IDEXReg`, `EXMemReg` and `MemWBReg`.  Each register
loads at the rising edge under the enable its module tests; the values below
are what its outputs show during a cycle.
-/

namespace Sparcy

/-- `IFIDReg`. -/
structure IFID where
  pcPlus4 : BitVec 64
  inst : Inst
deriving DecidableEq

/-- The decoded fields and write enables that decode drives into `IDEXReg`. -/
structure Fields where
  a : Bool
  op3 : BitVec 6
  i : Bool
  imm13 : BitVec 13
  disp22 : BitVec 22
  op : BitVec 2
  cond : BitVec 4
  op2 : BitVec 3
  rd : BitVec 5
  disp30 : BitVec 30
  regWrite : Bool
  regWriteDouble : Bool
  iccWrite : Bool
  yWrite : Bool
deriving DecidableEq

/-- The register file outputs that `IDEXReg` samples. -/
structure Operands where
  valA : BitVec 32
  valB : BitVec 32
  valD : BitVec 64
  icc : BitVec 4
  y : BitVec 32
  g1 : BitVec 32
  o0 : BitVec 32
  o1 : BitVec 32
  o2 : BitVec 32
  o3 : BitVec 32
  o4 : BitVec 32
  o5 : BitVec 32
deriving DecidableEq

/-- `IDEXReg`. -/
structure IDEX where
  pcPlus4 : BitVec 64
  fields : Fields
  operands : Operands
deriving DecidableEq

/-- `EXMemReg`. -/
structure EXMem where
  target : BitVec 64
  muxSel : Bool
  regD : BitVec 5
  alures : BitVec 64
  op : BitVec 2
  op2 : BitVec 3
  op3 : BitVec 6
  valD : BitVec 64
  regWrite : Bool
  regWriteDouble : Bool
  icc : BitVec 4
  iccWrite : Bool
  y : BitVec 32
  yWrite : Bool
deriving DecidableEq

/-- `MemWBReg`. -/
structure MemWB where
  alures : BitVec 64
  loadData : BitVec 64
  op : BitVec 2
  op2 : BitVec 3
  op3 : BitVec 6
  regD : BitVec 5
  regWrite : Bool
  regWriteDouble : Bool
  icc : BitVec 4
  iccWrite : Bool
  y : BitVec 32
  yWrite : Bool
deriving DecidableEq

def IFID.reset : IFID := { pcPlus4 := 0, inst := 0 }

def Fields.reset : Fields :=
  { a := false, op3 := 0, i := false, imm13 := 0, disp22 := 0, op := 0, cond := 0
    op2 := 0, rd := 0, disp30 := 0, regWrite := false, regWriteDouble := false
    iccWrite := false, yWrite := false }

def Operands.reset : Operands :=
  { valA := 0, valB := 0, valD := 0, icc := 0, y := 0, g1 := 0, o0 := 0, o1 := 0
    o2 := 0, o3 := 0, o4 := 0, o5 := 0 }

def IDEX.reset : IDEX := { pcPlus4 := 0, fields := .reset, operands := .reset }

def EXMem.reset : EXMem :=
  { target := 0, muxSel := false, regD := 0, alures := 0, op := 0, op2 := 0, op3 := 0
    valD := 0, regWrite := false, regWriteDouble := false, icc := 0, iccWrite := false
    y := 0, yWrite := false }

/-- `MemWB_op2_out <= 100` is the decimal literal, whose low three bits are `100`. -/
def MemWB.reset : MemWB :=
  { alures := 0, loadData := 0, op := 0, op2 := 0b100, op3 := 0, regD := 0
    regWrite := false, regWriteDouble := false, icc := 0, iccWrite := false
    y := 0, yWrite := false }

/-- The bubble pattern tested by Execute and WB: `SETHI` to `%g0`. -/
def isBubble (op : BitVec 2) (op2 : BitVec 3) (rd : BitVec 5) : Bool :=
  op == 0b00 && op2 == Op2.SETHI && rd == 0

end Sparcy
