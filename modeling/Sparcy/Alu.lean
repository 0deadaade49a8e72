import Sparcy.Opcodes

/-!
# The ALU

`ALU.sv` is one combinational block.  Every assignment to `ALU_res_out` is made
in a 64-bit context, so operands are widened before they are complemented,
added or shifted; the carry is then read off as bit 32.
-/

namespace Sparcy

/-- The inputs of `ALU.sv`, less the trap arguments: those only reach the
result through the call of `syscall_cse502`, whose return value the block
receives separately. -/
structure AluIn where
  valA : BitVec 32
  valB : BitVec 32
  op : BitVec 2
  op2 : BitVec 3
  imm22 : BitVec 22
  op3 : BitVec 6
  i : Bool
  simm13 : BitVec 13
  pc : BitVec 32
  a : Bool
  cond : BitVec 4
  disp30 : BitVec 30
  icc : BitVec 4
  y : BitVec 32
deriving DecidableEq

structure AluOut where
  res : BitVec 64
  target : BitVec 32
  muxSel : Bool
  icc : BitVec 4
  y : BitVec 32
  a : Bool
deriving DecidableEq

/-- Zero extension of an operand into the 64-bit context of `ALU_res_out`. -/
abbrev wide (value : BitVec 32) : BitVec 64 := value.setWidth 64

/-- `{n, z, v, c}`. -/
def iccOf (n z v c : Bool) : BitVec 4 :=
  BitVec.ofBool n ++ BitVec.ofBool z ++ BitVec.ofBool v ++ BitVec.ofBool c

namespace AluIn

/-- The second operand: `simm13` sign extended, or the register value. -/
def operand2 (x : AluIn) : BitVec 32 :=
  if x.i then x.simm13.signExtend 32 else x.valB

/-- The outputs before any opcode matches. -/
def default (x : AluIn) : AluOut :=
  { res := wide x.valA + wide x.operand2
    target := 0
    muxSel := false
    icc := x.icc
    y := x.y
    a := x.a }

/-- The test a `Bicc` makes on the condition codes; `BA` and `BN` make none. -/
def condition (cond icc : BitVec 4) : Bool :=
  let c := icc.getLsbD 0
  let v := icc.getLsbD 1
  let z := icc.getLsbD 2
  let n := icc.getLsbD 3
  if cond = Cond.BNE then !z
  else if cond = Cond.BE then z
  else if cond = Cond.BG then !(z || (n ^^ v))
  else if cond = Cond.BLE then z || (n ^^ v)
  else if cond = Cond.BGE then !(n ^^ v)
  else if cond = Cond.BL then n ^^ v
  else if cond = Cond.BGU then !(c || z)
  else if cond = Cond.BLEU then c || z
  else if cond = Cond.BCC then !c
  else if cond = Cond.BCS then c
  else if cond = Cond.BPOS then !n
  else if cond = Cond.BNEG then n
  else if cond = Cond.BVC then !v
  else if cond = Cond.BVS then v
  else false

def call (x : AluIn) : AluOut :=
  { x.default with
    target := x.pc + 4 * x.disp30.setWidth 32
    muxSel := true
    res := wide x.pc
    a := false }

/-- A taken conditional branch clears the annul request; `BA` keeps it. -/
def bicc (x : AluIn) : AluOut :=
  let out := { x.default with target := x.pc + 4 * x.imm22.signExtend 32 }
  if x.cond = Cond.BA then { out with muxSel := true }
  else if condition x.cond x.icc then { out with muxSel := true, a := false }
  else out

def sethi (x : AluIn) : AluOut :=
  { x.default with res := wide (x.imm22 ++ (0 : BitVec 10)) }

/-- `op == 2'b00`: `SETHI`, the branches, and everything else as an addition. -/
def format2 (x : AluIn) : AluOut :=
  if x.op2 = Op2.SETHI then x.sethi
  else if x.op2 = Op2.Bicc then x.bicc
  else x.default

/-- A logical result, with only the zero flag recomputed from the 64-bit value. -/
def logicalcc (x : AluIn) (res : BitVec 64) : AluOut :=
  let z := decide (res = 0)
  { x.default with
    res := res
    icc := iccOf (x.icc.getLsbD 3) z (x.icc.getLsbD 1) (x.icc.getLsbD 0) }

/-- `{n,z,v,c}` of a 64-bit sum or difference, the overflow given by the caller. -/
def arithIcc (res : BitVec 64) (v : Bool) : BitVec 4 :=
  iccOf (res.getLsbD 31) (decide (res = 0)) v (res.getLsbD 32)

/-- Signed overflow of an addition, as every adding opcode tests it. -/
def addOverflow (x : AluIn) (res : BitVec 64) : Bool :=
  (x.valA.getLsbD 31 == x.operand2.getLsbD 31) && (x.valA.getLsbD 31 != res.getLsbD 31)

/-- Signed overflow of a subtraction. -/
def subOverflow (x : AluIn) (res : BitVec 64) : Bool :=
  (x.valA.getLsbD 31 != x.operand2.getLsbD 31) && (x.valA.getLsbD 31 != res.getLsbD 31)

/-- A nonzero tag bit in either operand. -/
def tagged (x : AluIn) : Bool :=
  x.valA.getLsbD 0 || x.valA.getLsbD 1 || x.operand2.getLsbD 0 || x.operand2.getLsbD 1

/-- `ALU_icc_in[0]` in the 64-bit context. -/
def carryIn (x : AluIn) : BitVec 64 := (BitVec.ofBool (x.icc.getLsbD 0)).setWidth 64

def sum (x : AluIn) : BitVec 64 := wide x.valA + wide x.operand2
def difference (x : AluIn) : BitVec 64 := wide x.valA - wide x.operand2

def addcc (x : AluIn) (res : BitVec 64) : AluOut :=
  { x.default with res := res, icc := arithIcc res (x.addOverflow res) }

def subcc (x : AluIn) (res : BitVec 64) : AluOut :=
  { x.default with res := res, icc := arithIcc res (x.subOverflow res) }

def taddcc (x : AluIn) : AluOut :=
  { x.default with
    res := x.sum
    icc := arithIcc x.sum (x.tagged || x.addOverflow x.sum) }

/-- The trapping form puts the incoming codes back on a tag or an overflow, but
still drives the sum on the result bus. -/
def taddcctv (x : AluIn) : AluOut :=
  { x.default with
    res := x.sum
    icc := if x.tagged || x.addOverflow x.sum then x.icc else arithIcc x.sum false }

def tsubcc (x : AluIn) : AluOut :=
  { x.default with
    res := x.difference
    icc := arithIcc x.difference (x.tagged || x.subOverflow x.difference) }

def tsubcctv (x : AluIn) : AluOut :=
  { x.default with
    res := x.difference
    icc :=
      if x.tagged || x.subOverflow x.difference then x.icc
      else arithIcc x.difference false }

/-- The concatenation of `n ^ v` with the 32-bit `ALU_valA_in >> 1` is 33 bits
long and is assigned to the 32-bit `step2`. -/
def step2 (x : AluIn) : BitVec 32 :=
  (BitVec.ofBool (x.icc.getLsbD 3 ^^ x.icc.getLsbD 1) ++ x.valA >>> 1).setWidth 32

def mulscc (x : AluIn) : AluOut :=
  let res := if x.y.getLsbD 0 then wide x.operand2 + wide x.step2 else 0 + wide x.step2
  { x.default with
    res := res
    icc := arithIcc res (x.addOverflow res)
    y := BitVec.ofBool (x.valA.getLsbD 0) ++ x.y.extractLsb' 1 31 }

def umul (x : AluIn) : BitVec 64 := wide x.valA * wide x.operand2

/-- The operand of a cast is self-determined, so the product is cut to 32 bits
before its sign is extended. -/
def smul (x : AluIn) : BitVec 64 := (x.valA * x.operand2).signExtend 64

/-- Flags of the multiplications and divisions: `n` and `z` of the low word, `c = 0`. -/
def lowIcc (res : BitVec 64) (v : Bool) : BitVec 4 :=
  iccOf (res.getLsbD 31) (decide (res.setWidth 32 = 0)) v false

def mulcc (x : AluIn) (res : BitVec 64) : AluOut :=
  { x.default with res := res, icc := lowIcc res false }

def dividend (x : AluIn) : BitVec 64 := x.y ++ x.valA

/-- Division and remainder of the 64-bit dividend; a zero divisor gives zero. -/
def quotient (x : AluIn) : BitVec 32 :=
  if x.operand2 = 0 then 0 else (x.dividend / wide x.operand2).setWidth 32

def remainder (x : AluIn) : BitVec 32 :=
  if x.operand2 = 0 then 0 else (x.dividend % wide x.operand2).setWidth 32

/-- The overflow test of `UDIV` and `UDIVcc`, on the 33-bit sum of the two
truncated values. -/
def udivOverflow (x : AluIn) : Bool :=
  let result : BitVec 33 := x.remainder.setWidth 33 + x.quotient.setWidth 33
  decide (result > 0xffffffff) && decide (x.remainder = x.operand2 - 1)

def udiv (x : AluIn) : BitVec 64 :=
  if x.udivOverflow then wide 0xffffffff else wide x.quotient

def udivcc (x : AluIn) : AluOut :=
  { x.default with res := x.udiv, icc := lowIcc x.udiv x.udivOverflow }

/-- `SDIV` keeps only 31 bits of the remainder. -/
def sdivRemainder (x : AluIn) : BitVec 31 := x.remainder.setWidth 31

def sdivResult (x : AluIn) : BitVec 32 := x.sdivRemainder.setWidth 32 + x.quotient

/-- The saturation tests of `SDIV` compare a 32-bit value with `±2^31` unsigned. -/
def sdivUnderflow (x : AluIn) : Bool :=
  x.sdivResult.getLsbD 31 && decide (x.sdivResult < 0x80000000) && decide (x.sdivRemainder = 0)

def sdivOverflow (x : AluIn) : Bool :=
  !x.sdivResult.getLsbD 31 && decide (x.sdivResult > 0x7fffffff) &&
    decide (x.sdivRemainder.setWidth 32 = (x.operand2.setWidth 31).setWidth 32 - 1)

def sdiv (x : AluIn) : BitVec 64 :=
  if x.sdivUnderflow then (0x80000000 : BitVec 32).signExtend 64
  else if x.sdivOverflow then wide 0x7fffffff
  else wide x.quotient

def sdivcc (x : AluIn) : AluOut :=
  { x.default with
    res := x.sdiv
    icc := lowIcc x.sdiv (x.sdivUnderflow || x.sdivOverflow) }

def jmpl (x : AluIn) : AluOut :=
  { x.default with
    target := x.valA + x.operand2
    res := wide x.pc
    muxSel := true }

/-- The trap conditions in source order.  `TNEG` has the code of `TLEU`, so both
lines can match. -/
def trapTests (icc : BitVec 4) : List (BitVec 4 × Bool) :=
  let c := icc.getLsbD 0
  let v := icc.getLsbD 1
  let z := icc.getLsbD 2
  let n := icc.getLsbD 3
  [(Cond.TA, true), (Cond.TNE, !z), (Cond.TE, z), (Cond.TG, !(z || (n ^^ v))),
    (Cond.TLE, z || (n ^^ v)), (Cond.TGE, !(n ^^ v)), (Cond.TL, n ^^ v),
    (Cond.TGU, !(c || z)), (Cond.TLEU, c || z), (Cond.TCC, !c), (Cond.TCS, c),
    (Cond.TPOS, !n), (Cond.TNEG, n), (Cond.TVC, !v), (Cond.TVS, v)]

/-- How many times the trap lines call `syscall_cse502`. -/
def trapCalls (cond icc : BitVec 4) : Nat :=
  (trapTests icc).countP fun test => test.1 == cond && test.2

/-- The calls of `syscall_cse502` one evaluation of the block makes. -/
def syscalls (x : AluIn) : Nat :=
  if x.op = 0b10 ∧ x.op3 = Op3.Ticc then trapCalls x.cond x.icc else 0

/-- A taken trap returns the `int` of the call, sign extended. -/
def ticc (x : AluIn) (syscall : BitVec 32) : AluOut :=
  { x.default with
    res := if trapCalls x.cond x.icc = 0 then 0 else syscall.signExtend 64 }

/-- `op == 2'b10`: the tests on `op3` are mutually exclusive. -/
def format3 (x : AluIn) (syscall : BitVec 32) : AluOut :=
  let shift := (x.operand2.setWidth 5).toNat
  let b := wide x.operand2
  if x.op3 = Op3.SLL then { x.default with res := wide x.valA <<< shift }
  else if x.op3 = Op3.SRL then { x.default with res := wide x.valA >>> shift }
  else if x.op3 = Op3.SRA then
    { x.default with res := (x.valA.signExtend 64).sshiftRight shift }
  else if x.op3 = Op3.AND then { x.default with res := wide x.valA &&& b }
  else if x.op3 = Op3.ANDcc then x.logicalcc (wide x.valA &&& b)
  else if x.op3 = Op3.ANDN then { x.default with res := wide x.valA &&& ~~~b }
  else if x.op3 = Op3.ANDNcc then x.logicalcc (wide x.valA &&& ~~~b)
  else if x.op3 = Op3.OR then { x.default with res := wide x.valA ||| b }
  else if x.op3 = Op3.ORcc then x.logicalcc (wide x.valA ||| b)
  else if x.op3 = Op3.ORN then { x.default with res := wide x.valA ||| ~~~b }
  else if x.op3 = Op3.ORNcc then x.logicalcc (wide x.valA ||| ~~~b)
  else if x.op3 = Op3.XOR then { x.default with res := wide x.valA ^^^ b }
  else if x.op3 = Op3.XORcc then x.logicalcc (wide x.valA ^^^ b)
  else if x.op3 = Op3.XNOR then { x.default with res := wide x.valA ^^^ ~~~b }
  else if x.op3 = Op3.XNORcc then x.logicalcc (wide x.valA ^^^ ~~~b)
  else if x.op3 = Op3.ADD ∨ x.op3 = Op3.SAVE ∨ x.op3 = Op3.RESTORE then
    { x.default with res := x.sum }
  else if x.op3 = Op3.ADDcc then x.addcc x.sum
  else if x.op3 = Op3.ADDX then { x.default with res := x.sum + x.carryIn }
  else if x.op3 = Op3.ADDXcc then x.addcc (x.sum + x.carryIn)
  else if x.op3 = Op3.TADDcc then x.taddcc
  else if x.op3 = Op3.TADDccTV then x.taddcctv
  else if x.op3 = Op3.TSUBcc then x.tsubcc
  else if x.op3 = Op3.TSUBccTV then x.tsubcctv
  else if x.op3 = Op3.SUB then { x.default with res := x.difference }
  else if x.op3 = Op3.SUBcc then x.subcc x.difference
  else if x.op3 = Op3.SUBX then { x.default with res := x.difference - x.carryIn }
  else if x.op3 = Op3.SUBXcc then x.subcc (x.difference - x.carryIn)
  else if x.op3 = Op3.MULScc then x.mulscc
  else if x.op3 = Op3.UMUL then { x.default with res := x.umul }
  else if x.op3 = Op3.SMUL then { x.default with res := x.smul }
  else if x.op3 = Op3.UMULcc then x.mulcc x.umul
  else if x.op3 = Op3.SMULcc then x.mulcc x.smul
  else if x.op3 = Op3.UDIV then { x.default with res := x.udiv }
  else if x.op3 = Op3.UDIVcc then x.udivcc
  else if x.op3 = Op3.SDIV then { x.default with res := x.sdiv }
  else if x.op3 = Op3.SDIVcc then x.sdivcc
  else if x.op3 = Op3.JMPL then x.jmpl
  else if x.op3 = Op3.RDY then { x.default with res := wide x.y }
  else if x.op3 = Op3.WRY then { x.default with res := (x.valA ^^^ x.operand2) ++ (0 : BitVec 32) }
  else if x.op3 = Op3.Ticc then x.ticc syscall
  else x.default

/-- `ALU.sv`, given the value `syscall_cse502` returns if it is called. -/
def alu (x : AluIn) (syscall : BitVec 32) : AluOut :=
  if x.op = 0b01 then x.call
  else if x.op = 0b11 then x.default
  else if x.op = 0b00 then x.format2
  else x.format3 syscall

end AluIn

end Sparcy
