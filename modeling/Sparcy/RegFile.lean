import Sparcy.Opcodes
import Mathlib.Logic.Function.Basic

/-!
# The windowed register file

`RegFile.sv` writes at the rising edge and samples its read ports at the
falling edge, so a read in a cycle sees every write of the edge that began the
cycle and none of the edge that ends it.
-/

namespace Sparcy

/-- The state of `RegFile.sv` that some output depends on. -/
structure RegFile where
  generalRegister : BitVec 9 → BitVec 32
  globalRegister : BitVec 3 → BitVec 32
  icc : BitVec 4
  cwp : BitVec 5
  y : BitVec 32

/-- What the write-back stage drives into the register file. -/
structure WBOut where
  regEn : Bool
  regDoubleEn : Bool
  data : BitVec 64
  regD : BitVec 5
  yEn : Bool
  iccEn : Bool
  icc : BitVec 4
deriving DecidableEq

namespace RegFile

/-- The value of every register after a reset. -/
def reset : RegFile :=
  { generalRegister := fun _ => 0
    globalRegister := fun _ => 0
    icc := 0
    cwp := 1
    y := 0 }

/-- `((r-8)+(16*PSR_CWP)) % (16*32)`, with `r` already widened to hold `rd+1`. -/
def windowIndex (cwp : BitVec 5) (r : BitVec 6) : BitVec 9 :=
  r.setWidth 9 - 8 + 16 * cwp.setWidth 9

/-- A read port: registers up to 7 are global.  `rd+1` of the double port may be
8 while `rd` is 7; that element does not exist and reads as 0. -/
def read (rf : RegFile) (r : BitVec 5) : BitVec 32 :=
  if r ≤ 7 then rf.globalRegister (r.setWidth 3)
  else rf.generalRegister (windowIndex rf.cwp (r.setWidth 6))

/-- The second word of the doubleword port, at `rd+1`. -/
def readNext (rf : RegFile) (r : BitVec 5) : BitVec 32 :=
  if r ≤ 7 then if r = 7 then 0 else rf.globalRegister (r.setWidth 3 + 1)
  else rf.generalRegister (windowIndex rf.cwp (r.setWidth 6 + 1))

/-- `val3`: `rd+1` in the high half. -/
def readDouble (rf : RegFile) (rd : BitVec 5) : BitVec 64 :=
  rf.readNext rd ++ rf.read rd

/-- `wr_reg`: register 0 is never written, and a global write stays below 8. -/
def writeFirst (rf : RegFile) (r : BitVec 5) (value : BitVec 32) : RegFile :=
  if r ≤ 7 then
    if r = 0 then rf
    else { rf with globalRegister := Function.update rf.globalRegister (r.setWidth 3) value }
  else
    { rf with
      generalRegister :=
        Function.update rf.generalRegister (windowIndex rf.cwp (r.setWidth 6)) value }

/-- The second register of a doubleword write, at `wr_reg+1`. -/
def writeNext (rf : RegFile) (r : BitVec 5) (value : BitVec 32) : RegFile :=
  if r ≤ 7 then
    if r = 7 then rf
    else { rf with globalRegister := Function.update rf.globalRegister (r.setWidth 3 + 1) value }
  else
    { rf with
      generalRegister :=
        Function.update rf.generalRegister (windowIndex rf.cwp (r.setWidth 6 + 1)) value }

/-- The register write port; the double enable acts only under `reg_write_en`. -/
def writeRegs (rf : RegFile) (wb : WBOut) : RegFile :=
  if wb.regEn then
    let first := rf.writeFirst wb.regD (wb.data.setWidth 32)
    if wb.regDoubleEn then first.writeNext wb.regD (wb.data.extractLsb' 32 32) else first
  else rf

/-- Everything the write-back stage changes at a rising edge. -/
def writeBack (rf : RegFile) (wb : WBOut) : RegFile :=
  let written := rf.writeRegs wb
  { written with
    icc := if wb.iccEn then wb.icc else rf.icc
    y := if wb.yEn then wb.data.extractLsb' 32 32 else rf.y }

/-- `PSR_CWP` after the edge.  The two conditions are separate statements, so a
decrement wins over an increment. -/
def nextCwp (rf : RegFile) (cwpInc cwpDec : Bool) : BitVec 5 :=
  if cwpDec then rf.cwp - 1 else if cwpInc then rf.cwp + 1 else rf.cwp

/-- One rising edge: the blocking register writes use the window before the
change. -/
def step (rf : RegFile) (wb : WBOut) (cwpInc cwpDec : Bool) : RegFile :=
  { rf.writeBack wb with cwp := rf.nextCwp cwpInc cwpDec }

end RegFile

end Sparcy
