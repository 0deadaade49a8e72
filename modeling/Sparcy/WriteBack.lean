import Sparcy.Stages

/-!
# Write-back

`WB.sv` is combinational: it selects the ALU result or the loaded bytes and
passes the write enables of `MemWBReg` to the register file.
-/

namespace Sparcy

namespace WB

/-- `WB_data_out`: every `op == 2'b11` takes the load path, and an `op3` that no
case names keeps the ALU result. -/
def data (x : MemWB) : BitVec 64 :=
  if x.op = 0b11 then
    if x.op3 = Op3.LDSB then (x.loadData.setWidth 8).signExtend 64
    else if x.op3 = Op3.LDSH then (x.loadData.setWidth 16).signExtend 64
    else if x.op3 = Op3.LDUB then (x.loadData.setWidth 8).setWidth 64
    else if x.op3 = Op3.LDUH then (x.loadData.setWidth 16).setWidth 64
    else if x.op3 = Op3.LD then (x.loadData.setWidth 32).setWidth 64
    else if x.op3 = Op3.LDD then x.loadData
    else x.alures
  else x.alures

/-- The outputs of `WB.sv`. -/
def out (x : MemWB) : WBOut :=
  if isBubble x.op x.op2 x.regD then
    { regEn := false, regDoubleEn := false, data := 0, regD := 0, yEn := false
      iccEn := false, icc := 0 }
  else
    { regEn := x.regWrite
      regDoubleEn := x.regWriteDouble
      data := data x
      regD := x.regD
      yEn := x.yWrite
      iccEn := x.iccWrite
      icc := x.icc }

end WB

end Sparcy
