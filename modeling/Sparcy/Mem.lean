import Sparcy.Decode

/-!
# The memory stage

`Mem.sv` passes other instructions through and, for a load or store, raises a
request to the data cache and holds a copy of the instruction until the
acknowledgement.  While it waits it shows bubbles to `MemWBReg`.
-/

namespace Sparcy

/-- The request inputs of `DCacheDirectMap`. -/
structure DcRequest where
  req : Bool
  lineAddr : BitVec 58
  wordSelect : BitVec 3
  byteOffset : BitVec 3
  readWriteN : Bool
  dataIn : BitVec 64
  storeType : BitVec 2
  loadType : BitVec 2
deriving DecidableEq

namespace Mem

inductive State where
  | a
  | b
deriving DecidableEq

/-- The function `store_op`. -/
def storeOp (op : BitVec 2) (op3 : BitVec 6) : Bool :=
  decide (op = 0b11 ∧ (op3 = Op3.STB ∨ op3 = Op3.STH ∨ op3 = Op3.ST ∨ op3 = Op3.STD ∨
    op3 = Op3.SWAP))

/-- The function `load_op`. -/
def loadOp (op : BitVec 2) (op3 : BitVec 6) : Bool :=
  decide (op = 0b11 ∧ (op3 = Op3.LDSB ∨ op3 = Op3.LDSH ∨ op3 = Op3.LDUB ∨ op3 = Op3.LDUH ∨
    op3 = Op3.LD ∨ op3 = Op3.LDD))

/-- The function `store_t`. -/
def storeT (op3 : BitVec 6) : BitVec 2 :=
  if op3 = Op3.STB ∨ op3 = Op3.LDSTUB then 0b00
  else if op3 = Op3.STH then 0b01
  else if op3 = Op3.ST ∨ op3 = Op3.SWAP then 0b10
  else if op3 = Op3.STD then 0b11
  else 0b10

/-- The function `load_t`. -/
def loadT (op3 : BitVec 6) : BitVec 2 :=
  if op3 = Op3.LDSB ∨ op3 = Op3.LDUB ∨ op3 = Op3.LDSTUB then 0b00
  else if op3 = Op3.LDSH ∨ op3 = Op3.LDUH then 0b01
  else if op3 = Op3.LD ∨ op3 = Op3.SWAP then 0b10
  else if op3 = Op3.LDD then 0b11
  else 0b10

/-- The registers of `Mem.sv` that reach an output.  `dcReqLatch` is the value
`dc_req` had when the previous cycle settled: `STATEB` does not assign it while
it waits. -/
structure Regs where
  pState : State
  pAlures : BitVec 64
  pOp : BitVec 2
  pOp2 : BitVec 3
  pOp3 : BitVec 6
  pRegd : BitVec 5
  pDcLineAddr : BitVec 58
  pDcWordSelect : BitVec 3
  pByteOffset : BitVec 3
  pDcDataToCache : BitVec 64
  pDcReadWriteN : Bool
  pRegWrite : Bool
  pRegWriteDouble : Bool
  pStoreType : BitVec 2
  pLoadType : BitVec 2
  pIcc : BitVec 4
  pIccWrite : Bool
  pY : BitVec 32
  pYWrite : Bool
  dcReqLatch : Bool
deriving DecidableEq

def reset : Regs :=
  { pState := .a, pAlures := 0, pOp := 0b00, pOp2 := 0b100, pOp3 := 0b100000, pRegd := 0
    pDcLineAddr := 0, pDcWordSelect := 0, pByteOffset := 0, pDcDataToCache := 0
    pDcReadWriteN := true, pRegWrite := false, pRegWriteDouble := false, pStoreType := 0
    pLoadType := 0, pIcc := 0, pIccWrite := false, pY := 0, pYWrite := false
    dcReqLatch := false }

/-- `{44'h00000000000, Mem_alures_in[19:6]}`. -/
def lineAddr (alures : BitVec 64) : BitVec 58 := (alures.extractLsb' 6 14).setWidth 58

/-- A load or a store in `EXMemReg`. -/
def accesses (x : EXMem) : Bool := loadOp x.op x.op3 || storeOp x.op x.op3

/-- `n_dc_read_write_n`: only a store clears it. -/
def readWriteN (x : EXMem) : Bool := !storeOp x.op x.op3

namespace Regs

/-- `mem_ready`. -/
def memReady (r : Regs) : Bool := r.pState == .a

/-- `dc_req`. -/
def dcReq (r : Regs) (x : EXMem) (dcAck : Bool) : Bool :=
  match r.pState with
  | .a => accesses x
  | .b => if dcAck then false else r.dcReqLatch

/-- The request driven to the data cache: straight from `EXMemReg` in the first
cycle, from the copies afterwards.  The constant data of an `LDSTUB` is driven
only under a request, which an `LDSTUB` does not raise. -/
def request (r : Regs) (x : EXMem) (dcAck : Bool) : DcRequest :=
  match r.pState with
  | .a =>
      { req := r.dcReq x dcAck
        lineAddr := lineAddr x.alures
        wordSelect := x.alures.extractLsb' 3 3
        byteOffset := x.alures.extractLsb' 0 3
        readWriteN := readWriteN x
        dataIn :=
          if accesses x ∧ x.op3 = Op3.LDSTUB then 0x1111111111111111 else x.valD
        storeType := storeT x.op3
        loadType := loadT x.op3 }
  | .b =>
      { req := r.dcReq x dcAck
        lineAddr := r.pDcLineAddr
        wordSelect := r.pDcWordSelect
        byteOffset := r.pByteOffset
        readWriteN := r.pDcReadWriteN
        dataIn := r.pDcDataToCache
        storeType := r.pStoreType
        loadType := r.pLoadType }

/-- The instruction passes to `MemWBReg` in this cycle; otherwise a bubble does. -/
def passes (r : Regs) (x : EXMem) (dcAck : Bool) : Bool :=
  match r.pState with
  | .a => !accesses x
  | .b => dcAck

/-- The outputs to `MemWBReg`.  The data and the write enables are driven also
with a bubble. -/
def out (r : Regs) (x : EXMem) (dcAck : Bool) (dcData : BitVec 64) : MemWB :=
  let shown : MemWB :=
    match r.pState with
    | .a =>
        { alures := x.alures, loadData := 0, op := x.op, op2 := x.op2, op3 := x.op3
          regD := x.regD, regWrite := x.regWrite, regWriteDouble := x.regWriteDouble
          icc := x.icc, iccWrite := x.iccWrite, y := x.y, yWrite := x.yWrite }
    | .b =>
        { alures := r.pAlures, loadData := dcData, op := r.pOp, op2 := r.pOp2
          op3 := r.pOp3, regD := r.pRegd, regWrite := r.pRegWrite
          regWriteDouble := r.pRegWriteDouble, icc := r.pIcc, iccWrite := r.pIccWrite
          y := r.pY, yWrite := r.pYWrite }
  if r.passes x dcAck then shown
  else { shown with regD := 0, op := 0b00, op2 := 0b100, op3 := 0b100000 }

/-- The report to the stall predicates.  In `STATEB` the one-bit
`Mem_p_yWrite_out` is driven with the 32-bit `n_y`. -/
def hazard (r : Regs) (x : EXMem) : Decode.Hazard :=
  match r.pState with
  | .a =>
      { rd := x.regD
        regWrite := x.regWrite
        regWriteDouble := x.regWriteDouble
        iccWrite := x.iccWrite
        yWrite := x.yWrite }
  | .b =>
      { rd := r.pRegd
        regWrite := r.pRegWrite
        regWriteDouble := r.pRegWriteDouble
        iccWrite := r.pIccWrite
        yWrite := r.pY.getLsbD 0 }

/-- `n_state`. -/
def nState (r : Regs) (x : EXMem) (dcAck : Bool) : State :=
  match r.pState with
  | .a => if accesses x then .b else .a
  | .b => if dcAck then .a else .b

/-- The copies after the next edge. -/
def copy (r : Regs) (x : EXMem) : Regs :=
  match r.pState with
  | .a =>
      { r with
        pAlures := x.alures
        pOp := x.op
        pOp2 := x.op2
        pOp3 := x.op3
        pRegd := x.regD
        pDcLineAddr := lineAddr x.alures
        pDcWordSelect := x.alures.extractLsb' 3 3
        pByteOffset := x.alures.extractLsb' 0 3
        pDcDataToCache := x.valD
        pDcReadWriteN := readWriteN x
        pRegWrite := x.regWrite
        pRegWriteDouble := x.regWriteDouble
        pStoreType := storeT x.op3
        pLoadType := loadT x.op3
        pIcc := x.icc
        pIccWrite := x.iccWrite
        pY := x.y
        pYWrite := x.yWrite }
  | .b => r

/-- The registers after the next edge. -/
def step (r : Regs) (x : EXMem) (dcAck : Bool) : Regs :=
  { r.copy x with
    pState := r.nState x dcAck
    dcReqLatch := r.dcReq x dcAck }

end Regs

end Mem

end Sparcy
