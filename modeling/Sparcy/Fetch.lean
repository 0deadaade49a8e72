import Sparcy.Stages

/-!
# Instruction fetch

`InstructionFetch.sv` with the program counters `PC.sv` and `nPC.sv`.  The
request register `p_ic_req` is also clocked by the falling edge, so the cache
samples at the end of a cycle the value stored in the middle of it.
-/

namespace Sparcy

/-- The request inputs of `ICacheDirectMap`. -/
structure IcRequest where
  req : Bool
  lineAddr : BitVec 58
  wordSelect : BitVec 4
deriving DecidableEq

namespace Fetch

inductive State where
  | a
  | b
  | c
  | s
deriving DecidableEq

/-- The registers of `InstructionFetch.sv`, with `nPC_current` and `PC_current`. -/
structure Regs where
  pState : State
  pPc : BitVec 64
  pIcReq : Bool
  pInst : Inst
  pB : Bool
  nPcCurrent : BitVec 64
  pcCurrent : BitVec 64
deriving DecidableEq

/-- The state after a reset with the given entry point. -/
def reset (entry : BitVec 32) : Regs :=
  { pState := .a, pPc := 0, pIcReq := false, pInst := Inst.nop, pB := false
    nPcCurrent := entry.setWidth 64, pcCurrent := 0 }

/-- A branch, call or jump, as fetch recognises it. -/
def isTransfer (inst : Inst) : Bool :=
  decide ((inst.op = 0b00 ∧ inst.op2 = Op2.Bicc) ∨ inst.op = 0b01 ∨
    (inst.op = 0b10 ∧ inst.op3 = Op3.JMPL))

namespace Regs

/-- `if_ready`. -/
def ifReady (r : Regs) : Bool := r.pState == .a

/-- `nPC_out`: the 64-bit counter on a 32-bit net. -/
def nPcOut (r : Regs) : BitVec 32 := r.nPcCurrent.setWidth 32

/-- `PC_out`, the fetch target. -/
def pcOut (r : Regs) : BitVec 64 :=
  if r.ifReady then r.nPcOut.setWidth 64 else r.pcCurrent

/-- `n_pc`. -/
def nPc (r : Regs) : BitVec 64 :=
  match r.pState with
  | .a => r.pcOut
  | _ => r.pPc

/-- The filter of `STATEA`: the target is the address fetched last. -/
def repeats (r : Regs) : Bool := decide (r.pcOut = r.pPc ∧ r.pcOut ≠ 0)

/-- `n_ic_req`. -/
def nIcReq (r : Regs) (icAck : Bool) : Bool :=
  match r.pState with
  | .a => !r.repeats
  | .b => if icAck then false else r.pIcReq
  | _ => r.pIcReq

/-- `ic_req` after the falling edge. -/
def icReq (r : Regs) (icAck : Bool) : Bool := if icAck then false else r.nIcReq icAck

/-- The request the instruction cache samples at the end of the cycle. -/
def request (r : Regs) (icAck : Bool) : IcRequest :=
  { req := r.icReq icAck
    lineAddr := (r.nPc.extractLsb' 6 24).setWidth 58
    wordSelect := r.nPc.extractLsb' 2 4 }

/-- `n_state`. -/
def nState (r : Regs) (icAck idReady : Bool) : State :=
  match r.pState with
  | .a => if r.repeats then .a else .b
  | .b =>
      if icAck then
        if idReady then (if r.pB then .s else .a) else .c
      else .b
  | .c => if idReady then (if r.pB then .s else .a) else .c
  | .s => .a

/-- `n_inst`. -/
def nInst (r : Regs) (icAck : Bool) (icData : BitVec 32) : Inst :=
  match r.pState with
  | .a => if r.repeats then Inst.nop else r.pInst
  | .b => if icAck then icData else r.pInst
  | _ => r.pInst

/-- `n_b`. -/
def nB (r : Regs) (icAck idReady : Bool) : Bool :=
  match r.pState with
  | .b => if icAck && idReady then isTransfer r.pInst else r.pB
  | .c => if idReady then isTransfer r.pInst else r.pB
  | _ => r.pB

/-- The instruction and address shown to `IFIDReg`; only `STATEA` shows the
fetched word. -/
def out (r : Regs) : IFID :=
  { pcPlus4 := r.pPc
    inst := match r.pState with
      | .a => r.pInst
      | _ => Inst.nop }

/-- `nPC_current` after the next edge. -/
def nextNPc (r : Regs) (muxEn : Bool) (target : BitVec 64) : BitVec 64 :=
  if muxEn then target else if r.ifReady then r.nPcCurrent + 4 else r.nPcCurrent

/-- The registers after the next edge. -/
def step (r : Regs) (icAck : Bool) (icData : BitVec 32) (idReady : Bool) (muxEn : Bool)
    (target : BitVec 64) : Regs :=
  { pState := r.nState icAck idReady
    pPc := r.nPc
    pIcReq := { r with pIcReq := r.icReq icAck }.nIcReq icAck
    pInst := r.nInst icAck icData
    pB := r.nB icAck idReady
    nPcCurrent := r.nextNPc muxEn target
    pcCurrent := if r.ifReady then r.nPcOut.setWidth 64 else r.pcCurrent }

end Regs

end Fetch

end Sparcy
