import Sparcy.Sram
import Sparcy.Fetch

/-!
# The instruction cache

`ICacheDirectMap.sv`: 16 direct-mapped lines of 64 bytes without a valid bit.
The tag is rewritten while the line is requested, the data as the eight beats
arrive.
-/

namespace Sparcy

/-- What a cache drives onto its side of the arbiter. -/
structure BusRequest where
  reqcyc : Bool
  req : BitVec 64
  reqtag : BitVec 13
deriving DecidableEq

/-- What the memory side drives back during a cycle. -/
structure BusResponse where
  reqack : Bool
  respcyc : Bool
  resp : BitVec 64
  resptag : BitVec 13
deriving DecidableEq

/-- The cache states that are ever entered; `STATEI` is not. -/
inductive CacheState where
  | a
  | b
  | c
  | d
  | e
deriving DecidableEq

namespace ICache

/-- The tag of a read of the instruction cache. -/
abbrev readTag : BitVec 13 := 0b1000100000000

/-- The registers and memories of `ICacheDirectMap.sv`.  Its dirty signal drives
nothing. -/
structure Regs where
  pState : CacheState
  pAck : Bool
  pProcDataOut : BitVec 32
  pReqcyc : Bool
  pReq : BitVec 64
  pReqtag : BitVec 13
  pCounter : BitVec 5
  pRespack : Bool
  dataSram : Sram 512
  tagSram : Sram 54

/-- The state after a reset: `SRAM.sv` fills every row with ones. -/
def reset : Regs :=
  { pState := .a, pAck := false, pProcDataOut := 0, pReqcyc := false, pReq := 0
    pReqtag := 0, pCounter := 0, pRespack := false
    dataSram := .reset (BitVec.allOnes 512), tagSram := .reset (BitVec.allOnes 54) }

/-- `proc_line_addr[3:0]` and `proc_line_addr[57:4]`. -/
def index (lineAddr : BitVec 58) : BitVec 4 := lineAddr.extractLsb' 0 4

def tag (lineAddr : BitVec 58) : BitVec 54 := lineAddr.extractLsb' 4 54

/-- The two 32-bit halves of a beat, exchanged. -/
def swapHalves (resp : BitVec 64) : BitVec 64 := resp.extractLsb' 0 32 ++ resp.extractLsb' 32 32

namespace Regs

/-- `STATEB` finds the line. -/
def hit (r : Regs) (p : IcRequest) : Bool := r.tagSram.readData == tag p.lineAddr

/-- A beat of this cache is on the bus. -/
def beat (r : Regs) (bus : BusResponse) : Bool := bus.respcyc && bus.resptag == r.pReqtag

/-- `n_state`. -/
def nState (r : Regs) (p : IcRequest) (bus : BusResponse) : CacheState :=
  match r.pState with
  | .a => if p.req then .b else .a
  | .b => if r.hit p then .a else .d
  | .c => .c
  | .d => if bus.reqack then .e else .d
  | .e =>
      if r.beat bus then if r.pCounter < 8 then .e else .b
      else if r.pCounter = 8 then .b else .e

/-- `n_ack`. -/
def nAck (r : Regs) (p : IcRequest) : Bool := r.pState == .b && r.hit p

/-- `n_proc_data_out`. -/
def nProcDataOut (r : Regs) (p : IcRequest) : BitVec 32 :=
  if r.nAck p then r.dataSram.readData.extractLsb' (p.wordSelect.toNat * 32) 32
  else r.pProcDataOut

/-- The request is driven in `STATED` until it is acknowledged. -/
def requests (r : Regs) (bus : BusResponse) : Bool := r.pState == .d && !bus.reqack

/-- A beat is consumed in `STATEE`. -/
def consumes (r : Regs) (bus : BusResponse) : Bool := r.pState == .e && r.beat bus

/-- `n_reqtag`. -/
def nReqtag (r : Regs) (bus : BusResponse) : BitVec 13 :=
  if r.requests bus then readTag
  else if r.consumes bus ∧ ¬ r.pCounter < 8 then 0
  else r.pReqtag

/-- `n_counter`. -/
def nCounter (r : Regs) (bus : BusResponse) : BitVec 5 :=
  if r.pState = .d ∧ bus.reqack then 0
  else if r.consumes bus then r.pCounter + 1
  else r.pCounter

/-- `write_data_sram` and `n_data_write` while a beat is consumed. -/
def writeData (r : Regs) (bus : BusResponse) : BitVec 512 :=
  (swapHalves bus.resp).setWidth 512 <<< (r.pCounter.toNat * 64)

def dataWrite (r : Regs) (bus : BusResponse) : BitVec 16 :=
  if r.consumes bus then (3 : BitVec 16) <<< (r.pCounter.toNat * 2) else 0

/-- The registers after the next edge. -/
def step (r : Regs) (p : IcRequest) (bus : BusResponse) : Regs :=
  { pState := r.nState p bus
    pAck := r.nAck p
    pProcDataOut := r.nProcDataOut p
    pReqcyc := r.requests bus
    pReq := if r.requests bus then p.lineAddr ++ (0 : BitVec 6) else 0
    pReqtag := r.nReqtag bus
    pCounter := r.nCounter bus
    pRespack := r.consumes bus
    dataSram := r.dataSram.step (index p.lineAddr) 32 (r.writeData bus) (r.dataWrite bus)
    tagSram := r.tagSram.step (index p.lineAddr) 54 (tag p.lineAddr)
      (BitVec.ofBool (r.requests bus)) }

/-- The request side as registered. -/
def bus (r : Regs) : BusRequest := { reqcyc := r.pReqcyc, req := r.pReq, reqtag := r.pReqtag }

end Regs

end ICache

end Sparcy
