import Sparcy.ICache
import Sparcy.System

/-!
# The cache of hw2 and its test bench

`DirectMap.sv`, `SRAM.sv` and `system.cpp` of `hw2`: one write-back cache of 16
direct-mapped lines, a processor that issues reads and writes of words, and a RAM.
The eighth beat of a line leads back to `STATEB` in the edge that stores it.
-/

namespace Sparcy

namespace DirectMap

open ICache (index tag)

/-- The tags of a read and of a write-back. -/
abbrev readTag : BitVec 13 := 0b1000100000000

abbrev writeTag : BitVec 13 := 0b0000100000000

/-- The processor side of the cache, driven by `procTick`. -/
structure ProcRequest where
  req : Bool
  readWriteN : Bool
  lineAddr : BitVec 58
  wordSelect : BitVec 4
  dataIn : BitVec 32
deriving DecidableEq

/-- The registers and memories of `DirectMap.sv`.  Its `out_tag` drives nothing. -/
structure Regs where
  pState : CacheState
  pAck : Bool
  pProcDataOut : BitVec 32
  pReqcyc : Bool
  pReq : BitVec 64
  pReqtag : BitVec 13
  pCounter : BitVec 5
  pRespack : Bool
  dataSram : Sram 512
  tagSram : Sram 54
  dirtySram : Sram 1

/-- The state after a reset: this `SRAM.sv` fills every row with zeros. -/
def reset : Regs :=
  { pState := .a, pAck := false, pProcDataOut := 0, pReqcyc := false, pReq := 0
    pReqtag := 0, pCounter := 0, pRespack := false
    dataSram := .reset 0, tagSram := .reset 0, dirtySram := .reset 0 }

namespace Regs

/-- `STATEB` finds the line. -/
def hit (r : Regs) (p : ProcRequest) : Bool := r.tagSram.readData == tag p.lineAddr

/-- `n_state`. -/
def nState (r : Regs) (p : ProcRequest) (bus : BusResponse) : CacheState :=
  match r.pState with
  | .a => if p.req then .b else .a
  | .b => if r.hit p then .a else if r.dirtySram.readData = 1 then .c else .d
  | .c =>
      if r.pCounter = 0 then .c
      else if bus.reqack then if r.pCounter < 9 then .c else .d
      else .c
  | .d => if bus.reqack then .e else .d
  | .e => if bus.respcyc then if r.pCounter < 7 then .e else .b else .e

/-- `n_ack`. -/
def nAck (r : Regs) (p : ProcRequest) : Bool := r.pState == .b && r.hit p

/-- `n_proc_data_out`. -/
def nProcDataOut (r : Regs) (p : ProcRequest) : BitVec 32 :=
  if r.nAck p then r.dataSram.readData.extractLsb' (p.wordSelect.toNat * 32) 32 else 0

/-- A write hit. -/
def stores (r : Regs) (p : ProcRequest) : Bool := r.nAck p && !p.readWriteN

/-- The line is requested in `STATED` until the request is acknowledged. -/
def requests (r : Regs) (bus : BusResponse) : Bool := r.pState == .d && !bus.reqack

/-- `n_respack`: a beat is taken in `STATEE`, whatever its tag. -/
def consumes (r : Regs) (bus : BusResponse) : Bool := r.pState == .e && bus.respcyc

/-- `n_reqcyc`, `n_req` and `n_reqtag`. -/
def nBus (r : Regs) (p : ProcRequest) (bus : BusResponse) : BusRequest :=
  let none : BusRequest := { reqcyc := false, req := 0, reqtag := 0 }
  match r.pState with
  | .c =>
      if r.pCounter = 0 then
        { reqcyc := true
          req := r.tagSram.readData ++ index p.lineAddr ++ (0 : BitVec 6)
          reqtag := writeTag }
      else if bus.reqack then
        if r.pCounter < 9 then
          { reqcyc := true
            req := r.dataSram.readData.extractLsb' ((r.pCounter.toNat - 1) * 64) 64
            reqtag := r.pReqtag }
        else none
      else { reqcyc := true, req := r.pReq, reqtag := r.pReqtag }
  | .d =>
      if bus.reqack then none
      else { reqcyc := true, req := p.lineAddr ++ (0 : BitVec 6), reqtag := readTag }
  | _ => none

/-- `n_counter`. -/
def nCounter (r : Regs) (bus : BusResponse) : BitVec 5 :=
  match r.pState with
  | .c =>
      if r.pCounter = 0 then r.pCounter + 1
      else if bus.reqack then if r.pCounter < 9 then r.pCounter + 1 else 0
      else r.pCounter
  | .e => if bus.respcyc then r.pCounter + 1 else 0
  | _ => 0

/-- `write_data_sram` and `n_data_write`. -/
def writeData (r : Regs) (p : ProcRequest) (bus : BusResponse) : BitVec 512 :=
  if r.stores p then p.dataIn.setWidth 512 <<< (p.wordSelect.toNat * 32)
  else bus.resp.setWidth 512 <<< (r.pCounter.toNat * 64)

def dataWrite (r : Regs) (p : ProcRequest) (bus : BusResponse) : BitVec 16 :=
  if r.stores p then (1 : BitVec 16) <<< p.wordSelect.toNat
  else if r.consumes bus then (3 : BitVec 16) <<< (r.pCounter.toNat * 2)
  else 0

/-- The registers after the next edge. -/
def step (r : Regs) (p : ProcRequest) (bus : BusResponse) : Regs :=
  let request := r.nBus p bus
  { pState := r.nState p bus
    pAck := r.nAck p
    pProcDataOut := r.nProcDataOut p
    pReqcyc := request.reqcyc
    pReq := request.req
    pReqtag := request.reqtag
    pCounter := r.nCounter bus
    pRespack := r.consumes bus
    dataSram := r.dataSram.step (index p.lineAddr) 32 (r.writeData p bus) (r.dataWrite p bus)
    tagSram := r.tagSram.step (index p.lineAddr) 54 (tag p.lineAddr)
      (BitVec.ofBool (r.requests bus))
    dirtySram := r.dirtySram.step (index p.lineAddr) 1 (BitVec.ofBool (r.stores p))
      (BitVec.ofBool (r.stores p || r.requests bus)) }

/-- The request side as registered. -/
def bus (r : Regs) : BusRequest := { reqcyc := r.pReqcyc, req := r.pReq, reqtag := r.pReqtag }

end Regs

end DirectMap

/-! ### The test bench -/

/-- What `procTick` draws for a new request. -/
structure ProcIssue where
  readWriteN : Bool
  lineAddr : BitVec 58
  wordSelect : BitVec 4
  dataIn : BitVec 32
deriving DecidableEq

/-- What the random numbers and DRAMSim decide in a cycle: a request that `procTick` may
issue, whether transactions are accepted, and the reads that `update()` completes. -/
structure BenchInput where
  issue : Option ProcIssue
  accepts : Bool
  completed : List (BitVec 64)
deriving DecidableEq

/-- `c_req` and its companions, the cache, and the members of `System`. -/
structure TestBench where
  proc : DirectMap.ProcRequest
  cache : DirectMap.Regs
  sys : System

namespace TestBench

open DirectMap (ProcRequest)

/-- `System::procTick` at a falling edge. -/
def procTick (p : ProcRequest) (ack : Bool) (issue : Option ProcIssue) : ProcRequest :=
  if p.req && !ack then p
  else
    let p := if ack then { p with req := false } else p
    match issue with
    | none => p
    | some i =>
        { req := true, readWriteN := i.readWriteN, lineAddr := i.lineAddr
          wordSelect := i.wordSelect, dataIn := if i.readWriteN then p.dataIn else i.dataIn }

/-- One data word of a transfer in `ramTick`; any command but `MEMORY` fails an
assertion. -/
def receive (s : System) (bus : BusRequest) : System :=
  let ram :=
    if System.cmd bus.reqtag = System.MEMORY then
      s.ram.store64 (System.beatAddr s.xferAddr (8 - s.rxCount)) (be64toh bus.req)
    else s.ram
  { s with ram := ram, rxCount := s.rxCount - 1 }

/-- The address word of a transfer. -/
def command (s : System) (bus : BusRequest) : System :=
  let write := System.isWrite bus.reqtag
  let count :=
    if System.cmd bus.reqtag = System.MEMORY ∧ write then 8
    else if System.cmd bus.reqtag = System.MMIO ∧ write then 1
    else 0
  if System.cmd bus.reqtag = System.MEMORY then
    let s := { s with rxCount := count, xferAddr := bus.req }
    if (s.findTag bus.req).isSome ∨ write then s
    else { s with addrToTag := (bus.req, bus.reqtag) :: s.addrToTag }
  else { s with rxCount := count }

/-- `System::ramTick` at a rising edge. -/
def ramTick (s : System) (completed : List (BitVec 64)) (respack : Bool) (bus : BusRequest) :
    System :=
  let s := (completed.foldl System.dramReadComplete s).pop respack
  if bus.reqcyc then
    if s.rxCount ≠ 0 then receive s bus else command s bus
  else { s with rxCount := 0 }

/-- The falling edge, as far as the processor side goes. -/
def negedge (s : TestBench) (issue : Option ProcIssue) : TestBench :=
  { s with proc := procTick s.proc s.cache.pAck issue }

/-- The lines that the memory drives: `bus_reqack` is set at the falling edge. -/
def response (s : TestBench) (accepts : Bool) : BusResponse :=
  s.sys.response (s.cache.bus.reqcyc && accepts)

/-- The rising edge and the tick behind it. -/
def posedge (s : TestBench) (accepts : Bool) (completed : List (BitVec 64)) : TestBench :=
  let cache := s.cache.step s.proc (s.response accepts)
  { s with cache := cache, sys := ramTick s.sys completed cache.pRespack cache.bus }

/-- One clock cycle, from behind a rising edge. -/
def step (s : TestBench) (input : BenchInput) : TestBench :=
  (s.negedge input.issue).posedge input.accepts input.completed

def reset : TestBench :=
  { proc := { req := false, readWriteN := false, lineAddr := 0, wordSelect := 0, dataIn := 0 }
    cache := DirectMap.reset
    sys := System.reset fun _ => 0 }

/-- The state after the first rising edge without reset: `procTick` has not run yet. -/
def start : TestBench := reset.posedge true []

/-- What `ramTick` asserts and what DRAMSim guarantees: a started burst is not refused,
only pending reads complete and each at most once, and a read whose request was refused
at this falling edge is not delivered yet. -/
structure Allowed (s : TestBench) (input : BenchInput) : Prop where
  burst : s.sys.rxCount ≠ 0 → input.accepts = true
  nodup : input.completed.Nodup
  pending : ∀ addr ∈ input.completed, (s.sys.findTag addr).isSome
  refused : s.cache.pReqcyc = true → input.accepts = false →
    ∀ addr ∈ input.completed,
      ¬ (addr = s.cache.pReq ∧ s.sys.findTag addr = some s.cache.pReqtag)

theorem allowed_iff {s : TestBench} {input : BenchInput} :
    s.Allowed input ↔
      (s.sys.rxCount ≠ 0 → input.accepts = true) ∧ input.completed.Nodup ∧
        (input.completed.all fun addr => (s.sys.findTag addr).isSome) = true ∧
        (s.cache.pReqcyc = true → input.accepts = false →
          (input.completed.all fun addr =>
            !(addr == s.cache.pReq && s.sys.findTag addr == some s.cache.pReqtag)) = true) := by
  constructor
  · rintro ⟨burst, nodup, pending, refused⟩
    refine ⟨burst, nodup, by simpa using pending, fun asks refuses => ?_⟩
    simpa [imp_iff_not_or] using refused asks refuses
  · rintro ⟨burst, nodup, pending, refused⟩
    refine ⟨burst, nodup, by simpa using pending, fun asks refuses => ?_⟩
    simpa [imp_iff_not_or] using refused asks refuses

instance (s : TestBench) (input : BenchInput) : Decidable (s.Allowed input) :=
  decidable_of_iff _ allowed_iff.symm

end TestBench

end Sparcy
