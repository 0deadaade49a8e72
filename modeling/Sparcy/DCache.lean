import Sparcy.ICache
import Sparcy.Mem

/-!
# The data cache

`DCacheDirectMap.sv`: a write-back cache of 16 direct-mapped lines.  A miss on a
dirty line sends its address and eight words in `STATEC` before the new line is
requested in `STATED` and received in `STATEE`.
-/

namespace Sparcy

namespace DCache

open ICache (index tag swapHalves)

/-- The tags of a read and of a write-back. -/
abbrev readTag : BitVec 13 := 0b1000100000011

abbrev writeTag : BitVec 13 := 0b0000100000011

/-- The registers and memories of `DCacheDirectMap.sv`. -/
structure Regs where
  pState : CacheState
  pAck : Bool
  pProcDataOut : BitVec 64
  pReqcyc : Bool
  pReq : BitVec 64
  pReqtag : BitVec 13
  pCounter : BitVec 5
  pRespack : Bool
  dataSram : Sram 512
  tagSram : Sram 54
  dirtySram : Sram 1

/-- The state after a reset: `dcache_SRAM.sv` fills every row with
`32'h0000000f`, which sets every dirty bit. -/
def reset : Regs :=
  { pState := .a, pAck := false, pProcDataOut := 0, pReqcyc := false, pReq := 0
    pReqtag := 0, pCounter := 0, pRespack := false
    dataSram := .reset 0xf, tagSram := .reset 0xf, dirtySram := .reset 1 }

/-- The shift of a load, in bits.  `b` is 64 bits wide, so complementing the
byte offset also sets the bits above it. -/
def loadShift (p : DcRequest) : BitVec 64 :=
  if p.loadType = 0b00 then ~~~(p.byteOffset.setWidth 64) * 8
  else if p.loadType = 0b01 then ~~~((p.byteOffset.extractLsb' 1 2).setWidth 64) * 16
  else ~~~((p.byteOffset.extractLsb' 2 1).setWidth 64) * 32

/-- `n_proc_data_out` on a hit, from the addressed doubleword of the line. -/
def loadData (p : DcRequest) (line : BitVec 512) : BitVec 64 :=
  let n := line.extractLsb' (p.wordSelect.toNat * 64) 64
  if p.loadType = 0b11 then swapHalves n else n >>> (loadShift p).toNat

/-- `write_shift`: the data with its halves exchanged, at the selected word. -/
def writeShift (p : DcRequest) : BitVec 512 :=
  (swapHalves p.dataIn).setWidth 512 <<< (p.wordSelect.toNat * 64)

/-- `write_shift >> ((proc_byte_offset[2])*32)`. -/
def halfShift (p : DcRequest) : BitVec 512 :=
  writeShift p >>> (if p.byteOffset.getLsbD 2 then 32 else 0)

/-- `write_data_sram` of a store hit. -/
def storeData (p : DcRequest) : BitVec 512 :=
  if p.storeType = 0b00 then
    halfShift p <<< (8 * ((~~~p.byteOffset).extractLsb' 0 2).toNat)
  else if p.storeType = 0b01 then
    halfShift p <<< (16 * ((~~~(p.byteOffset.extractLsb' 1 2)).extractLsb' 0 1).toNat)
  else if p.storeType = 0b10 then halfShift p
  else writeShift p

/-- `n_data_write` of a store hit: one enable bit for each byte of the line. -/
def storeEnable (p : DcRequest) : BitVec 64 :=
  if p.storeType = 0b00 then
    (1 : BitVec 64) <<< (p.wordSelect ++ ~~~p.byteOffset).toNat
  else if p.storeType = 0b01 then
    (3 : BitVec 64) <<< (p.wordSelect ++ ~~~(p.byteOffset.extractLsb' 1 2) ++ (0 : BitVec 1)).toNat
  else if p.storeType = 0b10 then
    (15 : BitVec 64) <<< (p.wordSelect ++ ~~~(p.byteOffset.extractLsb' 2 1) ++ (0 : BitVec 2)).toNat
  else (255 : BitVec 64) <<< (p.wordSelect ++ (0 : BitVec 3)).toNat

namespace Regs

/-- `STATEB` finds the line. -/
def hit (r : Regs) (p : DcRequest) : Bool := r.tagSram.readData == tag p.lineAddr

/-- A beat of this cache is on the bus. -/
def beat (r : Regs) (bus : BusResponse) : Bool := bus.respcyc && bus.resptag == r.pReqtag

/-- `n_state`. -/
def nState (r : Regs) (p : DcRequest) (bus : BusResponse) : CacheState :=
  match r.pState with
  | .a => if p.req then .b else .a
  | .b => if r.hit p then .a else if r.dirtySram.readData = 1 then .c else .d
  | .c => if r.pCounter ≠ 0 ∧ bus.reqack ∧ ¬ r.pCounter < 9 then .d else .c
  | .d => if bus.reqack then .e else .d
  | .e =>
      if r.beat bus then if r.pCounter < 8 then .e else .b
      else if r.pCounter = 8 then .b else .e

/-- A hit in `STATEB`. -/
def serves (r : Regs) (p : DcRequest) : Bool := r.pState == .b && r.hit p

/-- A store hit in `STATEB`. -/
def stores (r : Regs) (p : DcRequest) : Bool := r.serves p && !p.readWriteN

/-- The line is requested in `STATED` until the request is acknowledged. -/
def requests (r : Regs) (bus : BusResponse) : Bool := r.pState == .d && !bus.reqack

/-- A beat is consumed in `STATEE`. -/
def consumes (r : Regs) (bus : BusResponse) : Bool := r.pState == .e && r.beat bus

/-- What `STATEC` does with the request registers: send the address, send the
next word, hold the current one, or stop. -/
def writeBack (r : Regs) (p : DcRequest) (bus : BusResponse) : BusRequest :=
  if r.pCounter = 0 then
    { reqcyc := true
      req := r.tagSram.readData ++ index p.lineAddr ++ (0 : BitVec 6)
      reqtag := writeTag }
  else if bus.reqack then
    if r.pCounter < 9 then
      { reqcyc := true
        req := r.dataSram.readData.extractLsb' ((r.pCounter.toNat - 1) * 64) 64
        reqtag := r.pReqtag }
    else { reqcyc := false, req := 0, reqtag := r.pReqtag }
  else { reqcyc := true, req := r.pReq, reqtag := r.pReqtag }

/-- `n_reqcyc`, `n_req` and `n_reqtag`. -/
def nBus (r : Regs) (p : DcRequest) (bus : BusResponse) : BusRequest :=
  if r.pState = .c then r.writeBack p bus
  else if r.requests bus then
    { reqcyc := true, req := p.lineAddr ++ (0 : BitVec 6), reqtag := readTag }
  else if r.consumes bus ∧ ¬ r.pCounter < 8 then { reqcyc := false, req := 0, reqtag := 0 }
  else { reqcyc := false, req := 0, reqtag := r.pReqtag }

/-- `n_counter`. -/
def nCounter (r : Regs) (p : DcRequest) (bus : BusResponse) : BitVec 5 :=
  match r.pState with
  | .a => r.pCounter
  | .b => if !r.hit p && r.dirtySram.readData = 1 then 0 else r.pCounter
  | .c =>
      if r.pCounter = 0 then r.pCounter + 1
      else if bus.reqack ∧ r.pCounter < 9 then r.pCounter + 1
      else r.pCounter
  | .d => if bus.reqack then 0 else r.pCounter
  | .e => if r.beat bus then r.pCounter + 1 else r.pCounter

/-- `write_data_sram` and `n_data_write`. -/
def writeData (r : Regs) (p : DcRequest) (bus : BusResponse) : BitVec 512 :=
  if r.stores p then storeData p else bus.resp.setWidth 512 <<< (r.pCounter.toNat * 64)

def dataWrite (r : Regs) (p : DcRequest) (bus : BusResponse) : BitVec 64 :=
  if r.stores p then storeEnable p
  else if r.consumes bus then (255 : BitVec 64) <<< (r.pCounter.toNat * 8)
  else 0

/-- The registers after the next edge. -/
def step (r : Regs) (p : DcRequest) (bus : BusResponse) : Regs :=
  let request := r.nBus p bus
  { pState := r.nState p bus
    pAck := r.serves p
    pProcDataOut := if r.serves p then loadData p r.dataSram.readData else r.pProcDataOut
    pReqcyc := request.reqcyc
    pReq := request.req
    pReqtag := request.reqtag
    pCounter := r.nCounter p bus
    pRespack := r.consumes bus
    dataSram := r.dataSram.step (index p.lineAddr) 8 (r.writeData p bus) (r.dataWrite p bus)
    tagSram := r.tagSram.step (index p.lineAddr) 54 (tag p.lineAddr)
      (BitVec.ofBool (r.requests bus))
    dirtySram := r.dirtySram.step (index p.lineAddr) 1 (BitVec.ofBool (r.stores p))
      (BitVec.ofBool (r.stores p || r.requests bus)) }

/-- The request side as registered. -/
def bus (r : Regs) : BusRequest := { reqcyc := r.pReqcyc, req := r.pReq, reqtag := r.pReqtag }

/-- A busy cache becomes idle exactly with the acknowledgement. -/
theorem step_idle_iff {r : Regs} (busy : r.pState ≠ .a) (p : DcRequest) (bus : BusResponse) :
    (r.step p bus).pState = .a ↔ (r.step p bus).pAck = true := by
  cases state : r.pState with
  | a => exact absurd state busy
  | b =>
      cases found : r.hit p <;> simp [step, nState, serves, state, found]
      split <;> simp
  | c =>
      simp only [step, nState, serves, state]
      split <;> simp
  | d => cases ack : bus.reqack <;> simp [step, nState, serves, state, ack]
  | e =>
      simp only [step, nState, serves, state]
      split <;> split <;> simp

end Regs

end DCache

end Sparcy
