import Sparcy.Arbiter

/-!
# The memory side of the bus

`System::tick` and `System::dram_read_complete` of `system.cpp`.  DRAMSim is
outside the repository: which pending reads complete in a tick, and whether it
accepts a transaction, are inputs.
-/

namespace Sparcy

/-- The RAM of the simulation, by byte address. -/
abbrev Ram := BitVec 64 → BitVec 8

namespace Ram

/-- A 64-bit load of the little-endian host. -/
def load64 (ram : Ram) (addr : BitVec 64) : BitVec 64 :=
  ram (addr + 7) ++ ram (addr + 6) ++ ram (addr + 5) ++ ram (addr + 4) ++
    ram (addr + 3) ++ ram (addr + 2) ++ ram (addr + 1) ++ ram addr

/-- A 64-bit store of the little-endian host. -/
def store64 (ram : Ram) (addr value : BitVec 64) : Ram := fun b =>
  if b - addr < 8 then value.extractLsb' ((b - addr).toNat * 8) 8 else ram b

/-- A memory image: big-endian words from address 0 on, and no-ops behind them. -/
def ofWords (words : List (BitVec 32)) : Ram := fun b =>
  ((words.getD (b.toNat / 4) Inst.nop) >>> (8 * (3 - b.toNat % 4))).setWidth 8

end Ram

/-- `be32toh`: `ntohl` on a little-endian host. -/
def be32toh (x : BitVec 32) : BitVec 32 :=
  x.extractLsb' 0 8 ++ x.extractLsb' 8 8 ++ x.extractLsb' 16 8 ++ x.extractLsb' 24 8

/-- `cse502_be64toh`. -/
def be64toh (x : BitVec 64) : BitVec 64 :=
  be32toh (x.extractLsb' 0 32) ++ be32toh (x.extractLsb' 32 32)

/-- A response beat and its tag. -/
abbrev Beat := BitVec 64 × BitVec 13

/-- The members of `System` that `tick` uses. -/
structure System where
  rxCount : Nat
  xferAddr : BitVec 64
  addrToTag : List (BitVec 64 × BitVec 13)
  txQueue : List Beat
  ram : Ram

/-- What the outside of the program decides in one tick. -/
structure DramEvents where
  /-- `willAcceptTransaction()` at the falling edge. -/
  accepts : Bool
  /-- The reads that `update()` completes, in order. -/
  completed : List (BitVec 64)
  /-- A key press that is reported as an interrupt. -/
  key : Bool
deriving DecidableEq

/-- A tick in which DRAMSim accepts transactions and completes the given reads. -/
def DramEvents.completing (lines : List (BitVec 64)) : DramEvents :=
  { accepts := true, completed := lines, key := false }

/-- The ticks of a fetch that misses at address 0: the read is issued, completes, and
its eight beats arrive. -/
def DramEvents.firstFetch : List DramEvents :=
  List.replicate 3 (completing []) ++ completing [0] :: List.replicate 11 (completing [])

namespace System

/-- The bus tags' command field and write bit. -/
def cmd (reqtag : BitVec 13) : BitVec 4 := reqtag.extractLsb' 8 4

def isWrite (reqtag : BitVec 13) : Bool := !reqtag.getLsbD 12

abbrev MEMORY : BitVec 4 := 0b0001

abbrev MMIO : BitVec 4 := 0b0011

abbrev IRQ : BitVec 13 := 0b1110

def reset (ram : Ram) : System :=
  { rxCount := 0, xferAddr := 0, addrToTag := [], txQueue := [], ram := ram }

/-- `addr_to_tag.find`. -/
def findTag (s : System) (addr : BitVec 64) : Option (BitVec 13) :=
  s.addrToTag.lookup addr

/-- The address of beat `i` of a transfer that starts at `addr`, wrapping inside
the 64-byte line. -/
def beatAddr (addr : BitVec 64) (i : Nat) : BitVec 64 :=
  (addr &&& ~~~63) + ((addr + BitVec.ofNat 64 (i * 8)) &&& 63)

/-- The eight beats of a read of `addr`. -/
def beats (ram : Ram) (addr : BitVec 64) (tag : BitVec 13) : List Beat :=
  (List.range 8).map fun i => (be64toh (ram.load64 (beatAddr addr i)), tag)

/-- `dram_read_complete`; the assertion that the read is pending is a condition
on the events. -/
def dramReadComplete (s : System) (addr : BitVec 64) : System :=
  match s.findTag addr with
  | none => s
  | some tag =>
      { s with
        txQueue := s.txQueue ++ beats s.ram addr tag
        addrToTag := s.addrToTag.filter fun entry => entry.1 != addr }

/-- The keyboard and `dramsim->update()`. -/
def update (s : System) (events : DramEvents) : System :=
  let s := if events.key then { s with txQueue := s.txQueue ++ [(1, IRQ)] } else s
  events.completed.foldl dramReadComplete s

/-- The response queue is popped when the previous front was acknowledged. -/
def pop (s : System) (respack : Bool) : System :=
  if respack then { s with txQueue := s.txQueue.tail } else s

/-- One data word of a transfer. -/
def receive (s : System) (bus : BusRequest) : System :=
  let ram :=
    if cmd bus.reqtag = MEMORY then
      s.ram.store64 (beatAddr s.xferAddr (8 - s.rxCount)) (be64toh bus.req)
    else if cmd bus.reqtag = MMIO then s.ram.store64 s.xferAddr bus.req
    else s.ram
  { s with ram := ram, rxCount := s.rxCount - 1 }

/-- The address word of a transfer. -/
def command (s : System) (bus : BusRequest) : System :=
  let write := isWrite bus.reqtag
  if cmd bus.reqtag = MEMORY then
    let s := { s with rxCount := if write then 8 else 0, xferAddr := bus.req }
    if (s.findTag bus.req).isSome ∨ write then s
    else { s with addrToTag := (bus.req, bus.reqtag) :: s.addrToTag }
  else if cmd bus.reqtag = MMIO then
    let s := { s with rxCount := if write then 1 else 0, xferAddr := bus.req }
    if write then s
    else { s with txQueue := s.txQueue ++ [(s.ram.load64 bus.req, bus.reqtag)] }
  else s

/-- The request part of the rising edge. -/
def request (s : System) (bus : BusRequest) : System :=
  if bus.reqcyc then
    if s.rxCount ≠ 0 then s.receive bus else s.command bus
  else { s with rxCount := 0 }

/-- `System::tick` at a rising edge. -/
def tick (s : System) (events : DramEvents) (respack : Bool) (bus : BusRequest) : System :=
  ((s.update events).pop respack).request bus

/-- The response lines, driven from the front of the queue. -/
def response (s : System) (reqack : Bool) : BusResponse :=
  match s.txQueue with
  | [] => { reqack := reqack, respcyc := false, resp := 0xaaaaaaaaaaaaaaaa, resptag := 0xaaa }
  | (resp, tag) :: _ => { reqack := reqack, respcyc := true, resp := resp, resptag := tag }

/-- `bus_reqack` at the end of a cycle: set at the falling edge under a request,
cleared at the rising edge without one. -/
def reqack (events : DramEvents) (bus : BusRequest) : Bool := bus.reqcyc && events.accepts

end System

end Sparcy
