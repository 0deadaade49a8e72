import Sparcy.Core
import Sparcy.Library.Runs

/-!
# Mem and the data cache

Mem with the registers around it and the data cache behind it, for any instructions
that arrive in `EXMemReg` and any answers of the bus.  The protocol between the two is
a monitor that sees what their ports show in every cycle.
-/

namespace Sparcy

/-- `EXMemReg`, Mem, the data cache and `MemWBReg`. -/
structure MemPath where
  exmem : EXMem
  mem : Mem.Regs
  dc : DCache.Regs
  memwb : MemWB

namespace MemPath

/-- What Execute and the bus drive in a cycle. -/
structure Input where
  next : EXMem
  bus : BusResponse
deriving DecidableEq

/-- The request that the data cache sees. -/
def request (s : MemPath) : DcRequest := s.mem.request s.exmem s.dc.pAck

/-- The tuple that Mem drives into `MemWBReg`. -/
def out (s : MemPath) : MemWB := s.mem.out s.exmem s.dc.pAck s.dc.pProcDataOut

/-- One clock cycle. -/
def step (s : MemPath) (input : Input) : MemPath :=
  { exmem := s.exmem.step input.next s.mem.memReady
    mem := s.mem.step s.exmem s.dc.pAck
    dc := s.dc.step s.request input.bus
    memwb := s.out }

/-- After a reset, whatever the pipeline registers hold. -/
def start (exmem : EXMem) (memwb : MemWB) : MemPath :=
  { exmem := exmem, mem := Mem.reset, dc := DCache.reset, memwb := memwb }

/-- This part of the processor. -/
def ofCore (s : Core) : MemPath :=
  { exmem := s.exmem, mem := s.mem, dc := s.memory.dc, memwb := s.memwb }

theorem ofCore_step (syscall : Syscall) (s : Core) (events : DramEvents) :
    ofCore (s.step syscall events) =
      (ofCore s).step { next := s.exOut, bus := s.memory.dcResponse events } := rfl

theorem ofCore_start (syscall : Syscall) (entry : BitVec 32) (regFile : RegFile)
    (ram : Ram) :
    (ofCore (Core.start syscall entry regFile ram)).mem.pState = .a ∧
      (ofCore (Core.start syscall entry regFile ram)).dc.pState = .a ∧
      (ofCore (Core.start syscall entry regFile ram)).dc.pAck = false := ⟨rfl, rfl, rfl⟩

/-! ### The protocol -/

/-- The request of a load or store. -/
def requestOf (x : EXMem) : DcRequest :=
  { req := true
    lineAddr := Mem.lineAddr x.alures
    wordSelect := x.alures.extractLsb' 3 3
    byteOffset := x.alures.extractLsb' 0 3
    readWriteN := Mem.readWriteN x
    dataIn := x.valD
    storeType := Mem.storeT x.op3
    loadType := Mem.loadT x.op3 }

/-- What goes to write-back for an instruction. -/
def entry (x : EXMem) (data : BitVec 64) : MemWB :=
  { alures := x.alures, loadData := data, op := x.op, op2 := x.op2, op3 := x.op3
    regD := x.regD, regWrite := x.regWrite, regWriteDouble := x.regWriteDouble
    icc := x.icc, iccWrite := x.iccWrite, y := x.y, yWrite := x.yWrite }

/-- Write-back without an instruction. -/
def noWrite : WBOut :=
  { regEn := false, regDoubleEn := false, data := 0, regD := 0, yEn := false, iccEn := false
    icc := 0 }

/-- What the ports show in a cycle: the instruction in `EXMemReg` and the one that takes
its place, the request and whether it begins an access, the line of a hit, the
acknowledgement, what is handed on, and the outputs of write-back. -/
structure Observation where
  exmem : EXMem
  arriving : Option EXMem
  request : DcRequest
  begins : Bool
  hit : Option (BitVec 512)
  ack : Bool
  handed : Option MemWB
  wb : WBOut

def observe (s : MemPath) (input : Input) : Observation :=
  { exmem := s.exmem
    arriving := if s.mem.memReady then some input.next else none
    request := s.request
    begins := s.dc.pState == .a && s.request.req
    hit := if s.dc.serves s.request then some s.dc.dataSram.readData else none
    ack := s.dc.pAck
    handed := if s.mem.passes s.exmem s.dc.pAck then some s.out else none
    wb := WB.out s.memwb }

/-- No access is under way; the request of an instruction is at the cache; the cache has
answered it. -/
inductive Phase where
  | idle
  | waiting (x : EXMem)
  | answered (x : EXMem) (data : BitVec 64)

/-- The ports in a phase: an instruction that accesses memory raises its own request at
once, holds it until the cache has answered, and is handed on with the answer. -/
def Phase.Shows : Phase → Observation → Prop
  | .idle, o =>
      o.begins = Mem.accesses o.exmem ∧ o.hit = none ∧ o.ack = false ∧ o.arriving.isSome ∧
        (if Mem.accesses o.exmem then o.request = requestOf o.exmem ∧ o.handed = none
          else o.request.req = false ∧ o.handed = some (entry o.exmem 0))
  | .waiting x, o =>
      o.begins = false ∧ o.ack = false ∧ o.arriving = none ∧ o.request = requestOf x ∧
        o.handed = none
  | .answered x data, o =>
      o.begins = false ∧ o.hit = none ∧ o.ack = true ∧ o.arriving = none ∧
        o.request = { requestOf x with req := false } ∧ o.handed = some (entry x data)

def Phase.next : Phase → Observation → Phase
  | .idle, o => if Mem.accesses o.exmem then .waiting o.exmem else .idle
  | .waiting x, o =>
      match o.hit with
      | none => .waiting x
      | some line => .answered x (DCache.loadData (requestOf x) line)
  | .answered _ _, _ => .idle

/-- The phase, the instruction in `EXMemReg` and the outputs of write-back. -/
structure Expected where
  phase : Phase
  exmem : EXMem
  wb : WBOut

/-- Mem takes the instructions of `EXMemReg` one after the other, and write-back shows
each for one cycle. -/
def protocol : Runs.Monitor Expected Observation where
  allows expected o :=
    o.exmem = expected.exmem ∧ o.wb = expected.wb ∧ expected.phase.Shows o
  next expected o :=
    { phase := expected.phase.next o
      exmem := o.arriving.getD expected.exmem
      wb := o.handed.elim noWrite WB.out }

/-! ### The invariant -/

/-- Mem holds a copy of an instruction. -/
structure Holds (r : Mem.Regs) (x : EXMem) : Prop where
  state : r.pState = .b
  request : ∀ y ack, r.request y ack = { requestOf x with req := r.dcReq y ack }
  entry : ∀ y data, r.out y true data = entry x data

/-- What the registers say in a phase. -/
def Phase.Tracks (s : MemPath) : Phase → Prop
  | .idle => s.mem.pState = .a ∧ s.dc.pState = .a ∧ s.dc.pAck = false
  | .waiting x =>
      Holds s.mem x ∧ s.mem.dcReqLatch = true ∧ s.dc.pState ≠ .a ∧ s.dc.pAck = false
  | .answered x data =>
      Holds s.mem x ∧ s.dc.pState = .a ∧ s.dc.pAck = true ∧ s.dc.pProcDataOut = data

structure Tracks (s : MemPath) (expected : Expected) : Prop where
  exmem : s.exmem = expected.exmem
  wb : WB.out s.memwb = expected.wb
  phase : expected.phase.Tracks s

section

variable {s : MemPath} {input : Input} {x : EXMem} {data : BitVec 64}

/-- Mem copies a load or store that it takes. -/
theorem holds_of_accepts (free : s.mem.pState = .a) (access : Mem.accesses s.exmem = true) :
    Holds (s.step input).mem s.exmem := by
  have state : (s.step input).mem.pState = .b := by
    simp [step, Mem.Regs.step, Mem.Regs.nState, free, access]
  refine ⟨state, fun y ack => ?_, fun y data => ?_⟩
  · rw [Mem.Regs.request, state]
    simp [step, Mem.Regs.step, Mem.Regs.copy, free, requestOf]
  · rw [Mem.Regs.out, state]
    simp [step, Mem.Regs.step, Mem.Regs.copy, free, entry, Mem.Regs.passes, Mem.Regs.nState, access]

/-- While it waits Mem keeps its copy. -/
theorem Holds.step (holds : Holds s.mem x) (silent : s.dc.pAck = false) :
    Holds (s.step input).mem x := by
  have state : (s.step input).mem.pState = .b := by
    simp [MemPath.step, Mem.Regs.step, Mem.Regs.nState, holds.state, silent]
  have copy : s.mem.copy s.exmem = s.mem := by rw [Mem.Regs.copy, holds.state]
  refine ⟨state, fun y ack => ?_, fun y data => ?_⟩
  · have held := holds.request y ack
    rw [Mem.Regs.request, holds.state] at held
    rw [Mem.Regs.request, state]
    simp only [MemPath.step, Mem.Regs.step, copy] at held ⊢
    injection held with _ lineAddr wordSelect byteOffset readWriteN dataIn storeType loadType
    rw [lineAddr, wordSelect, byteOffset, readWriteN, dataIn, storeType, loadType]
  · have held := holds.entry y data
    have passes : (s.step input).mem.passes y true = true := by rw [Mem.Regs.passes, state]
    have passes' : s.mem.passes y true = true := by rw [Mem.Regs.passes, holds.state]
    rw [← held, Mem.Regs.out, Mem.Regs.out, passes, passes', state, holds.state]
    simp only [MemPath.step, Mem.Regs.step, copy]

theorem Holds.request_eq (holds : Holds s.mem x) :
    s.request = { requestOf x with req := if s.dc.pAck then false else s.mem.dcReqLatch } := by
  rw [MemPath.request, holds.request, Mem.Regs.dcReq, holds.state]

theorem request_of_accepts (free : s.mem.pState = .a) (access : Mem.accesses s.exmem = true) :
    s.request = requestOf s.exmem := by
  have other : s.exmem.op3 ≠ Op3.LDSTUB := by
    intro same
    simp [Mem.accesses, Mem.loadOp, Mem.storeOp, same] at access
  rw [request, Mem.Regs.request, free]
  dsimp only
  rw [if_neg (fun both => other both.2), Mem.Regs.dcReq, free, requestOf]
  simp only [access]

theorem req_of_passes (free : s.mem.pState = .a) :
    s.request.req = Mem.accesses s.exmem := by
  simp [request, Mem.Regs.request, Mem.Regs.dcReq, free]

theorem out_of_passes (free : s.mem.pState = .a) (passes : Mem.accesses s.exmem = false) :
    s.out = entry s.exmem 0 := by
  simp [out, Mem.Regs.out, Mem.Regs.passes, free, passes, entry]

/-- Without an instruction nothing is written. -/
theorem wb_of_kept (kept : s.mem.passes s.exmem s.dc.pAck = false) : WB.out s.out = noWrite := by
  have bubble : isBubble s.out.op s.out.op2 s.out.regD = true := by
    simp [out, Mem.Regs.out, kept, isBubble]
  rw [WB.out, bubble]
  rfl

theorem step_wb (s : MemPath) (input : Input) :
    WB.out (s.step input).memwb = (s.observe input).handed.elim noWrite WB.out := by
  change WB.out s.out = (if s.mem.passes s.exmem s.dc.pAck then some s.out else none).elim noWrite WB.out
  cases passes : s.mem.passes s.exmem s.dc.pAck with
  | false => exact wb_of_kept passes
  | true => rfl

theorem step_exmem (s : MemPath) (input : Input) :
    (s.step input).exmem = (s.observe input).arriving.getD s.exmem := by
  change s.exmem.step input.next s.mem.memReady =
    (if s.mem.memReady then some input.next else none).getD s.exmem
  cases ready : s.mem.memReady <;> rfl

theorem Phase.step {phase : Phase} (tracks : phase.Tracks s) (input : Input) :
    phase.Shows (s.observe input) ∧ (phase.next (s.observe input)).Tracks (s.step input) := by
  cases phase with
  | idle =>
      obtain ⟨free, cache, silent⟩ := tracks
      have ack : (s.step input).dc.pAck = false := by
        simp [MemPath.step, DCache.Regs.step, DCache.Regs.serves, cache]
      have next : (s.step input).dc.pState = if Mem.accesses s.exmem then .b else .a := by
        change s.dc.nState s.request input.bus = _
        rw [DCache.Regs.nState, cache]
        simp only [req_of_passes free]
      have hit : (s.observe input).hit = none := by
        simp [observe, DCache.Regs.serves, cache]
      have arriving : (s.observe input).arriving.isSome = true := by
        simp [observe, Mem.Regs.memReady, free]
      have begins : (s.observe input).begins = Mem.accesses s.exmem := by
        simp [observe, cache, req_of_passes free]
      cases access : Mem.accesses s.exmem with
      | true =>
          refine ⟨⟨begins, hit, silent, arriving, ?_⟩, ?_⟩
          · change if Mem.accesses s.exmem then _ else _
            rw [if_pos access]
            refine ⟨request_of_accepts free access, ?_⟩
            simp [observe, Mem.Regs.passes, free, access]
          · change Phase.Tracks _ (if Mem.accesses s.exmem then _ else _)
            rw [if_pos access]
            refine ⟨holds_of_accepts free access, ?_, ?_, ack⟩
            · simp [MemPath.step, Mem.Regs.step, Mem.Regs.dcReq, free, access]
            · rw [next, access]
              decide
      | false =>
          refine ⟨⟨begins, hit, silent, arriving, ?_⟩, ?_⟩
          · change if Mem.accesses s.exmem then _ else _
            rw [if_neg (by simp [access])]
            refine ⟨(req_of_passes free).trans access, ?_⟩
            have passes : s.mem.passes s.exmem s.dc.pAck = true := by
              simp [Mem.Regs.passes, free, access]
            simp [observe, passes, out_of_passes free access]
          · change Phase.Tracks _ (if Mem.accesses s.exmem then _ else _)
            rw [if_neg (by simp [access])]
            refine ⟨?_, ?_, ack⟩
            · simp [MemPath.step, Mem.Regs.step, Mem.Regs.nState, free, access]
            · rw [next, access]
              rfl
  | waiting x =>
      obtain ⟨holds, latch, busy, silent⟩ := tracks
      have request : s.request = requestOf x := by
        rw [holds.request_eq, silent, latch]
        rfl
      have latch' : (s.step input).mem.dcReqLatch = true := by
        simp [MemPath.step, Mem.Regs.step, Mem.Regs.dcReq, holds.state, silent, latch]
      have done := DCache.Regs.step_idle_iff busy s.request input.bus
      refine ⟨⟨?_, silent, ?_, request, ?_⟩, ?_⟩
      · simp [observe, busy]
      · simp [observe, Mem.Regs.memReady, holds.state]
      · simp [observe, Mem.Regs.passes, holds.state, silent]
      · cases serves : s.dc.serves s.request with
        | false =>
            have ack : (s.step input).dc.pAck = false := serves
            have none : (s.observe input).hit = none := by simp [observe, serves]
            rw [Phase.next, none]
            refine ⟨holds.step silent, latch', fun idle => ?_, ack⟩
            have both := done.mp idle
            exact absurd (both.symm.trans ack) (by decide)
        | true =>
            have ack : (s.step input).dc.pAck = true := serves
            have found : (s.observe input).hit = some s.dc.dataSram.readData := by
              simp [observe, serves]
            rw [Phase.next, found]
            refine ⟨holds.step silent, done.mpr ack, ack, ?_⟩
            change (if s.dc.serves s.request then DCache.loadData s.request _ else _) = _
            rw [serves, if_pos rfl, request]
  | answered x data =>
      obtain ⟨holds, cache, acknowledged, answer⟩ := tracks
      have request : s.request = { requestOf x with req := false } := by
        rw [holds.request_eq, acknowledged]
        rfl
      refine ⟨⟨?_, ?_, acknowledged, ?_, request, ?_⟩, ?_, ?_, ?_⟩
      · simp [observe, request]
      · simp [observe, DCache.Regs.serves, cache]
      · simp [observe, Mem.Regs.memReady, holds.state]
      · have passes : s.mem.passes s.exmem s.dc.pAck = true := by
          simp [Mem.Regs.passes, holds.state, acknowledged]
        have shown : s.out = entry x data := by
          rw [out, acknowledged, holds.entry, answer]
        simp [observe, passes, shown]
      · simp [MemPath.step, Mem.Regs.step, Mem.Regs.nState, holds.state, acknowledged]
      · change s.dc.nState s.request input.bus = .a
        rw [DCache.Regs.nState, cache, request]
        rfl
      · simp [MemPath.step, DCache.Regs.step, DCache.Regs.serves, cache]

end

/-- For every sequence of instructions and every answers of the bus: each load and store
makes one access of the data cache, in order and with its own request, takes the
acknowledgement of that access and no other, and goes once to write-back with the data of
its hit.  Other instructions raise no request. -/
theorem follows_protocol (exmem : EXMem) (memwb : MemWB) (inputs : List Input) :
    protocol.Accepts { phase := .idle, exmem := exmem, wb := WB.out memwb }
      (Runs.emits step (fun s input => some (s.observe input)) (start exmem memwb) inputs) := by
  have guarded : Runs.Guarded step (fun _ _ => True) (start exmem memwb) inputs :=
    Runs.guarded_of_forall (fun _ _ _ => trivial) _
  refine Runs.Monitor.accepts_emits Tracks ?_ ?_ ⟨rfl, rfl, rfl, rfl, rfl⟩ guarded
  · intro s input expected _ _ impossible
    cases impossible
  · intro s input expected observation tracks _ shown
    obtain rfl : s.observe input = observation := Option.some.inj shown
    obtain ⟨shows, later⟩ := Phase.step tracks.phase input
    refine ⟨⟨tracks.exmem, tracks.wb, shows⟩, ?_, step_wb s input, later⟩
    rw [step_exmem, tracks.exmem]
    rfl

end MemPath

end Sparcy
