import Sparcy.FetchLines
import Sparcy.Core

/-!
# Fetch and the instruction cache

`InstructionFetch` in front of the instruction cache, with any data requests beside it
and any delays of the memory.  Each request is acknowledged once, with its own word, as
soon as the memory has answered.
-/

namespace Sparcy

/-- The word-aligned address that reaches the instruction cache. -/
def Fetch.wordAddress (pc : BitVec 64) : BitVec 64 := pc.extractLsb' 2 62 ++ (0 : BitVec 2)

/-- Below 2^30 the line address and the word select are the address. -/
theorem Fetch.wordAddress_eq (r : Fetch.Regs) (icAck : Bool) (low : r.nPc.toNat < 2 ^ 30) :
    (r.request icAck).lineAddr ++ (r.request icAck).wordSelect ++ (0 : BitVec 2) =
      Fetch.wordAddress r.nPc := by
  apply BitVec.eq_of_toNat_eq
  rw [wordAddress, Words.toNat_append_eq, Words.toNat_append_eq, Words.toNat_append_eq]
  change (((r.nPc.extractLsb' 6 24).setWidth 58).toNat * 2 ^ 4 + (r.nPc.extractLsb' 2 4).toNat) *
    2 ^ 2 + 0 = (r.nPc.extractLsb' 2 62).toNat * 2 ^ 2 + 0
  rw [BitVec.toNat_setWidth, BitVec.extractLsb'_toNat, BitVec.extractLsb'_toNat,
    BitVec.extractLsb'_toNat, Nat.shiftRight_eq_div_pow, Nat.shiftRight_eq_div_pow]
  omega

theorem Fetch.genuine (r : Fetch.Regs) (icAck : Bool) :
    ICache.tag (r.request icAck).lineAddr ≠ BitVec.allOnes 54 := by
  have bound := (r.nPc.extractLsb' 6 24).isLt
  apply ICache.tag_ne_ones
  change ((r.nPc.extractLsb' 6 24).setWidth 58).toNat < 2 ^ 24
  rw [BitVec.toNat_setWidth]
  omega

/-- In `STATEA` both edges store the same request. -/
theorem Fetch.Regs.step_pIcReq_of_a {r : Fetch.Regs} (state : r.pState = .a) {icAck : Bool}
    {icData : BitVec 32} {idReady muxEn : Bool} {target : BitVec 64} :
    (r.step icAck icData idReady muxEn target).pIcReq = !r.repeats := by
  obtain ⟨pState, pPc, pIcReq, pInst, pB, nPcCurrent, pcCurrent⟩ := r
  subst state
  rfl

/-- `InstructionFetch` and the caches on the bus. -/
structure FetchPath where
  fetch : Fetch.Regs
  ports : CachePorts

namespace FetchPath

/-- What the other stages and the memory do in a cycle. -/
structure Input where
  idReady : Bool
  muxEn : Bool
  target : BitVec 64
  dc : DcRequest
  events : DramEvents

def icAck (s : FetchPath) : Bool := s.ports.system.ic.pAck

def icRequest (s : FetchPath) : IcRequest := s.fetch.request s.icAck

def stepWith (s : FetchPath) (ip : IcRequest) (input : Input) : FetchPath :=
  { fetch := s.fetch.step s.icAck s.ports.system.ic.pProcDataOut input.idReady input.muxEn
      input.target
    ports := s.ports.step { ic := ip, dc := input.dc, events := input.events } }

/-- One clock cycle. -/
def step (s : FetchPath) (input : Input) : FetchPath := s.stepWith s.icRequest input

def reset (entry : BitVec 32) (ram : Ram) : FetchPath :=
  { fetch := Fetch.reset entry, ports := CachePorts.start ram }

/-- After the first edge without reset, which starts no access. -/
def start (entry : BitVec 32) (ram : Ram) : FetchPath :=
  (reset entry ram).stepWith { (reset entry ram).icRequest with req := false }
    { idReady := true, muxEn := false, target := 0, dc := Mem.reset.request EXMem.reset false
      events := .completing [] }

/-- This part of the processor, with the requests of the last cycle. -/
def ofCore (s : Core) (ic : IcRequest) (dc : DcRequest) : FetchPath :=
  { fetch := s.fetch, ports := { system := s.memory, ic := ic, dc := dc } }

theorem ofCore_step (syscall : Syscall) (s : Core) (events : DramEvents) (ic : IcRequest)
    (dc : DcRequest)
    (kept : (Core.runSyscalls syscall (s.idex.step s.decodeOut s.exReady) s.syscallResult
      s.memory.sys.ram).2 = s.memory.sys.ram) :
    ofCore (s.step syscall events) s.icRequest s.dcRequest =
      (ofCore s ic dc).step
        { idReady := s.idReady, muxEn := s.exOut.muxSel, target := s.exOut.target
          dc := s.dcRequest, events := events } := by
  change FetchPath.mk _ (CachePorts.mk (MemorySystem.step _ _ _ _) _ _) = _
  rw [kept]
  rfl

theorem ofCore_start (syscall : Syscall) (entry : BitVec 32) (regFile : RegFile) (ram : Ram) :
    ofCore (Core.start syscall entry regFile ram)
        { (reset entry ram).icRequest with req := false } (Mem.reset.request EXMem.reset false) =
      start entry ram := by
  have op : (Core.reset entry regFile ram).decodeOut.fields.op = 0 := by
    change (Decode.Regs.reset.outFields IFID.reset _).op = 0
    rw [Decode.Regs.outFields, if_neg (by decide)]
    split <;> decide
  have none : (Execute.aluIn (Core.reset entry regFile ram).decodeOut).syscalls = 0 := by
    apply if_neg
    rintro ⟨trap, -⟩
    exact absurd (op.symm.trans trap) (by decide)
  have quiet : (Core.runSyscalls syscall (Core.reset entry regFile ram).decodeOut 0 ram).2 = ram := by
    rw [Core.runSyscalls, none]
    rfl
  change FetchPath.mk _ (CachePorts.mk (MemorySystem.step { MemorySystem.reset ram with
    sys := { System.reset ram with ram := _ } } _ _ _) _ _) = _
  exact congrArg (fun later => FetchPath.mk _ (CachePorts.mk (MemorySystem.step
    { MemorySystem.reset ram with sys := { System.reset ram with ram := later } } _ _ _) _ _)) quiet

/-- The data request is held, the fetched addresses are below 2^30, and while a line is
fetched the RAM has it as the program does. -/
structure Legal (program : Ram) (s : FetchPath) (input : Input) : Prop where
  allowed : s.ports.system.Allowed input.events
  dcHeld : s.ports.system.dc.pState ≠ .a → input.dc = s.ports.dc
  address : s.icRequest.req = true → s.fetch.nPc.toNat < 2 ^ 30
  constant : s.icRequest.req = true →
    s.ports.system.sys.ram.line s.icRequest.lineAddr = program.line s.icRequest.lineAddr

theorem legal_iff {program : Ram} {s : FetchPath} {input : Input} :
    s.Legal program input ↔ s.ports.system.Allowed input.events ∧
      (s.ports.system.dc.pState ≠ .a → input.dc = s.ports.dc) ∧
      (s.icRequest.req = true → s.fetch.nPc.toNat < 2 ^ 30) ∧
      (s.icRequest.req = true →
        s.ports.system.sys.ram.line s.icRequest.lineAddr = program.line s.icRequest.lineAddr) :=
  ⟨fun legal => ⟨legal.allowed, legal.dcHeld, legal.address, legal.constant⟩,
    fun ⟨allowed, dcHeld, address, constant⟩ => ⟨allowed, dcHeld, address, constant⟩⟩

instance (program : Ram) (s : FetchPath) (input : Input) : Decidable (s.Legal program input) :=
  decidable_of_iff _ legal_iff.symm

/-- A cycle in which the other stages are ready and want no data. -/
def alone (events : DramEvents) : Input :=
  { idReady := true, muxEn := false, target := 0, dc := ⟨false, 0, 0, 0, true, 0, 0, 3⟩
    events := events }

/-! ### Requests and acknowledgements -/

/-- What the ports between fetch and the cache show: the cache samples a request; fetch
takes the word of an acknowledgement for the address it waits for; an acknowledgement
comes while fetch does not wait. -/
inductive Event where
  | request (address : BitVec 64)
  | taken (address : BitVec 64) (word : BitVec 32)
  | stray
deriving DecidableEq

def event (s : FetchPath) (_ : Input) : Option Event :=
  if s.icAck then
    if s.fetch.pState = .b then some (.taken s.fetch.pPc s.ports.system.ic.pProcDataOut)
    else some .stray
  else if s.ports.system.ic.pState = .a ∧ s.icRequest.req then some (.request s.fetch.nPc)
  else none

/-- Requests and acknowledgements take turns, and a request gets its own word of the
program. -/
def oneAck (program : Ram) : Runs.Monitor (Option (BitVec 64)) Event where
  allows
    | none, .request _ => True
    | some address, .taken address' word =>
        address' = address ∧ word = program.word32 (Fetch.wordAddress address)
    | _, _ => False
  next
    | _, .request address => some address
    | _, _ => none

/-- A cycle in which the memory does not keep the cache waiting. -/
def advance (s : FetchPath) (input : Input) : Option Unit :=
  if s.ports.system.ic.keptWaiting (s.ports.system.icResponse input.events) then none else some ()

/-! ### The invariant -/

/-- Fetch and the cache between two requests, at a request of the reset, at a request that
is being served, and at its acknowledgement. -/
inductive Link (program : Ram) (s : FetchPath) : Option (BitVec 64) → Prop
  | free (ready : s.fetch.pState ≠ .b) (idle : s.ports.system.ic.pState = .a)
      (silent : s.icAck = false) (off : s.fetch.pState ≠ .a → s.fetch.pIcReq = false) :
      Link program s none
  | raised (waits : s.fetch.pState = .b) (idle : s.ports.system.ic.pState = .a)
      (silent : s.icAck = false) (on : s.fetch.pIcReq = true) : Link program s none
  | waiting (waits : s.fetch.pState = .b) (busy : s.ports.system.ic.pState ≠ .a)
      (reads : s.ports.system.ic.pState ≠ .c) (silent : s.icAck = false)
      (on : s.fetch.pIcReq = true) (held : s.ports.ic = s.icRequest)
      (low : s.fetch.pPc.toNat < 2 ^ 30) : Link program s (some s.fetch.pPc)
  | answered (waits : s.fetch.pState = .b) (idle : s.ports.system.ic.pState = .a)
      (acknowledged : s.icAck = true)
      (word : s.ports.system.ic.pProcDataOut = program.word32 (Fetch.wordAddress s.fetch.pPc)) :
      Link program s (some s.fetch.pPc)

structure Tracks (program : Ram) (s : FetchPath) (outstanding : Option (BitVec 64)) : Prop where
  serving : s.ports.Serving program
  link : s.Link program outstanding

section

variable {program : Ram} {s : FetchPath} {input : Input} {outstanding : Option (BitVec 64)}

theorem ports_legal (link : s.Link program outstanding) (legal : s.Legal program input) :
    s.ports.Legal { ic := s.icRequest, dc := input.dc, events := input.events } where
  allowed := legal.allowed
  icHeld := by
    intro busy
    cases link with
    | free _ idle => exact absurd idle busy
    | raised _ idle => exact absurd idle busy
    | waiting _ _ _ _ _ held => exact held.symm
    | answered _ idle => exact absurd idle busy
  dcHeld := legal.dcHeld

theorem icRequest_of_waiting (waits : s.fetch.pState = .b) (silent : s.icAck = false) :
    s.icRequest =
      { req := s.fetch.pIcReq
        lineAddr := (s.fetch.pPc.extractLsb' 6 24).setWidth 58
        wordSelect := s.fetch.pPc.extractLsb' 2 4 } := by
  simp [icRequest, silent, Fetch.Regs.request, Fetch.Regs.icReq, Fetch.Regs.nIcReq, Fetch.Regs.nPc,
    waits]

theorem req_of_waiting (waits : s.fetch.pState = .b) (silent : s.icAck = false) :
    s.icRequest.req = s.fetch.pIcReq := by
  rw [icRequest_of_waiting waits silent]

theorem Tracks.serving_step (tracks : s.Tracks program outstanding) (legal : s.Legal program input) :
    (s.step input).ports.Serving program := by
  apply tracks.serving.step (ports_legal tracks.link legal)
  intro busy
  apply legal.constant
  cases tracks.link with
  | free _ idle => exact absurd idle busy
  | raised _ idle => exact absurd idle busy
  | waiting waits _ _ silent on => rw [req_of_waiting waits silent, on]
  | answered _ idle => exact absurd idle busy

variable (input) in
theorem idle_step (idle : s.ports.system.ic.pState = .a) (none : s.icRequest.req = false) :
    (s.step input).ports.system.ic.pState = .a ∧ (s.step input).icAck = false := by
  constructor
  · change s.ports.system.ic.nState s.icRequest _ = .a
    simp [ICache.Regs.nState, idle, none]
  · change s.ports.system.ic.nAck s.icRequest = false
    simp [ICache.Regs.nAck, idle]

theorem link_of_request (idle : s.ports.system.ic.pState = .a)
    (asks : s.icRequest.req = true) (legal : s.Legal program input)
    (next : (s.step input).fetch.pState = .b) (on : (s.step input).fetch.pIcReq = true) :
    (s.step input).Link program (some s.fetch.nPc) := by
  have state : (s.step input).ports.system.ic.pState = .b := by
    change s.ports.system.ic.nState s.icRequest _ = .b
    simp [ICache.Regs.nState, idle, asks]
  have silent' : (s.step input).icAck = false := by
    change s.ports.system.ic.nAck s.icRequest = false
    simp [ICache.Regs.nAck, idle]
  have held : (s.step input).ports.ic = (s.step input).icRequest := by
    rw [icRequest_of_waiting next silent', on]
    change s.icRequest = _
    rw [← asks]
    rfl
  exact .waiting next (by simp [state]) (by simp [state]) silent' on held (legal.address asks)

theorem ic_idle_iff {r : ICache.Regs} (busy : r.pState ≠ .a) (p : IcRequest)
    (response : BusResponse) :
    ((r.step p response).pState = .a ↔ (r.step p response).pAck = true) ∧
      (r.pState ≠ .c → (r.step p response).pState ≠ .c) := by
  cases state : r.pState with
  | a => exact absurd state busy
  | b => cases found : r.hit p <;> simp [ICache.Regs.step, ICache.Regs.nState, ICache.Regs.nAck, state, found]
  | c => simp [ICache.Regs.step, ICache.Regs.nState, ICache.Regs.nAck, state]
  | d =>
      cases ack : response.reqack <;>
        simp [ICache.Regs.step, ICache.Regs.nState, ICache.Regs.nAck, state, ack]
  | e =>
      simp only [ICache.Regs.step, ICache.Regs.nState, ICache.Regs.nAck, state]
      split <;> split <;> simp

variable (input) in
theorem fetch_free_step (ready : s.fetch.pState ≠ .b) (silent : s.icAck = false)
    (off : s.fetch.pState ≠ .a → s.fetch.pIcReq = false) (none : s.icRequest.req = false) :
    (s.step input).fetch.pState ≠ .b ∧
      ((s.step input).fetch.pState ≠ .a → (s.step input).fetch.pIcReq = false) := by
  have next : (s.step input).fetch.pState = s.fetch.nState s.icAck input.idReady := rfl
  have on : (s.step input).fetch.pIcReq =
      Fetch.Regs.nIcReq { s.fetch with pIcReq := s.fetch.icReq s.icAck } s.icAck := rfl
  cases state : s.fetch.pState with
  | a =>
      have repeated : s.fetch.repeats = true := by
        simpa [icRequest, silent, Fetch.Regs.request, Fetch.Regs.icReq, Fetch.Regs.nIcReq, state]
          using none
      have stays : (s.step input).fetch.pState = .a := by
        rw [next]
        simp [Fetch.Regs.nState, state, repeated]
      exact ⟨by simp [stays], fun other => absurd stays other⟩
  | b => exact absurd state ready
  | c =>
      refine ⟨?_, fun _ => ?_⟩
      · rw [next]
        simp only [Fetch.Regs.nState, state]
        split
        · split <;> simp
        · simp
      · rw [on]
        simp [Fetch.Regs.nIcReq, Fetch.Regs.icReq, state, silent, off]
  | s =>
      refine ⟨?_, fun _ => ?_⟩
      · rw [next]
        simp [Fetch.Regs.nState, state]
      · rw [on]
        simp [Fetch.Regs.nIcReq, Fetch.Regs.icReq, state, silent, off]

/-- One cycle: what the ports show is allowed, and the link goes on with it. -/
theorem Tracks.link_step (tracks : s.Tracks program outstanding) (legal : s.Legal program input) :
    (∀ e, s.event input = some e →
        (oneAck program).allows outstanding e ∧
          (s.step input).Link program ((oneAck program).next outstanding e)) ∧
      (s.event input = none → (s.step input).Link program outstanding) := by
  cases tracks.link with
  | free ready idle silent off =>
      cases asks : s.icRequest.req with
      | true =>
          have state : s.fetch.pState = .a := by
            by_contra other
            have pending : s.icRequest.req = s.fetch.pIcReq := by
              cases here : s.fetch.pState with
              | a => exact absurd here other
              | b => exact absurd here ready
              | c => simp [icRequest, silent, Fetch.Regs.request, Fetch.Regs.icReq, Fetch.Regs.nIcReq, here]
              | s => simp [icRequest, silent, Fetch.Regs.request, Fetch.Regs.icReq, Fetch.Regs.nIcReq, here]
            rw [asks, off other] at pending
            cases pending
          have fresh : s.fetch.repeats = false := by
            simpa [icRequest, silent, Fetch.Regs.request, Fetch.Regs.icReq, Fetch.Regs.nIcReq, state]
              using asks
          have shown : s.event input = some (.request s.fetch.nPc) := by
            simp [event, silent, idle, asks]
          have next : (s.step input).fetch.pState = .b := by
            change s.fetch.nState s.icAck _ = .b
            simp [Fetch.Regs.nState, state, fresh]
          have on : (s.step input).fetch.pIcReq = true := by
            change (s.fetch.step _ _ _ _ _).pIcReq = true
            rw [Fetch.Regs.step_pIcReq_of_a state, fresh]
            rfl
          refine ⟨?_, fun none => ?_⟩
          · intro e same
            rw [shown, Option.some.injEq] at same
            subst same
            exact ⟨trivial, link_of_request idle asks legal next on⟩
          · rw [shown] at none
            cases none
      | false =>
          have shown : s.event input = none := by simp [event, silent, asks]
          obtain ⟨idle', silent'⟩ := idle_step input idle asks
          refine ⟨fun e same => ?_, fun _ => ?_⟩
          · rw [shown] at same
            cases same
          · obtain ⟨ready', off'⟩ := fetch_free_step input ready silent off asks
            exact .free ready' idle' silent' off'
  | raised waits idle silent on =>
      have asks : s.icRequest.req = true := (req_of_waiting waits silent).trans on
      have shown : s.event input = some (.request s.fetch.nPc) := by
        simp [event, silent, idle, asks]
      have next : (s.step input).fetch.pState = .b := by
        change s.fetch.nState s.icAck _ = .b
        simp [Fetch.Regs.nState, waits, silent]
      have on' : (s.step input).fetch.pIcReq = true := by
        change Fetch.Regs.nIcReq { s.fetch with pIcReq := s.fetch.icReq s.icAck } s.icAck = true
        simp [Fetch.Regs.nIcReq, Fetch.Regs.icReq, waits, silent, on]
      refine ⟨?_, fun none => ?_⟩
      · intro e same
        rw [shown, Option.some.injEq] at same
        subst same
        exact ⟨trivial, link_of_request idle asks legal next on'⟩
      · rw [shown] at none
        cases none
  | waiting waits busy reads silent on held low =>
      have shown : s.event input = none := by simp [event, silent, busy]
      have next : (s.step input).fetch.pState = .b := by
        change s.fetch.nState s.icAck _ = .b
        simp [Fetch.Regs.nState, waits, silent]
      have on' : (s.step input).fetch.pIcReq = true := by
        change Fetch.Regs.nIcReq { s.fetch with pIcReq := s.fetch.icReq s.icAck } s.icAck = true
        simp [Fetch.Regs.nIcReq, Fetch.Regs.icReq, waits, silent, on]
      have address : (s.step input).fetch.pPc = s.fetch.pPc := by
        change s.fetch.nPc = s.fetch.pPc
        simp [Fetch.Regs.nPc, waits]
      obtain ⟨done, entered⟩ := ic_idle_iff busy s.icRequest (s.ports.system.icResponse input.events)
      refine ⟨fun e same => ?_, fun _ => ?_⟩
      · rw [shown] at same
        cases same
      · rw [← address]
        cases ack : (s.step input).icAck with
        | true =>
            refine .answered next (done.mpr ack) ack ?_
            have hit : s.ports.system.ic.nAck s.icRequest = true := ack
            have legal' := ports_legal tracks.link legal
            have word := (tracks.serving.now legal').1.hit (Fetch.genuine _ _) hit
            have low' : s.fetch.nPc.toNat < 2 ^ 30 := by
              rw [show s.fetch.nPc = s.fetch.pPc from address]
              exact low
            exact word.trans (congrArg program.word32 (Fetch.wordAddress_eq _ _ low'))
        | false =>
            have held' : (s.step input).ports.ic = (s.step input).icRequest := by
              rw [icRequest_of_waiting next ack, address, on', ← on]
              exact icRequest_of_waiting waits silent
            refine .waiting next ?_ (entered reads) ack on' held' (by rw [address]; exact low)
            intro idle
            have both := done.mp idle
            exact absurd (both.symm.trans ack) (by decide)
  | answered waits idle acknowledged word =>
      have asks : s.icRequest.req = false := by
        simp [icRequest, acknowledged, Fetch.Regs.request, Fetch.Regs.icReq]
      have shown : s.event input =
          some (.taken s.fetch.pPc s.ports.system.ic.pProcDataOut) := by
        simp [event, acknowledged, waits]
      obtain ⟨idle', silent'⟩ := idle_step input idle asks
      refine ⟨?_, fun none => ?_⟩
      · intro e same
        rw [shown, Option.some.injEq] at same
        subst same
        refine ⟨⟨rfl, word⟩, .free ?_ idle' silent' fun _ => ?_⟩
        · change s.fetch.nState s.icAck _ ≠ .b
          simp only [Fetch.Regs.nState, waits, acknowledged, if_true]
          split
          · split <;> simp
          · simp
        · change Fetch.Regs.nIcReq { s.fetch with pIcReq := s.fetch.icReq s.icAck } s.icAck = false
          simp [Fetch.Regs.nIcReq, waits, acknowledged]
      · rw [shown] at none
        cases none

theorem Tracks.step (tracks : s.Tracks program outstanding) (legal : s.Legal program input)
    (shown : s.event input = none) : (s.step input).Tracks program outstanding :=
  ⟨tracks.serving_step legal, (tracks.link_step legal).2 shown⟩

theorem Tracks.step_event {e : Event} (tracks : s.Tracks program outstanding)
    (legal : s.Legal program input) (shown : s.event input = some e) :
    (oneAck program).allows outstanding e ∧
      (s.step input).Tracks program ((oneAck program).next outstanding e) :=
  have ⟨allowed, link⟩ := (tracks.link_step legal).1 e shown
  ⟨allowed, tracks.serving_step legal, link⟩

/-- The state in some memory of the monitor. -/
def Sound (program : Ram) (s : FetchPath) : Prop := ∃ outstanding, s.Tracks program outstanding

theorem Sound.step (sound : s.Sound program) (legal : s.Legal program input) :
    (s.step input).Sound program := by
  obtain ⟨outstanding, tracks⟩ := sound
  cases shown : s.event input with
  | none => exact ⟨outstanding, tracks.step legal shown⟩
  | some e => exact ⟨_, (tracks.step_event legal shown).2⟩

/-- Before its acknowledgement a request stays, and each cycle brings it nearer. -/
theorem Sound.left_step (sound : s.Sound program) (legal : s.Legal program input)
    (waits : s.fetch.pState = .b) (silent : s.icAck = false) (silent' : (s.step input).icAck = false) :
    (s.step input).fetch.pState = .b ∧
      (s.step input).ports.system.ic.left (s.step input).icRequest +
          (s.advance input).toList.length ≤
        s.ports.system.ic.left s.icRequest := by
  obtain ⟨outstanding, tracks⟩ := sound
  have legal' := ports_legal tracks.link legal
  have next : (s.step input).fetch.pState = .b := by
    change s.fetch.nState s.icAck _ = .b
    simp [Fetch.Regs.nState, waits, silent]
  have address : (s.step input).fetch.pPc = s.fetch.pPc := by
    change s.fetch.nPc = s.fetch.pPc
    simp [Fetch.Regs.nPc, waits]
  have on : s.fetch.pIcReq = true ∧ s.ports.system.ic.pState ≠ .c := by
    cases tracks.link with
    | free ready => exact absurd waits ready
    | raised _ idle _ on => exact ⟨on, by simp [idle]⟩
    | waiting _ _ reads _ on => exact ⟨on, reads⟩
    | answered _ _ acknowledged =>
        rw [acknowledged] at silent
        cases silent
  have on' : (s.step input).fetch.pIcReq = true := by
    change Fetch.Regs.nIcReq { s.fetch with pIcReq := s.fetch.icReq s.icAck } s.icAck = true
    simp [Fetch.Regs.nIcReq, Fetch.Regs.icReq, waits, silent, on.1]
  have same : (s.step input).icRequest = s.icRequest := by
    rw [icRequest_of_waiting next silent', icRequest_of_waiting waits silent, address, on', on.1]
  have asks : s.icRequest.req = true := (req_of_waiting waits silent).trans on.1
  have nearer := (tracks.serving.now legal').1.left_step (tracks.serving.answered legal')
    (fun _ => ⟨asks, silent⟩) on.2
  refine ⟨next, ?_⟩
  rw [same, advance]
  split <;> rename_i kept
  · rw [if_pos kept] at nearer
    exact nearer
  · rw [if_neg kept] at nearer
    exact nearer

end

theorem tracks_start (entry : BitVec 32) (program ram : Ram) :
    (start entry ram).Tracks program none := by
  have fresh : (Fetch.reset entry).repeats = false := by
    simp only [Fetch.Regs.repeats, decide_eq_false_iff_not, not_and_not_right]
    exact fun zero => zero
  constructor
  · refine CachePorts.Serving.step (CachePorts.serving_start ram program) ?_ ?_
    · exact ⟨MemorySystem.allowed_completing _, fun busy => absurd rfl busy,
        fun busy => absurd rfl busy⟩
    · exact fun busy => absurd rfl busy
  · refine .raised ?_ rfl rfl ?_
    · change (Fetch.reset entry).nState false true = .b
      rw [Fetch.Regs.nState]
      exact if_neg (by simp [fresh])
    · change ((Fetch.reset entry).step false 0 true false 0).pIcReq = true
      rw [Fetch.Regs.step_pIcReq_of_a rfl, fresh]
      rfl

theorem advance_le_left {program : Ram} {s : FetchPath} {inputs : List Input}
    (sound : s.Sound program) (legal : Runs.Guarded step (Legal program) s inputs)
    (waits : s.fetch.pState = .b) (silent : Runs.Always step (fun s => s.icAck = false) s inputs) :
    (Runs.emits step advance s inputs).length ≤ s.ports.system.ic.left s.icRequest := by
  induction inputs generalizing s with
  | nil => exact Nat.zero_le _
  | cons input inputs induction =>
      obtain ⟨waits', nearer⟩ := sound.left_step legal.1 waits silent.1 silent.2.head
      have rest := induction (sound.step legal.1) legal.2 waits' silent.2
      rw [Runs.emits_cons, List.length_append]
      omega

/-- What fetch gets in a run. -/
structure Returns (program : Ram) (s : FetchPath) (inputs : List Input) : Prop where
  /-- Every request is acknowledged once, with its word, before the next one. -/
  once : (oneAck program).Accepts none (Runs.emits step event s inputs)
  /-- The acknowledgement comes within 14 cycles, not counting those in which the memory
  keeps the cache waiting. -/
  comes : ∀ earlier later, inputs = earlier ++ later →
    (Runs.run step s earlier).fetch.pState = .b →
    Runs.Always step (fun s => s.icAck = false) (Runs.run step s earlier) later →
    (Runs.emits step advance (Runs.run step s earlier) later).length ≤ 14

/-- Instruction fetch returns memory. -/
theorem fetch_returns_memory (entry : BitVec 32) (program ram : Ram) (inputs : List Input)
    (legal : Runs.Guarded step (Legal program) (start entry ram) inputs) :
    Returns program (start entry ram) inputs := by
  constructor
  · exact Runs.Monitor.accepts_emits (Tracks program)
      (fun _ _ _ tracks legal shown => tracks.step legal shown)
      (fun _ _ _ _ tracks legal shown => tracks.step_event legal shown)
      (tracks_start entry program ram) legal
  · rintro earlier later rfl waits silent
    have first : (start entry ram).Sound program := ⟨none, tracks_start entry program ram⟩
    rw [Runs.guarded_append] at legal
    obtain ⟨before, after⟩ := legal
    have sound := (before.always (fun _ _ sound legal => sound.step legal) first).last
    exact (advance_le_left sound after waits silent).trans (ICache.Regs.left_le _ _)

/-- The first fetch misses, and the second one hits. -/
theorem fetch_returns_memory_miss :
    Returns (Ram.ofWords [0x82006001, 0x82006002]) (start 0 (Ram.ofWords [0x82006001, 0x82006002]))
      (List.map alone (DramEvents.firstFetch ++ List.replicate 5 (.completing []))) :=
  fetch_returns_memory _ _ _ _ (by decide +kernel)

end FetchPath

end Sparcy
