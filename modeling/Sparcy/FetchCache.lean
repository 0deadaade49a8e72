import Sparcy.DataAccess

/-!
# The instruction cache over a constant RAM

While the data cache has no request, nothing changes the RAM and the bus belongs to
the instruction cache.  Its sets are either as the reset left them or hold lines that
were fetched, word by word as the RAM has them.
-/

namespace Sparcy

open Words (word)

namespace ICache.Regs

/-- The set of a request. -/
abbrev set (p : IcRequest) : BitVec 4 := index p.lineAddr

/-- The line address that a set names. -/
def lineAt (r : Regs) (i : BitVec 4) : BitVec 58 := r.tagSram.mem i ++ i

/-- The set whose line is being fetched. -/
def Replaces (r : Regs) (p : IcRequest) (i : BitVec 4) : Prop :=
  (r.pState = .d ∨ r.pState = .e) ∧ i = set p

/-- The read registers show the set of the request. -/
structure Loaded (r : Regs) (p : IcRequest) : Prop where
  data : r.dataSram.readData = r.dataSram.mem (set p)
  tag : r.tagSram.readData = r.tagSram.mem (set p)

/-- The set has been claimed for the line of the request. -/
structure Claimed (r : Regs) (p : IcRequest) : Prop where
  tag : r.tagSram.mem (set p) = ICache.tag p.lineAddr
  reqtag : r.pReqtag = readTag

/-- A row holds a line of the RAM; each beat is stored with its halves exchanged. -/
def HoldsLine (row : BitVec 512) (ram : Ram) (l : BitVec 58) : Prop :=
  ∀ k < 8, word 64 row k = swapHalves (ram.doubleword l k)

section

variable {r : Regs} {p : IcRequest} {bus : BusResponse}

theorem step_data_mem :
    (r.step p bus).dataSram.mem = Function.update r.dataSram.mem (set p)
      (writeWords (r.dataSram.mem (set p)) (r.writeData bus) 32 (r.dataWrite bus)) :=
  Sram.step_mem ..

theorem step_tag_mem :
    (r.step p bus).tagSram.mem =
      if r.requests bus then Function.update r.tagSram.mem (set p) (tag p.lineAddr)
      else r.tagSram.mem :=
  Sram.step_mem_ofBool (by decide) ..

theorem step_rows_of_silent (request : r.requests bus = false) (consume : r.consumes bus = false) :
    (r.step p bus).dataSram.mem = r.dataSram.mem ∧
      (r.step p bus).tagSram.mem = r.tagSram.mem := by
  have none : r.dataWrite bus = 0 := by simp [dataWrite, consume]
  refine ⟨?_, by simp [step_tag_mem, request]⟩
  rw [step_data_mem, none, writeWords_zero, Function.update_eq_self]

theorem step_rows {i : BitVec 4} (other : i ≠ set p) :
    (r.step p bus).dataSram.mem i = r.dataSram.mem i ∧
      (r.step p bus).tagSram.mem i = r.tagSram.mem i := by
  refine ⟨by rw [step_data_mem, Function.update_of_ne other], ?_⟩
  rw [step_tag_mem]
  split
  · rw [Function.update_of_ne other]
  · rfl

/-! A request and its refill, edge by edge. -/

/-- The set is claimed while the request goes out. -/
theorem step_of_refused (state : r.pState = .d) (refused : bus.reqack = false) :
    (r.step p bus).pState = .d ∧ (r.step p bus).pReqcyc = true ∧
      (r.step p bus).pReq = Ram.lineAddress p.lineAddr ∧ (r.step p bus).Claimed p := by
  have request : r.requests bus = true := by simp [requests, state, refused]
  refine ⟨?_, request, if_pos request, ?_, ?_⟩
  · change r.nState p bus = _
    simp [nState, state, refused]
  · rw [step_tag_mem, if_pos request, Function.update_self]
  · change r.nReqtag bus = readTag
    simp [nReqtag, request]

theorem step_of_granted (state : r.pState = .d) (ack : bus.reqack = true) (claimed : r.Claimed p) :
    (r.step p bus).pState = .e ∧ (r.step p bus).pReqcyc = false ∧ (r.step p bus).pCounter = 0 ∧
      (r.step p bus).Claimed p := by
  have request : r.requests bus = false := by simp [requests, ack]
  have consume : r.consumes bus = false := by simp [consumes, state]
  refine ⟨?_, request, ?_, ?_, ?_⟩
  · change r.nState p bus = _
    simp [nState, state, ack]
  · change r.nCounter bus = 0
    simp [nCounter, state, ack]
  · rw [(step_rows_of_silent request consume).2, claimed.tag]
  · change r.nReqtag bus = readTag
    simp [nReqtag, request, consume, claimed.reqtag]

theorem step_of_beat (state : r.pState = .e) (consume : r.consumes bus = true)
    (claimed : r.Claimed p) (low : r.pCounter.toNat < 8) {program : Ram}
    (resp : bus.resp = program.doubleword p.lineAddr r.pCounter.toNat)
    (filled : ∀ k < r.pCounter.toNat,
      word 64 (r.dataSram.mem (set p)) k = swapHalves (program.doubleword p.lineAddr k)) :
    (r.step p bus).pState = .e ∧ (r.step p bus).pReqcyc = false ∧
      (r.step p bus).pCounter.toNat = r.pCounter.toNat + 1 ∧ (r.step p bus).Claimed p ∧
      ∀ k < r.pCounter.toNat + 1, word 64 ((r.step p bus).dataSram.mem (set p)) k =
        swapHalves (program.doubleword p.lineAddr k) := by
  have low' : r.pCounter < 8 := by
    rw [BitVec.lt_def]
    exact low
  have beat : r.beat bus = true := by
    rw [consumes, Bool.and_eq_true] at consume
    exact consume.2
  have request : r.requests bus = false := by simp [requests, state]
  refine ⟨?_, request, ?_, ⟨?_, ?_⟩, ?_⟩
  · change r.nState p bus = _
    simp only [nState, state, beat, if_true, if_pos low']
  · change (r.nCounter bus).toNat = _
    rw [nCounter, if_neg (by simp [state]), if_pos consume, BitVec.toNat_add]
    change (r.pCounter.toNat + 1) % 32 = r.pCounter.toNat + 1
    omega
  · rw [step_tag_mem, request]
    exact claimed.tag
  · change r.nReqtag bus = readTag
    rw [nReqtag, request, if_neg (by decide), if_neg (fun last => last.2 low')]
    exact claimed.reqtag
  · intro k below
    have data : (r.step p bus).dataSram.mem (set p) =
        writeWords (r.dataSram.mem (set p))
          ((swapHalves bus.resp).setWidth 512 <<< (r.pCounter.toNat * 64)) 32
          (BitVec.ofNat 16 (2 ^ 2 - 1) <<< (r.pCounter.toNat * 2)) := by
      rw [step_data_mem, Function.update_self]
      simp [writeData, dataWrite, consume]
    rw [data, word_writeWords_beat rfl (by decide) _ _ (by decide) low (by omega)]
    by_cases last : k = r.pCounter.toNat
    · rw [if_pos last, last, resp]
    · rw [if_neg last]
      exact filled k (by omega)

/-- Without a beat the row stays; when it is full it is looked up. -/
theorem step_of_pause (state : r.pState = .e) (consume : r.consumes bus = false)
    (claimed : r.Claimed p) :
    (r.step p bus).pState = (if r.pCounter = 8 then .b else .e) ∧
      (r.step p bus).pReqcyc = false ∧ (r.step p bus).pCounter = r.pCounter ∧
      (r.step p bus).Claimed p ∧ (r.step p bus).dataSram.mem = r.dataSram.mem ∧
      (r.step p bus).tagSram.mem = r.tagSram.mem := by
  have beat : r.beat bus = false := by
    rw [consumes, state] at consume
    simpa using consume
  have request : r.requests bus = false := by simp [requests, state]
  obtain ⟨data, tags⟩ := step_rows_of_silent (p := p) request consume
  refine ⟨?_, request, ?_, ⟨?_, ?_⟩, data, tags⟩
  · change r.nState p bus = _
    simp only [nState, state, beat]
    rfl
  · change r.nCounter bus = _
    simp [nCounter, state, consume]
  · rw [tags, claimed.tag]
  · change r.nReqtag bus = readTag
    simp [nReqtag, request, consume, claimed.reqtag]

end

end ICache.Regs

/-- The tag memory of the instruction cache resets to a tag that no fetched line has. -/
theorem ICache.tag_ne_ones {l : BitVec 58} (small : l.toNat < 2 ^ 24) :
    tag l ≠ BitVec.allOnes 54 := by
  intro ones
  have value := congrArg BitVec.toNat ones
  rw [tag, BitVec.extractLsb'_toNat, BitVec.toNat_allOnes, Nat.shiftRight_eq_div_pow] at value
  omega

theorem word_of_holdsLine {row : BitVec 512} {ram : Ram} {l : BitVec 58}
    (holds : ICache.Regs.HoldsLine row ram l) (w : BitVec 4) :
    word 32 row w.toNat = ram.word32 (l ++ w ++ (0 : BitVec 2)) := by
  have bound := w.isLt
  have half : w.toNat / 2 < 8 := by omega
  have address : (l ++ w ++ (0 : BitVec 2)).toNat = l.toNat * 64 + w.toNat * 4 := by
    have low : (l ++ w).toNat = l.toNat * 16 + w.toNat := by
      rw [BitVec.toNat_append, ← Nat.shiftLeft_add_eq_or_of_lt w.isLt, Nat.shiftLeft_eq]
    rw [BitVec.toNat_append, Nat.shiftLeft_eq, low]
    change _ ||| 0 = _
    rw [Nat.or_zero]
    omega
  have pair : word 64 row (w.toNat / 2) =
      ram.word32 (System.beatAddr (Ram.lineAddress l) (w.toNat / 2) + 4) ++
        ram.word32 (System.beatAddr (Ram.lineAddress l) (w.toNat / 2)) := by
    rw [holds _ half, ICache.swapHalves, Ram.doubleword, Ram.be64toh_load64]
    exact congrArg₂ _ BitVec.extractLsb'_append_eq_right BitVec.extractLsb'_append_eq_left
  have base := Ram.toNat_beatAddr l half
  have bits : ∀ j < 32, (word 32 row w.toNat).getLsbD j =
      (word 64 row (w.toNat / 2)).getLsbD (w.toNat % 2 * 32 + j) := by
    intro j below
    simp only [Words.getLsbD_word, below, decide_true, Bool.true_and,
      show w.toNat % 2 * 32 + j < 64 by omega]
    exact congrArg _ (by omega)
  have bound' := l.isLt
  apply BitVec.eq_of_getLsbD_eq
  intro j below
  rw [bits j below, pair, BitVec.getLsbD_append]
  rcases Nat.mod_two_eq_zero_or_one w.toNat with even | odd
  · have here : System.beatAddr (Ram.lineAddress l) (w.toNat / 2) = l ++ w ++ (0 : BitVec 2) := by
      apply BitVec.eq_of_toNat_eq
      rw [base, address]
      omega
    simp [even, below, here]
  · have here : System.beatAddr (Ram.lineAddress l) (w.toNat / 2) + 4 =
        l ++ w ++ (0 : BitVec 2) := by
      apply BitVec.eq_of_toNat_eq
      rw [BitVec.toNat_add, base, address]
      change (l.toNat * 64 + w.toNat / 2 * 8 + 4) % 2 ^ 64 = _
      omega
    rw [here, odd]
    simp

namespace MemorySystem

open ICache (index tag readTag)
open ICache.Regs (set HoldsLine)

/-- The data cache has nothing to do. -/
structure DataIdle (m : MemorySystem) : Prop where
  state : m.dc.pState = .a
  off : m.dc.pReqcyc = false
  count : m.sys.rxCount = 0
  port : m.FetchPort

/-- Nothing of the instruction cache is on the bus. -/
structure FetchFree (m : MemorySystem) : Prop where
  off : m.ic.pReqcyc = false
  quiet : m.sys.Quiet readTag

/-- Where the instruction cache is with a request. -/
inductive FetchPhase (m : MemorySystem) (p : IcRequest) : Prop
  | idle (state : m.ic.pState = .a) (free : m.FetchFree)
  | lookup (state : m.ic.pState = .b) (free : m.FetchFree) (loaded : m.ic.Loaded p)
  | ask (state : m.ic.pState = .d)
      (line : m.ic.pReqcyc = true → m.ic.Claimed p ∧ m.ic.pReq = Ram.lineAddress p.lineAddr)
      (asked : m.sys.Asked readTag p.lineAddr)
      (granted : m.sys.Quiet readTag ∨ m.grant = .ic)
  | refill (state : m.ic.pState = .e) (off : m.ic.pReqcyc = false) (claimed : m.ic.Claimed p)
      (low : m.ic.pCounter.toNat ≤ 8)
      (filled : ∀ k < m.ic.pCounter.toNat,
        word 64 (m.ic.dataSram.mem (set p)) k =
          ICache.swapHalves (m.sys.ram.doubleword p.lineAddr k))
      (answers : m.sys.Answers readTag p.lineAddr m.ic.pCounter.toNat)

/-- A set is as the reset left it, or holds a fetched line. -/
def Fetched (m : MemorySystem) (known : List (BitVec 58)) (i : BitVec 4) : Prop :=
  m.ic.tagSram.mem i = BitVec.allOnes 54 ∨
    (m.ic.lineAt i ∈ known ∧ HoldsLine (m.ic.dataSram.mem i) m.sys.ram (m.ic.lineAt i))

/-- The invariant of a run without data requests. -/
structure FetchTracked (m : MemorySystem) (p : IcRequest) (known : List (BitVec 58)) : Prop where
  rows : ∀ i, ¬ m.ic.Replaces p i → m.Fetched known i
  phase : m.FetchPhase p

section

variable {m : MemorySystem} {ip : IcRequest} {p : DcRequest} {events : DramEvents}
  {l : BitVec 58} {c : Nat} {known : List (BitVec 58)}

theorem DataIdle.consumes (idle : m.DataIdle) : m.dc.consumes (m.dcResponse events) = false := by
  simp [DCache.Regs.consumes, idle.state]

variable (ip p events) in
theorem DataIdle.elsewhere (idle : m.DataIdle) : (m.step ip p events).grant ≠ .dc :=
  elsewhere_of_off (DCache.Regs.step_off (.inl idle.state))

theorem DataIdle.ram_step (idle : m.DataIdle) :
    (m.step ip p events).sys.ram = m.sys.ram ∧ (m.step ip p events).sys.rxCount = 0 := by
  obtain ⟨ram, count, -⟩ := step_sys_elsewhere (l := 0) (c := 0) idle.port
    (fun started => absurd idle.count started) (idle.elsewhere ip p events)
  exact ⟨ram, count⟩

theorem DataIdle.step (idle : m.DataIdle) (none : p.req = false) :
    (m.step ip p events).DataIdle := by
  refine ⟨?_, DCache.Regs.step_off (.inl idle.state), idle.ram_step.2, idle.port.step ip p events⟩
  change m.dc.nState p (m.dcResponse events) = .a
  simp [DCache.Regs.nState, idle.state, none]

/-! ### What the instruction cache sees -/

theorem icResponse_reqack_iff :
    (m.icResponse events).reqack = true ↔ m.grant = .ic ∧ events.accepts = true := by
  have response : (m.icResponse events).reqack =
      Arbiter.icReqack m.arbiter m.ic.bus m.dc.bus (System.reqack events m.bus) := by
    rw [icResponse, System.response]
    cases m.sys.txQueue <;> rfl
  rw [response, grant, MemorySystem.bus]
  cases m.arbiter <;> cases ask : m.dc.bus.reqcyc <;> cases other : m.ic.bus.reqcyc <;>
    simp [Arbiter.icReqack, System.reqack, Arbiter.bus, Arbiter.grant, ask, other]

theorem ic_grant_step (granted : m.grant = .ic) (on : (m.step ip p events).ic.pReqcyc = true) :
    (m.step ip p events).grant = .ic := by
  have owner : (m.step ip p events).arbiter = .a := by
    change Arbiter.step m.arbiter m.ic.bus m.dc.bus = .a
    rw [Arbiter.step, show Arbiter.grant m.arbiter m.ic.bus m.dc.bus = .ic from granted]
  rw [grant, owner, Arbiter.grant, ICache.Regs.bus, on]
  rfl

theorem DataIdle.served_kept (idle : m.DataIdle)
    (kept : m.ic.consumes (m.icResponse events) = false) :
    m.served ip p events = m.sys.update events := by
  have silent : ((m.step ip p events).ic.pRespack || (m.step ip p events).dc.pRespack) = false := by
    change (m.ic.consumes _ || m.dc.consumes _) = false
    rw [kept, idle.consumes]
    rfl
  rw [served, silent]
  rfl

theorem ic_served_taken (tag : m.ic.pReqtag = readTag)
    (taken : m.ic.consumes (m.icResponse events) = true) (answers : m.sys.Answers readTag l c) :
    (m.served ip p events).Answers readTag l (c + 1) := by
  obtain ⟨beat, rest, queue⟩ := ic_front taken
  obtain ⟨more, later⟩ := System.txQueue_update (s := m.sys) events
  have popped : ((m.step ip p events).ic.pRespack || (m.step ip p events).dc.pRespack) = true := by
    change (m.ic.consumes _ || _) = true
    rw [taken]
    rfl
  rw [served, popped]
  apply (answers.update events (by decide)).pop_taken
  rw [later, queue, tag]
  rfl

theorem DataIdle.step_sys_off (idle : m.DataIdle)
    (off : (m.step ip p events).ic.pReqcyc = false)
    (answers : (m.served ip p events).Answers readTag l c) :
    (m.step ip p events).sys.Answers readTag l c := by
  have nobody : (m.step ip p events).grant = .none := by
    cases granted : (m.step ip p events).grant with
    | none => rfl
    | dc => exact absurd granted (idle.elsewhere ip p events)
    | ic =>
        have on := (bus_of_ic granted).1
        rw [off] at on
        cases on
  rw [step_sys, System.request_idle (bus_of_none nobody)]
  exact answers.congr rfl rfl rfl

/-- A tick in which it asks for a line: the request is placed or waits. -/
theorem DataIdle.step_sys_on (idle : m.DataIdle)
    (tag : (m.step ip p events).ic.pReqtag = readTag)
    (line : (m.step ip p events).ic.pReq = Ram.lineAddress l)
    (asked : (m.served ip p events).Asked readTag l) :
    (m.step ip p events).sys.Asked readTag l ∧
      ((m.served ip p events).Quiet readTag →
        (m.step ip p events).sys.Quiet readTag ∨ (m.step ip p events).grant = .ic) := by
  obtain ⟨-, count, -⟩ := served_frame m ip p events
  cases granted : (m.step ip p events).grant with
  | dc => exact absurd granted (idle.elsewhere ip p events)
  | none =>
      rw [step_sys, System.request_idle (bus_of_none granted)]
      exact ⟨asked.congr rfl rfl, fun quiet => .inl quiet⟩
  | ic =>
      obtain ⟨-, asks, reqtag⟩ := bus_of_ic granted
      have req : (m.step ip p events).bus.req = Ram.lineAddress l := by
        rw [MemorySystem.bus, (Arbiter.grant_ic granted).2]
        exact line
      rw [tag] at reqtag
      have memory : System.cmd (m.step ip p events).bus.reqtag = System.MEMORY := by
        rw [reqtag]
        exact cmd_tags.2.2
      rw [step_sys, System.request_command asks (count.trans idle.count)]
      exact ⟨asked.command memory req, fun _ => .inr rfl⟩

/-! ### One cycle -/

/-- The last beat has arrived and the line is looked up again. -/
def refills (m : MemorySystem) (ip : IcRequest) (events : DramEvents) : Bool :=
  m.ic.pState == .e && m.ic.nState ip (m.icResponse events) == .b

/-- The lines fetched so far. -/
def nowKnown (m : MemorySystem) (ip : IcRequest) (events : DramEvents)
    (known : List (BitVec 58)) : List (BitVec 58) :=
  if m.refills ip events then ip.lineAddr :: known else known

theorem mem_nowKnown {l : BitVec 58} (old : l ∈ known) : l ∈ m.nowKnown ip events known := by
  rw [nowKnown]
  split
  · exact List.mem_cons_of_mem _ old
  · exact old

/-- A row and its tag that stay keep what is known of the set. -/
theorem Fetched.step {i : BitVec 4} (fetched : m.Fetched known i) (idle : m.DataIdle)
    (data : (m.step ip p events).ic.dataSram.mem i = m.ic.dataSram.mem i)
    (tags : (m.step ip p events).ic.tagSram.mem i = m.ic.tagSram.mem i) :
    (m.step ip p events).Fetched (m.nowKnown ip events known) i := by
  have line : (m.step ip p events).ic.lineAt i = m.ic.lineAt i := by
    rw [ICache.Regs.lineAt, tags, ICache.Regs.lineAt]
  rw [Fetched, data, tags, line, idle.ram_step.1]
  rcases fetched with fresh | ⟨old, holds⟩
  · exact .inl fresh
  · exact .inr ⟨mem_nowKnown old, holds⟩

/-- A step keeps the invariant of the instruction cache. -/
structure FetchKeeps (m m' : MemorySystem) (ip : IcRequest) (known : List (BitVec 58)) : Prop where
  phase : m'.FetchPhase ip
  here : ¬ m'.ic.Replaces ip (set ip) → m'.Fetched known (set ip)

theorem fetch_of_idle (idle : m.DataIdle) (tracked : m.FetchTracked ip known)
    (state : m.ic.pState = .a) (free : m.FetchFree) :
    FetchKeeps m (m.step ip p events) ip (m.nowKnown ip events known) := by
  have request : m.ic.requests (m.icResponse events) = false := by
    simp [ICache.Regs.requests, state]
  have consume : m.ic.consumes (m.icResponse events) = false := by
    simp [ICache.Regs.consumes, state]
  obtain ⟨data, tags⟩ : (m.step ip p events).ic.dataSram.mem = m.ic.dataSram.mem ∧
      (m.step ip p events).ic.tagSram.mem = m.ic.tagSram.mem :=
    ICache.Regs.step_rows_of_silent request consume
  have off : (m.step ip p events).ic.pReqcyc = false := request
  have free' : (m.step ip p events).FetchFree := by
    refine ⟨off, System.quiet_iff_answers.mpr (idle.step_sys_off (l := 0) off ?_)⟩
    rw [idle.served_kept consume]
    exact (System.quiet_iff_answers.mp free.quiet).update events (by decide)
  have next : (m.step ip p events).ic.pState = if ip.req then .b else .a := by
    change m.ic.nState ip (m.icResponse events) = _
    rw [ICache.Regs.nState, state]
  refine ⟨?_, fun _ => ?_⟩
  · cases asks : ip.req with
    | false => exact .idle (by rw [next, asks]; rfl) free'
    | true =>
        exact .lookup (by rw [next, asks]; rfl) free'
          ⟨congrFun data.symm _, congrFun tags.symm _⟩
  · apply (tracked.rows (set ip) ?_).step idle (congrFun data _) (congrFun tags _)
    rintro ⟨other | other, -⟩ <;> rw [state] at other <;> cases other

theorem fetch_of_lookup (idle : m.DataIdle) (tracked : m.FetchTracked ip known)
    (state : m.ic.pState = .b) (free : m.FetchFree) :
    FetchKeeps m (m.step ip p events) ip (m.nowKnown ip events known) := by
  have request : m.ic.requests (m.icResponse events) = false := by
    simp [ICache.Regs.requests, state]
  have consume : m.ic.consumes (m.icResponse events) = false := by
    simp [ICache.Regs.consumes, state]
  obtain ⟨data, tags⟩ : (m.step ip p events).ic.dataSram.mem = m.ic.dataSram.mem ∧
      (m.step ip p events).ic.tagSram.mem = m.ic.tagSram.mem :=
    ICache.Regs.step_rows_of_silent request consume
  have off : (m.step ip p events).ic.pReqcyc = false := request
  have free' : (m.step ip p events).FetchFree := by
    refine ⟨off, System.quiet_iff_answers.mpr (idle.step_sys_off (l := 0) off ?_)⟩
    rw [idle.served_kept consume]
    exact (System.quiet_iff_answers.mp free.quiet).update events (by decide)
  have next : (m.step ip p events).ic.pState = if m.ic.hit ip then .a else .d := by
    change m.ic.nState ip (m.icResponse events) = _
    rw [ICache.Regs.nState, state]
  refine ⟨?_, fun _ => ?_⟩
  · cases found : m.ic.hit ip with
    | true => exact .idle (by rw [next, found]; rfl) free'
    | false =>
        refine .ask (by rw [next, found]; rfl) ?_ free'.quiet.asked (.inl free'.quiet)
        intro on
        rw [off] at on
        cases on
  · apply (tracked.rows (set ip) ?_).step idle (congrFun data _) (congrFun tags _)
    rintro ⟨other | other, -⟩ <;> rw [state] at other <;> cases other

theorem fetch_of_ask (idle : m.DataIdle) (allowed : m.Allowed events) (state : m.ic.pState = .d)
    (line : m.ic.pReqcyc = true → m.ic.Claimed ip ∧ m.ic.pReq = Ram.lineAddress ip.lineAddr)
    (asked : m.sys.Asked readTag ip.lineAddr) (granted : m.sys.Quiet readTag ∨ m.grant = .ic) :
    FetchKeeps m (m.step ip p events) ip (m.nowKnown ip events known) := by
  have consume : m.ic.consumes (m.icResponse events) = false := by
    simp [ICache.Regs.consumes, state]
  cases ack : (m.icResponse events).reqack with
  | true =>
      obtain ⟨here, -⟩ := icResponse_reqack_iff.mp ack
      obtain ⟨claimed, -⟩ := line (bus_of_ic here).1
      obtain ⟨next, off, counter, claimed'⟩ := ICache.Regs.step_of_granted state ack claimed
      have counter : (m.step ip p events).ic.pCounter = 0 := counter
      refine ⟨?_, fun kept => absurd ⟨.inr next, rfl⟩ kept⟩
      refine .refill next off claimed' (by rw [counter]; decide) ?_ ?_
      · intro k impossible
        rw [counter] at impossible
        exact absurd impossible (Nat.not_lt_zero k)
      · rw [counter]
        apply idle.step_sys_off off
        rw [idle.served_kept consume]
        exact System.Answers.update events (.inl ⟨rfl, asked⟩) (by decide)
  | false =>
      obtain ⟨next, on, req, claimed⟩ := ICache.Regs.step_of_refused (p := ip) state ack
      have missing : ∀ addr ∈ events.completed, m.sys.findTag addr ≠ some readTag := by
        intro addr completed found
        have pending := System.mem_readsFor_of_findTag found
        rcases granted with quiet | here
        · rw [quiet.2] at pending
          cases pending
        · have refused : events.accepts = false := by
            by_contra accepts
            rw [Bool.not_eq_false] at accepts
            rw [icResponse_reqack_iff.mpr ⟨here, accepts⟩] at ack
            cases ack
          obtain ⟨asking, asks, tag⟩ := bus_of_ic here
          obtain ⟨claimed, address⟩ := line asking
          have sent : m.bus.req = m.ic.pReq := by
            rw [MemorySystem.bus, (Arbiter.grant_ic here).2]
            rfl
          have same : addr = Ram.lineAddress ip.lineAddr := by
            rcases asked.2 with none | read
            · rw [none] at pending
              cases pending
            · rw [read] at pending
              exact List.mem_singleton.mp pending
          refine allowed.refused asks refused addr completed ⟨?_, ?_⟩
          · rw [sent, address, same]
          · rw [tag, claimed.reqtag, found]
      have asked' : (m.served ip p events).Asked readTag ip.lineAddr := by
        rw [idle.served_kept consume]
        exact asked.update events (by decide) missing
      obtain ⟨placed, where'⟩ := idle.step_sys_on claimed.reqtag req asked'
      refine ⟨.ask next (fun _ => ⟨claimed, req⟩) placed ?_,
        fun kept => absurd ⟨.inl next, rfl⟩ kept⟩
      rcases granted with quiet | here
      · apply where'
        rw [idle.served_kept consume, System.quiet_iff_answers (l := 0)]
        exact (System.quiet_iff_answers.mp quiet).update events (by decide)
      · exact .inr (ic_grant_step here on)

theorem fetch_of_beat (idle : m.DataIdle) (state : m.ic.pState = .e) (claimed : m.ic.Claimed ip)
    (filled : ∀ k < m.ic.pCounter.toNat,
      word 64 (m.ic.dataSram.mem (set ip)) k =
        ICache.swapHalves (m.sys.ram.doubleword ip.lineAddr k))
    (answers : m.sys.Answers readTag ip.lineAddr m.ic.pCounter.toNat)
    (beat : m.ic.beat (m.icResponse events) = true) :
    FetchKeeps m (m.step ip p events) ip (m.nowKnown ip events known) := by
  have consume : m.ic.consumes (m.icResponse events) = true := by
    simp [ICache.Regs.consumes, state, beat]
  obtain ⟨rest, queue⟩ : ∃ rest, m.sys.txQueue =
      ((m.icResponse events).resp, m.ic.pReqtag) :: rest := front_of_beat beat
  rw [claimed.reqtag] at queue
  obtain ⟨low, resp, -⟩ := answers.front queue
  obtain ⟨next, off, counter, claimed', filled'⟩ :=
    ICache.Regs.step_of_beat state consume claimed low resp filled
  have counter : (m.step ip p events).ic.pCounter.toNat = m.ic.pCounter.toNat + 1 := counter
  refine ⟨?_, fun kept => absurd ⟨.inr next, rfl⟩ kept⟩
  refine .refill next off claimed' (by rw [counter]; exact low) ?_ ?_
  · rw [counter, idle.ram_step.1]
    exact filled'
  · rw [counter]
    exact idle.step_sys_off off (ic_served_taken claimed.reqtag consume answers)

theorem fetch_of_refill (idle : m.DataIdle) (state : m.ic.pState = .e) (claimed : m.ic.Claimed ip)
    (low : m.ic.pCounter.toNat ≤ 8)
    (filled : ∀ k < m.ic.pCounter.toNat,
      word 64 (m.ic.dataSram.mem (set ip)) k =
        ICache.swapHalves (m.sys.ram.doubleword ip.lineAddr k))
    (answers : m.sys.Answers readTag ip.lineAddr m.ic.pCounter.toNat) :
    FetchKeeps m (m.step ip p events) ip (m.nowKnown ip events known) := by
  cases beat : m.ic.beat (m.icResponse events) with
  | true => exact fetch_of_beat idle state claimed filled answers beat
  | false =>
      have consume : m.ic.consumes (m.icResponse events) = false := by
        simp [ICache.Regs.consumes, beat]
      obtain ⟨next, off, counter, claimed', data, tags⟩ :=
        ICache.Regs.step_of_pause state consume claimed
      have counter : (m.step ip p events).ic.pCounter = m.ic.pCounter := counter
      have data : (m.step ip p events).ic.dataSram.mem = m.ic.dataSram.mem := data
      have tags : (m.step ip p events).ic.tagSram.mem = m.ic.tagSram.mem := tags
      have answers' : (m.step ip p events).sys.Answers readTag ip.lineAddr m.ic.pCounter.toNat := by
        apply idle.step_sys_off off
        rw [idle.served_kept consume]
        exact answers.update events (by decide)
      by_cases full : m.ic.pCounter = 8
      · rw [if_pos full] at next
        have eight : m.ic.pCounter.toNat = 8 := by
          rw [full]
          rfl
        rw [eight] at answers' filled
        have named : (m.step ip p events).ic.lineAt (set ip) = ip.lineAddr := by
          rw [ICache.Regs.lineAt, tags, claimed.tag, tag_index]
        have shown : m.ic.nState ip (m.icResponse events) = .b := next
        have arrived : m.refills ip events = true := by simp [refills, state, shown]
        refine ⟨.lookup next ⟨off, System.quiet_iff_answers.mpr answers'⟩
          ⟨congrFun data.symm _, congrFun tags.symm _⟩, fun _ => .inr ⟨?_, ?_⟩⟩
        · rw [named, nowKnown, arrived]
          exact List.mem_cons_self
        · rw [named, data, idle.ram_step.1]
          exact filled
      · rw [if_neg full] at next
        refine ⟨?_, fun kept => absurd ⟨.inr next, rfl⟩ kept⟩
        refine .refill next off claimed' (by rw [counter]; exact low) ?_
          (by rw [counter]; exact answers')
        rw [counter, idle.ram_step.1, data]
        exact filled

theorem FetchTracked.step (tracked : m.FetchTracked ip known) (idle : m.DataIdle)
    (allowed : m.Allowed events) :
    (m.step ip p events).FetchTracked ip (m.nowKnown ip events known) := by
  have keeps : FetchKeeps m (m.step ip p events) ip (m.nowKnown ip events known) := by
    cases tracked.phase with
    | idle state free => exact fetch_of_idle idle tracked state free
    | lookup state free => exact fetch_of_lookup idle tracked state free
    | ask state line asked granted => exact fetch_of_ask idle allowed state line asked granted
    | refill state _ claimed low filled answers =>
        exact fetch_of_refill idle state claimed low filled answers
  refine ⟨?_, keeps.phase⟩
  intro i kept
  by_cases here : i = set ip
  · subst here
    exact keeps.here kept
  · obtain ⟨data, tags⟩ : (m.step ip p events).ic.dataSram.mem i = m.ic.dataSram.mem i ∧
        (m.step ip p events).ic.tagSram.mem i = m.ic.tagSram.mem i := ICache.Regs.step_rows here
    exact (tracked.rows i (fun replaced => here replaced.2)).step idle data tags

theorem FetchTracked.switch (tracked : m.FetchTracked ip known) (state : m.ic.pState = .a)
    (ip' : IcRequest) : m.FetchTracked ip' known := by
  have kept : ∀ (ip : IcRequest) (i : BitVec 4), ¬ m.ic.Replaces ip i := by
    rintro ip i ⟨other | other, -⟩ <;> rw [state] at other <;> cases other
  refine ⟨fun i _ => tracked.rows i (kept ip i), ?_⟩
  cases tracked.phase with
  | idle state free => exact .idle state free
  | lookup other => rw [state] at other; cases other
  | ask other => rw [state] at other; cases other
  | refill other => rw [state] at other; cases other

theorem FetchTracked.hit (tracked : m.FetchTracked ip known)
    (genuine : tag ip.lineAddr ≠ BitVec.allOnes 54) (acknowledges : m.ic.nAck ip = true) :
    ip.lineAddr ∈ known ∧
      m.ic.nProcDataOut ip = m.sys.ram.word32 (ip.lineAddr ++ ip.wordSelect ++ (0 : BitVec 2)) := by
  have acknowledged := acknowledges
  simp only [ICache.Regs.nAck, Bool.and_eq_true, beq_iff_eq] at acknowledges
  obtain ⟨state, hit⟩ := acknowledges
  cases tracked.phase with
  | lookup _ _ loaded =>
      have found : m.ic.tagSram.mem (set ip) = tag ip.lineAddr := by
        rw [← loaded.tag]
        simpa [ICache.Regs.hit] using hit
      have named : m.ic.lineAt (set ip) = ip.lineAddr := by
        rw [ICache.Regs.lineAt, found, tag_index]
      have kept : ¬ m.ic.Replaces ip (set ip) := by
        rintro ⟨other | other, -⟩ <;> rw [state] at other <;> cases other
      rcases tracked.rows (set ip) kept with fresh | ⟨old, holds⟩
      · exact absurd (found.symm.trans fresh) genuine
      · rw [named] at old holds
        refine ⟨old, ?_⟩
        rw [ICache.Regs.nProcDataOut, if_pos acknowledged, loaded.data]
        exact word_of_holdsLine holds ip.wordSelect
  | idle other => rw [state] at other; cases other
  | ask other => rw [state] at other; cases other
  | refill other => rw [state] at other; cases other

end

end MemorySystem

end Sparcy
