import Sparcy.BusTraffic
import Sparcy.MemorySystem

/-!
# The data cache on the bus

Which cache the arbiter connects, what the data cache sees of it, and what a tick
does with its request.
-/

namespace Sparcy

namespace Arbiter

variable {s : State} {ic dc : BusRequest}

theorem step_eq_b_iff : step s ic dc = .b ↔ grant s ic dc = .dc := by
  rw [step]
  cases grant s ic dc <;> simp

/-- The data cache is never taken off the bus while it asks. -/
theorem grant_b : grant .b ic dc = if dc.reqcyc then .dc else .none := rfl

theorem grant_dc (granted : grant s ic dc = .dc) : dc.reqcyc = true ∧ bus s ic dc = dc := by
  refine ⟨?_, by rw [bus, granted]⟩
  cases s <;> cases ask : dc.reqcyc <;> cases other : ic.reqcyc <;>
    simp [grant, ask, other] at granted ⊢

theorem grant_ic (granted : grant s ic dc = .ic) : ic.reqcyc = true ∧ bus s ic dc = ic := by
  refine ⟨?_, by rw [bus, granted]⟩
  cases s <;> cases ask : dc.reqcyc <;> cases other : ic.reqcyc <;>
    simp [grant, ask, other] at granted ⊢

theorem grant_none (granted : grant s ic dc = .none) : (bus s ic dc).reqcyc = false := by
  rw [bus, granted]

theorem dcReqack_iff {events : DramEvents} :
    dcReqack s ic dc (System.reqack events (bus s ic dc)) = true ↔
      grant s ic dc = .dc ∧ events.accepts = true := by
  cases s <;> cases ask : dc.reqcyc <;> cases other : ic.reqcyc <;>
    simp [dcReqack, System.reqack, bus, grant, ask, other]

end Arbiter

namespace MemorySystem

open DCache (readTag writeTag)

/-- The cache that the arbiter connects in this cycle. -/
def grant (m : MemorySystem) : Arbiter.Grant := Arbiter.grant m.arbiter m.ic.bus m.dc.bus

theorem bus_of_none {m : MemorySystem} (granted : m.grant = .none) : m.bus.reqcyc = false :=
  Arbiter.grant_none granted

theorem bus_of_ic {m : MemorySystem} (granted : m.grant = .ic) :
    m.ic.pReqcyc = true ∧ m.bus.reqcyc = true ∧ m.bus.reqtag = m.ic.pReqtag := by
  obtain ⟨asks, bus⟩ := Arbiter.grant_ic granted
  rw [MemorySystem.bus, bus]
  exact ⟨asks, asks, rfl⟩

theorem bus_of_dc {m : MemorySystem} (granted : m.grant = .dc) :
    m.bus.reqcyc = true ∧ m.bus.req = m.dc.pReq ∧ m.bus.reqtag = m.dc.pReqtag := by
  obtain ⟨asks, bus⟩ := Arbiter.grant_dc granted
  rw [MemorySystem.bus, bus]
  exact ⟨asks, rfl, rfl⟩

theorem cmd_tags : System.cmd readTag = System.MEMORY ∧ System.cmd writeTag = System.MEMORY ∧
    System.cmd ICache.readTag = System.MEMORY := by decide

theorem isWrite_tags : System.isWrite readTag = false ∧ System.isWrite writeTag = true ∧
    System.isWrite ICache.readTag = false := by decide

/-- The instruction cache sends only reads, under its own tag. -/
structure FetchPort (m : MemorySystem) : Prop where
  waits : m.ic.pReqtag ≠ readTag
  reads : m.ic.pReqcyc = true → m.ic.pReqtag = ICache.readTag

variable {m : MemorySystem} {ip : IcRequest} {p : DcRequest} {events : DramEvents}
  {l : BitVec 58} {c : Nat}

variable (ip p events) in
theorem FetchPort.step (port : m.FetchPort) : (m.step ip p events).FetchPort := by
  have known : ∀ response : BusResponse,
      m.ic.nReqtag response = ICache.readTag ∨ m.ic.nReqtag response = 0 ∨
        m.ic.nReqtag response = m.ic.pReqtag := by
    intro response
    rw [ICache.Regs.nReqtag]
    split
    · exact .inl rfl
    · split
      · exact .inr (.inl rfl)
      · exact .inr (.inr rfl)
  constructor
  · change m.ic.nReqtag (m.icResponse events) ≠ readTag
    rcases known (m.icResponse events) with tag | tag | tag
    · rw [tag]
      decide
    · rw [tag]
      decide
    · rw [tag]
      exact port.waits
  · intro (requests : m.ic.requests (m.icResponse events) = true)
    change m.ic.nReqtag (m.icResponse events) = ICache.readTag
    rw [ICache.Regs.nReqtag, if_pos requests]

/-! ### What the data cache sees -/

theorem dcResponse_reqack_iff :
    (m.dcResponse events).reqack = true ↔ m.grant = .dc ∧ events.accepts = true := by
  have response : (m.dcResponse events).reqack =
      Arbiter.dcReqack m.arbiter m.ic.bus m.dc.bus (System.reqack events m.bus) := by
    rw [dcResponse, System.response]
    cases m.sys.txQueue <;> rfl
  rw [response]
  exact Arbiter.dcReqack_iff

theorem front_of_beat {tag : BitVec 13} {reqack : Bool}
    (shown : ((m.sys.response reqack).respcyc && (m.sys.response reqack).resptag == tag) = true) :
    ∃ rest, m.sys.txQueue = ((m.sys.response reqack).resp, tag) :: rest := by
  cases queue : m.sys.txQueue with
  | nil => simp [System.response, queue] at shown
  | cons beat rest =>
      simp only [System.response, queue, Bool.true_and, beq_iff_eq] at shown ⊢
      exact ⟨rest, by rw [← shown]⟩

theorem dc_front (beat : m.dc.beat (m.dcResponse events) = true) :
    ∃ rest, m.sys.txQueue = ((m.dcResponse events).resp, m.dc.pReqtag) :: rest :=
  front_of_beat beat

theorem ic_front (taken : m.ic.consumes (m.icResponse events) = true) :
    ∃ beat rest, m.sys.txQueue = (beat, m.ic.pReqtag) :: rest := by
  rw [ICache.Regs.consumes, Bool.and_eq_true] at taken
  exact ⟨_, front_of_beat taken.2⟩

/-! ### The queue in a tick -/

/-- Memory after the completed reads and the pop of a tick. -/
def served (m : MemorySystem) (ip : IcRequest) (p : DcRequest) (events : DramEvents) : System :=
  (m.sys.update events).pop
    ((m.step ip p events).ic.pRespack || (m.step ip p events).dc.pRespack)

theorem step_sys :
    (m.step ip p events).sys =
      (m.served ip p events).request (m.step ip p events).bus := rfl

variable (m ip p events) in
theorem served_frame :
    (m.served ip p events).ram = m.sys.ram ∧ (m.served ip p events).rxCount = m.sys.rxCount ∧
      (m.served ip p events).xferAddr = m.sys.xferAddr := by
  have frame := System.update_frame (s := m.sys) events
  rw [served, System.pop]
  split <;> exact frame

/-- A beat that the data cache does not take stays for it. -/
theorem served_answers (port : m.FetchPort)
    (kept : m.dc.consumes (m.dcResponse events) = false) (answers : m.sys.Answers readTag l c) :
    (m.served ip p events).Answers readTag l c := by
  apply (answers.update events (by decide)).pop_other
  intro popped beat rest queue
  have taken : m.ic.consumes (m.icResponse events) = true := by
    have either : (m.ic.consumes (m.icResponse events) ||
        m.dc.consumes (m.dcResponse events)) = true := popped
    rwa [kept, Bool.or_false] at either
  obtain ⟨front, behind, before⟩ := ic_front taken
  obtain ⟨more, later⟩ := System.txQueue_update (s := m.sys) events
  rw [later, before, List.cons_append, List.cons.injEq, Prod.mk.injEq] at queue
  exact port.waits queue.1.2

theorem served_quiet (port : m.FetchPort)
    (kept : m.dc.consumes (m.dcResponse events) = false) (quiet : m.sys.Quiet readTag) :
    (m.served ip p events).Quiet readTag :=
  System.quiet_iff_answers.mpr
    (served_answers (l := 0) port kept (System.quiet_iff_answers.mp quiet))

/-- The beat that the data cache takes is popped. -/
theorem served_taken (tag : m.dc.pReqtag = readTag)
    (taken : m.dc.consumes (m.dcResponse events) = true) (answers : m.sys.Answers readTag l c) :
    (m.served ip p events).Answers readTag l (c + 1) := by
  have beat := taken
  rw [DCache.Regs.consumes, Bool.and_eq_true] at beat
  obtain ⟨rest, queue⟩ := dc_front beat.2
  obtain ⟨more, later⟩ := System.txQueue_update (s := m.sys) events
  have popped : ((m.step ip p events).ic.pRespack || (m.step ip p events).dc.pRespack) = true := by
    change (_ || m.dc.consumes (m.dcResponse events)) = true
    rw [taken, Bool.or_true]
  rw [served, popped]
  apply (answers.update events (by decide)).pop_taken
  rw [later, queue, tag]
  rfl

/-- A refused read is not completed in the same tick. -/
theorem served_asked (asked : m.sys.Asked readTag l)
    (missing : ∀ addr ∈ events.completed, m.sys.findTag addr ≠ some readTag) :
    (m.served ip p events).Asked readTag l :=
  (asked.update events (by decide) missing).pop _

/-! ### The request in a tick -/

theorem step_sys_elsewhere (port : m.FetchPort)
    (burst : m.sys.rxCount ≠ 0 → m.grant = .dc)
    (elsewhere : (m.step ip p events).grant ≠ .dc) :
    (m.step ip p events).sys.ram = m.sys.ram ∧ (m.step ip p events).sys.rxCount = 0 ∧
      ((m.served ip p events).Answers readTag l c →
        (m.step ip p events).sys.Answers readTag l c) := by
  obtain ⟨ram, count, -⟩ := served_frame m ip p events
  rw [step_sys]
  cases granted : (m.step ip p events).grant with
  | dc => exact absurd granted elsewhere
  | none =>
      rw [System.request_idle (bus_of_none granted)]
      exact ⟨ram, rfl, fun answers => answers.congr rfl rfl rfl⟩
  | ic =>
      obtain ⟨reads, asks, tag⟩ := bus_of_ic granted
      rw [(port.step ip p events).reads reads] at tag
      have first : m.sys.rxCount = 0 := by
        by_contra bursting
        have owner : (m.step ip p events).arbiter = .b := Arbiter.step_eq_b_iff.mpr (burst bursting)
        rw [grant, owner, Arbiter.grant_b] at granted
        split at granted <;> cases granted
      have memory : System.cmd (m.step ip p events).bus.reqtag = System.MEMORY := by
        rw [tag]
        exact cmd_tags.2.2
      rw [System.request_command asks (count.trans first)]
      refine ⟨?_, ?_, fun answers => answers.command memory (.inl (by rw [tag]; decide))⟩
      · rw [System.command_memory memory]
        exact ram
      · rw [System.command_memory memory, tag, isWrite_tags.2.2]
        rfl

theorem step_sys_address (granted : (m.step ip p events).grant = .dc)
    (first : m.sys.rxCount = 0) (tag : (m.step ip p events).dc.pReqtag = writeTag) :
    (m.step ip p events).sys.ram = m.sys.ram ∧ (m.step ip p events).sys.rxCount = 8 ∧
      (m.step ip p events).sys.xferAddr = (m.step ip p events).dc.pReq ∧
      ((m.served ip p events).Quiet readTag → (m.step ip p events).sys.Quiet readTag) := by
  obtain ⟨ram, count, -⟩ := served_frame m ip p events
  obtain ⟨asks, req, reqtag⟩ := bus_of_dc granted
  rw [tag] at reqtag
  have memory : System.cmd (m.step ip p events).bus.reqtag = System.MEMORY := by
    rw [reqtag]
    exact cmd_tags.2.1
  have frame := System.command_memory (s := m.served ip p events) memory
  rw [step_sys, System.request_command asks (count.trans first)]
  refine ⟨?_, ?_, ?_, fun quiet => ?_⟩
  · rw [frame]
    exact ram
  · rw [frame, reqtag, isWrite_tags.2.1]
    rfl
  · rw [frame]
    exact req
  · rw [System.quiet_iff_answers (l := 0)] at quiet ⊢
    exact quiet.command memory (.inr (by rw [reqtag, isWrite_tags.2.1]))

theorem step_sys_word (granted : (m.step ip p events).grant = .dc)
    (later : m.sys.rxCount ≠ 0) (tag : (m.step ip p events).dc.pReqtag = writeTag) :
    (m.step ip p events).sys.ram =
        m.sys.ram.store64 (System.beatAddr m.sys.xferAddr (8 - m.sys.rxCount))
          (be64toh (m.step ip p events).dc.pReq) ∧
      (m.step ip p events).sys.rxCount = m.sys.rxCount - 1 ∧
      (m.step ip p events).sys.xferAddr = m.sys.xferAddr ∧
      ((m.served ip p events).Quiet readTag → (m.step ip p events).sys.Quiet readTag) := by
  obtain ⟨ram, count, xfer⟩ := served_frame m ip p events
  obtain ⟨asks, req, reqtag⟩ := bus_of_dc granted
  rw [tag] at reqtag
  have memory : System.cmd (m.step ip p events).bus.reqtag = System.MEMORY := by
    rw [reqtag]
    exact cmd_tags.2.1
  rw [step_sys, System.request_receive asks (by rwa [count]), System.receive, if_pos memory]
  refine ⟨?_, ?_, xfer, id⟩
  · rw [ram, count, xfer, req]
  · rw [count]

theorem step_sys_read (granted : (m.step ip p events).grant = .dc)
    (first : m.sys.rxCount = 0) (tag : (m.step ip p events).dc.pReqtag = readTag)
    (line : (m.step ip p events).dc.pReq = Ram.lineAddress l) :
    (m.step ip p events).sys.ram = m.sys.ram ∧ (m.step ip p events).sys.rxCount = 0 ∧
      ((m.served ip p events).Asked readTag l → (m.step ip p events).sys.Asked readTag l) := by
  obtain ⟨ram, count, -⟩ := served_frame m ip p events
  obtain ⟨asks, req, reqtag⟩ := bus_of_dc granted
  rw [tag] at reqtag
  have memory : System.cmd (m.step ip p events).bus.reqtag = System.MEMORY := by
    rw [reqtag]
    exact cmd_tags.1
  rw [step_sys, System.request_command asks (count.trans first)]
  refine ⟨?_, ?_, fun asked => asked.command memory (by rw [req, line])⟩
  · rw [System.command_memory memory]
    exact ram
  · rw [System.command_memory memory, reqtag, isWrite_tags.1]
    rfl

end MemorySystem

end Sparcy
