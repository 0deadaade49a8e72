import Sparcy.CachePorts
import Sparcy.Deliveries
import Sparcy.PhantomLines

/-!
# What the memory owes to the two caches

Both caches wait on the same response queue.  As long as no read is placed while its
line is pending for the other cache, each cache gets the eight beats of each of its reads.
-/

namespace Sparcy

namespace MemorySystem

open Sparcy.System (ReadPhase)

/-- Where the reads of the instruction cache are. -/
def icPhase (m : MemorySystem) : ReadPhase :=
  if m.ic.pState = .e then .reading m.ic.pCounter.toNat
  else if m.grant = .ic then .asked
  else .quiet

/-- Where the reads of the data cache are. -/
def dcPhase (m : MemorySystem) : ReadPhase :=
  if m.dc.pState = .e then .reading m.dc.pCounter.toNat
  else if m.dc.pState = .d ∧ m.grant = .dc then .asked
  else .quiet

section

variable {m : MemorySystem} {ip : IcRequest} {p : DcRequest} {events : DramEvents}
  {l : BitVec 58} {ram : Ram}

theorem ic_elsewhere_of_off (off : m.ic.pReqcyc = false) : m.grant ≠ .ic := by
  intro granted
  have on := (bus_of_ic granted).1
  rw [off] at on
  cases on

theorem icPhase_of_off (off : m.ic.pReqcyc = false) (other : m.ic.pState ≠ .e) :
    m.icPhase = .quiet := by
  rw [icPhase, if_neg other, if_neg (ic_elsewhere_of_off off)]

theorem dcPhase_of_off (off : m.dc.pReqcyc = false) (other : m.dc.pState ≠ .e) :
    m.dcPhase = .quiet := by
  rw [dcPhase, if_neg other, if_neg (fun both => elsewhere_of_off off both.2)]

/-- A burst keeps the instruction cache off the bus. -/
theorem rxCount_of_ic (burst : m.sys.rxCount ≠ 0 → m.grant = .dc)
    (granted : (m.step ip p events).grant = .ic) : m.sys.rxCount = 0 := by
  by_contra started
  have owner : (m.step ip p events).arbiter = .b := Arbiter.step_eq_b_iff.mpr (burst started)
  rw [grant, owner, Arbiter.grant_b] at granted
  split at granted <;> cases granted

/-! ### The reads of the instruction cache -/

/-- While its line is being requested the instruction cache is acknowledged or waits. -/
theorem icPhase_of_ask (state : m.ic.pState = .d) :
    ReadPhase.Next (m.ic.consumes (m.icResponse events)) m.icPhase
      (m.step ip p events).icPhase := by
  have consume : m.ic.consumes (m.icResponse events) = false := by
    simp [ICache.Regs.consumes, state]
  have here : m.icPhase = if m.grant = .ic then .asked else .quiet := by
    rw [icPhase, if_neg (by simp [state])]
  rw [consume, here]
  cases ack : (m.icResponse events).reqack with
  | true =>
      have next : (m.step ip p events).ic.pState = .e := by
        change m.ic.nState ip (m.icResponse events) = _
        simp [ICache.Regs.nState, state, ack]
      have counter : (m.step ip p events).ic.pCounter.toNat = 0 := by
        change (m.ic.nCounter (m.icResponse events)).toNat = 0
        simp [ICache.Regs.nCounter, state, ack]
      rw [if_pos (icResponse_reqack_iff.mp ack).1, icPhase, if_pos next, counter]
      exact .begins
  | false =>
      have request : m.ic.requests (m.icResponse events) = true := by
        simp [ICache.Regs.requests, state, ack]
      have next : (m.step ip p events).ic.pState ≠ .e := by
        change m.ic.nState ip (m.icResponse events) ≠ _
        simp [ICache.Regs.nState, state, ack]
      rw [icPhase, if_neg next]
      by_cases granted : m.grant = .ic
      · rw [if_pos granted, if_pos (ic_grant_step granted request)]
        exact .refused
      · rw [if_neg granted]
        split
        · exact .ask
        · exact .rest

/-- Beats are taken one after the other, and after the eighth one the line is looked up. -/
theorem icPhase_of_refill (state : m.ic.pState = .e) (tag : m.ic.pReqtag = ICache.readTag)
    (waits : m.sys.MayWait ICache.readTag l ram m.icPhase) :
    ReadPhase.Next (m.ic.consumes (m.icResponse events)) m.icPhase
        (m.step ip p events).icPhase ∧
      ((m.step ip p events).ic.pState = .e → (m.step ip p events).ic.pReqtag = ICache.readTag) := by
  have here : m.icPhase = .reading m.ic.pCounter.toNat := by rw [icPhase, if_pos state]
  have request : m.ic.requests (m.icResponse events) = false := by
    simp [ICache.Regs.requests, state]
  rw [here] at waits
  cases beat : m.ic.beat (m.icResponse events) with
  | true =>
      have consume : m.ic.consumes (m.icResponse events) = true := by
        simp [ICache.Regs.consumes, state, beat]
      obtain ⟨word, rest, queue⟩ := ic_front consume
      rw [tag] at queue
      have below := (waits.front queue).1
      have below' : m.ic.pCounter < 8 := by
        rw [BitVec.lt_def]
        exact below
      have next : (m.step ip p events).ic.pState = .e := by
        change m.ic.nState ip (m.icResponse events) = _
        simp only [ICache.Regs.nState, state, beat, if_true, if_pos below']
      have counter : (m.step ip p events).ic.pCounter.toNat = m.ic.pCounter.toNat + 1 := by
        change (m.ic.nCounter (m.icResponse events)).toNat = _
        rw [ICache.Regs.nCounter, if_neg (by simp [state]), if_pos consume, BitVec.toNat_add]
        change (m.ic.pCounter.toNat + 1) % 32 = m.ic.pCounter.toNat + 1
        omega
      constructor
      · rw [consume, here, icPhase, if_pos next, counter]
        exact .take _
      · intro _
        change m.ic.nReqtag (m.icResponse events) = _
        rw [ICache.Regs.nReqtag, request, if_neg (by decide), if_neg (fun last => last.2 below')]
        exact tag
  | false =>
      have consume : m.ic.consumes (m.icResponse events) = false := by
        simp [ICache.Regs.consumes, beat]
      rw [consume, here]
      constructor
      · by_cases full : m.ic.pCounter = 8
        · have next : (m.step ip p events).ic.pState ≠ .e := by
            change m.ic.nState ip (m.icResponse events) ≠ _
            simp [ICache.Regs.nState, state, beat, full]
          rw [icPhase_of_off request next, full]
          exact .finish
        · have next : (m.step ip p events).ic.pState = .e := by
            change m.ic.nState ip (m.icResponse events) = _
            simp only [ICache.Regs.nState, state, beat, if_neg full]
            rfl
          have counter : (m.step ip p events).ic.pCounter = m.ic.pCounter := by
            change m.ic.nCounter (m.icResponse events) = _
            simp [ICache.Regs.nCounter, state, consume]
          rw [icPhase, if_pos next, counter]
          exact .wait _
      · intro _
        change m.ic.nReqtag (m.icResponse events) = _
        rw [ICache.Regs.nReqtag, request, consume]
        simpa using tag

variable (p events) in
theorem icPhase_next (port : m.ic.Port ip) (tag : m.ic.pState = .e → m.ic.pReqtag = ICache.readTag)
    (waits : m.sys.MayWait ICache.readTag l ram m.icPhase) :
    ReadPhase.Next (m.ic.consumes (m.icResponse events)) m.icPhase
        (m.step ip p events).icPhase ∧
      ((m.step ip p events).ic.pState = .e → (m.step ip p events).ic.pReqtag = ICache.readTag) := by
  by_cases ask : m.ic.pState = .d
  · refine ⟨icPhase_of_ask ask, ?_⟩
    intro (next : m.ic.nState ip (m.icResponse events) = .e)
    have ack : (m.icResponse events).reqack = true := by
      by_contra waits
      simp [ICache.Regs.nState, ask, waits] at next
    have on := (bus_of_ic (icResponse_reqack_iff.mp ack).1).1
    have reqtag : m.ic.pReqtag = ICache.readTag := congrArg BusRequest.reqtag (port on).2
    change m.ic.nReqtag (m.icResponse events) = _
    simp [ICache.Regs.nReqtag, ICache.Regs.requests, ICache.Regs.consumes, ask, ack, reqtag]
  · by_cases refill : m.ic.pState = .e
    · exact icPhase_of_refill refill (tag refill) waits
    · have request : m.ic.requests (m.icResponse events) = false := by
        simp [ICache.Regs.requests, ask]
      have consume : m.ic.consumes (m.icResponse events) = false := by
        simp [ICache.Regs.consumes, refill]
      have off : m.ic.pReqcyc = false := by
        by_contra on
        rw [Bool.not_eq_false] at on
        exact ask (port on).1
      have next : (m.step ip p events).ic.pState ≠ .e := by
        change m.ic.nState ip (m.icResponse events) ≠ _
        cases state : m.ic.pState with
        | a => simp only [ICache.Regs.nState, state]; split <;> simp
        | b => simp only [ICache.Regs.nState, state]; split <;> simp
        | c => simp [ICache.Regs.nState, state]
        | d => exact absurd state ask
        | e => exact absurd state refill
      refine ⟨?_, fun again => absurd again next⟩
      rw [consume, icPhase_of_off off refill, icPhase_of_off request next]
      exact .rest

/-! ### The reads of the data cache -/

theorem dcPhase_of_ask (state : m.dc.pState = .d) :
    ReadPhase.Next (m.dc.consumes (m.dcResponse events)) m.dcPhase
      (m.step ip p events).dcPhase := by
  have consume : m.dc.consumes (m.dcResponse events) = false := by
    simp [DCache.Regs.consumes, state]
  have here : m.dcPhase = if m.grant = .dc then .asked else .quiet := by
    rw [dcPhase, if_neg (by simp [state])]
    simp only [state, true_and]
  rw [consume, here]
  cases ack : (m.dcResponse events).reqack with
  | true =>
      have next : (m.step ip p events).dc.pState = .e := by
        change m.dc.nState p (m.dcResponse events) = _
        simp [DCache.Regs.nState, state, ack]
      have counter : (m.step ip p events).dc.pCounter.toNat = 0 := by
        change (m.dc.nCounter p (m.dcResponse events)).toNat = 0
        simp [DCache.Regs.nCounter, state, ack]
      rw [if_pos (dcResponse_reqack_iff.mp ack).1, dcPhase, if_pos next, counter]
      exact .begins
  | false =>
      have request : m.dc.requests (m.dcResponse events) = true := by
        simp [DCache.Regs.requests, state, ack]
      have on : (m.step ip p events).dc.pReqcyc = true := by
        change (m.dc.nBus p (m.dcResponse events)).reqcyc = true
        simp [DCache.Regs.nBus, state, request]
      have next : (m.step ip p events).dc.pState = .d := by
        change m.dc.nState p (m.dcResponse events) = _
        simp [DCache.Regs.nState, state, ack]
      have later : (m.step ip p events).dcPhase =
          if (m.step ip p events).grant = .dc then .asked else .quiet := by
        rw [dcPhase, if_neg (by simp [next])]
        simp only [next, true_and]
      rw [later]
      by_cases granted : m.grant = .dc
      · rw [if_pos granted, if_pos (grant_step granted on)]
        exact .refused
      · rw [if_neg granted]
        split
        · exact .ask
        · exact .rest

theorem dcPhase_of_refill (state : m.dc.pState = .e) (tag : m.dc.pReqtag = DCache.readTag)
    (waits : m.sys.MayWait DCache.readTag l ram m.dcPhase) :
    ReadPhase.Next (m.dc.consumes (m.dcResponse events)) m.dcPhase
      (m.step ip p events).dcPhase := by
  have here : m.dcPhase = .reading m.dc.pCounter.toNat := by rw [dcPhase, if_pos state]
  have off : (m.step ip p events).dc.pReqcyc = false := by
    have request : m.dc.requests (m.dcResponse events) = false := by
      simp [DCache.Regs.requests, state]
    change (m.dc.nBus p (m.dcResponse events)).reqcyc = false
    rw [DCache.Regs.nBus, if_neg (by simp [state]), request, if_neg (by decide)]
    split <;> rfl
  rw [here] at waits
  cases beat : m.dc.beat (m.dcResponse events) with
  | true =>
      have consume : m.dc.consumes (m.dcResponse events) = true := by
        simp [DCache.Regs.consumes, state, beat]
      obtain ⟨rest, queue⟩ := dc_front beat
      rw [tag] at queue
      have below := (waits.front queue).1
      have below' : m.dc.pCounter < 8 := by
        rw [BitVec.lt_def]
        exact below
      have next : (m.step ip p events).dc.pState = .e := by
        change m.dc.nState p (m.dcResponse events) = _
        simp only [DCache.Regs.nState, state, beat, if_true, if_pos below']
      have counter : (m.step ip p events).dc.pCounter.toNat = m.dc.pCounter.toNat + 1 := by
        change (m.dc.nCounter p (m.dcResponse events)).toNat = _
        simp only [DCache.Regs.nCounter, state, beat, if_true]
        rw [BitVec.toNat_add]
        change (m.dc.pCounter.toNat + 1) % 32 = m.dc.pCounter.toNat + 1
        omega
      rw [consume, here, dcPhase, if_pos next, counter]
      exact .take _
  | false =>
      have consume : m.dc.consumes (m.dcResponse events) = false := by
        simp [DCache.Regs.consumes, beat]
      rw [consume, here]
      by_cases full : m.dc.pCounter = 8
      · have next : (m.step ip p events).dc.pState ≠ .e := by
          change m.dc.nState p (m.dcResponse events) ≠ _
          simp [DCache.Regs.nState, state, beat, full]
        rw [dcPhase_of_off off next, full]
        exact .finish
      · have next : (m.step ip p events).dc.pState = .e := by
          change m.dc.nState p (m.dcResponse events) = _
          simp only [DCache.Regs.nState, state, beat, if_neg full]
          rfl
        have counter : (m.step ip p events).dc.pCounter = m.dc.pCounter := by
          change m.dc.nCounter p (m.dcResponse events) = _
          simp [DCache.Regs.nCounter, state, beat]
        rw [dcPhase, if_pos next, counter]
        exact .wait _

theorem dcPhase_of_elsewhere (ask : m.dc.pState ≠ .d) (refill : m.dc.pState ≠ .e) :
    m.dcPhase = .quiet := by
  rw [dcPhase, if_neg refill, if_neg (fun both => ask both.1)]

theorem dcPhase_of_entering (ask : m.dc.pState ≠ .d) (refill : m.dc.pState ≠ .e) :
    (m.step ip p events).dcPhase = .quiet := by
  have next : (m.step ip p events).dc.pState = m.dc.nState p (m.dcResponse events) := rfl
  cases state : m.dc.pState with
  | a =>
      apply dcPhase_of_off (DCache.Regs.step_off (.inl state))
      simp only [next, DCache.Regs.nState, state]
      split <;> simp
  | b =>
      apply dcPhase_of_off (DCache.Regs.step_off (.inr state))
      simp only [next, DCache.Regs.nState, state]
      split
      · simp
      · split <;> simp
  | c =>
      by_cases done : m.dc.pCounter ≠ 0 ∧ (m.dcResponse events).reqack = true ∧ ¬ m.dc.pCounter < 9
      · apply dcPhase_of_off
        · change (m.dc.nBus p (m.dcResponse events)).reqcyc = false
          rw [DCache.Regs.nBus, if_pos state, DCache.Regs.writeBack, if_neg done.1,
            if_pos done.2.1, if_neg done.2.2]
        · simp only [next, DCache.Regs.nState, state, if_pos done]
          simp
      · apply dcPhase_of_elsewhere
        · simp only [next, DCache.Regs.nState, state, if_neg done]
          simp
        · simp only [next, DCache.Regs.nState, state, if_neg done]
          simp
  | d => exact absurd state ask
  | e => exact absurd state refill

variable (ip p events) in
theorem dcPhase_next (tag : m.dc.pState = .e → m.dc.pReqtag = DCache.readTag)
    (waits : m.sys.MayWait DCache.readTag l ram m.dcPhase) :
    ReadPhase.Next (m.dc.consumes (m.dcResponse events)) m.dcPhase
      (m.step ip p events).dcPhase := by
  by_cases ask : m.dc.pState = .d
  · exact dcPhase_of_ask ask
  · by_cases refill : m.dc.pState = .e
    · exact dcPhase_of_refill refill (tag refill) waits
    · have consume : m.dc.consumes (m.dcResponse events) = false := by
        simp [DCache.Regs.consumes, refill]
      rw [consume, dcPhase_of_elsewhere ask refill, dcPhase_of_entering ask refill]
      exact .rest

end

end MemorySystem

namespace CachePorts

open MemorySystem (Inputs)
open Sparcy.System (ReadPhase)

/-- `tick` ignores a read whose line is already pending.  That line is then pending for
the other cache. -/
def contended (h : CachePorts) (inputs : Inputs) : Bool :=
  let word := (h.step inputs).system.bus
  word.reqcyc && !System.isWrite word.reqtag &&
    (h.system.sys.findTag word.req).any (fun tag => tag != word.reqtag) &&
    !inputs.events.completed.contains word.req

section

variable {h : CachePorts} {inputs : Inputs} {ram : Ram}

theorem dcTag {m : MemorySystem} {p : DcRequest} (tracked : m.Tracked p) (state : m.dc.pState = .e) :
    m.dc.pReqtag = DCache.readTag := by
  cases tracked.phase with
  | refill _ _ _ claimed => exact claimed.reqtag
  | idle other => rw [state] at other; cases other
  | lookup other => rw [state] at other; cases other
  | evict other => rw [state] at other; cases other
  | ask other => rw [state] at other; cases other

/-- The request on the bus is the word of one cache, or none. -/
theorem bus_cases (m : MemorySystem) :
    m.bus.reqcyc = false ∨ (m.grant = .ic ∧ m.ic.pReqcyc = true ∧ m.bus = m.ic.bus) ∨
      (m.grant = .dc ∧ m.dc.pReqcyc = true ∧ m.bus = m.dc.bus) := by
  cases granted : m.grant with
  | none => exact .inl (MemorySystem.bus_of_none granted)
  | ic => exact .inr (.inl ⟨rfl, Arbiter.grant_ic granted⟩)
  | dc => exact .inr (.inr ⟨rfl, Arbiter.grant_dc granted⟩)

theorem dc_word {r : DCache.Regs} {p : DcRequest} (port : r.Port p) (on : r.pReqcyc = true) :
    (r.pState = .d ∧
        r.bus = { reqcyc := true, req := Ram.lineAddress p.lineAddr, reqtag := DCache.readTag }) ∨
      (r.pState = .c ∧ r.bus.reqtag = DCache.writeTag) := by
  cases port with
  | off off =>
      rw [off] at on
      cases on
  | asks state word => exact .inl ⟨state, word⟩
  | sends state _ _ _ word => exact .inr ⟨state, by rw [word]⟩

theorem free_of_word (free : h.contended inputs = false) {tag : BitVec 13} {l : BitVec 58}
    (word : (h.step inputs).system.bus =
      { reqcyc := true, req := Ram.lineAddress l, reqtag := tag })
    (read : System.isWrite tag = false) (other : BitVec 13)
    (found : h.system.sys.findTag (Ram.lineAddress l) = some other) (different : other ≠ tag) :
    Ram.lineAddress l ∈ inputs.events.completed := by
  rw [contended, word] at free
  simpa [read, found, different] using free

/-- A read of the data cache does not come after the words of a burst without a pause. -/
theorem rxCount_of_dc {m : MemorySystem} {ip : IcRequest} {p : DcRequest} {events : DramEvents}
    (tracked : m.Tracked p) (asked : (m.step ip p events).dcPhase = .asked) :
    m.sys.rxCount = 0 := by
  by_cases ask : m.dc.pState = .d
  · cases tracked.phase with
    | ask _ count => exact count
    | idle other => rw [ask] at other; cases other
    | lookup other => rw [ask] at other; cases other
    | evict other => rw [ask] at other; cases other
    | refill other => rw [ask] at other; cases other
  · by_cases refill : m.dc.pState = .e
    · cases tracked.phase with
      | refill _ _ count => exact count
      | idle other => rw [refill] at other; cases other
      | lookup other => rw [refill] at other; cases other
      | evict other => rw [refill] at other; cases other
      | ask other => rw [refill] at other; cases other
    · rw [MemorySystem.dcPhase_of_entering ask refill] at asked
      cases asked

theorem ic_tick (linked : h.Linked) (legal : h.Legal inputs)
    (icTag : h.system.ic.pState = .e → h.system.ic.pReqtag = ICache.readTag)
    (waits : h.system.sys.MayWait ICache.readTag inputs.ic.lineAddr ram h.system.icPhase) :
    h.system.sys.TickFor ICache.readTag inputs.ic.lineAddr
      (h.system.ic.consumes (h.system.icResponse inputs.events))
      h.system.icPhase (h.step inputs).system.icPhase inputs.events
      ((h.step inputs).system.ic.pRespack || (h.step inputs).system.dc.pRespack)
      (h.step inputs).system.bus := by
  obtain ⟨tracked, icPort, dcPort⟩ := linked.now legal
  have later : (h.step inputs).system.ic.Port inputs.ic := ICache.Regs.port_step _ _ _
  have later' : (h.step inputs).system.dc.Port inputs.dc :=
    dcPort.step (loaded_of_evicting tracked)
  constructor
  · intro taken
    have state : h.system.ic.pState = .e := by
      simp only [ICache.Regs.consumes, Bool.and_eq_true, beq_iff_eq] at taken
      exact taken.1
    obtain ⟨beat, rest, queue⟩ := MemorySystem.ic_front taken
    rw [icTag state] at queue
    refine ⟨?_, beat, rest, queue⟩
    change (h.system.ic.consumes _ || _) = true
    rw [taken, Bool.true_or]
  · intro kept respack
    have taken : h.system.dc.consumes (h.system.dcResponse inputs.events) = true := by
      have either : (h.system.ic.consumes (h.system.icResponse inputs.events) ||
          h.system.dc.consumes (h.system.dcResponse inputs.events)) = true := respack
      rwa [kept, Bool.false_or] at either
    simp only [DCache.Regs.consumes, Bool.and_eq_true, beq_iff_eq] at taken
    obtain ⟨rest, queue⟩ := MemorySystem.dc_front taken.2
    refine ⟨_, _, rest, queue, ?_⟩
    rw [dcTag tracked taken.1]
    decide
  · intro asked
    have granted : (h.step inputs).system.grant = .ic := by
      by_contra other
      rw [MemorySystem.icPhase, if_neg other] at asked
      split at asked <;> cases asked
    obtain ⟨on, bus⟩ := Arbiter.grant_ic granted
    have word : (h.step inputs).system.bus = _ := bus.trans (later on).2
    exact ⟨word, MemorySystem.rxCount_of_ic tracked.phase.burst granted⟩
  · intro other asks
    rcases bus_cases (h.step inputs).system with off | ⟨granted, on, -⟩ | ⟨-, on, bus⟩
    · rw [asks] at off
      cases off
    · have state := (later on).1
      rw [MemorySystem.icPhase, if_neg (by simp [state]), if_pos granted] at other
      exact absurd rfl other
    · rw [bus]
      rcases dc_word later' on with ⟨-, word⟩ | ⟨-, tag⟩
      · rw [word]
        change System.cmd DCache.readTag = _ ∧ DCache.readTag ≠ _
        decide
      · rw [tag]
        decide
  · intro asked asked' addr completed found
    have granted : h.system.grant = .ic := by
      by_contra other
      rw [MemorySystem.icPhase, if_neg other] at asked
      split at asked <;> cases asked
    obtain ⟨on, bus⟩ := Arbiter.grant_ic granted
    have state := (icPort on).1
    have word : h.system.bus = _ := bus.trans (icPort on).2
    have refused : inputs.events.accepts = false := by
      by_contra accepts
      rw [Bool.not_eq_false] at accepts
      have ack := MemorySystem.icResponse_reqack_iff.mpr ⟨granted, accepts⟩
      have next : (h.step inputs).system.ic.pState = .e := by
        change h.system.ic.nState inputs.ic _ = .e
        simp [ICache.Regs.nState, state, ack]
      rw [MemorySystem.icPhase, if_pos next] at asked'
      cases asked'
    rw [asked] at waits
    have here := waits.read found
    refine legal.allowed.refused (by rw [word]) refused addr completed ⟨?_, ?_⟩
    · rw [word, here]
    · rw [word, found]

theorem dc_tick (linked : h.Linked) (legal : h.Legal inputs)
    (icTag : h.system.ic.pState = .e → h.system.ic.pReqtag = ICache.readTag)
    (waits : h.system.sys.MayWait DCache.readTag inputs.dc.lineAddr ram h.system.dcPhase) :
    h.system.sys.TickFor DCache.readTag inputs.dc.lineAddr
      (h.system.dc.consumes (h.system.dcResponse inputs.events))
      h.system.dcPhase (h.step inputs).system.dcPhase inputs.events
      ((h.step inputs).system.ic.pRespack || (h.step inputs).system.dc.pRespack)
      (h.step inputs).system.bus := by
  obtain ⟨tracked, icPort, dcPort⟩ := linked.now legal
  have later : (h.step inputs).system.ic.Port inputs.ic := ICache.Regs.port_step _ _ _
  have later' : (h.step inputs).system.dc.Port inputs.dc :=
    dcPort.step (loaded_of_evicting tracked)
  have asked_iff : ∀ m : MemorySystem, m.dcPhase = .asked → m.dc.pState = .d ∧ m.grant = .dc := by
    intro m asked
    by_contra other
    rw [MemorySystem.dcPhase, if_neg other] at asked
    split at asked <;> cases asked
  constructor
  · intro taken
    have both := taken
    simp only [DCache.Regs.consumes, Bool.and_eq_true, beq_iff_eq] at both
    obtain ⟨rest, queue⟩ := MemorySystem.dc_front both.2
    rw [dcTag tracked both.1] at queue
    refine ⟨?_, _, rest, queue⟩
    change (_ || h.system.dc.consumes _) = true
    rw [taken, Bool.or_true]
  · intro kept respack
    have taken : h.system.ic.consumes (h.system.icResponse inputs.events) = true := by
      have either : (h.system.ic.consumes (h.system.icResponse inputs.events) ||
          h.system.dc.consumes (h.system.dcResponse inputs.events)) = true := respack
      rwa [kept, Bool.or_false] at either
    have state : h.system.ic.pState = .e := by
      simp only [ICache.Regs.consumes, Bool.and_eq_true, beq_iff_eq] at taken
      exact taken.1
    obtain ⟨beat, rest, queue⟩ := MemorySystem.ic_front taken
    refine ⟨beat, _, rest, queue, ?_⟩
    rw [icTag state]
    decide
  · intro asked
    obtain ⟨state', granted⟩ := asked_iff _ asked
    obtain ⟨on, bus⟩ := Arbiter.grant_dc granted
    have word : (h.step inputs).system.bus =
        { reqcyc := true, req := Ram.lineAddress inputs.dc.lineAddr, reqtag := DCache.readTag } := by
      rcases dc_word later' on with ⟨-, word⟩ | ⟨other, -⟩
      · exact bus.trans word
      · rw [state'] at other
        cases other
    exact ⟨word, rxCount_of_dc tracked asked⟩
  · intro other asks
    rcases bus_cases (h.step inputs).system with off | ⟨-, on, bus⟩ | ⟨granted, on, bus⟩
    · rw [asks] at off
      cases off
    · rw [bus, (later on).2]
      change System.cmd ICache.readTag = _ ∧ ICache.readTag ≠ _
      decide
    · rcases dc_word later' on with ⟨state, -⟩ | ⟨-, tag⟩
      · rw [MemorySystem.dcPhase, if_neg (by simp [state]), if_pos ⟨state, granted⟩] at other
        exact absurd rfl other
      · rw [bus, tag]
        decide
  · intro asked asked' addr completed found
    obtain ⟨state, granted⟩ := asked_iff _ asked
    obtain ⟨on, bus⟩ := Arbiter.grant_dc granted
    have word : h.system.bus =
        { reqcyc := true, req := Ram.lineAddress inputs.dc.lineAddr, reqtag := DCache.readTag } := by
      rcases dc_word dcPort on with ⟨-, word⟩ | ⟨other, -⟩
      · exact bus.trans word
      · rw [state] at other
        cases other
    have refused : inputs.events.accepts = false := by
      by_contra accepts
      rw [Bool.not_eq_false] at accepts
      have ack := MemorySystem.dcResponse_reqack_iff.mpr ⟨granted, accepts⟩
      have next : (h.step inputs).system.dc.pState = .e := by
        change h.system.dc.nState inputs.dc _ = .e
        simp [DCache.Regs.nState, state, ack]
      rw [MemorySystem.dcPhase, if_pos next] at asked'
      cases asked'
    rw [asked] at waits
    have here := waits.read found
    refine legal.allowed.refused (by rw [word]) refused addr completed ⟨?_, ?_⟩
    · rw [word, here]
    · rw [word, found]

theorem Linked.keyed_step (linked : h.Linked) (legal : h.Legal inputs)
    (keyed : h.system.sys.Keyed) : (h.step inputs).system.sys.Keyed := by
  obtain ⟨-, icPort, dcPort⟩ := linked.step legal
  apply keyed.tick
  intro asks
  rcases bus_cases (h.step inputs).system with off | ⟨-, on, bus⟩ | ⟨-, on, bus⟩
  · have asks' : (h.step inputs).system.bus.reqcyc = true := asks
    rw [off] at asks'
    cases asks'
  · have tag := congrArg BusRequest.reqtag (bus.trans (icPort on).2)
    change System.cmd (h.step inputs).system.bus.reqtag = _
    rw [tag]
    exact MemorySystem.cmd_tags.2.2
  · change System.cmd (h.step inputs).system.bus.reqtag = _
    rw [bus]
    rcases dc_word dcPort on with ⟨-, word⟩ | ⟨-, tag⟩
    · rw [word]
      exact MemorySystem.cmd_tags.1
    · rw [tag]
      exact MemorySystem.cmd_tags.2.1

end

end CachePorts

/-- The caches on the bus, with the RAM as it was when the last read of each cache was
completed. -/
structure CacheReads where
  ports : CachePorts
  icRam : Ram
  dcRam : Ram

namespace CacheReads

open MemorySystem (Inputs)
open Sparcy.System (ReadPhase)

def start (ram : Ram) : CacheReads := { ports := CachePorts.start ram, icRam := ram, dcRam := ram }

def step (t : CacheReads) (inputs : Inputs) : CacheReads :=
  { ports := t.ports.step inputs
    icRam := t.ports.system.sys.readRam inputs.events ICache.readTag t.icRam
    dcRam := t.ports.system.sys.readRam inputs.events DCache.readTag t.dcRam }

/-- The requests are held, the events are those of `System::tick`, and no read is placed
while its line is pending for the other cache. -/
structure Legal (t : CacheReads) (inputs : Inputs) : Prop where
  ports : t.ports.Legal inputs
  free : t.ports.contended inputs = false

theorem legal_iff {t : CacheReads} {inputs : Inputs} :
    t.Legal inputs ↔ t.ports.Legal inputs ∧ t.ports.contended inputs = false :=
  ⟨fun legal => ⟨legal.ports, legal.free⟩, fun ⟨ports, free⟩ => ⟨ports, free⟩⟩

instance (t : CacheReads) (inputs : Inputs) : Decidable (t.Legal inputs) :=
  decidable_of_iff _ legal_iff.symm

/-- What the memory owes to each cache. -/
structure Accounts (t : CacheReads) : Prop where
  linked : t.ports.Linked
  keyed : t.ports.system.sys.Keyed
  icTag : t.ports.system.ic.pState = .e → t.ports.system.ic.pReqtag = ICache.readTag
  ic : t.ports.system.sys.Waits ICache.readTag t.ports.ic.lineAddr t.icRam t.ports.system.icPhase
  dc : t.ports.system.sys.Waits DCache.readTag t.ports.dc.lineAddr t.dcRam t.ports.system.dcPhase

theorem accounts_start (ram : Ram) : (start ram).Accounts where
  linked := CachePorts.linked_start ram
  keyed := List.nodup_nil
  icTag := by
    intro state
    cases state
  ic := ⟨rfl, rfl⟩
  dc := ⟨rfl, rfl⟩

section

variable {t : CacheReads} {inputs : Inputs}

theorem Accounts.now (accounts : t.Accounts) (legal : t.Legal inputs) :
    t.ports.system.sys.Waits ICache.readTag inputs.ic.lineAddr t.icRam t.ports.system.icPhase ∧
      t.ports.system.sys.Waits DCache.readTag inputs.dc.lineAddr t.dcRam
        t.ports.system.dcPhase := by
  constructor
  · by_cases idle : t.ports.system.ic.pState = .a
    · have off : t.ports.system.ic.pReqcyc = false := by
        by_contra on
        rw [Bool.not_eq_false] at on
        have state := (accounts.linked.icPort on).1
        rw [idle] at state
        cases state
      have quiet := accounts.ic
      rw [MemorySystem.icPhase_of_off off (by simp [idle])] at quiet ⊢
      exact quiet
    · rw [legal.ports.icHeld idle]
      exact accounts.ic
  · by_cases idle : t.ports.system.dc.pState = .a
    · have quiet := accounts.dc
      rw [MemorySystem.dcPhase_of_elsewhere (by simp [idle]) (by simp [idle])] at quiet ⊢
      exact quiet
    · rw [legal.ports.dcHeld idle]
      exact accounts.dc

theorem Accounts.step (accounts : t.Accounts) (legal : t.Legal inputs) : (t.step inputs).Accounts := by
  obtain ⟨tracked, icPort, -⟩ := accounts.linked.now legal.ports
  obtain ⟨ic, dc⟩ := accounts.now legal
  obtain ⟨icNext, icTag⟩ := MemorySystem.icPhase_next inputs.dc inputs.events icPort
    accounts.icTag (.inl ic)
  have dcNext := MemorySystem.dcPhase_next inputs.ic inputs.dc inputs.events
    (CachePorts.dcTag tracked) (.inl dc)
  have icTick := CachePorts.ic_tick accounts.linked legal.ports accounts.icTag (.inl ic)
  have dcTick := CachePorts.dc_tick accounts.linked legal.ports accounts.icTag (.inl dc)
  refine
    { linked := accounts.linked.step legal.ports
      keyed := accounts.linked.keyed_step legal.ports accounts.keyed
      icTag := icTag
      ic := ic.tick accounts.keyed (by decide) (by decide) (by decide) icNext icTick ?_
      dc := dc.tick accounts.keyed (by decide) (by decide) (by decide) dcNext dcTick ?_ }
  · intro quiet asked
    rw [quiet] at ic
    exact System.findTag_served_eq_none ic
      (CachePorts.free_of_word legal.free (icTick.own asked).1 (by decide))
  · intro quiet asked
    rw [quiet] at dc
    exact System.findTag_served_eq_none dc
      (CachePorts.free_of_word legal.free (dcTick.own asked).1 (by decide))

end

/-- A cache that has taken `k` beats of its line is owed exactly the other `8 - k`, in the
order of the line; otherwise it is owed nothing unless it waits for its line. -/
structure Delivered (t : CacheReads) : Prop where
  icTag : t.ports.system.ic.pState = .e → t.ports.system.ic.pReqtag = ICache.readTag
  icCount : t.ports.system.ic.pState = .e → t.ports.system.ic.pCounter.toNat ≤ 8 →
    t.ports.system.sys.undelivered ICache.readTag = 8 - t.ports.system.ic.pCounter.toNat
  icOrder : t.ports.system.ic.pState = .e →
    t.ports.system.sys.beatsFor ICache.readTag =
      ((List.range 8).drop (8 - (t.ports.system.sys.beatsFor ICache.readTag).length)).map
        (t.icRam.doubleword t.ports.ic.lineAddr)
  icNone : t.ports.system.ic.pState ≠ .d → t.ports.system.ic.pState ≠ .e →
    t.ports.system.sys.undelivered ICache.readTag = 0
  dcTag : t.ports.system.dc.pState = .e → t.ports.system.dc.pReqtag = DCache.readTag
  dcCount : t.ports.system.dc.pState = .e → t.ports.system.dc.pCounter.toNat ≤ 8 →
    t.ports.system.sys.undelivered DCache.readTag = 8 - t.ports.system.dc.pCounter.toNat
  dcOrder : t.ports.system.dc.pState = .e →
    t.ports.system.sys.beatsFor DCache.readTag =
      ((List.range 8).drop (8 - (t.ports.system.sys.beatsFor DCache.readTag).length)).map
        (t.dcRam.doubleword t.ports.dc.lineAddr)
  dcNone : t.ports.system.dc.pState ≠ .d → t.ports.system.dc.pState ≠ .e →
    t.ports.system.sys.undelivered DCache.readTag = 0

theorem Accounts.delivered {t : CacheReads} (accounts : t.Accounts) : t.Delivered := by
  obtain ⟨linked, -, icTag, ic, dc⟩ := accounts
  refine ⟨icTag, ?_, ?_, ?_, CachePorts.dcTag linked.data, ?_, ?_, ?_⟩
  · intro state _
    rw [MemorySystem.icPhase, if_pos state] at ic
    exact ic.2.undelivered_eq
  · intro state
    rw [MemorySystem.icPhase, if_pos state] at ic
    exact ic.2.in_order
  · intro ask refill
    have off : t.ports.system.ic.pReqcyc = false := by
      by_contra on
      rw [Bool.not_eq_false] at on
      exact ask (linked.icPort on).1
    rw [MemorySystem.icPhase_of_off off refill] at ic
    exact ic.undelivered_eq
  · intro state _
    rw [MemorySystem.dcPhase, if_pos state] at dc
    exact dc.2.undelivered_eq
  · intro state
    rw [MemorySystem.dcPhase, if_pos state] at dc
    exact dc.2.in_order
  · intro ask refill
    rw [MemorySystem.dcPhase_of_elsewhere ask refill] at dc
    exact dc.undelivered_eq

theorem accounts_of_legal (ram : Ram) (inputs : List Inputs)
    (legal : Runs.Guarded step Legal (start ram) inputs) :
    Runs.Always step Accounts (start ram) inputs :=
  legal.always (fun _ _ accounts legal => accounts.step legal) (accounts_start ram)

/-- No response is lost, shared or duplicated in a run in which no read is placed while
its line is pending for the other cache. -/
theorem delivers_every_beat (ram : Ram) (inputs : List Inputs)
    (legal : Runs.Guarded step Legal (start ram) inputs) :
    Runs.Always step Delivered (start ram) inputs :=
  (accounts_of_legal ram inputs legal).mono fun _ accounts => accounts.delivered

/-- The caches miss on different lines: the fetched line arrives while the other read is
pending, and then the data. -/
theorem delivers_every_beat_both_miss :
    Runs.Always step Delivered (start (Ram.ofWords [1, 2]))
      (CacheHistory.holding ⟨true, 0, 1⟩ ⟨true, 2, 0, 0, true, 0, 0, 3⟩
        (List.replicate 16 (.completing []) ++ .completing [0] ::
          List.replicate 3 (.completing []) ++ .completing [128] ::
            List.replicate 12 (.completing []))) :=
  delivers_every_beat _ _ (by decide +kernel)

/-- The caches miss on the same line: the read of the data cache is ignored and nothing is
owed to it. -/
theorem loses_read_of_same_line :
    ¬ ∀ (ram : Ram) (inputs : List Inputs),
      Runs.Guarded step (fun t inputs => t.ports.Legal inputs ∧ inputs.events.accepts = true)
        (start ram) inputs →
      Runs.Always step Delivered (start ram) inputs := by
  intro delivered
  have last := (delivered (Ram.ofWords [1, 2])
    (CacheHistory.holding ⟨true, 0, 1⟩ ⟨true, 0, 0, 0, true, 0, 0, 3⟩
      (List.replicate 16 (.completing []))) (by decide +kernel)).last
  have owed := last.dcCount (by decide +kernel) (by decide +kernel)
  exact absurd owed (by decide +kernel)

end CacheReads

end Sparcy
