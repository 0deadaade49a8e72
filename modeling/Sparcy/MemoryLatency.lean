import Sparcy.ResponseQueue
import Sparcy.FetchPath
import Sparcy.Library.Potential

/-!
# How long an access takes

The two caches compete for the bus and then for the response queue.  Each cycle in which
the memory does not keep a busy cache waiting brings its acknowledgement nearer.
-/

namespace Sparcy

namespace Arbiter

variable {s : State} {ic dc : BusRequest}

theorem grant_i :
    grant .i ic dc = if ic.reqcyc then .ic else if dc.reqcyc then .dc else .none := rfl

theorem grant_a : grant .a ic dc = if ic.reqcyc then .ic else .none := rfl

/-- A cache that asks is kept off the bus only by the owner. -/
theorem owner_of_none (granted : grant s ic dc = .none) (asks : dc.reqcyc = true) :
    s = .a ∧ ic.reqcyc = false := by
  cases s <;> cases other : ic.reqcyc <;> simp [grant, asks, other] at granted ⊢

end Arbiter

namespace DCache.Regs

/-- The request is dropped after the last word of a write-back. -/
theorem off_of_last {r : Regs} {p : DcRequest} {response : BusResponse} (state : r.pState = .c)
    {k : Nat} (counter : r.pCounter.toNat = k + 1) (ack : response.reqack = true)
    (full : ¬ k < 8) : (r.step p response).pReqcyc = false := by
  have positive : r.pCounter ≠ 0 := by
    intro zero
    simp [zero] at counter
  have last : ¬ r.pCounter < 9 := by
    rw [BitVec.lt_def, counter]
    exact fun below => full (Nat.succ_lt_succ_iff.mp below)
  change (r.nBus p response).reqcyc = false
  rw [nBus, if_pos state, writeBack, if_neg positive, ack, if_pos rfl, if_neg last]

end DCache.Regs

namespace MemorySystem

/-- The memory does not accept the request on the bus. -/
def refused (m : MemorySystem) (events : DramEvents) : Bool := m.bus.reqcyc && !events.accepts

/-- The cycles in which the instruction cache waits for the memory: the bus is refused while
it asks for a line, or its read is not completed. -/
def icKept (m : MemorySystem) (events : DramEvents) : Bool :=
  match m.ic.pState with
  | .d => m.refused events
  | .e => m.sys.unanswered ICache.readTag events
  | _ => false

def dcKept (m : MemorySystem) (events : DramEvents) : Bool :=
  match m.dc.pState with
  | .c => m.refused events
  | .d => m.refused events
  | .e => m.sys.unanswered DCache.readTag events
  | _ => false

/-- The accepted words until the instruction cache owns the bus: it waits for the rest of a
write-back or for a read of the data cache, and for the arbiter to become idle. -/
def icWait (m : MemorySystem) : Nat :=
  match m.grant with
  | .ic => 0
  | .none => 1
  | .dc => if m.dc.pState = .c then 11 - m.dc.pCounter.toNat else 2

def dcWait (m : MemorySystem) : Nat :=
  match m.grant with
  | .dc => 0
  | .none => 1
  | .ic => 2

/-- The cycles until the instruction cache acknowledges, without those that wait for the
memory. -/
def icLeft (m : MemorySystem) (p : IcRequest) : Nat :=
  match m.ic.pState with
  | .a => 0
  | .b => if m.ic.hit p then 1 else 32
  | .c => 0
  | .d => if m.ic.pReqcyc then 20 + m.icWait else 31
  | .e => m.sys.remaining ICache.readTag

def dcLeft (m : MemorySystem) (p : DcRequest) : Nat :=
  match m.dc.pState with
  | .a => 0
  | .b => if m.dc.hit p then 1 else 36
  | .c => if m.dc.pCounter = 0 then 35 else 33 - m.dc.pCounter.toNat + m.dcWait
  | .d => if m.dc.pReqcyc then 20 + m.dcWait else 23
  | .e => m.sys.remaining DCache.readTag

section

variable {m : MemorySystem} {ip : IcRequest} {p : DcRequest} {events : DramEvents}

theorem refused_eq_false_iff :
    m.refused events = false ↔ (m.bus.reqcyc = true → events.accepts = true) := by
  rw [refused]
  cases m.bus.reqcyc <;> simp

/-- The owner of the bus is acknowledged unless the memory refuses. -/
theorem ic_ack_of_granted (granted : m.grant = .ic) (taken : m.refused events = false) :
    (m.icResponse events).reqack = true :=
  icResponse_reqack_iff.mpr
    ⟨granted, refused_eq_false_iff.mp taken (bus_of_ic granted).2.1⟩

theorem dc_ack_of_granted (granted : m.grant = .dc) (taken : m.refused events = false) :
    (m.dcResponse events).reqack = true :=
  dcResponse_reqack_iff.mpr
    ⟨granted, refused_eq_false_iff.mp taken (bus_of_dc granted).1⟩

theorem icWait_of_ic (granted : m.grant = .ic) : m.icWait = 0 := by rw [icWait, granted]

theorem icWait_of_none (granted : m.grant = .none) : m.icWait = 1 := by rw [icWait, granted]

theorem icWait_of_dc (granted : m.grant = .dc) :
    m.icWait = if m.dc.pState = .c then 11 - m.dc.pCounter.toNat else 2 := by rw [icWait, granted]

theorem dcWait_of_dc (granted : m.grant = .dc) : m.dcWait = 0 := by rw [dcWait, granted]

theorem dcWait_of_none (granted : m.grant = .none) : m.dcWait = 1 := by rw [dcWait, granted]

theorem dcWait_of_ic (granted : m.grant = .ic) : m.dcWait = 2 := by rw [dcWait, granted]

theorem dcWait_le (m : MemorySystem) : m.dcWait ≤ 2 := by
  cases granted : m.grant with
  | dc => rw [dcWait_of_dc granted]; omega
  | none => rw [dcWait_of_none granted]; omega
  | ic => rw [dcWait_of_ic granted]

theorem icWait_le (port : m.dc.Port p) : m.icWait ≤ 10 := by
  cases granted : m.grant with
  | ic => rw [icWait_of_ic granted]; omega
  | none => rw [icWait_of_none granted]; omega
  | dc =>
      rw [icWait_of_dc granted]
      have on := (Arbiter.grant_dc granted).1
      cases port with
      | off off => exact absurd (off.symm.trans on) (by decide)
      | asks state => rw [if_neg (by simp [state])]; omega
      | sends state k counter => rw [if_pos state]; omega

variable (m ip p events) in
theorem arbiter_step : (m.step ip p events).arbiter = Arbiter.step m.arbiter m.ic.bus m.dc.bus := rfl

/-- Without an owner the arbiter is idle in the next cycle. -/
theorem arbiter_of_none (granted : m.grant = .none) : (m.step ip p events).arbiter = .i := by
  rw [arbiter_step, Arbiter.step, show Arbiter.grant m.arbiter m.ic.bus m.dc.bus = .none from granted]

theorem arbiter_of_ic (granted : m.grant = .ic) : (m.step ip p events).arbiter = .a := by
  rw [arbiter_step, Arbiter.step, show Arbiter.grant m.arbiter m.ic.bus m.dc.bus = .ic from granted]

theorem arbiter_of_dc (granted : m.grant = .dc) : (m.step ip p events).arbiter = .b :=
  Arbiter.step_eq_b_iff.mpr granted

/-! ### Waiting for the bus -/

/-- The instruction cache is not granted the bus again before the data cache: it waits for
its line. -/
theorem dcWait_step (owner : m.arbiter = .a → m.ic.pReqcyc = false → m.ic.pState = .e)
    (on : m.dc.pReqcyc = true) (elsewhere : m.grant ≠ .dc)
    (on' : (m.step ip p events).dc.pReqcyc = true) :
    (m.step ip p events).dcWait + 1 ≤ m.dcWait + (m.refused events).toNat := by
  cases granted : m.grant with
  | dc => exact absurd granted elsewhere
  | none =>
      obtain ⟨held, off⟩ := Arbiter.owner_of_none granted on
      have off' : (m.step ip p events).ic.pReqcyc = false := by
        change m.ic.requests _ = false
        simp [ICache.Regs.requests, owner held off]
      have next : (m.step ip p events).grant = .dc := by
        rw [grant, arbiter_of_none granted, Arbiter.grant_i, ICache.Regs.bus, DCache.Regs.bus, off',
          on']
        rfl
      rw [dcWait_of_dc next, dcWait_of_none granted]
      omega
  | ic =>
      rw [dcWait_of_ic granted]
      cases taken : m.refused events with
      | true => exact Nat.succ_le_succ (dcWait_le _)
      | false =>
          have ack := ic_ack_of_granted granted taken
          have off : (m.step ip p events).ic.pReqcyc = false := by
            change m.ic.requests _ = false
            simp [ICache.Regs.requests, ack]
          have next : (m.step ip p events).grant = .none := by
            rw [grant, arbiter_of_ic granted, Arbiter.grant_a, ICache.Regs.bus, off]
            rfl
          rw [dcWait_of_none next]
          simp

/-- A word of the data cache that is not accepted stays on the bus. -/
theorem icWait_of_refused (dcPort : m.dc.Port p) (granted : m.grant = .dc)
    (waits : (m.dcResponse events).reqack = false) : (m.step ip p events).icWait = m.icWait := by
  have on := (Arbiter.grant_dc granted).1
  have held : (m.step ip p events).dc.bus = m.dc.bus := dcPort.held on waits
  have granted' : (m.step ip p events).grant = .dc :=
    grant_step granted ((congrArg BusRequest.reqcyc held).trans on)
  rw [icWait_of_dc granted, icWait_of_dc granted']
  cases dcPort with
  | off off => exact absurd (off.symm.trans on) (by decide)
  | asks state =>
      have state' : (m.step ip p events).dc.pState = .d := by
        change m.dc.nState p (m.dcResponse events) = _
        simp [DCache.Regs.nState, state, waits]
      rw [state, state']
      rfl
  | sends state k counter =>
      have positive : m.dc.pCounter ≠ 0 := by
        intro zero
        simp [zero] at counter
      have state' : (m.step ip p events).dc.pState = .c := by
        change m.dc.nState p (m.dcResponse events) = _
        simp [DCache.Regs.nState, state, waits]
      have counter' : (m.step ip p events).dc.pCounter = m.dc.pCounter := by
        change m.dc.nCounter p (m.dcResponse events) = _
        simp only [DCache.Regs.nCounter, state, if_neg positive, waits, Bool.false_eq_true,
          false_and, if_false]
      rw [state, state', counter']

/-- An accepted word of the data cache brings the end of its burst nearer. -/
theorem icWait_of_accepted (dcPort : m.dc.Port p) (granted : m.grant = .dc)
    (ack : (m.dcResponse events).reqack = true) :
    (m.step ip p events).icWait + 1 ≤ m.icWait := by
  have on := (Arbiter.grant_dc granted).1
  have wait_of_off : (m.step ip p events).dc.pReqcyc = false →
      (m.step ip p events).icWait = 1 := by
    intro off
    apply icWait_of_none
    rw [grant, arbiter_of_dc granted, Arbiter.grant_b, DCache.Regs.bus, off]
    rfl
  rw [icWait_of_dc granted]
  cases dcPort with
  | off off => exact absurd (off.symm.trans on) (by decide)
  | asks state =>
      have off : (m.step ip p events).dc.pReqcyc = false := by
        change (m.dc.nBus p (m.dcResponse events)).reqcyc = false
        simp [DCache.Regs.nBus, DCache.Regs.requests, DCache.Regs.consumes, state, ack]
      rw [wait_of_off off, if_neg (by simp [state])]
  | sends state k counter inside word =>
      obtain ⟨more, last⟩ := DCache.Regs.step_of_ack (p := p) state counter ack
      rw [DCache.Regs.length_writeBackWords] at inside
      rw [if_pos state]
      by_cases below : k < 8
      · obtain ⟨state', counter'⟩ := more below
        have next : (m.step ip p events).dc.pState = .c := state'
        cases granted' : (m.step ip p events).grant with
        | ic => rw [icWait_of_ic granted']; omega
        | none => rw [icWait_of_none granted']; omega
        | dc =>
            rw [icWait_of_dc granted', if_pos next,
              show (m.step ip p events).dc.pCounter.toNat = k + 1 + 1 from counter']
            omega
      · rw [wait_of_off (DCache.Regs.off_of_last state counter ack below)]
        omega

/-- The data cache drops its request between a write-back and the read that follows it, and
the instruction cache goes first then. -/
theorem icWait_step (dcPort : m.dc.Port p) (elsewhere : m.grant ≠ .ic)
    (on' : (m.step ip p events).ic.pReqcyc = true) :
    (m.step ip p events).icWait + 1 ≤ m.icWait + (m.refused events).toNat := by
  cases granted : m.grant with
  | ic => exact absurd granted elsewhere
  | none =>
      have next : (m.step ip p events).grant = .ic := by
        rw [grant, arbiter_of_none granted, Arbiter.grant_i, ICache.Regs.bus, on']
        rfl
      rw [icWait_of_ic next, icWait_of_none granted]
      omega
  | dc =>
      cases taken : m.refused events with
      | true =>
          have waits : (m.dcResponse events).reqack = false := by
            rw [← Bool.not_eq_true, dcResponse_reqack_iff]
            rintro ⟨-, accepts⟩
            rw [refused, accepts] at taken
            simp at taken
          rw [icWait_of_refused dcPort granted waits]
          exact Nat.le_refl _
      | false => exact icWait_of_accepted dcPort granted (dc_ack_of_granted granted taken)

end

end MemorySystem

namespace CacheReads

open MemorySystem (Inputs)
open DCache.Regs (set)

/-- The caches are busy with a request. -/
def IcBusy (t : CacheReads) : Prop := t.ports.system.ic.pState ≠ .a

def DcBusy (t : CacheReads) : Prop := t.ports.system.dc.pState ≠ .a

instance (t : CacheReads) : Decidable t.IcBusy := inferInstanceAs (Decidable (_ ≠ _))

instance (t : CacheReads) : Decidable t.DcBusy := inferInstanceAs (Decidable (_ ≠ _))

def icKept (t : CacheReads) (inputs : Inputs) : Bool := t.ports.system.icKept inputs.events

def dcKept (t : CacheReads) (inputs : Inputs) : Bool := t.ports.system.dcKept inputs.events

def icLeft (t : CacheReads) : Nat := t.ports.system.icLeft t.ports.ic

def dcLeft (t : CacheReads) : Nat := t.ports.system.dcLeft t.ports.dc

/-- What progress rests on: only beats of the caches are queued, the line that the
instruction cache has asked for is found when it is looked up, and a grant that ends
without a request leaves the instruction cache reading. -/
structure Live (t : CacheReads) : Prop where
  accounts : t.Accounts
  known : t.ports.system.sys.Known fun tag => tag = ICache.readTag ∨ tag = DCache.readTag
  reads : t.ports.system.ic.pState ≠ .c
  claimed : t.ports.system.ic.pState = .e ∨ t.ports.system.ic.pReqcyc = true →
    t.ports.system.ic.tagSram.mem (ICache.Regs.set t.ports.ic) = ICache.tag t.ports.ic.lineAddr
  owner : t.ports.system.arbiter = .a → t.ports.system.ic.pReqcyc = false →
    t.ports.system.ic.pState = .e

theorem live_start (ram : Ram) : (start ram).Live where
  accounts := accounts_start ram
  known := ⟨fun _ member => (nomatch member), fun _ member => (nomatch member)⟩
  reads := by
    intro state
    cases state
  claimed := by
    rintro (state | on)
    · cases state
    · cases on
  owner := by
    intro held
    cases held

/-- The conditions of a step, and no key is pressed. -/
structure Keyless (t : CacheReads) (inputs : Inputs) : Prop where
  legal : t.Legal inputs
  silent : inputs.events.key = false

instance (t : CacheReads) (inputs : Inputs) : Decidable (t.Keyless inputs) :=
  decidable_of_iff (t.Legal inputs ∧ inputs.events.key = false)
    ⟨fun ⟨legal, silent⟩ => ⟨legal, silent⟩, fun keyless => ⟨keyless.legal, keyless.silent⟩⟩

section

variable {t : CacheReads} {inputs : Inputs}

theorem beats_le_eight {s : System} {tag : BitVec 13} {l : BitVec 58} {ram : Ram}
    {phase : System.ReadPhase} (waits : s.Waits tag l ram phase) : (s.beatsFor tag).length ≤ 8 := by
  cases phase with
  | quiet => rw [waits.1]; exact Nat.zero_le 8
  | asked => rw [waits.2]; exact Nat.zero_le 8
  | reading k =>
      have owed := waits.2.undelivered_eq
      rw [System.undelivered] at owed
      omega

/-- Each cache has at most one line in the queue. -/
theorem Live.room (live : t.Live) : t.ports.system.sys.txQueue.length ≤ 16 := by
  have ic := beats_le_eight live.accounts.ic
  have dc := beats_le_eight live.accounts.dc
  rw [System.beatsFor, List.length_map] at ic dc
  have sum := System.length_le_of_tags live.known.beats
  omega

/-- The cache whose beat is at the front takes it. -/
theorem Live.popped (live : t.Live) (filled : t.ports.system.sys.txQueue ≠ []) :
    ((t.step inputs).ports.system.ic.pRespack || (t.step inputs).ports.system.dc.pRespack) =
      true := by
  change (t.ports.system.ic.consumes (t.ports.system.icResponse inputs.events) ||
    t.ports.system.dc.consumes (t.ports.system.dcResponse inputs.events)) = true
  cases queue : t.ports.system.sys.txQueue with
  | nil => exact absurd queue filled
  | cons beat rest =>
      have own : ∀ tag, beat.2 = tag → t.ports.system.sys.beatsFor tag ≠ [] := by
        intro tag same none
        simp [System.beatsFor, queue, same] at none
      have shown : ∀ reqack, (t.ports.system.sys.response reqack).respcyc = true ∧
          (t.ports.system.sys.response reqack).resptag = beat.2 := by
        intro reqack
        simp [System.response, queue]
      rcases live.known.beats beat (by simp [queue]) with tag | tag
      · have state : t.ports.system.ic.pState = .e := by
          by_contra other
          have waits := live.accounts.ic
          rw [MemorySystem.icPhase, if_neg other] at waits
          split at waits
          · exact own _ tag waits.2
          · exact own _ tag waits.1
        have taken : t.ports.system.ic.consumes (t.ports.system.icResponse inputs.events) = true := by
          rw [ICache.Regs.consumes, ICache.Regs.beat, MemorySystem.icResponse, (shown _).1,
            (shown _).2, tag, live.accounts.icTag state, state]
          decide
        rw [taken, Bool.true_or]
      · have state : t.ports.system.dc.pState = .e := by
          by_contra other
          have waits := live.accounts.dc
          rw [MemorySystem.dcPhase, if_neg other] at waits
          split at waits
          · exact own _ tag waits.2
          · exact own _ tag waits.1
        have taken : t.ports.system.dc.consumes (t.ports.system.dcResponse inputs.events) = true := by
          rw [DCache.Regs.consumes, DCache.Regs.beat, MemorySystem.dcResponse, (shown _).1,
            (shown _).2, tag, CachePorts.dcTag live.accounts.linked.data state, state]
          decide
        rw [taken, Bool.or_true]

/-- The words on the bus after a step. -/
theorem Live.bus_step (live : t.Live) (keyless : t.Keyless inputs) :
    (t.ports.step inputs).system.bus.reqcyc = true →
      System.cmd (t.ports.step inputs).system.bus.reqtag = System.MEMORY ∧
        (System.isWrite (t.ports.step inputs).system.bus.reqtag = false →
          (t.ports.step inputs).system.bus.reqtag = ICache.readTag ∨
            (t.ports.step inputs).system.bus.reqtag = DCache.readTag) := by
  intro asks
  obtain ⟨-, icPort, dcPort⟩ := live.accounts.linked.step keyless.legal.ports
  rcases CachePorts.bus_cases (t.ports.step inputs).system with off | ⟨-, on, bus⟩ | ⟨-, on, bus⟩
  · rw [asks] at off
    cases off
  · rw [bus, (icPort on).2]
    exact ⟨MemorySystem.cmd_tags.2.2, fun _ => .inl rfl⟩
  · rw [bus]
    rcases CachePorts.dc_word dcPort on with ⟨-, word⟩ | ⟨-, tag⟩
    · rw [word]
      exact ⟨MemorySystem.cmd_tags.1, fun _ => .inr rfl⟩
    · rw [tag]
      exact ⟨MemorySystem.cmd_tags.2.1, fun read => absurd read (by decide)⟩

theorem Live.claimed_step (live : t.Live) (keyless : t.Keyless inputs)
    (here : (t.step inputs).ports.system.ic.pState = .e ∨
      (t.step inputs).ports.system.ic.pReqcyc = true) :
    (t.step inputs).ports.system.ic.tagSram.mem (ICache.Regs.set inputs.ic) =
      ICache.tag inputs.ic.lineAddr := by
  change (t.ports.system.ic.step inputs.ic (t.ports.system.icResponse inputs.events)).tagSram.mem _ = _
  rw [ICache.Regs.step_tag_mem]
  cases request : t.ports.system.ic.requests (t.ports.system.icResponse inputs.events) with
  | true => rw [if_pos rfl, Function.update_self]
  | false =>
      rw [if_neg (by decide)]
      rcases here with next | on
      · have next' : t.ports.system.ic.nState inputs.ic
            (t.ports.system.icResponse inputs.events) = .e := next
        have before : t.ports.system.ic.pState ≠ .a ∧
            (t.ports.system.ic.pState = .e ∨ t.ports.system.ic.pReqcyc = true) := by
          cases state : t.ports.system.ic.pState with
          | a => simp only [ICache.Regs.nState, state] at next'; split at next' <;> cases next'
          | b => simp only [ICache.Regs.nState, state] at next'; split at next' <;> cases next'
          | c => exact absurd state live.reads
          | d =>
              refine ⟨by decide, .inr ?_⟩
              have ack : (t.ports.system.icResponse inputs.events).reqack = true := by
                by_contra waits
                simp [ICache.Regs.nState, state, waits] at next'
              exact (MemorySystem.bus_of_ic (MemorySystem.icResponse_reqack_iff.mp ack).1).1
          | e => exact ⟨by decide, .inl rfl⟩
        rw [keyless.legal.ports.icHeld before.1]
        exact live.claimed before.2
      · have asks : t.ports.system.ic.requests (t.ports.system.icResponse inputs.events) = true := on
        rw [request] at asks
        cases asks

theorem Live.owner_step (live : t.Live)
    (held : (t.step inputs).ports.system.arbiter = .a)
    (off : (t.step inputs).ports.system.ic.pReqcyc = false) :
    (t.step inputs).ports.system.ic.pState = .e := by
  have granted : t.ports.system.grant = .ic := by
    have next : Arbiter.step t.ports.system.arbiter t.ports.system.ic.bus t.ports.system.dc.bus =
      .a := held
    rw [Arbiter.step] at next
    rw [MemorySystem.grant]
    split at next
    · assumption
    · cases next
    · cases next
  have state := (live.accounts.linked.icPort (MemorySystem.bus_of_ic granted).1).1
  have ack : (t.ports.system.icResponse inputs.events).reqack = true := by
    by_contra waits
    have asks : t.ports.system.ic.requests (t.ports.system.icResponse inputs.events) = true := by
      rw [ICache.Regs.requests, state, Bool.eq_false_iff.mpr waits]
      decide
    have none : t.ports.system.ic.requests (t.ports.system.icResponse inputs.events) = false := off
    rw [asks] at none
    cases none
  change t.ports.system.ic.nState inputs.ic _ = .e
  simp [ICache.Regs.nState, state, ack]

theorem Live.step (live : t.Live) (keyless : t.Keyless inputs) : (t.step inputs).Live where
  accounts := live.accounts.step keyless.legal
  known := by
    have words := live.bus_step keyless
    exact ((live.known.update keyless.silent).pop _).request (fun asks => (words asks).1)
      (fun asks => (words asks).2)
  reads := by
    change t.ports.system.ic.nState inputs.ic _ ≠ .c
    cases state : t.ports.system.ic.pState with
    | a => simp only [ICache.Regs.nState, state]; split <;> simp
    | b => simp only [ICache.Regs.nState, state]; split <;> simp
    | c => exact absurd state live.reads
    | d => simp only [ICache.Regs.nState, state]; split <;> simp
    | e => simp only [ICache.Regs.nState, state]; split <;> split <;> simp
  claimed := live.claimed_step keyless
  owner := live.owner_step

/-- A read with beats to come has them pending or in the queue. -/
theorem reach_of_low {s : System} {tag : BitVec 13} {l : BitVec 58} {ram : Ram} {k : Nat}
    (waits : s.Waits tag l ram (.reading k)) (low : k < 8) (none : s.readsFor tag = []) :
    System.reach tag s.txQueue ≠ 0 := by
  intro empty
  rw [System.reach_eq_zero_iff] at empty
  have nothing : s.beatsFor tag = [] := by
    rw [System.beatsFor, List.map_eq_nil_iff, List.filter_eq_nil_iff]
    intro beat member own
    exact empty beat member (by simpa using own)
  have owed := waits.2.undelivered_eq
  rw [System.undelivered, none, nothing] at owed
  simp only [List.length_nil] at owed
  omega

/-- While the instruction cache reads, the rest of its line comes nearer. -/
theorem Live.ic_reading (live : t.Live) (keyless : t.Keyless inputs)
    (state : t.ports.system.ic.pState = .e) (next : (t.step inputs).ports.system.ic.pState = .e) :
    (t.step inputs).ports.system.sys.remaining ICache.readTag + 1 ≤
      t.ports.system.sys.remaining ICache.readTag +
        (t.ports.system.sys.unanswered ICache.readTag inputs.events).toNat := by
  have waits := live.accounts.ic
  rw [MemorySystem.icPhase, if_pos state] at waits
  have low : t.ports.system.ic.pCounter.toNat < 8 := by
    by_contra high
    have full : t.ports.system.ic.pCounter = 8 := by
      apply BitVec.eq_of_toNat_eq
      change t.ports.system.ic.pCounter.toNat = 8
      have bound := waits.1
      omega
    have silent : t.ports.system.ic.beat (t.ports.system.icResponse inputs.events) = false := by
      by_contra beat
      rw [Bool.not_eq_false] at beat
      obtain ⟨rest, queue⟩ := MemorySystem.front_of_beat beat
      rw [live.accounts.icTag state] at queue
      exact high (waits.2.front queue).1
    have next' : t.ports.system.ic.nState inputs.ic (t.ports.system.icResponse inputs.events) = .e :=
      next
    simp [ICache.Regs.nState, state, silent, full] at next'
  have now : t.ports.system.sys.MayWait ICache.readTag inputs.ic.lineAddr t.icRam
      t.ports.system.icPhase := .inl (live.accounts.now keyless.legal).1
  have other := (CachePorts.ic_tick live.accounts.linked keyless.legal.ports
    live.accounts.icTag now).other
  apply System.remaining_tick live.accounts.keyed keyless.silent live.popped
  · apply other
    rw [MemorySystem.icPhase, if_pos (show (t.ports.step inputs).system.ic.pState = .e from next)]
    simp
  · exact reach_of_low waits low
  · exact (live.step keyless).room

theorem Live.dc_reading (live : t.Live) (keyless : t.Keyless inputs)
    (state : t.ports.system.dc.pState = .e) (next : (t.step inputs).ports.system.dc.pState = .e) :
    (t.step inputs).ports.system.sys.remaining DCache.readTag + 1 ≤
      t.ports.system.sys.remaining DCache.readTag +
        (t.ports.system.sys.unanswered DCache.readTag inputs.events).toNat := by
  have waits := live.accounts.dc
  rw [MemorySystem.dcPhase, if_pos state] at waits
  have low : t.ports.system.dc.pCounter.toNat < 8 := by
    by_contra high
    have full : t.ports.system.dc.pCounter = 8 := by
      apply BitVec.eq_of_toNat_eq
      change t.ports.system.dc.pCounter.toNat = 8
      have bound := waits.1
      omega
    have silent : t.ports.system.dc.beat (t.ports.system.dcResponse inputs.events) = false := by
      by_contra beat
      rw [Bool.not_eq_false] at beat
      obtain ⟨rest, queue⟩ := MemorySystem.dc_front beat
      rw [CachePorts.dcTag live.accounts.linked.data state] at queue
      exact high (waits.2.front queue).1
    have next' : t.ports.system.dc.nState inputs.dc (t.ports.system.dcResponse inputs.events) = .e :=
      next
    simp [DCache.Regs.nState, state, silent, full] at next'
  have now : t.ports.system.sys.MayWait DCache.readTag inputs.dc.lineAddr t.dcRam
      t.ports.system.dcPhase := .inl (live.accounts.now keyless.legal).2
  have other := (CachePorts.dc_tick live.accounts.linked keyless.legal.ports
    live.accounts.icTag now).other
  apply System.remaining_tick live.accounts.keyed keyless.silent live.popped
  · apply other
    rw [MemorySystem.dcPhase, if_pos (show (t.ports.step inputs).system.dc.pState = .e from next)]
    simp
  · exact reach_of_low waits low
  · exact (live.step keyless).room

/-! ### Every cycle counts -/

theorem Live.icLeft_step (live : t.Live) (keyless : t.Keyless inputs)
    (busy : t.ports.system.ic.pState ≠ .a) (busy' : (t.step inputs).ports.system.ic.pState ≠ .a) :
    (t.step inputs).ports.system.icLeft (t.step inputs).ports.ic + 1 ≤
      t.ports.system.icLeft t.ports.ic + (t.ports.system.icKept inputs.events).toNat := by
  have same : inputs.ic = t.ports.ic := keyless.legal.ports.icHeld busy
  have dcPort := (live.accounts.linked.now keyless.legal.ports).2.2
  have dcPort' := (live.accounts.linked.step keyless.legal.ports).dcPort
  cases state : t.ports.system.ic.pState with
  | a => exact absurd state busy
  | b =>
      have next : (t.step inputs).ports.system.ic.pState =
          if t.ports.system.ic.hit t.ports.ic then .a else .d := by
        change t.ports.system.ic.nState inputs.ic _ = _
        rw [same, ICache.Regs.nState, state]
      cases found : t.ports.system.ic.hit t.ports.ic with
      | true => exact absurd (next.trans (by rw [found]; rfl)) busy'
      | false =>
          rw [found, if_neg (by decide)] at next
          have off : (t.step inputs).ports.system.ic.pReqcyc = false := by
            change t.ports.system.ic.requests _ = false
            simp [ICache.Regs.requests, state]
          simp [MemorySystem.icLeft, next, off, state, found]
  | c => exact absurd state live.reads
  | d =>
      have here : t.ports.system.icKept inputs.events = t.ports.system.refused inputs.events := by
        rw [MemorySystem.icKept, state]
      have left : t.ports.system.icLeft t.ports.ic =
          if t.ports.system.ic.pReqcyc then 20 + t.ports.system.icWait else 31 := by
        rw [MemorySystem.icLeft, state]
      rw [here, left]
      cases ack : (t.ports.system.icResponse inputs.events).reqack with
      | true =>
          have granted := (MemorySystem.icResponse_reqack_iff.mp ack).1
          have next : (t.step inputs).ports.system.ic.pState = .e := by
            change t.ports.system.ic.nState inputs.ic _ = .e
            simp [ICache.Regs.nState, state, ack]
          have rest := System.remaining_le ICache.readTag (live.step keyless).room
          rw [if_pos (MemorySystem.bus_of_ic granted).1, MemorySystem.icLeft, next]
          dsimp only
          omega
      | false =>
          have next : (t.step inputs).ports.system.ic.pState = .d := by
            change t.ports.system.ic.nState inputs.ic _ = .d
            simp [ICache.Regs.nState, state, ack]
          have on : (t.step inputs).ports.system.ic.pReqcyc = true := by
            change t.ports.system.ic.requests _ = true
            simp [ICache.Regs.requests, state, ack]
          have later : (t.step inputs).ports.system.icLeft (t.step inputs).ports.ic =
              20 + (t.step inputs).ports.system.icWait := by
            rw [MemorySystem.icLeft, next, on]
            rfl
          rw [later]
          by_cases granted : t.ports.system.grant = .ic
          · have granted' : (t.step inputs).ports.system.grant = .ic :=
              MemorySystem.ic_grant_step granted on
            have kept : t.ports.system.refused inputs.events = true := by
              by_contra taken
              rw [Bool.not_eq_true] at taken
              rw [MemorySystem.ic_ack_of_granted granted taken] at ack
              cases ack
            rw [if_pos (MemorySystem.bus_of_ic granted).1, kept,
              MemorySystem.icWait_of_ic granted, MemorySystem.icWait_of_ic granted']
            rfl
          · have bound : (t.step inputs).ports.system.icWait ≤ 10 := MemorySystem.icWait_le dcPort'
            have wait : (t.step inputs).ports.system.icWait + 1 ≤
                t.ports.system.icWait + (t.ports.system.refused inputs.events).toNat :=
              MemorySystem.icWait_step dcPort granted on
            split
            · omega
            · omega
  | e =>
      have here : t.ports.system.icKept inputs.events =
          t.ports.system.sys.unanswered ICache.readTag inputs.events := by
        rw [MemorySystem.icKept, state]
      have left : t.ports.system.icLeft t.ports.ic =
          t.ports.system.sys.remaining ICache.readTag := by
        rw [MemorySystem.icLeft, state]
      rw [here, left]
      by_cases next : (t.step inputs).ports.system.ic.pState = .e
      · rw [MemorySystem.icLeft, next]
        exact live.ic_reading keyless state next
      · have next' : (t.step inputs).ports.system.ic.pState = .b := by
          have moves : t.ports.system.ic.nState inputs.ic
              (t.ports.system.icResponse inputs.events) ≠ .e := next
          change t.ports.system.ic.nState inputs.ic _ = .b
          simp only [ICache.Regs.nState, state] at moves ⊢
          split at moves <;> split at moves <;> simp_all
        have hit : (t.step inputs).ports.system.ic.hit (t.step inputs).ports.ic = true := by
          change (t.ports.system.ic.tagSram.mem (ICache.Regs.set inputs.ic) ==
            ICache.tag inputs.ic.lineAddr) = true
          rw [same, live.claimed (.inl state), beq_self_eq_true]
        have rest := System.two_le_remaining t.ports.system.sys ICache.readTag
        rw [MemorySystem.icLeft, next']
        dsimp only
        rw [hit, if_pos rfl]
        omega

theorem icLeft_le (live : t.Live) : t.ports.system.icLeft t.ports.ic ≤ 32 := by
  have wait := MemorySystem.icWait_le live.accounts.linked.dcPort
  have rest := System.remaining_le ICache.readTag live.room
  rw [MemorySystem.icLeft]
  split
  · omega
  · split <;> omega
  · omega
  · split <;> omega
  · omega

/-- During a write-back: the words that are left, and the wait for the bus before the first. -/
theorem Live.dcLeft_of_evict (live : t.Live) (keyless : t.Keyless inputs)
    (state : t.ports.system.dc.pState = .c)
    (wait : t.ports.system.grant ≠ .dc → t.ports.system.dc.pReqcyc = true →
      (t.step inputs).ports.system.dc.pReqcyc = true →
      (t.step inputs).ports.system.dcWait + 1 ≤
        t.ports.system.dcWait + (t.ports.system.refused inputs.events).toNat) :
    (t.step inputs).ports.system.dcLeft (t.step inputs).ports.dc + 1 ≤
      t.ports.system.dcLeft t.ports.dc + (t.ports.system.refused inputs.events).toNat := by
  have dcPort := (live.accounts.linked.now keyless.legal.ports).2.2
  have dcPort' := (live.accounts.linked.step keyless.legal.ports).dcPort
  have bound := MemorySystem.dcWait_le (t.step inputs).ports.system
  have left : t.ports.system.dcLeft t.ports.dc = if t.ports.system.dc.pCounter = 0 then 35
      else 33 - t.ports.system.dc.pCounter.toNat + t.ports.system.dcWait := by
    rw [MemorySystem.dcLeft, state]
  have left' : ∀ n, (t.step inputs).ports.system.dc.pState = .c →
      (t.step inputs).ports.system.dc.pCounter.toNat = n + 1 →
      (t.step inputs).ports.system.dcLeft (t.step inputs).ports.dc =
        33 - (n + 1) + (t.step inputs).ports.system.dcWait := by
    intro n next counter
    rw [MemorySystem.dcLeft, next]
    dsimp only
    rw [if_neg (fun zero => by simp [zero] at counter), counter]
  have on_of_counter : ∀ n, (t.step inputs).ports.system.dc.pState = .c →
      (t.step inputs).ports.system.dc.pCounter.toNat = n + 1 →
      (t.step inputs).ports.system.dc.pReqcyc = true := by
    intro n next counter
    cases dcPort' with
    | off _ rest =>
        have zero : (t.step inputs).ports.system.dc.pCounter = 0 := rest next
        simp [zero] at counter
    | asks other =>
        have clash : (t.step inputs).ports.system.dc.pState = .d := other
        rw [next] at clash
        cases clash
    | sends _ _ _ _ word => exact congrArg BusRequest.reqcyc word
  rw [left]
  by_cases zero : t.ports.system.dc.pCounter = 0
  · have next : (t.step inputs).ports.system.dc.pState = .c := by
      change t.ports.system.dc.nState inputs.dc _ = .c
      simp [DCache.Regs.nState, state, zero]
    have counter : (t.step inputs).ports.system.dc.pCounter.toNat = 0 + 1 := by
      change (t.ports.system.dc.nCounter inputs.dc _).toNat = 1
      simp [DCache.Regs.nCounter, state, zero]
    rw [if_pos zero, left' 0 next counter]
    omega
  · rw [if_neg zero]
    cases dcPort with
    | off _ rest => exact absurd (rest state) zero
    | asks other => rw [state] at other; cases other
    | sends _ k counter inside word =>
        have on : t.ports.system.dc.pReqcyc = true := congrArg BusRequest.reqcyc word
        rw [DCache.Regs.length_writeBackWords] at inside
        cases ack : (t.ports.system.dcResponse inputs.events).reqack with
        | true =>
            have granted := (MemorySystem.dcResponse_reqack_iff.mp ack).1
            obtain ⟨more, last⟩ := DCache.Regs.step_of_ack (p := inputs.dc) state counter ack
            by_cases below : k < 8
            · obtain ⟨next, counter'⟩ := more below
              have on' := on_of_counter _ next counter'
              have granted' : (t.step inputs).ports.system.grant = .dc :=
                MemorySystem.grant_step granted on'
              rw [left' _ next counter', MemorySystem.dcWait_of_dc granted', counter]
              omega
            · have next : (t.step inputs).ports.system.dc.pState = .d := last below
              have off : (t.step inputs).ports.system.dc.pReqcyc = false :=
                DCache.Regs.off_of_last state counter ack below
              rw [MemorySystem.dcLeft, next, off, counter]
              dsimp only
              rw [if_neg (by decide)]
              omega
        | false =>
            have next : (t.step inputs).ports.system.dc.pState = .c := by
              change t.ports.system.dc.nState inputs.dc _ = .c
              simp [DCache.Regs.nState, state, ack]
            have counter' : (t.step inputs).ports.system.dc.pCounter.toNat = k + 1 := by
              change (t.ports.system.dc.nCounter inputs.dc _).toNat = k + 1
              simp only [DCache.Regs.nCounter, state, if_neg zero, ack, Bool.false_eq_true,
                false_and, if_false, counter]
            have on' := on_of_counter _ next counter'
            rw [left' _ next counter', counter]
            by_cases granted : t.ports.system.grant = .dc
            · have granted' : (t.step inputs).ports.system.grant = .dc :=
                MemorySystem.grant_step granted on'
              have kept : t.ports.system.refused inputs.events = true := by
                by_contra taken
                rw [Bool.not_eq_true] at taken
                rw [MemorySystem.dc_ack_of_granted granted taken] at ack
                cases ack
              rw [kept, MemorySystem.dcWait_of_dc granted, MemorySystem.dcWait_of_dc granted']
              simp
            · have nearer := wait granted on on'
              omega

theorem Live.dcLeft_step (live : t.Live) (keyless : t.Keyless inputs)
    (busy : t.ports.system.dc.pState ≠ .a) (busy' : (t.step inputs).ports.system.dc.pState ≠ .a) :
    (t.step inputs).ports.system.dcLeft (t.step inputs).ports.dc + 1 ≤
      t.ports.system.dcLeft t.ports.dc + (t.ports.system.dcKept inputs.events).toNat := by
  have same : inputs.dc = t.ports.dc := keyless.legal.ports.dcHeld busy
  have wait : t.ports.system.grant ≠ .dc → t.ports.system.dc.pReqcyc = true →
      (t.step inputs).ports.system.dc.pReqcyc = true →
      (t.step inputs).ports.system.dcWait + 1 ≤
        t.ports.system.dcWait + (t.ports.system.refused inputs.events).toNat :=
    fun elsewhere on on' => MemorySystem.dcWait_step live.owner on elsewhere on'
  have bound := MemorySystem.dcWait_le (t.step inputs).ports.system
  cases state : t.ports.system.dc.pState with
  | a => exact absurd state busy
  | b =>
      have next : (t.step inputs).ports.system.dc.pState =
          if t.ports.system.dc.hit t.ports.dc then .a
          else if t.ports.system.dc.dirtySram.readData = 1 then .c else .d := by
        change t.ports.system.dc.nState inputs.dc _ = _
        rw [same, DCache.Regs.nState, state]
      cases found : t.ports.system.dc.hit t.ports.dc with
      | true => exact absurd (next.trans (by rw [found]; rfl)) busy'
      | false =>
          have now : t.ports.system.dcLeft t.ports.dc = 36 := by
            rw [MemorySystem.dcLeft, state]
            simp [found]
          rw [found, if_neg (by decide)] at next
          rw [now]
          by_cases dirty : t.ports.system.dc.dirtySram.readData = 1
          · have counter : (t.step inputs).ports.system.dc.pCounter = 0 := by
              change t.ports.system.dc.nCounter inputs.dc _ = 0
              rw [same, DCache.Regs.nCounter, state]
              simp [found, dirty]
            rw [if_pos dirty] at next
            rw [MemorySystem.dcLeft, next]
            dsimp only
            rw [if_pos counter]
            omega
          · have off : (t.step inputs).ports.system.dc.pReqcyc = false :=
              DCache.Regs.step_off (.inr state)
            rw [if_neg dirty] at next
            rw [MemorySystem.dcLeft, next, off]
            dsimp only
            rw [if_neg (by decide)]
            omega
  | c =>
      have here : t.ports.system.dcKept inputs.events = t.ports.system.refused inputs.events := by
        rw [MemorySystem.dcKept, state]
      rw [here]
      exact live.dcLeft_of_evict keyless state wait
  | d =>
      have here : t.ports.system.dcKept inputs.events = t.ports.system.refused inputs.events := by
        rw [MemorySystem.dcKept, state]
      have left : t.ports.system.dcLeft t.ports.dc =
          if t.ports.system.dc.pReqcyc then 20 + t.ports.system.dcWait else 23 := by
        rw [MemorySystem.dcLeft, state]
      rw [here, left]
      cases ack : (t.ports.system.dcResponse inputs.events).reqack with
      | true =>
          have granted := (MemorySystem.dcResponse_reqack_iff.mp ack).1
          have next : (t.step inputs).ports.system.dc.pState = .e := by
            change t.ports.system.dc.nState inputs.dc _ = .e
            simp [DCache.Regs.nState, state, ack]
          have rest := System.remaining_le DCache.readTag (live.step keyless).room
          rw [if_pos (show t.ports.system.dc.pReqcyc = true from (Arbiter.grant_dc granted).1),
            MemorySystem.dcLeft, next]
          dsimp only
          omega
      | false =>
          have next : (t.step inputs).ports.system.dc.pState = .d := by
            change t.ports.system.dc.nState inputs.dc _ = .d
            simp [DCache.Regs.nState, state, ack]
          have on : (t.step inputs).ports.system.dc.pReqcyc = true := by
            change (t.ports.system.dc.nBus inputs.dc _).reqcyc = true
            simp [DCache.Regs.nBus, DCache.Regs.requests, state, ack]
          have later : (t.step inputs).ports.system.dcLeft (t.step inputs).ports.dc =
              20 + (t.step inputs).ports.system.dcWait := by
            rw [MemorySystem.dcLeft, next, on]
            rfl
          rw [later]
          by_cases granted : t.ports.system.grant = .dc
          · have granted' : (t.step inputs).ports.system.grant = .dc :=
              MemorySystem.grant_step granted on
            have kept : t.ports.system.refused inputs.events = true := by
              by_contra taken
              rw [Bool.not_eq_true] at taken
              rw [MemorySystem.dc_ack_of_granted granted taken] at ack
              cases ack
            rw [if_pos (show t.ports.system.dc.pReqcyc = true from (Arbiter.grant_dc granted).1),
              kept, MemorySystem.dcWait_of_dc granted, MemorySystem.dcWait_of_dc granted']
            rfl
          · split
            · rename_i asked
              have nearer := wait granted asked on
              omega
            · omega
  | e =>
      have here : t.ports.system.dcKept inputs.events =
          t.ports.system.sys.unanswered DCache.readTag inputs.events := by
        rw [MemorySystem.dcKept, state]
      have left : t.ports.system.dcLeft t.ports.dc =
          t.ports.system.sys.remaining DCache.readTag := by
        rw [MemorySystem.dcLeft, state]
      rw [here, left]
      by_cases next : (t.step inputs).ports.system.dc.pState = .e
      · rw [MemorySystem.dcLeft, next]
        exact live.dc_reading keyless state next
      · have next' : (t.step inputs).ports.system.dc.pState = .b := by
          have moves : t.ports.system.dc.nState inputs.dc
              (t.ports.system.dcResponse inputs.events) ≠ .e := next
          change t.ports.system.dc.nState inputs.dc _ = .b
          simp only [DCache.Regs.nState, state] at moves ⊢
          split at moves <;> split at moves <;> simp_all
        have claimed : t.ports.system.dc.tagSram.mem (set t.ports.dc) =
            ICache.tag t.ports.dc.lineAddr := by
          cases live.accounts.linked.data.phase with
          | refill _ _ _ claimed => exact claimed.tag
          | idle other => rw [state] at other; cases other
          | lookup other => rw [state] at other; cases other
          | evict other => rw [state] at other; cases other
          | ask other => rw [state] at other; cases other
        have hit : (t.step inputs).ports.system.dc.hit (t.step inputs).ports.dc = true := by
          change (t.ports.system.dc.tagSram.mem (set inputs.dc) ==
            ICache.tag inputs.dc.lineAddr) = true
          rw [same, claimed, beq_self_eq_true]
        have rest := System.two_le_remaining t.ports.system.sys DCache.readTag
        rw [MemorySystem.dcLeft, next']
        dsimp only
        rw [hit, if_pos rfl]
        omega

theorem dcLeft_le (live : t.Live) : t.ports.system.dcLeft t.ports.dc ≤ 36 := by
  have wait := MemorySystem.dcWait_le t.ports.system
  have rest := System.remaining_le DCache.readTag live.room
  rw [MemorySystem.dcLeft]
  split
  · omega
  · split <;> omega
  · split
    · omega
    · rename_i positive
      have low : t.ports.system.dc.pCounter.toNat ≠ 0 := by
        intro zero
        exact positive (BitVec.eq_of_toNat_eq zero)
      omega
  · split <;> omega
  · omega

theorem live_step (t : CacheReads) (inputs : Inputs) (live : t.Live) (keyless : t.Keyless inputs) :
    (step t inputs).Live := live.step keyless

theorem live_run (ram : Ram) {inputs : List Inputs}
    (keyless : Runs.Guarded step Keyless (start ram) inputs) :
    (Runs.run step (start ram) inputs).Live :=
  (keyless.always live_step (live_start ram)).last

/-- Every access of the instruction cache is acknowledged: from any reachable state in
which it is busy, after at most 32 cycles in which the memory does not keep it waiting. -/
theorem fetch_answered (ram : Ram) (earlier inputs : List Inputs)
    (keyless : Runs.Guarded step Keyless (start ram) (earlier ++ inputs))
    (busy : (Runs.run step (start ram) earlier).IcBusy)
    (long : 32 + Runs.count step icKept (Runs.run step (start ram) earlier) inputs <
      inputs.length) :
    ∃ first input second, inputs = first ++ input :: second ∧
      Runs.Always step IcBusy (Runs.run step (start ram) earlier) first ∧
      (Runs.run step (start ram) (earlier ++ (first ++ [input]))).ports.system.ic.pAck = true := by
  obtain ⟨before, after⟩ := Runs.guarded_append.mp keyless
  have live := live_run ram before
  have left : (Runs.run step (start ram) earlier).icLeft ≤ 32 := icLeft_le live
  have descends : ∀ t inputs, Live t → Keyless t inputs → IcBusy t → IcBusy (step t inputs) →
      icLeft (step t inputs) + 1 ≤ icLeft t + (icKept t inputs).toNat :=
    fun _ _ live keyless busy busy' => live.icLeft_step keyless busy busy'
  obtain ⟨first, input, second, split, always, idle⟩ :=
    after.exit live_step descends live busy (by omega)
  refine ⟨first, input, second, split, always, ?_⟩
  rw [Runs.run_append, Runs.run_append]
  rw [Runs.run_append, IcBusy, not_not] at idle
  exact (FetchPath.ic_idle_iff always.last _ _).1.mp idle

/-- A fetch that misses: its read completes after eight cycles. -/
theorem fetch_answered_miss :
    ∃ first input second,
      CacheHistory.holding ⟨true, 0, 1⟩ ⟨false, 0, 0, 0, true, 0, 0, 3⟩
        (List.replicate 8 (.completing []) ++ .completing [0] ::
          List.replicate 40 (.completing [])) = first ++ input :: second ∧
      Runs.Always step IcBusy
        (Runs.run step (start (Ram.ofWords [1, 2]))
          (CacheHistory.holding ⟨true, 0, 1⟩ ⟨false, 0, 0, 0, true, 0, 0, 3⟩ [.completing []]))
        first ∧
      (Runs.run step (start (Ram.ofWords [1, 2]))
        (CacheHistory.holding ⟨true, 0, 1⟩ ⟨false, 0, 0, 0, true, 0, 0, 3⟩ [.completing []] ++
          (first ++ [input]))).ports.system.ic.pAck = true :=
  fetch_answered _ _ _ (by decide +kernel) (by decide +kernel) (by decide +kernel)

/-- Every access of the data cache is acknowledged, also while the instruction cache reads
through the same queue: after at most 36 cycles in which the memory does not keep the data
cache waiting. -/
theorem access_answered (ram : Ram) (earlier inputs : List Inputs)
    (keyless : Runs.Guarded step Keyless (start ram) (earlier ++ inputs))
    (busy : (Runs.run step (start ram) earlier).DcBusy)
    (long : 36 + Runs.count step dcKept (Runs.run step (start ram) earlier) inputs <
      inputs.length) :
    ∃ first input second, inputs = first ++ input :: second ∧
      Runs.Always step DcBusy (Runs.run step (start ram) earlier) first ∧
      (Runs.run step (start ram) (earlier ++ (first ++ [input]))).ports.system.dc.pAck = true := by
  obtain ⟨before, after⟩ := Runs.guarded_append.mp keyless
  have live := live_run ram before
  have left : (Runs.run step (start ram) earlier).dcLeft ≤ 36 := dcLeft_le live
  have descends : ∀ t inputs, Live t → Keyless t inputs → DcBusy t → DcBusy (step t inputs) →
      dcLeft (step t inputs) + 1 ≤ dcLeft t + (dcKept t inputs).toNat :=
    fun _ _ live keyless busy busy' => live.dcLeft_step keyless busy busy'
  obtain ⟨first, input, second, split, always, idle⟩ :=
    after.exit live_step descends live busy (by omega)
  refine ⟨first, input, second, split, always, ?_⟩
  rw [Runs.run_append, Runs.run_append]
  rw [Runs.run_append, DcBusy, not_not] at idle
  exact (DCache.Regs.step_idle_iff always.last _ _).mp idle

/-- Both caches miss: the fetched line arrives first, and then the data. -/
theorem access_answered_both_miss :
    ∃ first input second,
      CacheHistory.holding ⟨true, 0, 1⟩ ⟨true, 2, 0, 0, true, 0, 0, 3⟩
        (List.replicate 16 (.completing []) ++ .completing [0] ::
          List.replicate 3 (.completing []) ++ .completing [128] ::
            List.replicate 50 (.completing [])) = first ++ input :: second ∧
      Runs.Always step DcBusy
        (Runs.run step (start (Ram.ofWords [1, 2]))
          (CacheHistory.holding ⟨true, 0, 1⟩ ⟨true, 2, 0, 0, true, 0, 0, 3⟩ [.completing []]))
        first ∧
      (Runs.run step (start (Ram.ofWords [1, 2]))
        (CacheHistory.holding ⟨true, 0, 1⟩ ⟨true, 2, 0, 0, true, 0, 0, 3⟩ [.completing []] ++
          (first ++ [input]))).ports.system.dc.pAck = true :=
  access_answered _ _ _ (by decide +kernel) (by decide +kernel) (by decide +kernel)

end

end CacheReads

end Sparcy
