import Sparcy.ResponseQueue
import Sparcy.Library.Potential

/-!
# Reads that are never answered

Without a condition on the reads of the two caches a read may be ignored, and with the
keyboard an interrupt may stop the response queue.  Neither is made up for later.
-/

namespace Sparcy

namespace System

/-- The beats in front of the first interrupt. -/
def beforeIrq (s : System) : Nat := (s.txQueue.takeWhile fun beat => beat.2 != IRQ).length

theorem takeWhile_append_of_mem {queue : List Beat} (more : List Beat)
    (irq : ∃ beat ∈ queue, beat.2 = IRQ) :
    (queue ++ more).takeWhile (fun beat => beat.2 != IRQ) =
      queue.takeWhile fun beat => beat.2 != IRQ := by
  induction queue with
  | nil => obtain ⟨beat, member, -⟩ := irq; cases member
  | cons first rest induction =>
      rw [List.cons_append, List.takeWhile_cons, List.takeWhile_cons]
      split
      · rename_i other
        obtain ⟨beat, member, tag⟩ := irq
        rcases List.mem_cons.mp member with rfl | member
        · simp [tag] at other
        · rw [induction ⟨beat, member, tag⟩]
      · rfl

theorem length_takeWhile_irq (queue more : List Beat) (interrupt : Beat) (irq : interrupt.2 = IRQ) :
    ((queue ++ interrupt :: more).takeWhile fun beat => beat.2 != IRQ).length ≤ queue.length := by
  induction queue with
  | nil => simp [irq]
  | cons first rest induction =>
      rw [List.cons_append, List.takeWhile_cons, List.length_cons]
      split
      · exact Nat.succ_le_succ induction
      · exact Nat.zero_le _

section

variable {s : System} {tag other : BitVec 13} {l : BitVec 58} {ram : Ram} {taken : Bool}
  {phase : ReadPhase} {events : DramEvents} {respack : Bool} {bus : BusRequest}

/-- A read that is not completed in a tick is pending after it. -/
theorem findTag_update_of_kept {addr : BitVec 64} (found : s.findTag addr = some tag)
    (missing : addr ∉ events.completed) : (s.update events).findTag addr = some tag := by
  have start : (s.afterKey events).findTag addr = some tag := by
    rw [findTag, (afterKey_frame events).1]
    exact found
  rw [update_eq]
  generalize s.afterKey events = s' at start
  generalize events.completed = addrs at missing
  induction addrs generalizing s' with
  | nil => exact start
  | cons first addrs induction =>
      rw [List.mem_cons, not_or] at missing
      refine induction _ ?_ missing.2
      rw [dramReadComplete]
      cases here : s'.findTag first with
      | none => exact start
      | some _ =>
          rw [findTag] at start ⊢
          exact (lookup_filter_ne _ _ _).trans (by rw [if_neg missing.1, start])

/-- A read that is placed while its line is pending under another tag leaves nothing owed. -/
theorem MayWait.ignored (waits : s.MayWait tag l ram phase) (keyed : s.Keyed) (known : tag ≠ IRQ)
    (memory : cmd tag = MEMORY) (next : ReadPhase.Next taken phase .asked)
    (tick : s.TickFor tag l taken phase .asked events respack bus)
    (found : s.findTag (Ram.lineAddress l) = some other) (different : other ≠ tag)
    (missing : Ram.lineAddress l ∉ events.completed) :
    (s.tick events respack bus).Quiet tag := by
  have idle : taken = false ∧ s.Quiet tag := by
    cases next with
    | ask =>
        rcases waits with quiet | ⟨quiet, -⟩
        · exact ⟨rfl, quiet⟩
        · exact ⟨rfl, quiet⟩
    | refused =>
        rcases waits with pending | ⟨quiet, -⟩
        · have own := findTag_of_mem_readsFor keyed
            (show Ram.lineAddress l ∈ s.readsFor tag by simp [pending.1])
          rw [found] at own
          exact absurd (Option.some.inj own) different
        · exact ⟨rfl, quiet⟩
  obtain ⟨rfl, quiet⟩ := idle
  obtain ⟨word, first⟩ := tick.own rfl
  have still : ((s.update events).pop respack).findTag (Ram.lineAddress l) = some other := by
    rw [findTag_pop]
    exact findTag_update_of_kept found missing
  exact (quiet.served keyed known tick).request_ignored word memory
    ((rxCount_served s events respack).trans first) still

/-- A tick takes at most one of the beats in front of the first interrupt, and the interrupt
stays. -/
theorem beforeIrq_tick (irq : ∃ beat ∈ (s.afterKey events).txQueue, beat.2 = IRQ)
    (popped : respack = true → ∃ beat tag rest, s.txQueue = (beat, tag) :: rest ∧ tag ≠ IRQ)
    (memory : bus.reqcyc = true → cmd bus.reqtag = MEMORY) :
    (s.tick events respack bus).beforeIrq + respack.toNat ≤ (s.afterKey events).beforeIrq ∧
      ∃ beat ∈ (s.tick events respack bus).txQueue, beat.2 = IRQ := by
  have queue : (s.tick events respack bus).txQueue = ((s.update events).pop respack).txQueue :=
    txQueue_request memory
  obtain ⟨more, later⟩ : ∃ more, (s.update events).txQueue = (s.afterKey events).txQueue ++ more :=
    txQueue_update (s := s.afterKey events) { events with key := false }
  rw [beforeIrq, beforeIrq, queue]
  cases respack with
  | false =>
      change _ + 0 ≤ _ ∧ ∃ beat ∈ (s.update events).txQueue, beat.2 = IRQ
      obtain ⟨beat, member, tag⟩ := irq
      refine ⟨?_, beat, by rw [later]; exact List.mem_append_left _ member, tag⟩
      change ((s.update events).txQueue.takeWhile _).length + 0 ≤ _
      rw [later, takeWhile_append_of_mem more ⟨beat, member, tag⟩]
      exact Nat.le_refl _
  | true =>
      obtain ⟨beat, tag, rest, front, other⟩ := popped rfl
      obtain ⟨behind, after⟩ : ∃ behind, (s.afterKey events).txQueue = (beat, tag) :: behind := by
        rw [afterKey]
        split
        · exact ⟨rest ++ [(1, IRQ)], by rw [front]; rfl⟩
        · exact ⟨rest, front⟩
      have irq' : ∃ beat ∈ behind, beat.2 = IRQ := by
        obtain ⟨interrupt, member, own⟩ := irq
        rw [after] at member
        rcases List.mem_cons.mp member with rfl | member
        · exact absurd own other
        · exact ⟨interrupt, member, own⟩
      have tail : ((s.update events).pop true).txQueue = behind ++ more := by
        change (s.update events).txQueue.tail = _
        rw [later, after]
        rfl
      obtain ⟨interrupt, member, own⟩ := irq'
      refine ⟨?_, interrupt, by rw [tail]; exact List.mem_append_left _ member, own⟩
      rw [tail, after, takeWhile_append_of_mem more ⟨interrupt, member, own⟩,
        List.takeWhile_cons_of_pos (by simpa using other), List.length_cons]
      exact Nat.le_refl _

end

end System

namespace CachePorts

open MemorySystem (Inputs)

/-- The reads of both caches are placed or ignored. -/
structure Placed (h : CachePorts) : Prop where
  linked : h.Linked
  keyed : h.system.sys.Keyed
  icTag : h.system.ic.pState = .e → h.system.ic.pReqtag = ICache.readTag
  ic : ∃ ram, h.system.sys.MayWait ICache.readTag h.ic.lineAddr ram h.system.icPhase
  dc : ∃ ram, h.system.sys.MayWait DCache.readTag h.dc.lineAddr ram h.system.dcPhase

theorem placed_start (ram : Ram) : (start ram).Placed where
  linked := linked_start ram
  keyed := List.nodup_nil
  icTag := by
    intro state
    cases state
  ic := ⟨ram, .inl ⟨rfl, rfl⟩⟩
  dc := ⟨ram, .inl ⟨rfl, rfl⟩⟩

/-- The memory owes a cache less than the rest of the line that it reads. -/
def icLost (h : CachePorts) : Prop :=
  h.system.ic.pState = .e ∧
    h.system.sys.undelivered ICache.readTag + h.system.ic.pCounter.toNat < 8

def dcLost (h : CachePorts) : Prop :=
  h.system.dc.pState = .e ∧
    h.system.sys.undelivered DCache.readTag + h.system.dc.pCounter.toNat < 8

/-- One of the caches takes a beat. -/
def takes (h : CachePorts) (inputs : Inputs) : Bool :=
  (h.step inputs).system.ic.pRespack || (h.step inputs).system.dc.pRespack

section

variable {h : CachePorts} {inputs : Inputs}

theorem Placed.now (placed : h.Placed) (legal : h.Legal inputs) :
    (∃ ram, h.system.sys.MayWait ICache.readTag inputs.ic.lineAddr ram h.system.icPhase) ∧
      ∃ ram, h.system.sys.MayWait DCache.readTag inputs.dc.lineAddr ram h.system.dcPhase := by
  obtain ⟨icRam, ic⟩ := placed.ic
  obtain ⟨dcRam, dc⟩ := placed.dc
  constructor
  · refine ⟨icRam, ?_⟩
    by_cases idle : h.system.ic.pState = .a
    · have off : h.system.ic.pReqcyc = false := by
        by_contra on
        rw [Bool.not_eq_false] at on
        have state := (placed.linked.icPort on).1
        rw [idle] at state
        cases state
      rw [MemorySystem.icPhase_of_off off (by simp [idle])] at ic ⊢
      exact ic
    · rw [legal.icHeld idle]
      exact ic
  · refine ⟨dcRam, ?_⟩
    by_cases idle : h.system.dc.pState = .a
    · rw [MemorySystem.dcPhase_of_elsewhere (by simp [idle]) (by simp [idle])] at dc ⊢
      exact dc
    · rw [legal.dcHeld idle]
      exact dc

theorem Placed.step (placed : h.Placed) (legal : h.Legal inputs) : (h.step inputs).Placed := by
  obtain ⟨tracked, icPort, -⟩ := placed.linked.now legal
  obtain ⟨⟨icRam, ic⟩, ⟨dcRam, dc⟩⟩ := placed.now legal
  obtain ⟨icNext, icTag⟩ := MemorySystem.icPhase_next inputs.dc inputs.events icPort placed.icTag ic
  have dcNext := MemorySystem.dcPhase_next inputs.ic inputs.dc inputs.events (dcTag tracked) dc
  have icTick := ic_tick placed.linked legal placed.icTag ic
  have dcTick := dc_tick placed.linked legal placed.icTag dc
  exact
    { linked := placed.linked.step legal
      keyed := placed.linked.keyed_step legal placed.keyed
      icTag := icTag
      ic := ⟨_, ic.tick placed.keyed (by decide) (by decide) (by decide) icNext icTick⟩
      dc := ⟨_, dc.tick placed.keyed (by decide) (by decide) (by decide) dcNext dcTick⟩ }

/-- A cache that is owed too little is owed nothing and has taken nothing. -/
theorem quiet_of_lost {s : System} {tag : BitVec 13} {l : BitVec 58} {ram : Ram} {k : Nat}
    (waits : s.MayWait tag l ram (.reading k)) (lost : s.undelivered tag + k < 8) :
    s.Quiet tag ∧ k = 0 := by
  rcases waits with ⟨low, owes⟩ | ⟨quiet, impossible | zero⟩
  · rw [owes.undelivered_eq] at lost
    omega
  · cases impossible
  · cases zero
    exact ⟨quiet, rfl⟩

/-- A lost read of the instruction cache stays lost. -/
theorem Placed.icLost_step (placed : h.Placed) (legal : h.Legal inputs) (lost : h.icLost) :
    (h.step inputs).icLost := by
  obtain ⟨⟨ram, waits⟩, -⟩ := placed.now legal
  obtain ⟨state, short⟩ := lost
  have tick := ic_tick placed.linked legal placed.icTag waits
  rw [MemorySystem.icPhase, if_pos state] at waits
  obtain ⟨quiet, zero⟩ := quiet_of_lost waits short
  have kept : h.system.ic.consumes (h.system.icResponse inputs.events) = false := by
    by_contra taken
    rw [Bool.not_eq_false] at taken
    obtain ⟨beat, rest, queue⟩ := MemorySystem.ic_front taken
    rw [placed.icTag state] at queue
    have none := quiet.1
    simp [System.beatsFor, queue] at none
  have silent : h.system.ic.beat (h.system.icResponse inputs.events) = false := by
    rw [ICache.Regs.consumes, state] at kept
    simpa using kept
  have empty : h.system.ic.pCounter = 0 := BitVec.eq_of_toNat_eq zero
  have next : (h.step inputs).system.ic.pState = .e := by
    change h.system.ic.nState inputs.ic _ = .e
    simp [ICache.Regs.nState, state, silent, empty]
  have counter : (h.step inputs).system.ic.pCounter = 0 := by
    change h.system.ic.nCounter _ = 0
    simp [ICache.Regs.nCounter, state, kept, empty]
  rw [kept] at tick
  have served := quiet.served placed.keyed (by decide) tick
  have other := tick.other (by rw [MemorySystem.icPhase, if_pos next]; simp)
  have quiet' : (h.step inputs).system.sys.Quiet ICache.readTag :=
    (System.quiet_iff_owes inputs.ic.lineAddr ram).mpr
      (((System.quiet_iff_owes inputs.ic.lineAddr ram).mp served).request_other other)
  refine ⟨next, ?_⟩
  rw [quiet'.undelivered_eq, counter]
  decide

theorem Placed.dcLost_step (placed : h.Placed) (legal : h.Legal inputs) (lost : h.dcLost) :
    (h.step inputs).dcLost := by
  obtain ⟨-, ⟨ram, waits⟩⟩ := placed.now legal
  obtain ⟨state, short⟩ := lost
  have tick := dc_tick placed.linked legal placed.icTag waits
  rw [MemorySystem.dcPhase, if_pos state] at waits
  obtain ⟨quiet, zero⟩ := quiet_of_lost waits short
  have kept : h.system.dc.consumes (h.system.dcResponse inputs.events) = false := by
    by_contra taken
    rw [Bool.not_eq_false, DCache.Regs.consumes, Bool.and_eq_true] at taken
    obtain ⟨rest, queue⟩ := MemorySystem.dc_front taken.2
    rw [dcTag placed.linked.data state] at queue
    have none := quiet.1
    simp [System.beatsFor, queue] at none
  have silent : h.system.dc.beat (h.system.dcResponse inputs.events) = false := by
    rw [DCache.Regs.consumes, state] at kept
    simpa using kept
  have empty : h.system.dc.pCounter = 0 := BitVec.eq_of_toNat_eq zero
  have next : (h.step inputs).system.dc.pState = .e := by
    change h.system.dc.nState inputs.dc _ = .e
    simp [DCache.Regs.nState, state, silent, empty]
  have counter : (h.step inputs).system.dc.pCounter = 0 := by
    change h.system.dc.nCounter inputs.dc _ = 0
    simp [DCache.Regs.nCounter, state, silent, empty]
  rw [kept] at tick
  have served := quiet.served placed.keyed (by decide) tick
  have other := tick.other (by rw [MemorySystem.dcPhase, if_pos next]; simp)
  have quiet' : (h.step inputs).system.sys.Quiet DCache.readTag :=
    (System.quiet_iff_owes inputs.dc.lineAddr ram).mpr
      (((System.quiet_iff_owes inputs.dc.lineAddr ram).mp served).request_other other)
  refine ⟨next, ?_⟩
  rw [quiet'.undelivered_eq, counter]
  decide

theorem placed_step (h : CachePorts) (inputs : Inputs) (placed : h.Placed)
    (legal : h.Legal inputs) : (step h inputs).Placed := placed.step legal

theorem placed_run (ram : Ram) {inputs : List Inputs}
    (legal : Runs.Guarded step Legal (start ram) inputs) :
    (Runs.run step (start ram) inputs).Placed :=
  (legal.always placed_step (placed_start ram)).last

/-- What a contended read has found. -/
theorem found_of_contended {tag : BitVec 13} {l : BitVec 58}
    (contends : h.contended inputs = true)
    (word : (h.step inputs).system.bus =
      { reqcyc := true, req := Ram.lineAddress l, reqtag := tag }) :
    System.isWrite tag = false ∧ ∃ other, h.system.sys.findTag (Ram.lineAddress l) = some other ∧
      other ≠ tag ∧ Ram.lineAddress l ∉ inputs.events.completed := by
  rw [contended, word] at contends
  cases found : h.system.sys.findTag (Ram.lineAddress l) with
  | none => simp [found] at contends
  | some other =>
      simp only [found, Option.any_some, Bool.and_eq_true, Bool.not_eq_true', bne_iff_ne,
        List.contains_eq_mem, decide_eq_false_iff_not] at contends
      exact ⟨contends.1.1.2, other, rfl, contends.1.2, contends.2⟩

/-- A contended read is accepted: the instruction cache waits for beats that it is not owed. -/
theorem Placed.icLost_of_contended (placed : h.Placed) (legal : h.Legal inputs)
    (contends : h.contended inputs = true) (granted : (h.step inputs).system.grant = .ic)
    {accept : Inputs} (legal' : (h.step inputs).Legal accept)
    (accepts : accept.events.accepts = true) : ((h.step inputs).step accept).icLost := by
  obtain ⟨⟨ram, waits⟩, -⟩ := placed.now legal
  have placed' := placed.step legal
  obtain ⟨⟨ram', waits'⟩, -⟩ := placed'.now legal'
  have icPort := (placed.linked.now legal).2.1
  obtain ⟨on, bus⟩ := Arbiter.grant_ic granted
  obtain ⟨state, shown⟩ := ICache.Regs.port_step _ _ _ on
  have state' : (h.step inputs).system.ic.pState = .d := state
  have asked : (h.step inputs).system.icPhase = .asked := by
    rw [MemorySystem.icPhase, if_neg (by simp [state']), if_pos granted]
  obtain ⟨-, other, found, different, missing⟩ := found_of_contended contends (bus.trans shown)
  have next := (MemorySystem.icPhase_next inputs.dc inputs.events icPort placed.icTag waits).1
  have tick := ic_tick placed.linked legal placed.icTag waits
  rw [show (h.system.step inputs.ic inputs.dc inputs.events).icPhase = .asked from asked] at next
  rw [asked] at tick
  have quiet := waits.ignored placed.keyed (by decide) (by decide) next tick found different missing
  have ack := MemorySystem.icResponse_reqack_iff.mpr ⟨granted, accepts⟩
  have later : ((h.step inputs).step accept).system.ic.pState = .e := by
    change (h.step inputs).system.ic.nState accept.ic _ = .e
    simp [ICache.Regs.nState, state', ack]
  have counter : ((h.step inputs).step accept).system.ic.pCounter = 0 := by
    change (h.step inputs).system.ic.nCounter _ = 0
    simp [ICache.Regs.nCounter, state', ack]
  have tick' := ic_tick placed'.linked legal' placed'.icTag waits'
  have kept : (h.step inputs).system.ic.consumes
      ((h.step inputs).system.icResponse accept.events) = false := by
    simp [ICache.Regs.consumes, state']
  rw [kept] at tick'
  have served := System.Quiet.served quiet placed'.keyed (by decide) tick'
  have other' := tick'.other (by rw [MemorySystem.icPhase, if_pos later]; simp)
  have quiet' : ((h.step inputs).step accept).system.sys.Quiet ICache.readTag :=
    (System.quiet_iff_owes accept.ic.lineAddr ram).mpr
      (((System.quiet_iff_owes accept.ic.lineAddr ram).mp served).request_other other')
  refine ⟨later, ?_⟩
  rw [quiet'.undelivered_eq, counter]
  decide

theorem Placed.dcLost_of_contended (placed : h.Placed) (legal : h.Legal inputs)
    (contends : h.contended inputs = true) (granted : (h.step inputs).system.grant = .dc)
    {accept : Inputs} (legal' : (h.step inputs).Legal accept)
    (accepts : accept.events.accepts = true) : ((h.step inputs).step accept).dcLost := by
  obtain ⟨-, ⟨ram, waits⟩⟩ := placed.now legal
  have placed' := placed.step legal
  obtain ⟨-, ⟨ram', waits'⟩⟩ := placed'.now legal'
  have tracked := (placed.linked.now legal).1
  obtain ⟨on, bus⟩ := Arbiter.grant_dc granted
  obtain ⟨state', shown⟩ : (h.step inputs).system.dc.pState = .d ∧
      (h.step inputs).system.dc.bus =
        { reqcyc := true, req := Ram.lineAddress inputs.dc.lineAddr, reqtag := DCache.readTag } := by
    rcases dc_word (placed.linked.step legal).dcPort on with read | ⟨-, write⟩
    · exact read
    · have shown : (h.step inputs).system.bus.reqtag = DCache.writeTag := by
        rw [MemorySystem.bus, bus]
        exact write
      rw [contended, shown] at contends
      simp only [Bool.and_eq_true, Bool.not_eq_true'] at contends
      exact absurd contends.1.1.2 (by decide)
  have asked : (h.step inputs).system.dcPhase = .asked := by
    rw [MemorySystem.dcPhase, if_neg (by simp [state']), if_pos ⟨state', granted⟩]
  obtain ⟨-, other, found, different, missing⟩ := found_of_contended contends (bus.trans shown)
  have next := MemorySystem.dcPhase_next inputs.ic inputs.dc inputs.events (dcTag tracked) waits
  have tick := dc_tick placed.linked legal placed.icTag waits
  rw [show (h.system.step inputs.ic inputs.dc inputs.events).dcPhase = .asked from asked] at next
  rw [asked] at tick
  have quiet := waits.ignored placed.keyed (by decide) (by decide) next tick found different missing
  have ack := MemorySystem.dcResponse_reqack_iff.mpr ⟨granted, accepts⟩
  have later : ((h.step inputs).step accept).system.dc.pState = .e := by
    change (h.step inputs).system.dc.nState accept.dc _ = .e
    simp [DCache.Regs.nState, state', ack]
  have counter : ((h.step inputs).step accept).system.dc.pCounter = 0 := by
    change (h.step inputs).system.dc.nCounter accept.dc _ = 0
    simp [DCache.Regs.nCounter, state', ack]
  have tick' := dc_tick placed'.linked legal' placed'.icTag waits'
  have kept : (h.step inputs).system.dc.consumes
      ((h.step inputs).system.dcResponse accept.events) = false := by
    simp [DCache.Regs.consumes, state']
  rw [kept] at tick'
  have served := System.Quiet.served quiet placed'.keyed (by decide) tick'
  have other' := tick'.other (by rw [MemorySystem.dcPhase, if_pos later]; simp)
  have quiet' : ((h.step inputs).step accept).system.sys.Quiet DCache.readTag :=
    (System.quiet_iff_owes accept.dc.lineAddr ram).mpr
      (((System.quiet_iff_owes accept.dc.lineAddr ram).mp served).request_other other')
  refine ⟨later, ?_⟩
  rw [quiet'.undelivered_eq, counter]
  decide

/-- The next reads that a lost read waits for never come. -/
theorem always_lost {inputs : List Inputs} (placed : h.Placed)
    (legal : Runs.Guarded step Legal h inputs) :
    (h.icLost → Runs.Always step (fun h => h.system.ic.pState = .e) h inputs) ∧
      (h.dcLost → Runs.Always step (fun h => h.system.dc.pState = .e) h inputs) := by
  constructor
  · intro lost
    have always : Runs.Always step (fun h => h.Placed ∧ h.icLost) h inputs :=
      legal.always (fun h inputs kept legal =>
        ⟨kept.1.step legal, kept.1.icLost_step legal kept.2⟩) ⟨placed, lost⟩
    exact always.mono fun h kept => kept.2.1
  · intro lost
    have always : Runs.Always step (fun h => h.Placed ∧ h.dcLost) h inputs :=
      legal.always (fun h inputs kept legal =>
        ⟨kept.1.step legal, kept.1.dcLost_step legal kept.2⟩) ⟨placed, lost⟩
    exact always.mono fun h kept => kept.2.1

/-- The cache that the arbiter connected is in `STATEE`, where it waits for beats. -/
def Reading (owner : Arbiter.Grant) (h : CachePorts) : Prop :=
  match owner with
  | .none => False
  | .ic => h.system.ic.pState = .e
  | .dc => h.system.dc.pState = .e

/-- A read that is placed while its line is pending for the other cache, and then
accepted, is never answered: the cache that sent it stays in `STATEE`. -/
theorem contended_read_blocks (ram : Ram) (earlier later : List Inputs) (ask accept : Inputs)
    (legal : Runs.Guarded step Legal (start ram) (earlier ++ ask :: accept :: later))
    (contends : (Runs.run step (start ram) earlier).contended ask = true)
    (accepts : accept.events.accepts = true) :
    Runs.Always step (Reading (Runs.run step (start ram) (earlier ++ [ask])).system.grant)
      (Runs.run step (start ram) (earlier ++ [ask, accept])) later := by
  obtain ⟨before, asks, accepted, after⟩ := Runs.guarded_append.mp legal
  have placed := placed_run ram before
  have placed' := (placed.step asks).step accepted
  obtain ⟨ic, dc⟩ := always_lost placed' after
  rw [Runs.run_append, Runs.run_append]
  change Runs.Always step
    (Reading ((Runs.run step (start ram) earlier).step ask).system.grant) _ later
  rcases bus_cases ((Runs.run step (start ram) earlier).step ask).system with
    off | ⟨granted, -⟩ | ⟨granted, -⟩
  · have on := contends
    simp only [contended, Bool.and_eq_true] at on
    exact absurd (off.symm.trans on.1.1.1) (by decide)
  · rw [granted]
    exact ic (placed.icLost_of_contended asks contends granted accepted accepts)
  · rw [granted]
    exact dc (placed.dcLost_of_contended asks contends granted accepted accepts)

/-- Cycles in which fetch and a load ask for line 0. -/
abbrev sameLine (cycles : Nat) : List Inputs :=
  CacheHistory.holding ⟨true, 0, 1⟩ ⟨true, 0, 0, 0, true, 0, 0, 3⟩
    (List.replicate cycles (.completing []))

/-- The fetched line arrives. -/
abbrev refilling : List Inputs :=
  CacheHistory.holding ⟨true, 0, 1⟩ ⟨true, 0, 0, 0, true, 0, 0, 3⟩
    (.completing [0] :: List.replicate 4 (.completing []))

/-- Fetch and load miss the same line.  The line arrives for fetch, and the load waits
for ever. -/
theorem contended_read_blocks_same_line :
    Runs.Always step
      (Reading (Runs.run step (start (Ram.ofWords [1, 2]))
        (sameLine 14 ++ sameLine 1)).system.grant)
      (Runs.run step (start (Ram.ofWords [1, 2])) (sameLine 14 ++ sameLine 2))
      (sameLine 4 ++ refilling ++ sameLine 20) :=
  contended_read_blocks _ (sameLine 14) (sameLine 4 ++ refilling ++ sameLine 20) _ _
    (by decide +kernel) (by decide +kernel) rfl

/-! ### Interrupts -/

/-- What the caches take is a beat of their own. -/
theorem Placed.popped (placed : h.Placed) (took : h.takes inputs = true) :
    ∃ beat tag rest, h.system.sys.txQueue = (beat, tag) :: rest ∧ tag ≠ System.IRQ := by
  have either : (h.system.ic.consumes (h.system.icResponse inputs.events) ||
      h.system.dc.consumes (h.system.dcResponse inputs.events)) = true := took
  rcases Bool.or_eq_true_iff.mp either with taken | taken
  · obtain ⟨beat, rest, queue⟩ := MemorySystem.ic_front taken
    simp only [ICache.Regs.consumes, Bool.and_eq_true, beq_iff_eq] at taken
    refine ⟨beat, _, rest, queue, ?_⟩
    rw [placed.icTag taken.1]
    decide
  · simp only [DCache.Regs.consumes, Bool.and_eq_true, beq_iff_eq] at taken
    obtain ⟨rest, queue⟩ := MemorySystem.dc_front taken.2
    refine ⟨_, _, rest, queue, ?_⟩
    rw [dcTag placed.linked.data taken.1]
    decide

/-- Both caches send only requests for memory. -/
theorem Placed.memory (placed : h.Placed) (legal : h.Legal inputs) :
    (h.step inputs).system.bus.reqcyc = true →
      System.cmd (h.step inputs).system.bus.reqtag = System.MEMORY := by
  intro asks
  obtain ⟨-, icPort, dcPort⟩ := placed.linked.step legal
  rcases bus_cases (h.step inputs).system with off | ⟨-, on, bus⟩ | ⟨-, on, bus⟩
  · rw [asks] at off
    cases off
  · rw [bus, (icPort on).2]
    exact MemorySystem.cmd_tags.2.2
  · rw [bus]
    rcases dc_word dcPort on with ⟨-, word⟩ | ⟨-, tag⟩
    · rw [word]
      exact MemorySystem.cmd_tags.1
    · rw [tag]
      exact MemorySystem.cmd_tags.2.1

/-- The beats that the caches may still take when an interrupt is queued. -/
def ahead (h : CachePorts) : Nat := h.system.sys.beforeIrq

/-- An interrupt is queued. -/
def Interrupted (h : CachePorts) : Prop :=
  h.Placed ∧ ∃ beat ∈ h.system.sys.txQueue, beat.2 = System.IRQ

/-- No cache takes an interrupt, and nothing behind it. -/
theorem Placed.beforeIrq_step (placed : h.Placed) (legal : h.Legal inputs)
    (irq : ∃ beat ∈ (h.system.sys.afterKey inputs.events).txQueue, beat.2 = System.IRQ) :
    (h.step inputs).system.sys.beforeIrq + (h.takes inputs).toNat ≤
        (h.system.sys.afterKey inputs.events).beforeIrq ∧
      ∃ beat ∈ (h.step inputs).system.sys.txQueue, beat.2 = System.IRQ :=
  System.beforeIrq_tick irq placed.popped (placed.memory legal)

theorem Interrupted.pays (interrupted : h.Interrupted) (legal : h.Legal inputs) :
    (h.step inputs).ahead + (h.takes inputs).toNat ≤ h.ahead ∧
      ∃ beat ∈ (h.step inputs).system.sys.txQueue, beat.2 = System.IRQ := by
  obtain ⟨placed, beat, member, tag⟩ := interrupted
  obtain ⟨more, later⟩ : ∃ more, (h.system.sys.afterKey inputs.events).txQueue =
      h.system.sys.txQueue ++ more := by
    rw [System.afterKey]
    split
    · exact ⟨_, rfl⟩
    · exact ⟨[], (List.append_nil _).symm⟩
  have same : (h.system.sys.afterKey inputs.events).beforeIrq = h.ahead := by
    rw [System.beforeIrq, later, System.takeWhile_append_of_mem more ⟨beat, member, tag⟩]
    rfl
  have step := placed.beforeIrq_step legal
    ⟨beat, by rw [later]; exact List.mem_append_left _ member, tag⟩
  rwa [same] at step

theorem interrupted_step (h : CachePorts) (inputs : Inputs) (interrupted : h.Interrupted)
    (legal : h.Legal inputs) : (step h inputs).Interrupted :=
  ⟨interrupted.1.step legal, (interrupted.pays legal).2⟩

theorem interrupted_pays (h : CachePorts) (inputs : Inputs) (interrupted : h.Interrupted)
    (legal : h.Legal inputs) : (step h inputs).ahead + (h.takes inputs).toNat ≤ h.ahead :=
  (interrupted.pays legal).1

/-- After a key press the caches take at most the beats that are in the queue already: the
interrupt stays in front of all later ones. -/
theorem key_press_blocks (ram : Ram) (earlier later : List Inputs) (press : Inputs)
    (legal : Runs.Guarded step Legal (start ram) (earlier ++ press :: later))
    (key : press.events.key = true) :
    Runs.count step takes (Runs.run step (start ram) earlier) (press :: later) ≤
      (Runs.run step (start ram) earlier).system.sys.txQueue.length := by
  obtain ⟨before, pressed, after⟩ := Runs.guarded_append.mp legal
  have placed := placed_run ram before
  generalize Runs.run step (start ram) earlier = h at placed pressed after ⊢
  have queue : (h.system.sys.afterKey press.events).txQueue =
      h.system.sys.txQueue ++ [(1, System.IRQ)] := by simp [System.afterKey, key]
  obtain ⟨first, irq⟩ := placed.beforeIrq_step pressed
    ⟨(1, System.IRQ), by rw [queue]; exact List.mem_append_right _ List.mem_cons_self, rfl⟩
  have room : (h.system.sys.afterKey press.events).beforeIrq ≤ h.system.sys.txQueue.length := by
    rw [System.beforeIrq, queue]
    exact System.length_takeWhile_irq _ [] _ rfl
  have rest : Runs.count step takes (step h press) later ≤ (step h press).ahead :=
    after.count_le interrupted_step interrupted_pays ⟨placed.step pressed, irq⟩
  rw [Runs.count_cons]
  have first' : (step h press).ahead + (h.takes press).toNat ≤ _ := first
  omega

/-- A key is pressed after the read of a fetch has been completed: of its line the beats in
the queue are taken, and nothing later. -/
theorem key_press_blocks_refill :
    Runs.count step takes
        (Runs.run step (start (Ram.ofWords [1, 2])) (sameLine 6 ++ refilling))
        ({ ic := ⟨true, 0, 1⟩, dc := ⟨true, 0, 0, 0, true, 0, 0, 3⟩
           events := { accepts := true, completed := [], key := true } } :: sameLine 20) ≤
      (Runs.run step (start (Ram.ofWords [1, 2]))
        (sameLine 6 ++ refilling)).system.sys.txQueue.length :=
  key_press_blocks _ _ _ _ (by decide +kernel) rfl

end

end CachePorts

end Sparcy
