import Sparcy.CacheReads

/-!
# The instruction cache over a program

The rows of the instruction cache hold lines of a program, whatever else happens on the
bus: all that counts is that its own beats carry the line it asked for.
-/

namespace Sparcy

open Words (word)

namespace ICache.Regs

/-- Each row is as the reset left it or holds a line of the program; the row of a request
that misses is filled beat by beat. -/
structure Holds (r : Regs) (p : IcRequest) (program : Ram) : Prop where
  rows : ∀ i, ¬ r.Replaces p i →
    r.tagSram.mem i = BitVec.allOnes 54 ∨ HoldsLine (r.dataSram.mem i) program (r.lineAt i)
  lookup : r.pState = .b → r.Loaded p
  ask : r.pState = .d → r.pReqcyc = true → r.Claimed p
  refill : r.pState = .e → r.Claimed p ∧ ∀ k < r.pCounter.toNat,
    word 64 (r.dataSram.mem (set p)) k = swapHalves (program.doubleword p.lineAddr k)

/-- What the bus answers: an acknowledgement only to a request, and beats that are the
next doublewords of the line. -/
structure Answered (r : Regs) (p : IcRequest) (program : Ram) (response : BusResponse) : Prop where
  ack : response.reqack = true → r.pReqcyc = true
  beat : r.consumes response = true → r.pCounter.toNat < 8 ∧
    response.resp = program.doubleword p.lineAddr r.pCounter.toNat

section

variable {r : Regs} {p : IcRequest} {program : Ram} {response : BusResponse}

theorem holds_reset (p : IcRequest) (program : Ram) : reset.Holds p program where
  rows _ _ := .inl rfl
  lookup state := by cases state
  ask state := by cases state
  refill state := by cases state

theorem Holds.switch (holds : r.Holds p program) (idle : r.pState = .a) (p' : IcRequest) :
    r.Holds p' program where
  rows i _ := by
    apply holds.rows
    rintro ⟨other | other, -⟩ <;> rw [idle] at other <;> cases other
  lookup state := by
    rw [idle] at state
    cases state
  ask state := by
    rw [idle] at state
    cases state
  refill state := by
    rw [idle] at state
    cases state

/-- A row that is not written keeps its line. -/
theorem Holds.row_step (holds : r.Holds p program) {i : BitVec 4} (kept : ¬ r.Replaces p i)
    (data : (r.step p response).dataSram.mem i = r.dataSram.mem i)
    (tags : (r.step p response).tagSram.mem i = r.tagSram.mem i) :
    (r.step p response).tagSram.mem i = BitVec.allOnes 54 ∨
      HoldsLine ((r.step p response).dataSram.mem i) program ((r.step p response).lineAt i) := by
  have line : (r.step p response).lineAt i = r.lineAt i := by rw [lineAt, tags, lineAt]
  rw [data, tags, line]
  exact holds.rows i kept

/-- A cycle in which nothing is written. -/
theorem Holds.step_silent (holds : r.Holds p program) (request : r.requests response = false)
    (consume : r.consumes response = false) (present : r.pState ≠ .d ∧ r.pState ≠ .e)
    (refill : (r.step p response).pState ≠ .e) : (r.step p response).Holds p program := by
  obtain ⟨data, tags⟩ := step_rows_of_silent (p := p) request consume
  have off : (r.step p response).pReqcyc = false := request
  refine ⟨?_, ?_, ?_, fun state => absurd state refill⟩
  · intro i _
    apply holds.row_step _ (congrFun data i) (congrFun tags i)
    rintro ⟨state | state, -⟩
    · exact present.1 state
    · exact present.2 state
  · exact fun _ => ⟨congrFun data.symm _, congrFun tags.symm _⟩
  · intro _ on
    rw [off] at on
    cases on

/-- Rows outside the set of a request that is being served. -/
theorem Holds.rows_step (holds : r.Holds p program)
    (replaces : (r.step p response).Replaces p (set p)) :
    ∀ i, ¬ (r.step p response).Replaces p i →
      (r.step p response).tagSram.mem i = BitVec.allOnes 54 ∨
        HoldsLine ((r.step p response).dataSram.mem i) program ((r.step p response).lineAt i) := by
  intro i kept
  have other : i ≠ set p := by
    rintro rfl
    exact kept replaces
  have same : (r.step p response).dataSram.mem i = r.dataSram.mem i ∧
      (r.step p response).tagSram.mem i = r.tagSram.mem i := step_rows other
  exact holds.row_step (fun replaced => other replaced.2) same.1 same.2

theorem Holds.step_ask (holds : r.Holds p program) (answered : r.Answered p program response)
    (state : r.pState = .d) : (r.step p response).Holds p program := by
  cases ack : response.reqack with
  | true =>
      obtain ⟨next, -, counter, claimed⟩ :=
        step_of_granted (p := p) state ack (holds.ask state (answered.ack ack))
      refine ⟨holds.rows_step ⟨.inr next, rfl⟩, ?_, ?_, ?_⟩
      · intro other
        rw [next] at other
        cases other
      · intro other
        rw [next] at other
        cases other
      · refine fun _ => ⟨claimed, ?_⟩
        intro k impossible
        rw [counter] at impossible
        exact absurd impossible (Nat.not_lt_zero k)
  | false =>
      obtain ⟨next, -, -, claimed⟩ := step_of_refused (p := p) state ack
      refine ⟨holds.rows_step ⟨.inl next, rfl⟩, ?_, fun _ _ => claimed, ?_⟩
      · intro other
        rw [next] at other
        cases other
      · intro other
        rw [next] at other
        cases other

theorem Holds.step_beat (holds : r.Holds p program) (answered : r.Answered p program response)
    (state : r.pState = .e) (consume : r.consumes response = true) :
    (r.step p response).Holds p program := by
  obtain ⟨claimed, filled⟩ := holds.refill state
  obtain ⟨low, resp⟩ := answered.beat consume
  obtain ⟨next, -, counter, claimed', filled'⟩ :=
    step_of_beat state consume claimed low resp filled
  refine ⟨holds.rows_step ⟨.inr next, rfl⟩, ?_, ?_, ?_⟩
  · intro other
    rw [next] at other
    cases other
  · intro other
    rw [next] at other
    cases other
  · rw [counter]
    exact fun _ => ⟨claimed', filled'⟩

/-- Without a beat the row stays; when it is full it is looked up. -/
theorem Holds.step_pause (holds : r.Holds p program) (state : r.pState = .e)
    (consume : r.consumes response = false) : (r.step p response).Holds p program := by
  obtain ⟨claimed, filled⟩ := holds.refill state
  obtain ⟨next, off, counter, claimed', data, tags⟩ := step_of_pause state consume claimed
  by_cases full : r.pCounter = 8
  · rw [if_pos full] at next
    have eight : r.pCounter.toNat = 8 := by
      rw [full]
      rfl
    refine ⟨?_, ?_, ?_, ?_⟩
    · intro i _
      by_cases here : i = set p
      · have line : (r.step p response).lineAt (set p) = p.lineAddr := by
          rw [lineAt, tags, claimed.tag, tag_index]
        right
        rw [here, line, data]
        intro k below
        exact filled k (by omega)
      · exact holds.row_step (fun replaced => here replaced.2) (congrFun data i) (congrFun tags i)
    · exact fun _ => ⟨congrFun data.symm _, congrFun tags.symm _⟩
    · intro other
      rw [next] at other
      cases other
    · intro other
      rw [next] at other
      cases other
  · rw [if_neg full] at next
    refine ⟨holds.rows_step ⟨.inr next, rfl⟩, ?_, ?_, ?_⟩
    · intro other
      rw [next] at other
      cases other
    · intro _ on
      rw [off] at on
      cases on
    · intro _
      rw [counter, data]
      exact ⟨claimed', filled⟩

theorem Holds.step (holds : r.Holds p program) (answered : r.Answered p program response) :
    (r.step p response).Holds p program := by
  by_cases ask : r.pState = .d
  · exact holds.step_ask answered ask
  · by_cases refill : r.pState = .e
    · cases consume : r.consumes response with
      | true => exact holds.step_beat answered refill consume
      | false => exact holds.step_pause refill consume
    · have request : r.requests response = false := by simp [requests, ask]
      have consume : r.consumes response = false := by simp [consumes, refill]
      apply holds.step_silent request consume ⟨ask, refill⟩
      change r.nState p response ≠ .e
      cases state : r.pState with
      | a => simp only [nState, state]; split <;> simp
      | b => simp only [nState, state]; split <;> simp
      | c => simp [nState, state]
      | d => exact absurd state ask
      | e => exact absurd state refill

theorem Holds.hit (holds : r.Holds p program) (genuine : tag p.lineAddr ≠ BitVec.allOnes 54)
    (acknowledges : r.nAck p = true) :
    r.nProcDataOut p = program.word32 (p.lineAddr ++ p.wordSelect ++ (0 : BitVec 2)) := by
  have acknowledged := acknowledges
  simp only [nAck, Bool.and_eq_true, beq_iff_eq] at acknowledges
  obtain ⟨state, hit⟩ := acknowledges
  have loaded := holds.lookup state
  have found : r.tagSram.mem (set p) = tag p.lineAddr := by
    rw [← loaded.tag]
    simpa [Regs.hit] using hit
  have named : r.lineAt (set p) = p.lineAddr := by rw [lineAt, found, tag_index]
  have kept : ¬ r.Replaces p (set p) := by
    rintro ⟨other | other, -⟩ <;> rw [state] at other <;> cases other
  rcases holds.rows (set p) kept with fresh | line
  · exact absurd (found.symm.trans fresh) genuine
  · rw [named] at line
    rw [nProcDataOut, if_pos acknowledged, loaded.data]
    exact word_of_holdsLine line p.wordSelect

/-- The look-up after a refill is a hit. -/
theorem Holds.hit_of_refilled (holds : r.Holds p program) (state : r.pState = .e) :
    (r.step p response).hit p = true := by
  have claimed := (holds.refill state).1
  change (r.tagSram.mem (set p) == tag p.lineAddr) = true
  rw [claimed.tag, beq_self_eq_true]

end

/-! ### Progress -/

/-- The memory keeps the cache waiting: for the acceptance of its request or for a beat. -/
def keptWaiting (r : Regs) (response : BusResponse) : Bool :=
  (r.pState == .d && r.pReqcyc && !response.reqack) ||
    (r.pState == .e && r.pCounter != 8 && !r.consumes response)

/-- The cycles until the acknowledgement, without those that wait for the memory. -/
def left (r : Regs) (p : IcRequest) : Nat :=
  match r.pState with
  | .a => if r.pAck then 0 else 14
  | .b => if r.hit p then 1 else 13
  | .c => 14
  | .d => if r.pReqcyc then 11 else 12
  | .e => 10 - r.pCounter.toNat

section

variable {r : Regs} {p : IcRequest} {program : Ram} {response : BusResponse}

theorem left_le (r : Regs) (p : IcRequest) : r.left p ≤ 14 := by
  unfold left
  split <;> (try split) <;> omega

/-- A cycle of a refill, in which a beat comes, the full row is looked up or the cache is
kept waiting. -/
theorem Holds.left_refill (holds : r.Holds p program) (answered : r.Answered p program response)
    (state : r.pState = .e) :
    (r.step p response).left p + (if r.keptWaiting response then 0 else 1) ≤ r.left p := by
  have now : r.left p = 10 - r.pCounter.toNat := by rw [left, state]
  cases consume : r.consumes response with
  | true =>
      have low := (answered.beat consume).1
      have low' : r.pCounter < 8 := by
        rw [BitVec.lt_def]
        exact low
      have beat : r.beat response = true := by
        rw [consumes, Bool.and_eq_true] at consume
        exact consume.2
      have next : (r.step p response).pState = .e := by
        change r.nState p response = _
        simp only [nState, state, beat, if_true, if_pos low']
      have counter : (r.step p response).pCounter.toNat = r.pCounter.toNat + 1 := by
        change (r.nCounter response).toNat = _
        rw [nCounter, if_neg (by simp [state]), if_pos consume, BitVec.toNat_add]
        change (r.pCounter.toNat + 1) % 32 = r.pCounter.toNat + 1
        omega
      rw [now, left, next]
      dsimp only
      rw [counter]
      split <;> omega
  | false =>
      have beat : r.beat response = false := by
        rw [consumes, state] at consume
        simpa using consume
      by_cases full : r.pCounter = 8
      · have next : (r.step p response).pState = .b := by
          change r.nState p response = _
          simp [nState, state, beat, full]
        have eight : r.pCounter.toNat = 8 := by
          rw [full]
          rfl
        rw [now, left, next, eight]
        dsimp only
        rw [if_pos (holds.hit_of_refilled state)]
        split <;> omega
      · have next : (r.step p response).pState = .e := by
          change r.nState p response = _
          simp only [nState, state, beat]
          exact if_neg full
        have counter : (r.step p response).pCounter = r.pCounter := by
          change r.nCounter response = _
          simp [nCounter, state, consume]
        have short : (r.pCounter != 8) = true := bne_iff_ne.mpr full
        have kept : r.keptWaiting response = true := by
          rw [keptWaiting, state, short, consume]
          rfl
        rw [now, left, next, kept]
        dsimp only
        rw [counter]
        simp

/-- Each cycle of an access brings the acknowledgement nearer unless the memory keeps the
cache waiting. -/
theorem Holds.left_step (holds : r.Holds p program) (answered : r.Answered p program response)
    (asks : r.pState = .a → p.req = true ∧ r.pAck = false) (reads : r.pState ≠ .c) :
    (r.step p response).left p + (if r.keptWaiting response then 0 else 1) ≤ r.left p := by
  cases state : r.pState with
  | a =>
      obtain ⟨req, silent⟩ := asks state
      have next : (r.step p response).pState = .b := by
        change r.nState p response = _
        simp [nState, state, req]
      have now : r.left p = 14 := by simp [left, state, silent]
      rw [now, left, next]
      dsimp only
      split <;> split <;> omega
  | b =>
      cases found : r.hit p with
      | true =>
          have next : (r.step p response).pState = .a := by
            change r.nState p response = _
            simp [nState, state, found]
          have ack : (r.step p response).pAck = true := by
            change r.nAck p = _
            simp [nAck, state, found]
          rw [left, next, ack]
          simp only [left, state, found, if_true]
          split <;> omega
      | false =>
          have next : (r.step p response).pState = .d := by
            change r.nState p response = _
            simp [nState, state, found]
          have off : (r.step p response).pReqcyc = false := by
            change r.requests response = _
            simp [requests, state]
          rw [left, next, off]
          simp only [left, state, found, Bool.false_eq_true, if_false]
          split <;> omega
  | c => exact absurd state reads
  | d =>
      cases ack : response.reqack with
      | true =>
          have next : (r.step p response).pState = .e := by
            change r.nState p response = _
            simp [nState, state, ack]
          have counter : (r.step p response).pCounter = 0 := by
            change r.nCounter response = 0
            simp [nCounter, state, ack]
          have on := answered.ack ack
          rw [left, next, left, state]
          dsimp only
          rw [counter, if_pos on]
          split <;> simp
      | false =>
          have next : (r.step p response).pState = .d := by
            change r.nState p response = _
            simp [nState, state, ack]
          have on : (r.step p response).pReqcyc = true := by
            change r.requests response = _
            simp [requests, state, ack]
          have kept : r.keptWaiting response = r.pReqcyc := by simp [keptWaiting, state, ack]
          rw [left, next, on, kept, left, state]
          dsimp only
          cases r.pReqcyc <;> simp
  | e => exact holds.left_refill answered state

end

end ICache.Regs

theorem System.MayWait.congr {s : System} {tag : BitVec 13} {l : BitVec 58} {ram program : Ram}
    {phase : System.ReadPhase} (waits : s.MayWait tag l ram phase)
    (same : ∀ k, phase = .reading k → ∀ i < 8, ram.doubleword l i = program.doubleword l i) :
    s.MayWait tag l program phase := by
  cases phase with
  | quiet => exact waits
  | asked => exact waits
  | reading k =>
      have words : ((List.range 8).drop k).map (ram.doubleword l) =
          ((List.range 8).drop k).map (program.doubleword l) := by
        apply List.map_congr_left
        intro i member
        exact same k rfl i (List.mem_range.mp (List.mem_of_mem_drop member))
      rw [MayWait, Waits, Owes, words] at waits
      exact waits

namespace CachePorts

open MemorySystem (Inputs)
open Sparcy.System (ReadPhase)

/-- The instruction cache holds and receives lines of the program. -/
structure Serving (h : CachePorts) (program : Ram) : Prop where
  linked : h.Linked
  keyed : h.system.sys.Keyed
  icTag : h.system.ic.pState = .e → h.system.ic.pReqtag = ICache.readTag
  holds : h.system.ic.Holds h.ic program
  waits : h.system.sys.MayWait ICache.readTag h.ic.lineAddr program h.system.icPhase

theorem serving_start (ram program : Ram) : (start ram).Serving program where
  linked := linked_start ram
  keyed := List.nodup_nil
  icTag := by
    intro state
    cases state
  holds := ICache.Regs.holds_reset _ program
  waits := .inl ⟨rfl, rfl⟩

section

variable {h : CachePorts} {inputs : Inputs} {program : Ram}

theorem Serving.now (serving : h.Serving program) (legal : h.Legal inputs) :
    h.system.ic.Holds inputs.ic program ∧
      h.system.sys.MayWait ICache.readTag inputs.ic.lineAddr program h.system.icPhase := by
  by_cases idle : h.system.ic.pState = .a
  · have off : h.system.ic.pReqcyc = false := by
      by_contra on
      rw [Bool.not_eq_false] at on
      have state := (serving.linked.icPort on).1
      rw [idle] at state
      cases state
    have quiet := serving.waits
    rw [MemorySystem.icPhase_of_off off (by simp [idle])] at quiet ⊢
    exact ⟨serving.holds.switch idle inputs.ic, quiet⟩
  · rw [legal.icHeld idle]
    exact ⟨serving.holds, serving.waits⟩

theorem Serving.answered (serving : h.Serving program) (legal : h.Legal inputs) :
    h.system.ic.Answered inputs.ic program (h.system.icResponse inputs.events) := by
  obtain ⟨-, waits⟩ := serving.now legal
  constructor
  · intro ack
    exact (MemorySystem.bus_of_ic (MemorySystem.icResponse_reqack_iff.mp ack).1).1
  · intro consume
    have both := consume
    simp only [ICache.Regs.consumes, Bool.and_eq_true, beq_iff_eq] at both
    obtain ⟨state, beat⟩ := both
    obtain ⟨rest, queue⟩ : ∃ rest, h.system.sys.txQueue =
        ((h.system.icResponse inputs.events).resp, h.system.ic.pReqtag) :: rest :=
      MemorySystem.front_of_beat beat
    rw [serving.icTag state] at queue
    rw [MemorySystem.icPhase, if_pos state] at waits
    exact waits.front queue

/-- While a line is being fetched the RAM has it as the program does. -/
theorem Serving.step (serving : h.Serving program) (legal : h.Legal inputs)
    (constant : h.system.ic.pState ≠ .a →
      h.system.sys.ram.line inputs.ic.lineAddr = program.line inputs.ic.lineAddr) :
    (h.step inputs).Serving program := by
  obtain ⟨holds, waits⟩ := serving.now legal
  obtain ⟨-, icPort, -⟩ := serving.linked.now legal
  obtain ⟨next, icTag⟩ := MemorySystem.icPhase_next inputs.dc inputs.events icPort serving.icTag waits
  have tick := ic_tick serving.linked legal serving.icTag waits
  have later := waits.tick serving.keyed (by decide) (by decide) (by decide) next tick
  refine
    { linked := serving.linked.step legal
      keyed := serving.linked.keyed_step legal serving.keyed
      icTag := icTag
      holds := holds.step (serving.answered legal)
      waits := later.congr ?_ }
  intro k reading i inside
  rcases System.readRam_eq h.system.sys inputs.events ICache.readTag program with same | same
  · rw [same]
  · have busy : h.system.ic.pState ≠ .a := by
      intro idle
      have state : (h.system.step inputs.ic inputs.dc inputs.events).ic.pState ≠ .e := by
        change h.system.ic.nState inputs.ic _ ≠ .e
        simp only [ICache.Regs.nState, idle]
        split <;> simp
      rw [MemorySystem.icPhase, if_neg state] at reading
      split at reading <;> cases reading
    have line := Ram.eq_line_iff.mp (constant busy) i inside
    rw [same]
    rw [Ram.word_line _ _ inside] at line
    exact line.symm

end

end CachePorts

end Sparcy
