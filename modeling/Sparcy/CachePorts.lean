import Sparcy.FetchCache

/-!
# Both caches on the bus

The memory system with the requests in front of its two caches.  A request stays until
its cache is idle again; what a cache has on its port follows from it.
-/

namespace Sparcy

open Words (word)

namespace ICache.Regs

/-- The port of the instruction cache: nothing, or the line of the request. -/
def Port (r : Regs) (p : IcRequest) : Prop :=
  r.pReqcyc = true →
    r.pState = .d ∧ r.bus = { reqcyc := true, req := Ram.lineAddress p.lineAddr, reqtag := readTag }

theorem port_step (r : Regs) (p : IcRequest) (response : BusResponse) :
    (r.step p response).Port p := by
  intro (asks : r.requests response = true)
  have state : r.pState = .d ∧ response.reqack = false := by simpa [requests] using asks
  constructor
  · change r.nState p response = .d
    simp [nState, state]
  · simp [bus, step, asks, nReqtag]
    rfl

theorem port_held {r : Regs} {p : IcRequest} (port : r.Port p) {response : BusResponse}
    (on : r.pReqcyc = true) (waits : response.reqack = false) :
    (r.step p response).bus = r.bus := by
  obtain ⟨state, word⟩ := port on
  have asks : r.requests response = true := by simp [requests, state, waits]
  rw [word, (port_step r p response asks).2]

end ICache.Regs

namespace DCache.Regs

/-- The words of a write-back: the address of the line that the set names and its eight
doublewords. -/
def writeBackWords (r : Regs) (i : BitVec 4) : List (BitVec 64) :=
  Ram.lineAddress (r.lineAt i) :: (List.range 8).map (word 64 (r.dataSram.mem i))

theorem length_writeBackWords (r : Regs) (i : BitVec 4) : (r.writeBackWords i).length = 9 := by
  simp [writeBackWords]

/-- The port of the data cache: nothing, the line of the request, or one word of a
write-back. -/
inductive Port (r : Regs) (p : DcRequest) : Prop
  | off (off : r.pReqcyc = false) (rest : r.pState = .c → r.pCounter = 0)
  | asks (state : r.pState = .d)
      (word : r.bus = { reqcyc := true, req := Ram.lineAddress p.lineAddr, reqtag := readTag })
  | sends (state : r.pState = .c) (k : Nat) (counter : r.pCounter.toNat = k + 1)
      (inside : k < (r.writeBackWords (set p)).length)
      (word : r.bus =
        { reqcyc := true, req := (r.writeBackWords (set p))[k], reqtag := writeTag })

section

variable {r : Regs} {p : DcRequest} {response : BusResponse}

theorem writeBackWords_step (state : r.pState = .c) :
    (r.step p response).writeBackWords (set p) = r.writeBackWords (set p) := by
  have silent : r.Silent p response := silent_of_state (.inr state)
  obtain ⟨data, tags, -⟩ := silent.step
  rw [writeBackWords, writeBackWords, lineAt, lineAt, data, tags]

theorem bus_step_of_c (state : r.pState = .c) :
    (r.step p response).bus = r.writeBack p response := by
  change r.nBus p response = _
  rw [nBus, if_pos state]

/-- The first cycle of a write-back loads the address. -/
theorem port_of_address (state : r.pState = .c) (loaded : r.Loaded p) (counter : r.pCounter = 0) :
    (r.step p response).Port p := by
  have counter' : (r.step p response).pCounter.toNat = 0 + 1 := by
    change (r.nCounter p response).toNat = 1
    simp [nCounter, state, counter]
  refine .sends ?_ 0 counter' (by simp [writeBackWords]) ?_
  · change r.nState p response = .c
    simp [nState, state, counter]
  · simp only [writeBackWords_step state]
    rw [bus_step_of_c state, writeBack, if_pos counter, loaded.tag]
    rfl

/-- A word of a write-back that is not acknowledged stays. -/
theorem bus_of_waiting (state : r.pState = .c) {k : Nat} (counter : r.pCounter.toNat = k + 1)
    {word : BitVec 64} (shown : r.bus = { reqcyc := true, req := word, reqtag := writeTag })
    (waits : response.reqack = false) : (r.step p response).bus = r.bus := by
  have positive : r.pCounter ≠ 0 := by
    intro zero
    simp [zero] at counter
  rw [bus_step_of_c state, writeBack, if_neg positive, waits, if_neg (by decide), shown]
  rw [bus, BusRequest.mk.injEq] at shown
  rw [shown.2.1, shown.2.2]

/-- After an acknowledgement the next word follows, or the write-back is over. -/
theorem step_of_ack (state : r.pState = .c) {k : Nat} (counter : r.pCounter.toNat = k + 1)
    (ack : response.reqack = true) :
    (k < 8 → (r.step p response).pState = .c ∧ (r.step p response).pCounter.toNat = k + 1 + 1) ∧
      (¬ k < 8 → (r.step p response).pState = .d) := by
  have positive : r.pCounter ≠ 0 := by
    intro zero
    simp [zero] at counter
  have last : r.pCounter < 9 ↔ k < 8 := by
    rw [BitVec.lt_def, counter]
    exact Nat.succ_lt_succ_iff
  have done : (r.pCounter ≠ 0 ∧ response.reqack = true ∧ ¬ r.pCounter < 9) ↔ ¬ k < 8 := by
    rw [last]
    exact ⟨fun all => all.2.2, fun high => ⟨positive, ack, high⟩⟩
  refine ⟨fun more => ⟨?_, ?_⟩, fun full => ?_⟩
  · change r.nState p response = .c
    simp only [nState, state, if_neg (fun all => done.mp all more)]
  · change (r.nCounter p response).toNat = k + 1 + 1
    simp only [nCounter, state, if_neg positive, ack, last.mpr more, and_self, if_true]
    rw [BitVec.toNat_add, counter]
    change (k + 1 + 1) % 32 = k + 1 + 1
    omega
  · change r.nState p response = .d
    simp only [nState, state, if_pos (done.mpr full)]

theorem port_of_word (state : r.pState = .c) (loaded : r.Loaded p) {k : Nat}
    (counter : r.pCounter.toNat = k + 1) (inside : k < (r.writeBackWords (set p)).length)
    (shown : r.bus =
      { reqcyc := true, req := (r.writeBackWords (set p))[k], reqtag := writeTag }) :
    (r.step p response).Port p := by
  have positive : r.pCounter ≠ 0 := by
    intro zero
    simp [zero] at counter
  have last : r.pCounter < 9 ↔ k < 8 := by
    rw [BitVec.lt_def, counter]
    exact Nat.succ_lt_succ_iff
  rw [length_writeBackWords] at inside
  have reqtag : r.pReqtag = writeTag := congrArg BusRequest.reqtag shown
  cases ack : response.reqack with
  | false =>
      refine .sends ?_ k ?_ (by rwa [length_writeBackWords]) ?_
      · change r.nState p response = .c
        simp [nState, state, ack]
      · change (r.nCounter p response).toNat = k + 1
        simp only [nCounter, state, if_neg positive, ack, Bool.false_eq_true, false_and, if_false,
          counter]
      · simp only [writeBackWords_step state]
        rw [bus_of_waiting state counter shown ack, shown]
  | true =>
      obtain ⟨next, ends⟩ := step_of_ack (p := p) state counter ack
      by_cases more : k < 8
      · refine .sends (next more).1 (k + 1) (next more).2
          (by rw [length_writeBackWords]; omega) ?_
        simp only [writeBackWords_step state]
        rw [bus_step_of_c state, writeBack, if_neg positive, ack, if_pos rfl,
          if_pos (last.mpr more), reqtag, loaded.data, counter]
        simp [writeBackWords, word]
      · refine .off ?_ ?_
        · change (r.nBus p response).reqcyc = false
          rw [nBus, if_pos state, writeBack, if_neg positive, ack, if_pos rfl,
            if_neg (fun below => more (last.mp below))]
        · intro stays
          rw [ends more] at stays
          cases stays

/-- A write-back begins with the counter at zero. -/
theorem counter_of_entering (other : r.pState ≠ .c) (next : (r.step p response).pState = .c) :
    (r.step p response).pCounter = 0 := by
  have next' : r.nState p response = .c := next
  change r.nCounter p response = 0
  cases state : r.pState with
  | a =>
      simp only [nState, state] at next'
      split at next' <;> cases next'
  | b =>
      simp only [nState, state] at next'
      simp only [nCounter, state]
      cases found : r.hit p with
      | true =>
          rw [found] at next'
          cases next'
      | false =>
          have dirty : r.dirtySram.readData = 1 := by
            by_contra clean
            rw [found, if_neg (by decide), if_neg clean] at next'
            cases next'
          rw [dirty]
          rfl
  | c => exact absurd state other
  | d =>
      simp only [nState, state] at next'
      split at next' <;> cases next'
  | e =>
      simp only [nState, state] at next'
      split at next' <;> split at next' <;> cases next'

/-- What the next cycle shows on the port. -/
theorem Port.step (port : r.Port p) (loaded : r.pState = .c → r.Loaded p) :
    (r.step p response).Port p := by
  cases state : r.pState with
  | a => exact .off (step_off (.inl state)) (counter_of_entering (by simp [state]))
  | b => exact .off (step_off (.inr state)) (counter_of_entering (by simp [state]))
  | c =>
      cases port with
      | off _ rest => exact port_of_address state (loaded state) (rest state)
      | asks other => rw [state] at other; cases other
      | sends _ k counter inside word => exact port_of_word state (loaded state) counter inside word
  | d =>
      cases ack : response.reqack with
      | true =>
          refine .off ?_ (counter_of_entering (by simp [state]))
          change (r.nBus p response).reqcyc = false
          simp [nBus, requests, consumes, state, ack]
      | false =>
          refine .asks ?_ ?_
          · change r.nState p response = .d
            simp [nState, state, ack]
          · change r.nBus p response = _
            simp [nBus, requests, state, ack]
            rfl
  | e =>
      have asks : r.requests response = false := by simp [requests, state]
      refine .off ?_ (counter_of_entering (by simp [state]))
      change (r.nBus p response).reqcyc = false
      rw [nBus, if_neg (by simp [state]), asks, if_neg (by decide)]
      split <;> rfl

theorem Port.held (port : r.Port p) (on : r.pReqcyc = true) (waits : response.reqack = false) :
    (r.step p response).bus = r.bus := by
  cases port with
  | off off =>
      rw [off] at on
      cases on
  | asks state word =>
      rw [word]
      change r.nBus p response = _
      simp [nBus, requests, state, waits]
      rfl
  | sends state k counter _ word => exact bus_of_waiting state counter word waits

end

end DCache.Regs

/-- The memory system and the requests of the last cycle. -/
structure CachePorts where
  system : MemorySystem
  ic : IcRequest
  dc : DcRequest

namespace CachePorts

open MemorySystem (Inputs)

def start (ram : Ram) : CachePorts :=
  { system := MemorySystem.reset ram
    ic := { req := false, lineAddr := 0, wordSelect := 0 }
    dc := { req := false, lineAddr := 0, wordSelect := 0, byteOffset := 0, readWriteN := true
            dataIn := 0, storeType := 0, loadType := 0 } }

def step (h : CachePorts) (inputs : Inputs) : CachePorts :=
  { system := h.system.step inputs.ic inputs.dc inputs.events, ic := inputs.ic, dc := inputs.dc }

/-- The events are those of `System::tick`, and a request stays until it is
acknowledged. -/
structure Legal (h : CachePorts) (inputs : Inputs) : Prop where
  allowed : h.system.Allowed inputs.events
  icHeld : h.system.ic.pState ≠ .a → inputs.ic = h.ic
  dcHeld : h.system.dc.pState ≠ .a → inputs.dc = h.dc

theorem legal_iff {h : CachePorts} {inputs : Inputs} :
    h.Legal inputs ↔ h.system.Allowed inputs.events ∧
      (h.system.ic.pState ≠ .a → inputs.ic = h.ic) ∧
      (h.system.dc.pState ≠ .a → inputs.dc = h.dc) :=
  ⟨fun legal => ⟨legal.allowed, legal.icHeld, legal.dcHeld⟩,
    fun ⟨allowed, ic, dc⟩ => ⟨allowed, ic, dc⟩⟩

instance (h : CachePorts) (inputs : Inputs) : Decidable (h.Legal inputs) :=
  decidable_of_iff _ legal_iff.symm

/-- What the ports of the caches show. -/
structure Linked (h : CachePorts) : Prop where
  data : h.system.Tracked h.dc
  icPort : h.system.ic.Port h.ic
  dcPort : h.system.dc.Port h.dc

theorem linked_start (ram : Ram) : (start ram).Linked where
  data := (MemorySystem.coherent_reset ram).tracked _
  icPort := by
    intro on
    cases on
  dcPort := .off rfl (fun _ => rfl)

section

variable {h : CachePorts} {inputs : Inputs}

theorem Linked.now (linked : h.Linked) (legal : h.Legal inputs) :
    h.system.Tracked inputs.dc ∧ h.system.ic.Port inputs.ic ∧ h.system.dc.Port inputs.dc := by
  obtain ⟨data, icPort, dcPort⟩ := linked
  refine ⟨?_, ?_, ?_⟩
  · by_cases idle : h.system.dc.pState = .a
    · exact data.switch idle inputs.dc
    · rwa [legal.dcHeld idle]
  · by_cases idle : h.system.ic.pState = .a
    · intro on
      have state := (icPort on).1
      rw [idle] at state
      cases state
    · rwa [legal.icHeld idle]
  · by_cases idle : h.system.dc.pState = .a
    · cases dcPort with
      | off off rest => exact .off off rest
      | asks state => rw [idle] at state; cases state
      | sends state => rw [idle] at state; cases state
    · rwa [legal.dcHeld idle]

theorem loaded_of_evicting {m : MemorySystem} {p : DcRequest} (tracked : m.Tracked p)
    (state : m.dc.pState = .c) : m.dc.Loaded p := by
  cases tracked.phase with
  | evict _ loaded => exact loaded
  | idle other => rw [state] at other; cases other
  | lookup other => rw [state] at other; cases other
  | ask other => rw [state] at other; cases other
  | refill other => rw [state] at other; cases other

theorem Linked.step (linked : h.Linked) (legal : h.Legal inputs) : (h.step inputs).Linked := by
  obtain ⟨data, -, dcPort⟩ := linked.now legal
  exact ⟨data.step legal.allowed, ICache.Regs.port_step _ _ _, dcPort.step (loaded_of_evicting data)⟩

end

end CachePorts

end Sparcy
