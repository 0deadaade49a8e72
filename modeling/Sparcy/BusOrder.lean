import Sparcy.CachePorts
import Sparcy.PhantomLines

/-!
# The order of words on the bus

Every word that a cache puts on its port is accepted once, in order and as it was, and
the nine words of a write-back follow each other.
-/

namespace Sparcy

open Words (word)

/-- A port that holds its word until it is acknowledged: what it gives up, then what it
shows next, is what it showed, then what is new on it. -/
theorem handshake {Word : Type*} {on on' ack : Bool} {shown shown' : Word}
    (answers : ack = true → on = true)
    (held : on = true → ack = false → on' = true ∧ shown' = shown) :
    (if ack then some shown else none).toList ++ (if on' then [shown'] else []) =
      (if on then [shown] else []) ++
        (if on' && (!on || ack) then some shown' else none).toList := by
  cases ack with
  | true => cases on' <;> simp [answers rfl]
  | false =>
      cases on with
      | false => cases on' <;> simp
      | true =>
          obtain ⟨stays, same⟩ := held rfl rfl
          simp [stays, same]

namespace CachePorts

open MemorySystem (Inputs)
open DCache (readTag writeTag)
open DCache.Regs (set)

/-- The word that is accepted at the end of a cycle. -/
def accepted (h : CachePorts) (inputs : Inputs) : Option BusRequest :=
  if System.reqack inputs.events h.system.bus then some h.system.bus else none

/-- The acknowledgements that the arbiter passes on. -/
def icReqack (h : CachePorts) (inputs : Inputs) : Bool := (h.system.icResponse inputs.events).reqack

def dcReqack (h : CachePorts) (inputs : Inputs) : Bool := (h.system.dcResponse inputs.events).reqack

/-- What is on the ports. -/
def icPort (h : CachePorts) : List BusRequest :=
  if h.system.ic.pReqcyc then [h.system.ic.bus] else []

def dcPort (h : CachePorts) : List BusRequest :=
  if h.system.dc.pReqcyc then [h.system.dc.bus] else []

/-- A word is sent when it comes onto a port that was free or whose word has just been
acknowledged. -/
def icSent (h : CachePorts) (inputs : Inputs) : Option BusRequest :=
  if (h.step inputs).system.ic.pReqcyc && (!h.system.ic.pReqcyc || h.icReqack inputs) then
    some (h.step inputs).system.ic.bus
  else none

def dcSent (h : CachePorts) (inputs : Inputs) : Option BusRequest :=
  if (h.step inputs).system.dc.pReqcyc && (!h.system.dc.pReqcyc || h.dcReqack inputs) then
    some (h.step inputs).system.dc.bus
  else none

/-- The tag of a word says which cache it is from. -/
def isFetch (word : BusRequest) : Bool := word.reqtag == ICache.readTag

/-- At most one cache is acknowledged, and it has its word on the bus. -/
structure Exclusive (h : CachePorts) (inputs : Inputs) : Prop where
  one : ¬ (h.icReqack inputs = true ∧ h.dcReqack inputs = true)
  ic : h.icReqack inputs = true → h.system.grant = .ic ∧ h.system.ic.pReqcyc = true ∧
    h.system.bus = h.system.ic.bus
  dc : h.dcReqack inputs = true → h.system.grant = .dc ∧ h.system.dc.pReqcyc = true ∧
    h.system.bus = h.system.dc.bus

section

variable {h : CachePorts} {inputs : Inputs}

theorem exclusive (h : CachePorts) (inputs : Inputs) : h.Exclusive inputs := by
  constructor
  · rintro ⟨ic, dc⟩
    have granted := (MemorySystem.icResponse_reqack_iff.mp ic).1
    rw [(MemorySystem.dcResponse_reqack_iff.mp dc).1] at granted
    cases granted
  · intro ic
    have granted := (MemorySystem.icResponse_reqack_iff.mp ic).1
    exact ⟨granted, Arbiter.grant_ic granted⟩
  · intro dc
    have granted := (MemorySystem.dcResponse_reqack_iff.mp dc).1
    exact ⟨granted, Arbiter.grant_dc granted⟩

/-- A word is accepted exactly from the cache that is acknowledged. -/
theorem accepted_eq (h : CachePorts) (inputs : Inputs) :
    h.accepted inputs =
      if h.icReqack inputs then some h.system.ic.bus
      else if h.dcReqack inputs then some h.system.dc.bus
      else none := by
  have ic : (h.system.icResponse inputs.events).reqack = true ↔
      h.system.grant = .ic ∧ inputs.events.accepts = true := MemorySystem.icResponse_reqack_iff
  have dc : (h.system.dcResponse inputs.events).reqack = true ↔
      h.system.grant = .dc ∧ inputs.events.accepts = true := MemorySystem.dcResponse_reqack_iff
  rw [accepted, System.reqack, icReqack, dcReqack]
  cases granted : h.system.grant with
  | none =>
      have off := MemorySystem.bus_of_none granted
      simp [off, ic, dc, granted]
  | ic =>
      obtain ⟨on, bus⟩ := Arbiter.grant_ic granted
      have bus' : h.system.bus = h.system.ic.bus := bus
      cases accepts : inputs.events.accepts <;> simp [ic, dc, granted, accepts, bus', on]
  | dc =>
      obtain ⟨on, bus⟩ := Arbiter.grant_dc granted
      have bus' : h.system.bus = h.system.dc.bus := bus
      cases accepts : inputs.events.accepts <;> simp [ic, dc, granted, accepts, bus', on]

theorem Linked.isFetch_ic (linked : h.Linked) (on : h.system.ic.pReqcyc = true) :
    isFetch h.system.ic.bus = true := by
  rw [isFetch, (linked.icPort on).2]
  rfl

theorem Linked.isFetch_dc (linked : h.Linked) (on : h.system.dc.pReqcyc = true) :
    isFetch h.system.dc.bus = false := by
  cases linked.dcPort with
  | off off =>
      rw [off] at on
      cases on
  | asks _ word =>
      rw [isFetch, word]
      rfl
  | sends _ _ _ _ word =>
      rw [isFetch, word]
      rfl

theorem Linked.accepted_filter (linked : h.Linked) (inputs : Inputs) :
    ((h.accepted inputs).filter isFetch =
        if h.icReqack inputs then some h.system.ic.bus else none) ∧
      ((h.accepted inputs).filter fun word => !isFetch word) =
        if h.dcReqack inputs then some h.system.dc.bus else none := by
  have exclusive := exclusive h inputs
  rw [accepted_eq]
  cases ic : h.icReqack inputs with
  | true =>
      have tag := linked.isFetch_ic (exclusive.ic ic).2.1
      have none : h.dcReqack inputs = false := by
        rw [← Bool.not_eq_true]
        exact fun dc => exclusive.one ⟨ic, dc⟩
      simp [none, tag]
  | false =>
      cases dc : h.dcReqack inputs with
      | true =>
          have tag := linked.isFetch_dc (exclusive.dc dc).2.1
          simp [tag]
      | false => simp

theorem Linked.ic_conserves (linked : h.Linked) (legal : h.Legal inputs) :
    ((h.accepted inputs).filter isFetch).toList ++ (h.step inputs).icPort =
      h.icPort ++ (h.icSent inputs).toList := by
  rw [(linked.accepted_filter inputs).1]
  apply handshake
  · exact fun ack => ((exclusive h inputs).ic ack).2.1
  · intro on waits
    obtain ⟨-, port, -⟩ := linked.now legal
    have same := ICache.Regs.port_held port on waits
    refine ⟨?_, same⟩
    exact (congrArg BusRequest.reqcyc same).trans on

theorem Linked.dc_conserves (linked : h.Linked) (legal : h.Legal inputs) :
    ((h.accepted inputs).filter fun word => !isFetch word).toList ++ (h.step inputs).dcPort =
      h.dcPort ++ (h.dcSent inputs).toList := by
  rw [(linked.accepted_filter inputs).2]
  apply handshake
  · exact fun ack => ((exclusive h inputs).dc ack).2.1
  · intro on waits
    obtain ⟨-, -, port⟩ := linked.now legal
    have same := port.held on waits
    refine ⟨?_, same⟩
    exact (congrArg BusRequest.reqcyc same).trans on

end

/-! ### Write-backs -/

/-- An accepted word, with the line that the data cache would write back. -/
structure BusWord where
  word : BusRequest
  line : BitVec 58
  row : BitVec 512

def busWord (h : CachePorts) (inputs : Inputs) : Option BusWord :=
  (h.accepted inputs).map fun word =>
    { word := word
      line := h.system.dc.lineAt (set inputs.dc)
      row := h.system.dc.dataSram.mem (set inputs.dc) }

def writeWord (word : BitVec 64) : BusRequest := { reqcyc := true, req := word, reqtag := writeTag }

/-- After the address of a write-back exactly its eight doublewords are expected. -/
def writeBacks : Runs.Monitor (List BusRequest) BusWord where
  allows
    | [], w => w.word.reqtag = writeTag → w.word = writeWord (Ram.lineAddress w.line)
    | next :: _, w => w.word = next
  next
    | [], w =>
        if w.word.reqtag = writeTag then
          (List.range 8).map fun k => writeWord (word 64 w.row k)
        else []
    | _ :: rest, _ => rest

/-- The words that are expected once the address is accepted. -/
def unsent (r : DCache.Regs) (p : DcRequest) : List BusRequest :=
  if r.pState = .c ∧ 2 ≤ r.pCounter.toNat then
    ((r.writeBackWords (set p)).drop (r.pCounter.toNat - 1)).map writeWord
  else []

section

variable {r : DCache.Regs} {p : DcRequest} {response : BusResponse}

theorem unsent_eq_nil (other : r.pState ≠ .c) : unsent r p = [] :=
  if_neg fun both => other both.1

theorem unsent_waits (waits : response.reqack = false) : unsent (r.step p response) p = unsent r p := by
  by_cases state : r.pState = .c
  · have next : (r.step p response).pState = .c := by
      change r.nState p response = .c
      simp [DCache.Regs.nState, state, waits]
    have counter : (r.step p response).pCounter = if r.pCounter = 0 then 1 else r.pCounter := by
      change r.nCounter p response = _
      simp only [DCache.Regs.nCounter, state, waits, Bool.false_eq_true, false_and, if_false]
      by_cases zero : r.pCounter = 0
      · rw [if_pos zero, if_pos zero, zero]
        rfl
      · rw [if_neg zero, if_neg zero]
    rw [unsent, unsent, DCache.Regs.writeBackWords_step state, counter, next]
    by_cases zero : r.pCounter = 0
    · simp [zero]
    · rw [if_neg zero, state]
  · rw [unsent_eq_nil state, unsent]
    apply if_neg
    rintro ⟨next, two⟩
    rw [DCache.Regs.counter_of_entering state next] at two
    exact absurd two (by decide)

/-- The doublewords of a row as they are written back. -/
theorem tail_writeBackWords (r : DCache.Regs) (i : BitVec 4) :
    ((r.writeBackWords i).drop 1).map writeWord =
      (List.range 8).map fun k => writeWord (word 64 (r.dataSram.mem i) k) := by
  simp [DCache.Regs.writeBackWords]

/-- After an acknowledgement the words behind the accepted one are left. -/
theorem unsent_ack (state : r.pState = .c) {k : Nat} (counter : r.pCounter.toNat = k + 1)
    (ack : response.reqack = true) :
    unsent (r.step p response) p = ((r.writeBackWords (set p)).drop (k + 1)).map writeWord := by
  obtain ⟨next, ends⟩ := DCache.Regs.step_of_ack (p := p) state counter ack
  by_cases more : k < 8
  · obtain ⟨state', counter'⟩ := next more
    rw [unsent, DCache.Regs.writeBackWords_step state, counter', if_pos ⟨state', by omega⟩]
    rfl
  · rw [unsent_eq_nil (by simp [ends more])]
    have length := DCache.Regs.length_writeBackWords r (set p)
    rw [List.drop_eq_nil_of_le (by omega), List.map_nil]

theorem unsent_eq (state : r.pState = .c) {k : Nat} (counter : r.pCounter.toNat = k + 1)
    (inside : k < (r.writeBackWords (set p)).length) :
    unsent r p =
      if k = 0 then []
      else writeWord (r.writeBackWords (set p))[k] ::
        ((r.writeBackWords (set p)).drop (k + 1)).map writeWord := by
  rw [unsent, counter]
  by_cases first : k = 0
  · rw [if_pos first, if_neg (by omega)]
  · rw [if_neg first, if_pos ⟨state, by omega⟩, Nat.add_sub_cancel,
      List.drop_eq_getElem_cons inside, List.map_cons]

end

section

variable {h : CachePorts} {inputs : Inputs}

/-- While a write-back has words left the bus is the data cache's. -/
theorem granted_of_unsent {m : MemorySystem} {p : DcRequest} (tracked : m.Tracked p)
    (left : unsent m.dc p ≠ []) : m.grant = .dc := by
  have both : m.dc.pState = .c ∧ 2 ≤ m.dc.pCounter.toNat := by
    by_contra other
    exact left (if_neg other)
  obtain ⟨state, two⟩ := both
  cases tracked.phase with
  | evict _ _ _ _ burst =>
      cases burst with
      | start counter =>
          rw [counter] at two
          exact absurd two (by decide)
      | waiting counter =>
          rw [counter] at two
          exact absurd two (by decide)
      | sending _ _ _ _ _ _ _ granted => exact granted
      | sent _ _ _ granted => exact granted
  | idle other => rw [state] at other; cases other
  | lookup other => rw [state] at other; cases other
  | ask other => rw [state] at other; cases other
  | refill other => rw [state] at other; cases other

theorem unsent_now (legal : h.Legal inputs) :
    unsent h.system.dc inputs.dc = unsent h.system.dc h.dc := by
  by_cases idle : h.system.dc.pState = .a
  · rw [unsent_eq_nil (by simp [idle]), unsent_eq_nil (by simp [idle])]
  · rw [legal.dcHeld idle]

theorem unsent_of_silent (silent : h.busWord inputs = none) :
    unsent (h.step inputs).system.dc inputs.dc = unsent h.system.dc inputs.dc := by
  have waits : h.dcReqack inputs = false := by
    by_contra ack
    rw [Bool.not_eq_false] at ack
    rw [busWord, accepted_eq, ack] at silent
    cases ic : h.icReqack inputs <;> simp [ic] at silent
  exact unsent_waits waits

/-- An accepted word is allowed, and the expected ones follow it. -/
theorem Linked.busWord_step (linked : h.Linked) (legal : h.Legal inputs) {w : BusWord}
    (shown : h.busWord inputs = some w) :
    writeBacks.allows (unsent h.system.dc inputs.dc) w ∧
      unsent (h.step inputs).system.dc inputs.dc =
        writeBacks.next (unsent h.system.dc inputs.dc) w := by
  obtain ⟨data, -, dcPort⟩ := linked.now legal
  have exclusive := exclusive h inputs
  rw [busWord, accepted_eq] at shown
  cases ic : h.icReqack inputs with
  | true =>
      have granted := (exclusive.ic ic).1
      have none : unsent h.system.dc inputs.dc = [] := by
        by_contra left
        rw [granted_of_unsent data left] at granted
        cases granted
      have waits : h.dcReqack inputs = false := by
        rw [← Bool.not_eq_true]
        exact fun dc => exclusive.one ⟨ic, dc⟩
      have later : unsent (h.step inputs).system.dc inputs.dc = unsent h.system.dc inputs.dc :=
        unsent_waits waits
      rw [ic, if_pos rfl, Option.map_some, Option.some.injEq] at shown
      have tag : w.word.reqtag ≠ writeTag := by
        rw [← shown, (linked.icPort (exclusive.ic ic).2.1).2]
        change ICache.readTag ≠ writeTag
        decide
      rw [later, none]
      refine ⟨fun write => absurd write tag, ?_⟩
      exact (if_neg tag).symm
  | false =>
      cases dc : h.dcReqack inputs with
      | false => simp [ic, dc] at shown
      | true =>
          rw [ic, dc, if_neg (by decide), if_pos rfl, Option.map_some, Option.some.injEq] at shown
          subst shown
          cases dcPort with
          | off off =>
              have on := (exclusive.dc dc).2.1
              rw [off] at on
              cases on
          | asks state word =>
              have none : unsent h.system.dc inputs.dc = [] := unsent_eq_nil (by simp [state])
              have next : (h.step inputs).system.dc.pState = .e := by
                change h.system.dc.nState inputs.dc _ = .e
                have ack : (h.system.dcResponse inputs.events).reqack = true := dc
                simp [DCache.Regs.nState, state, ack]
              rw [none, unsent_eq_nil (by simp [next]), word]
              have tag : readTag ≠ writeTag := by decide
              exact ⟨fun write => absurd write tag, rfl⟩
          | sends state k counter inside word =>
              have later : unsent (h.step inputs).system.dc inputs.dc = _ :=
                unsent_ack state counter dc
              rw [later, unsent_eq state counter inside]
              by_cases first : k = 0
              · subst first
                rw [if_pos rfl]
                refine ⟨fun _ => word, ?_⟩
                rw [tail_writeBackWords, word]
                rfl
              · rw [if_neg first]
                exact ⟨word, rfl⟩

end

/-- What the bus guarantees to both caches: one acknowledgement at a time and to the
cache that has its word there, every word that is sent is accepted once and in order, and
the words of a write-back follow each other. -/
structure Orderly (h : CachePorts) (inputs : List Inputs) : Prop where
  acks : Runs.Guarded step Exclusive h inputs
  fetchWords : (Runs.emits step accepted h inputs).filter isFetch ++ (Runs.run step h inputs).icPort =
    h.icPort ++ Runs.emits step icSent h inputs
  dataWords : ((Runs.emits step accepted h inputs).filter fun word => !isFetch word) ++
      (Runs.run step h inputs).dcPort =
    h.dcPort ++ Runs.emits step dcSent h inputs
  bursts : writeBacks.Accepts [] (Runs.emits step busWord h inputs)

theorem bus_in_order (ram : Ram) (inputs : List Inputs)
    (legal : Runs.Guarded step Legal (start ram) inputs) : Orderly (start ram) inputs := by
  have linked := linked_start ram
  have preserved : ∀ h inputs, Linked h → Legal h inputs → Linked (h.step inputs) :=
    fun _ _ linked legal => linked.step legal
  refine ⟨legal.mono fun h inputs _ => exclusive h inputs, ?_, ?_, ?_⟩
  · rw [Runs.filter_emits]
    exact legal.conserves preserved (fun _ _ linked legal => linked.ic_conserves legal) linked
  · rw [Runs.filter_emits]
    exact legal.conserves preserved (fun _ _ linked legal => linked.dc_conserves legal) linked
  · refine Runs.Monitor.accepts_emits
      (fun h expected => h.Linked ∧ expected = unsent h.system.dc h.dc) ?_ ?_ ⟨linked, rfl⟩ legal
    · rintro h inputs _ ⟨linked, rfl⟩ legal silent
      exact ⟨linked.step legal, ((unsent_of_silent silent).trans (unsent_now legal)).symm⟩
    · rintro h inputs _ w ⟨linked, rfl⟩ legal shown
      obtain ⟨allowed, next⟩ := linked.busWord_step legal shown
      rw [unsent_now legal] at allowed next
      exact ⟨allowed, linked.step legal, next.symm⟩

/-- Both caches miss in the same cycle.  The read of line 0 goes to the bus first; then the
data cache writes a line of the reset back. -/
theorem bus_in_order_both_miss :
    Orderly (start (Ram.ofWords [1, 2]))
      (CacheHistory.holding ⟨true, 0, 1⟩ ⟨true, 2, 0, 0, true, 0, 0, 3⟩
        (List.replicate 20 (.completing []))) :=
  bus_in_order _ _ (by decide +kernel)

end CachePorts

end Sparcy
