import Sparcy.DataCoherence
import Sparcy.LineMemory

/-!
# Lines that no store names

The RAM only changes by write-backs, and these carry lines of the abstract memory.  A line
that the program never stores to is therefore the same in the RAM, whether or not the data
cache holds it, and the instruction cache may be filled from it at any time.
-/

namespace Sparcy

open Words (word)

theorem System.command_ram (s : System) (bus : BusRequest) : (s.command bus).ram = s.ram := by
  unfold System.command
  dsimp only
  split_ifs <;> rfl

namespace MemorySystem

open DCache (writeTag)
open DCache.Regs (set)

section

variable {m : MemorySystem} {p : DcRequest} {events : DramEvents}

/-- Outside a burst a tick leaves the RAM as it is. -/
theorem ram_step_of_first (ip : IcRequest) (first : m.sys.rxCount = 0) :
    (m.step ip p events).sys.ram = m.sys.ram := by
  obtain ⟨ram, count, -⟩ := served_frame m ip p events
  rw [step_sys]
  cases asks : (m.step ip p events).bus.reqcyc with
  | false =>
      rw [System.request_idle asks]
      exact ram
  | true =>
      rw [System.request_command asks (count.trans first), System.command_ram]
      exact ram

/-- A word of a write-back is the one that the abstract memory has at its place. -/
theorem ram_step_of_word (ip : IcRequest) (allowed : m.Allowed events)
    (state : m.dc.pState = .c) (loaded : m.dc.Loaded p) {n : Nat}
    (counter : m.dc.pCounter.toNat = n + 1) (more : n < 8) (tag : m.dc.pReqtag = writeTag)
    (count : m.sys.rxCount = 8 - n)
    (xfer : m.sys.xferAddr = Ram.lineAddress (m.dc.lineAt (set p))) (granted : m.grant = .dc)
    (l : BitVec 58) {k : Nat} (inside : k < 8) :
    (m.step ip p events).sys.ram.doubleword l k =
      if l = m.dc.lineAt (set p) ∧ k = n then word 64 (m.memory p l) k
      else m.sys.ram.doubleword l k := by
  have started : m.sys.rxCount ≠ 0 := by omega
  have ack : (m.dcResponse events).reqack = true :=
    dcResponse_reqack_iff.mpr ⟨granted, allowed.burst started⟩
  have positive : m.dc.pCounter ≠ 0 := by
    intro zero
    rw [zero] at counter
    simp at counter
  have low : m.dc.pCounter < 9 := by
    rw [BitVec.lt_def, counter]
    exact Nat.succ_lt_succ more
  have request : (m.step ip p events).dc.bus =
      { reqcyc := true, req := word 64 (m.dc.dataSram.mem (set p)) n, reqtag := writeTag } := by
    change m.dc.nBus p (m.dcResponse events) = _
    rw [DCache.Regs.nBus, if_pos state, DCache.Regs.writeBack, if_neg positive, if_pos ack,
      if_pos low, tag, loaded.data, counter]
    rfl
  have on : (m.step ip p events).dc.pReqcyc = true := congrArg BusRequest.reqcyc request
  have reqtag : (m.step ip p events).dc.pReqtag = writeTag := congrArg BusRequest.reqtag request
  have req : (m.step ip p events).dc.pReq = word 64 (m.dc.dataSram.mem (set p)) n :=
    congrArg BusRequest.req request
  obtain ⟨ram, -⟩ := step_sys_word (grant_step granted on) started reqtag
  rw [show 8 - m.sys.rxCount = n by omega, xfer, req] at ram
  rw [ram, Ram.doubleword_store64 _ _ _ more inside]
  by_cases here : l = m.dc.lineAt (set p) ∧ k = n
  · obtain ⟨rfl, rfl⟩ := here
    have present : m.memory p (m.dc.lineAt (set p)) = m.dc.dataSram.mem (set p) := by
      rw [memory_of_present (by simp [state]), index_lineAt, tag_lineAt, if_pos rfl]
    rw [present]
  · rw [if_neg here, if_neg here]

/-- A tick leaves a doubleword of the RAM, or it stores the one that the abstract memory has
there. -/
theorem Tracked.ram_step (tracked : m.Tracked p) (allowed : m.Allowed events) (ip : IcRequest)
    (l : BitVec 58) {k : Nat} (inside : k < 8) :
    (m.step ip p events).sys.ram.doubleword l k = m.sys.ram.doubleword l k ∨
      (m.step ip p events).sys.ram.doubleword l k = word 64 (m.memory p l) k := by
  by_cases first : m.sys.rxCount = 0
  · left
    rw [ram_step_of_first ip first]
  · cases tracked.phase with
    | idle _ free => exact absurd free.count first
    | lookup _ free => exact absurd free.count first
    | ask _ count => exact absurd count first
    | refill _ _ count => exact absurd count first
    | evict state loaded dirty quiet burst =>
        cases burst with
        | start _ _ count => exact absurd count first
        | waiting _ _ _ _ count => exact absurd count first
        | sending n counter more on tag count xfer granted sent =>
            rw [ram_step_of_word ip allowed state loaded counter more tag count xfer granted l
              inside]
            split
            · exact .inr rfl
            · exact .inl rfl
        | sent counter on tag granted sent =>
            -- the last word has been accepted, so the write-back lets go of the bus
            left
            have ack : (m.dcResponse events).reqack = true :=
              dcResponse_reqack_iff.mpr ⟨granted, allowed.burst first⟩
            have off : (m.step ip p events).dc.pReqcyc = false := by
              change (m.dc.nBus p (m.dcResponse events)).reqcyc = false
              simp [DCache.Regs.nBus, DCache.Regs.writeBack, state, counter, ack]
            have silent : m.dc.Silent p (m.dcResponse events) :=
              DCache.Regs.silent_of_state (.inr state)
            rw [(step_free ip tracked quiet silent.2.2 off).2]

/-- A line of the RAM that agrees with the abstract memory stays so. -/
theorem Tracked.line_step (tracked : m.Tracked p) (allowed : m.Allowed events) (ip : IcRequest)
    {l : BitVec 58} (same : m.sys.ram.line l = m.memory p l) :
    (m.step ip p events).sys.ram.line l = m.memory p l := by
  symm
  rw [Ram.eq_line_iff]
  intro k inside
  have before : m.sys.ram.doubleword l k = word 64 (m.memory p l) k := by
    rw [← same, Ram.word_line _ _ inside]
  rcases tracked.ram_step allowed ip l inside with kept | stored
  · rw [kept, before]
  · exact stored

end

end MemorySystem

end Sparcy
