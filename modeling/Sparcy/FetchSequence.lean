import Sparcy.InFlight

/-!
# The sequence of fetched instructions

Addresses are delivered by fetch and redirected by Execute, several cycles apart.  Fetch
keeps to delayed control transfer with regard to the redirections: each sets the successor
of the delay slot.  It does so through the order of events, because a transfer reaches
Execute before its delay slot reaches decode, and through the comparison of the target with
the address fetched last.
-/

namespace Sparcy

/-- What fetch and Execute do to the sequence of instructions. -/
inductive FetchEvent where
  /-- Fetch hands the word at this address to `IFIDReg`. -/
  | deliver (address : BitVec 32)
  /-- A taken transfer is resolved in Execute. -/
  | redirect (branch target : BitVec 32)
deriving DecidableEq

/-- The program counters, and the last instruction if no transfer has been reported of
it. -/
structure ProgramCounters where
  last : Option (BitVec 32)
  pc : BitVec 32
  nPc : BitVec 32

/-- `pc` is delivered and `nPc` follows it; a redirection is that of the last instruction
and replaces `nPc`. -/
def fetchLaw : Runs.Monitor ProgramCounters FetchEvent where
  allows counters
    | .deliver address => address = counters.pc
    | .redirect branch _ => counters.last = some branch
  next counters
    | .deliver address => { last := some address, pc := counters.nPc, nPc := counters.nPc + 4 }
    | .redirect _ target => { counters with last := none, nPc := target }

instance (counters : ProgramCounters) :
    ∀ event, Decidable (fetchLaw.allows counters event)
  | .deliver _ => inferInstanceAs (Decidable (_ = _))
  | .redirect _ _ => inferInstanceAs (Decidable (_ = _))

namespace Fetch.Regs

/-- The address in `p_pc` and the one in the counter, as 32-bit addresses. -/
def lastAddress (r : Regs) : BitVec 32 := r.pPc.setWidth 32

/-- The address being fetched, `n_pc`. -/
def address (r : Regs) : BitVec 32 := r.nPc.setWidth 32

end Fetch.Regs

namespace Core

/-- A taken transfer is in its first cycle in Execute and is not annulled. -/
def resolves (s : Core) : Bool :=
  s.execute.pState == .a && !s.execute.annulIn && (Execute.aluOut s.idex s.syscallResult).muxSel

/-- A stalled transfer repeats its redirection. -/
def repeatsRedirect (s : Core) : Bool := s.execute.pState == .b && s.execute.pMuxSel

/-- The target of the transfer in `IDEXReg`. -/
def target (s : Core) : BitVec 32 := (Execute.aluOut s.idex s.syscallResult).target

end Core

namespace Tagged

/-- The event of a cycle.  A delivery and a resolved transfer never coincide. -/
def fetchEvent (t : Tagged Unit) : Option FetchEvent :=
  if t.delivers then some (.deliver t.core.fetch.lastAddress)
  else if t.core.resolves then
    some (.redirect (t.core.idex.pcPlus4.setWidth 32) t.core.target)
  else none

/-- The cases in which the counter goes wrong: a transfer to its own delay slot; a stalled
transfer to address 0 while fetch looks for its next address; and an annulled
transfer that stalls. -/
def FetchSafe (s : Core) : Prop :=
  (s.resolves = true → s.target = s.fetch.address → s.target = 0) ∧
  (s.repeatsRedirect = true → s.fetch.pState = .a → s.execute.pTarget ≠ 0) ∧
  (s.execute.annulIn = true →
    (Execute.aluOut s.idex s.syscallResult).muxSel = true → s.memReady = true)

instance (s : Core) : Decidable (FetchSafe s) := inferInstanceAs (Decidable (_ ∧ _))

/-- Fetch is busy with `pc`.  The counter is at `nPc`, or a stalled transfer to `pc`
holds it there. -/
structure Fetching (t : Tagged Unit) (m : ProgramCounters) : Prop where
  busy : t.core.fetch.pState = .a → t.fetched = true
  address : t.core.fetch.lastAddress = m.pc
  counter :
    (t.core.fetch.nPcOut = m.nPc ∧ (m.nPc = m.pc → m.pc = 0) ∧
      (t.core.repeatsRedirect = true → t.core.execute.pTarget = m.nPc)) ∨
    (t.core.fetch.nPcOut = m.pc ∧ m.nPc = m.pc + 4 ∧ m.pc ≠ 0 ∧
      (t.core.repeatsRedirect = true → t.core.execute.pTarget = m.pc))

/-- Fetch has delivered everything and finds its counter at the address it fetched
last, or at the next one after such a cycle. -/
structure Spinning (t : Tagged Unit) (m : ProgramCounters) : Prop where
  idle : t.core.fetch.pState = .a
  shown : t.fetched = false
  address : m.pc = t.core.fetch.lastAddress + 4
  next : m.nPc = m.pc + 4
  counter :
    (t.core.fetch.nPcOut = t.core.fetch.lastAddress ∧ t.core.fetch.lastAddress ≠ 0 ∧
      t.core.idex.Quiet ∧
      (t.core.repeatsRedirect = true →
        t.core.execute.pTarget = t.core.fetch.lastAddress)) ∨
    (t.core.fetch.nPcOut = m.pc ∧ t.core.repeatsRedirect = false)

/-- The relation between the processor and the program counters. -/
structure FetchTracks (t : Tagged Unit) (m : ProgramCounters) : Prop where
  spaced : t.core.Spaced
  wide : t.core.fetch.pPc = t.core.fetch.lastAddress.setWidth 64
  fresh : t.core.fetch.pState = .a → t.fetched = true →
    ¬ t.core.Decoding ∧ t.core.idex.Quiet
  stale : t.core.fetch.pState = .a → t.fetched = false → t.core.fetch.pInst = Inst.nop
  decode : t.core.Decoding → m.last = some ((t.core.decode.nPc t.core.ifid).setWidth 32)
  execute : t.core.execute.pState = .a →
    (Execute.aluOut t.core.idex t.core.syscallResult).muxSel = true →
    m.last = some (t.core.idex.pcPlus4.setWidth 32)
  position : Fetching t m ∨ Spinning t m

end Tagged

/-! ### Execute as fetch sees it -/

theorem aluOut_muxSel_of_idle {x : IDEX} (bubble : Execute.idle x = true) (syscall : BitVec 32) :
    (Execute.aluOut x syscall).muxSel = false := by
  simp only [Execute.idle, isBubble, Bool.and_eq_true, beq_iff_eq] at bubble
  have out : Execute.aluOut x syscall = (Execute.aluIn x).sethi := by
    simp [Execute.aluOut, AluIn.alu, AluIn.format2, Execute.aluIn, bubble.1.1, bubble.1.2]
  rw [out]
  rfl

namespace Core

section

variable {s : Core} {syscall : Syscall} {events : DramEvents}

theorem not_resolves_of_quiet (quiet : s.idex.Quiet) : s.resolves = false := by
  simp [resolves, aluOut_muxSel_of_idle quiet.idle]

/-- What drives the multiplexer in front of the counter. -/
theorem exOut_muxSel (back : s.BackSpaced) :
    s.exOut.muxSel = (s.resolves || s.repeatsRedirect) := by
  rw [exOut_eq]
  cases state : s.execute.pState with
  | a =>
      cases annulled : s.execute.annulIn <;>
        simp [resolves, repeatsRedirect, inExecute, Execute.live, Execute.Regs.squashed, state,
          annulled]
  | b =>
      have kept : s.execute.annulIn = false := by
        by_contra annulled
        rw [back.annulled (by simpa using annulled)] at state
        cases state
      simp [resolves, repeatsRedirect, inExecute, Execute.Regs.held, state, kept]

theorem exOut_target_of_resolves (taken : s.resolves = true) :
    s.exOut.target = s.target.setWidth 64 := by
  simp only [resolves, Bool.and_eq_true, beq_iff_eq, Bool.not_eq_true'] at taken
  obtain ⟨⟨state, kept⟩, -⟩ := taken
  simp [exOut_eq, kept, inExecute, state, Execute.live, target]

theorem exOut_target_of_repeats (back : s.BackSpaced) (held : s.repeatsRedirect = true) :
    s.exOut.target = s.execute.pTarget.setWidth 64 := by
  simp only [repeatsRedirect, Bool.and_eq_true, beq_iff_eq] at held
  have kept : s.execute.annulIn = false := by
    by_contra annulled
    rw [back.annulled (by simpa using annulled)] at held
    cases held.1
  simp [exOut_eq, kept, inExecute, held.1, Execute.Regs.held]

/-- A repeated redirection is that of the cycle before or of a transfer that has
just stalled. -/
theorem repeatsRedirect_step (safe : Tagged.FetchSafe s)
    (held : (s.step syscall events).repeatsRedirect = true) :
    (s.repeatsRedirect = true ∧ (s.step syscall events).execute.pTarget = s.execute.pTarget) ∨
      (s.resolves = true ∧ (s.step syscall events).execute.pTarget = s.target) := by
  simp only [repeatsRedirect, Bool.and_eq_true, beq_iff_eq] at held
  obtain ⟨holding, asserts⟩ := held
  have busy := memReady_of_held holding
  cases state : s.execute.pState with
  | b =>
      have same := Execute.Regs.copy_of_held s.idex s.syscallResult state
      simp only [step_execute, Execute.Regs.step, same] at asserts ⊢
      simp [repeatsRedirect, state, asserts]
  | a =>
      simp only [step_execute, Execute.Regs.step, Execute.Regs.copy, state] at asserts ⊢
      right
      have kept : s.execute.annulIn = false := by
        by_contra annulled
        rw [safe.2.2 (by simpa using annulled) asserts] at busy
        cases busy
      simp [resolves, state, kept, asserts, target]

/-- Decode puts a transfer into `IDEXReg` only by releasing it. -/
theorem decodeOut_muxSel {result : BitVec 32}
    (taken : (Execute.aluOut s.decodeOut result).muxSel = true) :
    s.Decoding ∧ s.decodeOut.pcPlus4 = s.decode.nPc s.ifid := by
  have word : s.decode.passesNop s.ifid = false := by
    by_contra passes
    rw [Bool.not_eq_false] at passes
    have fields : s.decodeOut.fields = Decode.bubbleFields s.ifid.inst := by
      simp [decodeOut, Decode.Regs.outFields, passes]
    simp only [Decode.Regs.passesNop, Decode.isNop, Bool.and_eq_true, Bool.or_eq_true,
      beq_iff_eq] at passes
    rcases passes.2 with nop | stbar
    · have bubble : Execute.idle s.decodeOut = true := by
        simp only [Execute.idle, fields, nop]
        decide
      rw [aluOut_muxSel_of_idle bubble] at taken
      cases taken
    · have out : Execute.aluOut s.decodeOut result =
          { (Execute.aluIn s.decodeOut).default with
            res := wide (Execute.aluIn s.decodeOut).y } := by
        have op : (Execute.aluIn s.decodeOut).op = 0b10 := by
          simp only [Execute.aluIn, fields, stbar]
          decide
        have op3 : (Execute.aluIn s.decodeOut).op3 = Op3.RDY := by
          simp only [Execute.aluIn, fields, stbar]
          decide
        simp [Execute.aluOut, AluIn.alu, AluIn.format3, op, op3]
      rw [out] at taken
      cases taken
  have moves : s.decode.waits s.ifid s.hazards = false := by
    by_contra waits
    rw [Bool.not_eq_false] at waits
    rw [aluOut_muxSel_of_idle (decodeOut_quiet_of_waits waits).idle] at taken
    cases taken
  constructor
  · by_contra free
    simp only [Decoding, not_or, not_not] at free
    simp [Decode.Regs.passesNop, Decode.isNop, free.1, free.2] at word
  · simp [decodeOut, Decode.Regs.outPc, moves]

end

end Core

/-! ### The counter -/

namespace Fetch.Regs

theorem address_eq (r : Regs) :
    r.address = if r.pState = .a then r.nPcOut else r.lastAddress := by
  cases state : r.pState <;>
    simp [address, nPc, pcOut, ifReady, lastAddress, state]

theorem repeats_iff {r : Regs} (idle : r.pState = .a)
    (wide : r.pPc = r.lastAddress.setWidth 64) :
    r.repeats = true ↔ r.nPcOut = r.lastAddress ∧ r.nPcOut ≠ 0 := by
  have zero : (r.nPcOut.setWidth 64 = 0) ↔ r.nPcOut = 0 := by
    constructor <;> intro h <;> bv_omega
  have same : (r.nPcOut.setWidth 64 = r.lastAddress.setWidth 64) ↔ r.nPcOut = r.lastAddress := by
    constructor <;> intro h <;> bv_omega
  simp only [repeats, pcOut, ifReady, idle, beq_self_eq_true, if_true, decide_eq_true_eq]
  rw [wide, same, ne_eq, zero]

end Fetch.Regs

namespace Core

section

variable {s : Core} {syscall : Syscall} {events : DramEvents}

theorem lastAddress_step :
    (s.step syscall events).fetch.lastAddress = s.fetch.address := rfl

theorem wide_step (wide : s.fetch.pPc = s.fetch.lastAddress.setWidth 64) :
    (s.step syscall events).fetch.pPc =
      (s.step syscall events).fetch.lastAddress.setWidth 64 := by
  rw [lastAddress_step, Fetch.Regs.address_eq]
  cases state : s.fetch.pState <;>
    simp [Fetch.Regs.step, Fetch.Regs.nPc, Fetch.Regs.pcOut, Fetch.Regs.ifReady, state, ← wide]

variable (syscall events) in
theorem nPcOut_step (back : s.BackSpaced) :
    (s.step syscall events).fetch.nPcOut =
      if s.resolves then s.target
      else if s.repeatsRedirect then s.execute.pTarget
      else if s.fetch.pState = .a then s.fetch.nPcOut + 4
      else s.fetch.nPcOut := by
  simp only [step_fetch, Fetch.Regs.nPcOut, Fetch.Regs.step, Fetch.Regs.nextNPc,
    exOut_muxSel back, Fetch.Regs.ifReady, beq_iff_eq]
  cases taken : s.resolves with
  | true =>
      rw [exOut_target_of_resolves taken]
      simp
  | false =>
      cases held : s.repeatsRedirect with
      | true =>
          rw [exOut_target_of_repeats back held]
          simp
      | false =>
          by_cases idle : s.fetch.pState = .a
          · simp [idle, BitVec.setWidth_add]
          · simp [idle]

end

end Core

/-! ### One cycle -/

namespace Tagged

section

variable {t : Tagged Unit} {m : ProgramCounters} {syscall : Syscall} {events : DramEvents}

/-- The program counters after the event of a cycle. -/
def advance (t : Tagged Unit) (m : ProgramCounters) : ProgramCounters :=
  t.fetchEvent.elim m (fetchLaw.next m)

theorem FetchTracks.delivers_iff (tracks : FetchTracks t m) :
    t.delivers = true ↔ t.core.fetch.pState = .a ∧ t.fetched = true := by
  constructor
  · intro delivers
    simp only [Tagged.delivers, Bool.and_eq_true, beq_iff_eq] at delivers
    exact delivers.1
  · rintro ⟨idle, shown⟩
    have free := (tracks.fresh idle shown).1
    simp only [Core.Decoding, not_or, not_not] at free
    simp [Tagged.delivers, Core.idReady, Decode.Regs.idReady, idle, shown, free.1]

theorem FetchTracks.advance_of_delivers (tracks : FetchTracks t m)
    (idle : t.core.fetch.pState = .a) (shown : t.fetched = true) :
    t.fetchEvent = some (.deliver t.core.fetch.lastAddress) ∧
      advance t m =
        { last := some t.core.fetch.lastAddress, pc := m.nPc, nPc := m.nPc + 4 } := by
  have delivers := tracks.delivers_iff.mpr ⟨idle, shown⟩
  have event : t.fetchEvent = some (.deliver t.core.fetch.lastAddress) := by
    simp [fetchEvent, delivers]
  exact ⟨event, by simp [advance, event, fetchLaw]⟩

theorem FetchTracks.advance_of_resolves (tracks : FetchTracks t m)
    (taken : t.core.resolves = true) :
    ¬ (t.core.fetch.pState = .a ∧ t.fetched = true) ∧
      t.fetchEvent = some (.redirect (t.core.idex.pcPlus4.setWidth 32) t.core.target) ∧
      advance t m = { m with last := none, nPc := t.core.target } := by
  have apart : ¬ (t.core.fetch.pState = .a ∧ t.fetched = true) := by
    rintro ⟨idle, shown⟩
    rw [Core.not_resolves_of_quiet (tracks.fresh idle shown).2] at taken
    cases taken
  have event :
      t.fetchEvent = some (.redirect (t.core.idex.pcPlus4.setWidth 32) t.core.target) := by
    simp [fetchEvent, mt tracks.delivers_iff.mp apart, taken]
  exact ⟨apart, event, by simp [advance, event, fetchLaw]⟩

theorem FetchTracks.advance_of_silent (tracks : FetchTracks t m)
    (apart : ¬ (t.core.fetch.pState = .a ∧ t.fetched = true))
    (untaken : t.core.resolves = false) : t.fetchEvent = none ∧ advance t m = m := by
  have event : t.fetchEvent = none := by
    simp [fetchEvent, mt tracks.delivers_iff.mp apart, untaken]
  exact ⟨event, by simp [advance, event]⟩

theorem FetchTracks.fresh_step (tracks : FetchTracks t m)
    (idle : (t.core.step syscall events).fetch.pState = .a)
    (shown : (t.core.fetch.pState != .a) = true) :
    ¬ (t.core.step syscall events).Decoding ∧ (t.core.step syscall events).idex.Quiet := by
  have busy : t.core.fetch.pState ≠ .a := by simpa using shown
  obtain ⟨front, -, back, -⟩ := tracks.spaced
  obtain ⟨answered, free⟩ := front.leaves busy (.inl idle)
  have next := front.free_step busy answered free syscall events
  refine ⟨by simp only [Core.Decoding, next.1, next.2, ne_eq, not_true, or_self, not_false_iff],
    back.quiet_step ?_ syscall events⟩
  simp [Core.Decoding, free, front.empty busy answered]

theorem FetchTracks.stale_step (idle : (t.core.step syscall events).fetch.pState = .a)
    (shown : (t.core.fetch.pState != .a) = false) :
    (t.core.step syscall events).fetch.pInst = Inst.nop := by
  have still : t.core.fetch.pState = .a := by simpa using shown
  cases repeats : t.core.fetch.repeats with
  | true => simp [Fetch.Regs.step, Fetch.Regs.nInst, still, repeats]
  | false => simp [Fetch.Regs.step, Fetch.Regs.nState, still, repeats] at idle

/-- While a word is under decode nothing is delivered and no transfer resolved. -/
theorem FetchTracks.advance_of_decoding (tracks : FetchTracks t m)
    (decoding : t.core.Decoding) : advance t m = m := by
  refine (tracks.advance_of_silent ?_ ?_).2
  · rintro ⟨idle, shown⟩
    exact (tracks.fresh idle shown).1 decoding
  · exact Core.not_resolves_of_quiet (tracks.spaced.back.behindDecode decoding)

theorem FetchTracks.decode_step (tracks : FetchTracks t m)
    (decoding : (t.core.step syscall events).Decoding) :
    (advance t m).last = some
      (((t.core.step syscall events).decode.nPc (t.core.step syscall events).ifid).setWidth
        32) := by
  by_cases delivers : t.core.fetch.pState = .a ∧ t.fetched = true
  · -- the delivered word is in IFIDReg, with its address
    obtain ⟨idle, shown⟩ := delivers
    have free := (tracks.fresh idle shown).1
    simp only [Core.Decoding, not_or, not_not] at free
    have nextFree := Core.decode_free_of_nop free.1 free.2 syscall events
    have address : (t.core.step syscall events).decode.nPc (t.core.step syscall events).ifid =
        t.core.fetch.pPc := by
      simp only [Decode.Regs.nPc, nextFree]
      simp [IFID.step, Core.idReady, Decode.Regs.idReady, free.1, Fetch.Regs.out]
    rw [(tracks.advance_of_delivers idle shown).2, address]
    rfl
  · have held : (t.core.step syscall events).decode.pState ≠ .a := by
      rcases decoding with held | word
      · exact held
      · obtain ⟨-, idle, fetched⟩ := tracks.spaced.front.arrives word
        have notShown : t.fetched = false := by
          by_contra shown
          exact delivers ⟨idle, by simpa using shown⟩
        exact absurd (tracks.stale idle notShown) fetched
    have before := Core.Decoding.before held
    have address : (t.core.step syscall events).decode.nPc (t.core.step syscall events).ifid =
        t.core.decode.nPc t.core.ifid := by
      cases state : (t.core.step syscall events).decode.pState with
      | a => exact absurd state held
      | b =>
          simp only [Decode.Regs.nPc, state]
          rfl
      | s =>
          simp only [Decode.Regs.nPc, state]
          rfl
    rw [tracks.advance_of_decoding before, address]
    exact tracks.decode before

theorem FetchTracks.execute_step (tracks : FetchTracks t m)
    (taken : (Execute.aluOut (t.core.step syscall events).idex
      (t.core.step syscall events).syscallResult).muxSel = true) :
    (advance t m).last = some ((t.core.step syscall events).idex.pcPlus4.setWidth 32) := by
  cases ready : t.core.exReady with
  | true =>
      have loaded : (t.core.step syscall events).idex = t.core.decodeOut := by
        simp [IDEX.step, ready]
      rw [loaded] at taken ⊢
      obtain ⟨decoding, address⟩ := Core.decodeOut_muxSel taken
      rw [tracks.advance_of_decoding decoding, address]
      exact tracks.decode decoding
  | false =>
      have kept : (t.core.step syscall events).idex = t.core.idex := by simp [IDEX.step, ready]
      rw [kept, aluOut_muxSel_of_idle (tracks.spaced.back.stalled ready).idle] at taken
      cases taken

/-! ### Where fetch is -/

variable (syscall events) in
theorem pState_step_of_idle (idle : t.core.fetch.pState = .a) :
    (t.core.step syscall events).fetch.pState =
      if t.core.fetch.repeats then .a else .b := by
  simp [Fetch.Regs.step, Fetch.Regs.nState, idle]

variable (syscall events) in
theorem lastAddress_step_of_idle (idle : t.core.fetch.pState = .a) :
    (t.core.step syscall events).fetch.lastAddress = t.core.fetch.nPcOut := by
  rw [Core.lastAddress_step, Fetch.Regs.address_eq, if_pos idle]

variable (syscall events) in
/-- Without a transfer in its first cycle only a repeated redirection goes on. -/
theorem pTarget_step_of_not_resolves (safe : FetchSafe t.core)
    (untaken : t.core.resolves = false)
    (held : (t.core.step syscall events).repeatsRedirect = true) :
    t.core.repeatsRedirect = true ∧
      (t.core.step syscall events).execute.pTarget = t.core.execute.pTarget := by
  rcases Core.repeatsRedirect_step safe held with before | new
  · exact before
  · rw [untaken] at new
    cases new.1

theorem counter_of_resolves (back : t.core.BackSpaced) (safe : FetchSafe t.core)
    (taken : t.core.resolves = true) (address : t.core.fetch.address = m.pc) :
    (t.core.step syscall events).fetch.nPcOut = t.core.target ∧
      (t.core.target = m.pc → m.pc = 0) ∧
      ((t.core.step syscall events).repeatsRedirect = true →
        (t.core.step syscall events).execute.pTarget = t.core.target) := by
  refine ⟨by rw [Core.nPcOut_step syscall events back, if_pos taken], ?_, ?_⟩
  · intro same
    have zero := safe.1 taken (same.trans address.symm)
    exact same.symm.trans zero
  · intro held
    rcases Core.repeatsRedirect_step safe held with before | new
    · have stalled := before.1
      simp only [Core.repeatsRedirect, Core.resolves, Bool.and_eq_true, beq_iff_eq]
        at stalled taken
      rw [stalled.1] at taken
      cases taken.1.1
    · exact new.2

theorem add_four_ne (address : BitVec 32) : address + 4 ≠ address := by
  bv_omega

/-- While fetch waits for a word, or for decode, it keeps its address. -/
theorem FetchTracks.position_of_busy (tracks : FetchTracks t m) (safe : FetchSafe t.core)
    (fetching : Fetching t m) (busy : t.core.fetch.pState ≠ .a) :
    Fetching (t.step (fun _ => ()) syscall events) (advance t m) := by
  have back := tracks.spaced.back
  have address : t.core.fetch.address = m.pc := by
    rw [Fetch.Regs.address_eq, if_neg busy, fetching.address]
  have shown : (t.step (fun _ => ()) syscall events).fetched = true := by simpa using busy
  cases taken : t.core.resolves with
  | true =>
      obtain ⟨-, -, counters⟩ := tracks.advance_of_resolves taken
      rw [counters]
      exact ⟨fun _ => shown, address, .inl (counter_of_resolves back safe taken address)⟩
  | false =>
      rw [(tracks.advance_of_silent (fun both => busy both.1) taken).2]
      refine ⟨fun _ => shown, address, ?_⟩
      have moved := Core.nPcOut_step syscall events back
      rw [taken, if_neg (by simp), if_neg busy] at moved
      have held := pTarget_step_of_not_resolves syscall events safe taken
      simp only [step_core]
      rw [moved]
      rcases fetching.counter with ⟨counter, apart, asserts⟩ | ⟨counter, next, nonzero, asserts⟩
      · refine .inl ⟨?_, apart, fun late => (held late).2.trans (asserts (held late).1)⟩
        split
        · exact asserts ‹_›
        · exact counter
      · refine .inr ⟨?_, next, nonzero, fun late => (held late).2.trans (asserts (held late).1)⟩
        split
        · exact asserts ‹_›
        · exact counter

/-- When fetch shows a word it starts on the next address, unless the counter still
has the one it fetched last. -/
theorem FetchTracks.position_of_shown (tracks : FetchTracks t m) (safe : FetchSafe t.core)
    (fetching : Fetching t m) (idle : t.core.fetch.pState = .a) :
    Fetching (t.step (fun _ => ()) syscall events) (advance t m) ∨
      Spinning (t.step (fun _ => ()) syscall events) (advance t m) := by
  have back := tracks.spaced.back
  have shown := fetching.busy idle
  obtain ⟨free, quiet⟩ := tracks.fresh idle shown
  have untaken := Core.not_resolves_of_quiet quiet
  have repeats := Fetch.Regs.repeats_iff idle tracks.wide
  have state := pState_step_of_idle syscall events idle
  have address := lastAddress_step_of_idle syscall events idle
  have moved := Core.nPcOut_step syscall events back
  rw [untaken, if_neg (by simp), if_pos idle] at moved
  have held := pTarget_step_of_not_resolves syscall events safe untaken
  rw [(tracks.advance_of_delivers idle shown).2]
  rw [fetching.address] at repeats
  rcases fetching.counter with ⟨counter, apart, asserts⟩ | ⟨counter, next, nonzero, asserts⟩
  · left
    have moves : t.core.fetch.repeats = false := by
      rw [← Bool.not_eq_true, repeats, counter]
      rintro ⟨same, nonzero⟩
      exact nonzero (same.trans (apart same))
    rw [moves, if_neg (by simp)] at state
    refine ⟨fun still => ?_, address.trans counter, ?_⟩
    · rw [step_core, state] at still
      cases still
    · simp only [step_core]
      rw [moved]
      cases late : t.core.repeatsRedirect with
      | true =>
          have target := asserts late
          refine .inr ⟨by simpa using target, trivial, ?_, fun later => ?_⟩
          · rw [← target]
            exact safe.2.1 late idle
          · exact (held later).2.trans target
      | false =>
          refine .inl ⟨by simp [counter], fun same => absurd same (add_four_ne _), ?_⟩
          intro later
          rw [(held later).1] at late
          cases late
  · right
    have stays : t.core.fetch.repeats = true := by
      rw [repeats, counter]
      exact ⟨rfl, nonzero⟩
    rw [stays, if_pos rfl] at state
    refine ⟨state, by simp [idle], ?_, rfl, ?_⟩
    · simp only [step_core]
      rw [address, counter, next]
    · simp only [step_core]
      rw [moved, address, counter]
      cases late : t.core.repeatsRedirect with
      | true =>
          have target := asserts late
          refine .inl ⟨by simpa using target, nonzero, back.quiet_step free syscall events, ?_⟩
          exact fun later => (held later).2.trans target
      | false =>
          refine .inr ⟨by simp [next], ?_⟩
          by_contra later
          rw [(held (by simpa using later)).1] at late
          cases late

theorem FetchTracks.position_of_spinning (tracks : FetchTracks t m) (safe : FetchSafe t.core)
    (spinning : Spinning t m) :
    Fetching (t.step (fun _ => ()) syscall events) (advance t m) ∨
      Spinning (t.step (fun _ => ()) syscall events) (advance t m) := by
  have back := tracks.spaced.back
  have idle := spinning.idle
  have apart : ¬ (t.core.fetch.pState = .a ∧ t.fetched = true) := by
    simp [spinning.shown]
  have repeats := Fetch.Regs.repeats_iff idle tracks.wide
  have state := pState_step_of_idle syscall events idle
  have address := lastAddress_step_of_idle syscall events idle
  rcases spinning.counter with ⟨counter, nonzero, quiet, asserts⟩ | ⟨counter, quietLine⟩
  · right
    have untaken := Core.not_resolves_of_quiet quiet
    have moved := Core.nPcOut_step syscall events back
    rw [untaken, if_neg (by simp), if_pos idle] at moved
    have held := pTarget_step_of_not_resolves syscall events safe untaken
    have stays : t.core.fetch.repeats = true := repeats.mpr ⟨counter, counter ▸ nonzero⟩
    rw [stays, if_pos rfl] at state
    rw [(tracks.advance_of_silent apart untaken).2]
    refine ⟨state, by simp [idle], ?_, spinning.next, ?_⟩
    · simp only [step_core]
      rw [address, counter]
      exact spinning.address
    · simp only [step_core]
      rw [moved, address, counter]
      cases late : t.core.repeatsRedirect with
      | true =>
          have stalled : t.core.execute.pState = .b := by
            simp only [Core.repeatsRedirect, Bool.and_eq_true, beq_iff_eq] at late
            exact late.1
          have kept : (t.core.step syscall events).idex = t.core.idex := by
            simp [IDEX.step, (back.held stalled).1]
          have target := asserts late
          refine .inl ⟨by simpa using target, nonzero, ?_, ?_⟩
          · rw [kept]
            exact quiet
          · exact fun later => (held later).2.trans target
      | false =>
          refine .inr ⟨by simp [spinning.address], ?_⟩
          by_contra later
          rw [(held (by simpa using later)).1] at late
          cases late
  · left
    have moves : t.core.fetch.repeats = false := by
      rw [← Bool.not_eq_true, repeats, counter, spinning.address]
      exact fun same => absurd same.1 (add_four_ne _)
    rw [moves, if_neg (by simp)] at state
    have resumes : (t.step (fun _ => ()) syscall events).core.fetch.pState = .a →
        (t.step (fun _ => ()) syscall events).fetched = true := by
      intro still
      rw [step_core, state] at still
      cases still
    have here : t.core.fetch.address = m.pc := by
      rw [Fetch.Regs.address_eq, if_pos idle, counter]
    cases taken : t.core.resolves with
    | true =>
        obtain ⟨-, -, counters⟩ := tracks.advance_of_resolves taken
        rw [counters]
        exact ⟨resumes, address.trans counter,
          .inl (counter_of_resolves back safe taken here)⟩
    | false =>
        have moved := Core.nPcOut_step syscall events back
        rw [taken, quietLine, if_neg (by simp), if_neg (by simp), if_pos idle] at moved
        rw [(tracks.advance_of_silent apart taken).2]
        refine ⟨resumes, address.trans counter, .inl ⟨?_, ?_, ?_⟩⟩
        · simp only [step_core]
          rw [moved, counter, spinning.next]
        · rw [spinning.next]
          exact fun same => absurd same (add_four_ne _)
        · intro later
          rw [(pTarget_step_of_not_resolves syscall events safe taken later).1] at quietLine
          cases quietLine

variable (syscall events) in
theorem FetchTracks.step (tracks : FetchTracks t m) (safe : FetchSafe t.core) :
    FetchTracks (t.step (fun _ => ()) syscall events) (advance t m) where
  spaced := tracks.spaced.step syscall events
  wide := Core.wide_step tracks.wide
  fresh := tracks.fresh_step
  stale := FetchTracks.stale_step
  decode := tracks.decode_step
  execute _ := tracks.execute_step
  position := by
    rcases tracks.position with fetching | spinning
    · by_cases idle : t.core.fetch.pState = .a
      · exact tracks.position_of_shown safe fetching idle
      · exact .inl (tracks.position_of_busy safe fetching idle)
    · exact tracks.position_of_spinning safe spinning

theorem FetchTracks.allows (tracks : FetchTracks t m) {event : FetchEvent}
    (happens : t.fetchEvent = some event) : fetchLaw.allows m event := by
  by_cases delivers : t.core.fetch.pState = .a ∧ t.fetched = true
  · rw [(tracks.advance_of_delivers delivers.1 delivers.2).1] at happens
    cases happens
    rcases tracks.position with fetching | spinning
    · exact fetching.address
    · rw [spinning.shown] at delivers
      cases delivers.2
  · cases taken : t.core.resolves with
    | false =>
        rw [(tracks.advance_of_silent delivers taken).1] at happens
        cases happens
    | true =>
        rw [(tracks.advance_of_resolves taken).2.1] at happens
        cases happens
        simp only [Core.resolves, Bool.and_eq_true, beq_iff_eq] at taken
        exact tracks.execute taken.1.1 taken.2

end

/-- The first cycle: fetch is busy with the word at the entry point. -/
theorem fetchTracks_start (syscall : Syscall) (entry : BitVec 32) (regFile : RegFile)
    (ram : Ram) :
    FetchTracks (start (Core.start syscall entry regFile ram))
      { last := none, pc := entry, nPc := entry + 4 } := by
  have spaced := Core.spaced_start syscall entry regFile ram
  have fetching : (Core.start syscall entry regFile ram).fetch.pState = .b := by
    simp [Core.start, Core.stepWith, Core.reset, Fetch.reset, Fetch.Regs.step,
      Fetch.Regs.nState, Fetch.Regs.repeats]
  have free : ¬ (Core.start syscall entry regFile ram).Decoding := by
    simp only [Core.Decoding, Core.start_decode, ne_eq, not_true, false_or, not_not]
    rfl
  have notTaken : (Execute.aluOut (Core.start syscall entry regFile ram).idex
      (Core.start syscall entry regFile ram).syscallResult).muxSel = false := by
    have fields := Core.start_idex syscall entry regFile ram
    have op : (Execute.aluIn (Core.start syscall entry regFile ram).idex).op = 0b00 :=
      congrArg Fields.op fields
    have op2 : (Execute.aluIn (Core.start syscall entry regFile ram).idex).op2 = 0b000 :=
      congrArg Fields.op2 fields
    simp [Execute.aluOut, AluIn.alu, AluIn.format2, AluIn.default, op, op2]
  have address : (Core.start syscall entry regFile ram).fetch.pPc = entry.setWidth 64 := by
    simp [Core.start, Core.stepWith, Core.reset, Fetch.reset, Fetch.Regs.step, Fetch.Regs.nPc,
      Fetch.Regs.pcOut, Fetch.Regs.ifReady, Fetch.Regs.nPcOut]
  have counter : (Core.start syscall entry regFile ram).fetch.nPcOut = entry + 4 := by
    have quiet : (Core.reset entry regFile ram).exOut.muxSel = false := rfl
    simp [Core.start, Core.stepWith, quiet]
    simp [Core.reset, Fetch.reset, Fetch.Regs.step, Fetch.Regs.nextNPc, Fetch.Regs.ifReady,
      Fetch.Regs.nPcOut, BitVec.setWidth_add]
  constructor
  case spaced => exact spaced
  case wide => simp [start, Fetch.Regs.lastAddress, address]
  case fresh => simp [start, fetching]
  case stale => simp [start, fetching]
  case decode => exact fun decoding => absurd decoding free
  case execute =>
    intro _ taken
    rw [show (start (Core.start syscall entry regFile ram) : Tagged Unit).core =
      Core.start syscall entry regFile ram from rfl, notTaken] at taken
    cases taken
  case position =>
    left
    refine ⟨?_, ?_, .inl ⟨counter, fun same => absurd same (add_four_ne entry), ?_⟩⟩
    · simp [start, fetching]
    · simp [start, Fetch.Regs.lastAddress, address]
    · intro late
      cases late

end Tagged

end Sparcy
