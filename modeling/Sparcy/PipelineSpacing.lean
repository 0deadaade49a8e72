import Sparcy.Core

/-!
# How far apart instructions are

Fetch delivers a word to `IFIDReg` only after the instruction cache has been
asked and has answered, so the stages in front of Execute never hold two
instructions at once.  This file states what follows for every cycle of every
run: which registers are empty when decode, Execute or Mem is occupied.
-/

namespace Sparcy

/-- Contents of `IDEXReg` that Execute lets pass and that write nothing. -/
structure IDEX.Quiet (x : IDEX) : Prop where
  idle : Execute.idle x = true
  regWrite : x.fields.regWrite = false
  regWriteDouble : x.fields.regWriteDouble = false
  iccWrite : x.fields.iccWrite = false
  yWrite : x.fields.yWrite = false

/-- Contents of `EXMemReg` that neither access memory nor write anything. -/
structure EXMem.Quiet (x : EXMem) : Prop where
  accesses : Mem.accesses x = false
  regWrite : x.regWrite = false
  regWriteDouble : x.regWriteDouble = false
  iccWrite : x.iccWrite = false
  yWrite : x.yWrite = false

namespace Core

/-- An instruction is under decode. -/
def Decoding (s : Core) : Prop := s.decode.pState ≠ .a ∨ s.ifid.inst ≠ Inst.nop

instance (s : Core) : Decidable s.Decoding := inferInstanceAs (Decidable (_ ∨ _))

/-- Fetch, its cache and decode: the cache is idle unless fetch waits for it, and a
fetched word, a delivered word and a word held in decode exclude each other. -/
structure FrontSpaced (s : Core) : Prop where
  cacheIdle : s.fetch.pState ≠ .b → s.memory.ic.pState = .a ∧ s.icAck = false
  cacheAck : s.icAck = true → s.memory.ic.pState = .a
  requesting : s.fetch.pState = .b → s.fetch.pIcReq = true
  requested : s.fetch.pState = .c ∨ s.fetch.pState = .s → s.fetch.pIcReq = false
  fetched : s.fetch.pState = .a → s.fetch.pInst ≠ Inst.nop →
    s.decode.pState = .a ∧ s.ifid.inst = Inst.nop
  held : s.decode.pState ≠ .a → s.ifid.inst = Inst.nop
  delivered : s.ifid.inst ≠ Inst.nop →
    (s.fetch.pState = .a ∧ s.fetch.pInst = Inst.nop) ∨
      (s.fetch.pState = .b ∧ s.icAck = false)
  settled : s.fetch.pState = .s → s.decode.pState = .a

/-- Execute and Mem: while an instruction is under decode, or held back in
Execute, `IDEXReg` is quiet, and while one is held back in Mem, `EXMemReg` is. -/
structure BackSpaced (s : Core) : Prop where
  behindDecode : s.Decoding → s.idex.Quiet
  stalled : s.exReady = false → s.idex.Quiet
  annulled : s.execute.annulIn = true → s.execute.pState = .a
  waiting : s.mem.pState = .b → s.exmem.Quiet
  passing : ¬ s.exmem.Quiet → s.mem.pState = .a → s.execute.pState = .a ∧ s.idex.Quiet

/-- Mem and the data cache: the cache is idle unless Mem waits for it. -/
structure MemPaired (s : Core) : Prop where
  cacheIdle : s.mem.pState = .a → s.memory.dc.pState = .a ∧ s.dcAck = false
  cacheBusy : s.mem.pState = .b → (s.memory.dc.pState = .a ↔ s.dcAck = true)
  requesting : s.mem.pState = .b → s.mem.dcReqLatch = true

/-- The write enables that decode keeps with a held word are those of the word. -/
def DecodeCopied (s : Core) : Prop :=
  s.decode.nFields s.ifid = Decode.decodeFields s.decoding

/-- The invariant of every run of the processor. -/
structure Spaced (s : Core) : Prop where
  front : s.FrontSpaced
  decoded : s.DecodeCopied
  back : s.BackSpaced
  mem : s.MemPaired

/-! ### Fetch and decode -/

/-- A cycle in which no word is under decode leaves decode free. -/
theorem decode_free_of_nop {s : Core} (free : s.decode.pState = .a)
    (empty : s.ifid.inst = Inst.nop) (syscall : Syscall) (events : DramEvents) :
    (s.step syscall events).decode.pState = .a := by
  simp [Decode.Regs.step, Decode.Regs.nState, Decode.Regs.passesNop, Decode.isNop, free, empty]

theorem FrontSpaced.icState_step {s : Core} (front : s.FrontSpaced) (syscall : Syscall)
    (events : DramEvents) :
    let next := s.step syscall events
    (next.fetch.pState ≠ .b → next.memory.ic.pState = .a ∧ next.icAck = false) ∧
      (next.icAck = true → next.memory.ic.pState = .a) := by
  have served : (s.step syscall events).icAck = true →
      (s.step syscall events).memory.ic.pState = .a := by
    simp only [icAck, step_ic, ICache.Regs.step, ICache.Regs.nAck, Bool.and_eq_true, beq_iff_eq]
    rintro ⟨state, hit⟩
    simp [ICache.Regs.nState, state, hit]
  refine ⟨?_, served⟩
  intro free
  -- without a request an idle cache stays idle and does not answer
  have idle : s.memory.ic.pState = .a → s.icRequest.req = false →
      (s.step syscall events).memory.ic.pState = .a ∧
        (s.step syscall events).icAck = false := by
    intro state silent
    simp [icAck, ICache.Regs.step, ICache.Regs.nState, ICache.Regs.nAck, state, silent]
  cases state : s.fetch.pState with
  | a =>
      have cacheIdle := (front.cacheIdle (by simp [state])).1
      apply idle cacheIdle
      have repeats : s.fetch.repeats = true := by
        by_contra fresh
        apply free
        simp [Fetch.Regs.step, Fetch.Regs.nState, state, fresh]
      simp [icRequest, Fetch.Regs.request, Fetch.Regs.icReq, Fetch.Regs.nIcReq, state, repeats]
  | b =>
      cases ack : s.icAck with
      | false =>
          exfalso
          apply free
          simp [Fetch.Regs.step, Fetch.Regs.nState, state, ack]
      | true =>
          apply idle (front.cacheAck ack)
          simp [icRequest, Fetch.Regs.request, Fetch.Regs.icReq, ack]
  | c =>
      apply idle (front.cacheIdle (by simp [state])).1
      have quiet := front.requested (.inl state)
      simp [icRequest, Fetch.Regs.request, Fetch.Regs.icReq, Fetch.Regs.nIcReq, state, quiet]
  | s =>
      apply idle (front.cacheIdle (by simp [state])).1
      have quiet := front.requested (.inr state)
      simp [icRequest, Fetch.Regs.request, Fetch.Regs.icReq, Fetch.Regs.nIcReq, state, quiet]

/-- The request register is set while fetch waits for the cache and clear in the
states after the answer. -/
theorem FrontSpaced.pIcReq_step {s : Core} (front : s.FrontSpaced) (syscall : Syscall)
    (events : DramEvents) :
    let next := s.step syscall events
    (next.fetch.pState = .b → next.fetch.pIcReq = true) ∧
      (next.fetch.pState = .c ∨ next.fetch.pState = .s → next.fetch.pIcReq = false) := by
  cases state : s.fetch.pState with
  | a =>
      cases repeats : s.fetch.repeats <;>
        simp [Fetch.Regs.step, Fetch.Regs.nState, Fetch.Regs.nIcReq, Fetch.Regs.repeats,
          Fetch.Regs.pcOut, Fetch.Regs.ifReady, Fetch.Regs.nPcOut, state] at repeats ⊢ <;>
        grind
  | b =>
      have requesting := front.requesting state
      cases ack : s.icAck <;>
        simp [Fetch.Regs.step, Fetch.Regs.nState, Fetch.Regs.nIcReq, Fetch.Regs.icReq, state, ack,
          requesting]
      grind
  | c =>
      have quiet := front.requested (.inl state)
      simp [Fetch.Regs.step, Fetch.Regs.nState, Fetch.Regs.nIcReq, Fetch.Regs.icReq, state, quiet]
      grind
  | s => simp [Fetch.Regs.step, Fetch.Regs.nState, state]

/-- A fetch that waits for its cache, or for a decode that is busy, has no word in
`IFIDReg`. -/
theorem FrontSpaced.empty {s : Core} (front : s.FrontSpaced) (busy : s.fetch.pState ≠ .a)
    (answered : s.fetch.pState = .b → s.icAck = true) : s.ifid.inst = Inst.nop := by
  by_contra word
  rcases front.delivered word with ⟨state, -⟩ | ⟨state, silent⟩
  · exact busy state
  · rw [answered state] at silent
    cases silent

/-- Behind a busy fetch nothing new arrives, so a free decode stays free. -/
theorem FrontSpaced.free_step {s : Core} (front : s.FrontSpaced)
    (busy : s.fetch.pState ≠ .a) (answered : s.fetch.pState = .b → s.icAck = true)
    (free : s.decode.pState = .a) (syscall : Syscall) (events : DramEvents) :
    (s.step syscall events).decode.pState = .a ∧
      (s.step syscall events).ifid.inst = Inst.nop := by
  refine ⟨decode_free_of_nop free (front.empty busy answered) syscall events, ?_⟩
  have shown : s.fetch.out.inst = Inst.nop := by
    cases state : s.fetch.pState <;> simp_all [Fetch.Regs.out]
  simp [IFID.step, idReady, Decode.Regs.idReady, free, shown]

/-- A word arrives in `IFIDReg` only from a fetch in `STATEA` that shows it. -/
theorem FrontSpaced.arrives {s : Core} (front : s.FrontSpaced) {syscall : Syscall}
    {events : DramEvents} (word : (s.step syscall events).ifid.inst ≠ Inst.nop) :
    s.decode.pState = .a ∧ s.fetch.pState = .a ∧ s.fetch.pInst ≠ Inst.nop := by
  cases free : s.decode.pState with
  | a =>
      simp only [step_ifid, IFID.step, idReady, Decode.Regs.idReady, free, beq_self_eq_true,
        if_true] at word
      cases state : s.fetch.pState <;> simp [Fetch.Regs.out, state] at word ⊢
      exact word
  | b =>
      have empty := front.held (by simp [free])
      simp [IFID.step, idReady, Decode.Regs.idReady, free, empty] at word
  | s =>
      have empty := front.held (by simp [free])
      simp [IFID.step, idReady, Decode.Regs.idReady, free, empty] at word

/-- Fetch comes back to `STATEA`, or on the way to it, only with the answer of the
cache and with a free decode. -/
theorem FrontSpaced.leaves {s : Core} (front : s.FrontSpaced) (busy : s.fetch.pState ≠ .a)
    {syscall : Syscall} {events : DramEvents}
    (left : (s.step syscall events).fetch.pState = .a ∨
      (s.step syscall events).fetch.pState = .s) :
    (s.fetch.pState = .b → s.icAck = true) ∧ s.decode.pState = .a := by
  cases state : s.fetch.pState with
  | a => exact absurd state busy
  | s => exact ⟨by simp, front.settled state⟩
  | b =>
      cases ack : s.icAck <;> cases free : s.decode.pState <;>
        simp [Fetch.Regs.step, Fetch.Regs.nState, idReady, Decode.Regs.idReady, state, ack,
          free] at left ⊢
  | c =>
      cases free : s.decode.pState <;>
        simp [Fetch.Regs.step, Fetch.Regs.nState, idReady, Decode.Regs.idReady, state, free]
          at left ⊢

theorem FrontSpaced.step {s : Core} (front : s.FrontSpaced) (syscall : Syscall)
    (events : DramEvents) : (s.step syscall events).FrontSpaced where
  cacheIdle := (front.icState_step syscall events).1
  cacheAck := (front.icState_step syscall events).2
  requesting := (front.pIcReq_step syscall events).1
  requested := (front.pIcReq_step syscall events).2
  fetched := by
    intro state word
    by_cases idle : s.fetch.pState = .a
    · -- a fetch that stays in STATEA repeats the address and clears its word
      exfalso
      cases repeats : s.fetch.repeats with
      | true => simp [Fetch.Regs.step, Fetch.Regs.nInst, idle, repeats] at word
      | false => simp [Fetch.Regs.step, Fetch.Regs.nState, idle, repeats] at state
    · obtain ⟨answered, free⟩ := front.leaves idle (.inl state)
      exact front.free_step idle answered free syscall events
  held := by
    intro busy
    by_contra word
    have arrival := front.arrives word
    have empty := (front.fetched arrival.2.1 arrival.2.2).2
    exact busy (decode_free_of_nop arrival.1 empty syscall events)
  delivered := by
    intro word
    have arrival := front.arrives word
    have idle := (front.cacheIdle (by simp [arrival.2.1])).1
    cases repeats : s.fetch.repeats with
    | true => simp [Fetch.Regs.step, Fetch.Regs.nState, Fetch.Regs.nInst, arrival.2.1, repeats]
    | false =>
        right
        simp [icAck, ICache.Regs.step, ICache.Regs.nAck, Fetch.Regs.step, Fetch.Regs.nState,
          arrival.2.1, repeats, idle]
  settled := by
    intro state
    have idle : s.fetch.pState ≠ .a := by
      intro idle
      cases repeats : s.fetch.repeats <;>
        simp [Fetch.Regs.step, Fetch.Regs.nState, idle, repeats] at state
    obtain ⟨answered, free⟩ := front.leaves idle (.inr state)
    exact (front.free_step idle answered free syscall events).1

/-! ### Execute and Mem -/

/-- Decode shows the no-op when nothing is under decode. -/
theorem decodeOut_quiet {s : Core} (free : ¬ s.Decoding) : s.decodeOut.Quiet := by
  simp only [Decoding, not_or, not_not] at free
  have fields : s.decodeOut.fields = Decode.bubbleFields Inst.nop := by
    simp [decodeOut, Decode.Regs.outFields, Decode.Regs.passesNop, Decode.isNop, free.1, free.2]
  have idle : Execute.idle s.decodeOut = true := by
    simp only [Execute.idle, fields]
    decide
  constructor
  · exact idle
  all_goals simp [fields, Decode.bubbleFields, Decode.fieldsOf]

/-- Decode shows a bubble while it keeps an instruction back. -/
theorem decodeOut_quiet_of_waits {s : Core} (waits : s.decode.waits s.ifid s.hazards = true) :
    s.decodeOut.Quiet := by
  have passes : s.decode.passesNop s.ifid = false := by
    cases state : s.decode.pState <;>
      simp_all [Decode.Regs.waits, Decode.Regs.passesNop]
  have fields : s.decodeOut.fields = Decode.stallFields := by
    simp [decodeOut, Decode.Regs.outFields, passes, waits]
  have idle : Execute.idle s.decodeOut = true := by
    simp only [Execute.idle, fields]
    decide
  constructor
  · exact idle
  all_goals simp [fields, Decode.stallFields, Fields.reset]

theorem squashed_quiet (r : Execute.Regs) : r.squashed.Quiet := by
  constructor <;> simp [Execute.Regs.squashed, Mem.accesses, Mem.loadOp, Mem.storeOp]

theorem live_quiet {x : IDEX} (quiet : x.Quiet) (syscall : BitVec 32) :
    (Execute.live x syscall).Quiet := by
  have idle := quiet.idle
  simp only [Execute.idle, isBubble, Bool.and_eq_true, beq_iff_eq] at idle
  constructor
  · simp [Execute.live, Mem.accesses, Mem.loadOp, Mem.storeOp, idle.1.1]
  · exact quiet.regWrite
  · exact quiet.regWriteDouble
  · exact quiet.iccWrite
  · exact quiet.yWrite

/-- Execute hands on nothing from a quiet `IDEXReg` in `STATEA`. -/
theorem exOut_quiet {s : Core} (unstalled : s.execute.pState = .a) (quiet : s.idex.Quiet) :
    s.exOut.Quiet := by
  cases annulled : s.execute.annulIn with
  | true => simpa [exOut, Execute.Regs.out, annulled] using squashed_quiet s.execute
  | false =>
      simpa [exOut, Execute.Regs.out, annulled, unstalled] using
        live_quiet quiet s.syscallResult

/-- An instruction that decode has just released is alone: nothing is under decode
and `IDEXReg` loads. -/
theorem BackSpaced.alone {s : Core} (back : s.BackSpaced) (busy : ¬ s.idex.Quiet) :
    ¬ s.Decoding ∧ s.exReady = true := by
  constructor
  · exact fun decoding => busy (back.behindDecode decoding)
  · by_contra stalled
    exact busy (back.stalled (by simpa using stalled))

/-- With nothing under decode `IDEXReg` becomes quiet, or stays so. -/
theorem BackSpaced.quiet_step {s : Core} (back : s.BackSpaced) (free : ¬ s.Decoding)
    (syscall : Syscall) (events : DramEvents) : (s.step syscall events).idex.Quiet := by
  cases ready : s.exReady with
  | true => simpa [IDEX.step, ready] using decodeOut_quiet free
  | false => simpa [IDEX.step, ready] using back.stalled ready

/-- `IDEXReg` is quiet one cycle after it was not. -/
theorem BackSpaced.quiet_after {s : Core} (back : s.BackSpaced) (busy : ¬ s.idex.Quiet)
    (syscall : Syscall) (events : DramEvents) : (s.step syscall events).idex.Quiet :=
  back.quiet_step (back.alone busy).1 syscall events

/-- In `STATEB` Execute is not ready and `IDEXReg` is quiet. -/
theorem BackSpaced.held {s : Core} (back : s.BackSpaced) (holding : s.execute.pState = .b) :
    s.exReady = false ∧ s.idex.Quiet := by
  have kept : s.execute.annulIn = false := by
    by_contra annulled
    have unstalled := back.annulled (by simpa using annulled)
    rw [unstalled] at holding
    cases holding
  have stalled : s.exReady = false := Execute.Regs.exReady_of_held holding kept
  exact ⟨stalled, back.stalled stalled⟩

theorem Decoding.before {s : Core} {syscall : Syscall} {events : DramEvents}
    (busy : (s.step syscall events).decode.pState ≠ .a) : s.Decoding := by
  by_contra free
  simp only [Decoding, not_or, not_not] at free
  exact busy (decode_free_of_nop free.1 free.2 syscall events)

theorem BackSpaced.behindDecode_step {s : Core} (front : s.FrontSpaced) (back : s.BackSpaced)
    (syscall : Syscall) (events : DramEvents)
    (decoding : (s.step syscall events).Decoding) : (s.step syscall events).idex.Quiet := by
  cases ready : s.exReady with
  | false => simpa [IDEX.step, ready] using back.stalled ready
  | true =>
      suffices shown : s.decodeOut.Quiet by simpa [IDEX.step, ready] using shown
      rcases decoding with busy | word
      · -- an instruction stays in decode although Execute is ready, so it waits
        cases waits : s.decode.waits s.ifid s.hazards with
        | true => exact decodeOut_quiet_of_waits waits
        | false =>
            exfalso
            apply busy
            simp [Decode.Regs.step, Decode.Regs.nState, waits, ready]
      · have arrival := front.arrives word
        have empty := (front.fetched arrival.2.1 arrival.2.2).2
        apply decodeOut_quiet
        simp [Decoding, arrival.1, empty]

theorem BackSpaced.stalled_step {s : Core} (back : s.BackSpaced) (syscall : Syscall)
    (events : DramEvents) (stalled : (s.step syscall events).exReady = false) :
    (s.step syscall events).idex.Quiet := by
  cases ready : s.exReady with
  | false => simpa [IDEX.step, ready] using back.stalled ready
  | true =>
      -- the latch is high, so Execute stalls on an instruction that was in IDEXReg
      apply back.quiet_after
      intro quiet
      have unstalled : s.execute.pState = .a := by
        cases state : s.execute.pState with
        | a => rfl
        | b =>
            rw [(back.held state).1] at ready
            cases ready
      have resumes : (s.step syscall events).execute.pState = .a := by
        simp [Execute.Regs.nState, unstalled, quiet.idle]
      have loads : (s.step syscall events).exReady = true :=
        Execute.Regs.exReady_of_unstalled resumes fun _ => ready
      rw [loads] at stalled
      cases stalled

theorem BackSpaced.step {s : Core} (front : s.FrontSpaced) (back : s.BackSpaced)
    (syscall : Syscall) (events : DramEvents) : (s.step syscall events).BackSpaced where
  behindDecode := back.behindDecode_step front syscall events
  stalled := back.stalled_step syscall events
  annulled := by
    intro annulled
    cases state : s.execute.pState with
    | a =>
        cases bubble : Execute.idle s.idex with
        | true => simp [Execute.Regs.nState, state, bubble]
        | false =>
            simp only [step_execute, Execute.Regs.step_annulIn, Execute.Regs.annulOut, state,
              bubble, Bool.false_eq_true, if_false, Bool.and_eq_true] at annulled
            simp [Execute.Regs.nState, state, annulled.1]
    | b =>
        simp only [step_execute, Execute.Regs.step_annulIn, Execute.Regs.annulOut, state,
          Bool.and_eq_true] at annulled
        simp [Execute.Regs.nState, state, annulled.1]
  waiting := by
    intro waits
    cases state : s.mem.pState with
    | a =>
        have busy : ¬ s.exmem.Quiet := by
          intro quiet
          simp [Mem.Regs.step, Mem.Regs.nState, state, quiet.accesses] at waits
        have passing := back.passing busy state
        simpa [EXMem.step, memReady, Mem.Regs.memReady, state] using
          exOut_quiet passing.1 passing.2
    | b => simpa [EXMem.step, memReady, Mem.Regs.memReady, state] using back.waiting state
  passing := by
    intro busy passes
    cases state : s.mem.pState with
    | b =>
        exfalso
        apply busy
        simpa [EXMem.step, memReady, Mem.Regs.memReady, state] using back.waiting state
    | a =>
        have ready : s.memReady = true := by simp [memReady, Mem.Regs.memReady, state]
        have handed : ¬ s.exOut.Quiet := by
          intro quiet
          apply busy
          simpa [EXMem.step, ready] using quiet
        have resumes : (s.step syscall events).execute.pState = .a := by
          cases held : s.execute.pState <;> simp [Execute.Regs.nState, held, ready]
        refine ⟨resumes, ?_⟩
        cases held : s.execute.pState with
        | a => exact back.quiet_after (fun quiet => handed (exOut_quiet held quiet)) syscall events
        | b =>
            obtain ⟨stalled, quiet⟩ := back.held held
            simpa [IDEX.step, stalled] using quiet

/-! ### Mem and the data cache -/

theorem MemPaired.of_idle {s : Core} (passes : s.mem.pState = .a)
    (idle : s.memory.dc.pState = .a) (silent : s.dcAck = false) : s.MemPaired := by
  constructor <;> simp [passes, idle, silent]

theorem MemPaired.of_waiting {s : Core} (waits : s.mem.pState = .b)
    (busy : s.memory.dc.pState = .a ↔ s.dcAck = true)
    (requesting : s.mem.dcReqLatch = true) : s.MemPaired := by
  constructor <;> simp [waits, busy, requesting]

theorem MemPaired.step {s : Core} (paired : s.MemPaired) (syscall : Syscall)
    (events : DramEvents) : (s.step syscall events).MemPaired := by
  cases state : s.mem.pState with
  | a =>
      obtain ⟨idle, silent⟩ := paired.cacheIdle state
      have answer : (s.step syscall events).dcAck = false := by
        simp [dcAck, DCache.Regs.step, DCache.Regs.serves, idle]
      cases access : Mem.accesses s.exmem with
      | false =>
          have stays : (s.step syscall events).mem.pState = .a := by
            simp [Mem.Regs.step, Mem.Regs.nState, state, access]
          have cache : (s.step syscall events).memory.dc.pState = .a := by
            simp [DCache.Regs.step, DCache.Regs.nState, idle, dcRequest, Mem.Regs.request,
              Mem.Regs.dcReq, state, access]
          exact .of_idle stays cache answer
      | true =>
          have waits : (s.step syscall events).mem.pState = .b := by
            simp [Mem.Regs.step, Mem.Regs.nState, state, access]
          have cache : (s.step syscall events).memory.dc.pState = .b := by
            simp [DCache.Regs.step, DCache.Regs.nState, idle, dcRequest, Mem.Regs.request,
              Mem.Regs.dcReq, state, access]
          refine .of_waiting waits ?_ ?_
          · rw [cache, answer]
            decide
          · simp [Mem.Regs.step, Mem.Regs.dcReq, state, access]
  | b =>
      cases ack : s.dcAck with
      | true =>
          have idle := (paired.cacheBusy state).mpr ack
          have passes : (s.step syscall events).mem.pState = .a := by
            simp [Mem.Regs.step, Mem.Regs.nState, state, ack]
          have cache : (s.step syscall events).memory.dc.pState = .a := by
            simp [DCache.Regs.step, DCache.Regs.nState, idle, dcRequest, Mem.Regs.request,
              Mem.Regs.dcReq, state, ack]
          have answer : (s.step syscall events).dcAck = false := by
            simp [dcAck, DCache.Regs.step, DCache.Regs.serves, idle]
          exact .of_idle passes cache answer
      | false =>
          have busy : s.memory.dc.pState ≠ .a := by
            intro idle
            rw [(paired.cacheBusy state).mp idle] at ack
            cases ack
          have waits : (s.step syscall events).mem.pState = .b := by
            simp [Mem.Regs.step, Mem.Regs.nState, state, ack]
          refine .of_waiting waits ?_ ?_
          · exact DCache.Regs.step_idle_iff busy s.dcRequest _
          · simp [Mem.Regs.step, Mem.Regs.dcReq, state, ack, paired.requesting state]

/-! ### The invariant -/

theorem DecodeCopied.step {s : Core} (decoded : s.DecodeCopied) (syscall : Syscall)
    (events : DramEvents) : (s.step syscall events).DecodeCopied := by
  have kept : Decode.fieldsOf (s.decode.nInst s.ifid) (s.decode.nFields s.ifid).regWrite
      (s.decode.nFields s.ifid).regWriteDouble (s.decode.nFields s.ifid).iccWrite
      (s.decode.nFields s.ifid).yWrite = Decode.decodeFields (s.decode.nInst s.ifid) := by
    rw [decoded]
    rfl
  cases state : (s.step syscall events).decode.pState with
  | a => simp only [DecodeCopied, decoding, Decode.Regs.nFields, Decode.Regs.nInst, state]
  | b =>
      simp only [DecodeCopied, decoding, Decode.Regs.nFields, Decode.Regs.nInst, state]
      exact kept
  | s =>
      simp only [DecodeCopied, decoding, Decode.Regs.nFields, Decode.Regs.nInst, state]
      exact kept

theorem Spaced.step {s : Core} (spaced : s.Spaced) (syscall : Syscall) (events : DramEvents) :
    (s.step syscall events).Spaced where
  front := spaced.front.step syscall events
  decoded := spaced.decoded.step syscall events
  back := spaced.back.step spaced.front syscall events
  mem := spaced.mem.step syscall events

/-- Under reset no stage reports anything. -/
theorem reset_hazards (entry : BitVec 32) (regFile : RegFile) (ram : Ram) :
    (reset entry regFile ram).hazards =
      { ex := Execute.reset.hazard .reset, mem := Mem.reset.hazard .reset
        wb := { rd := 0, regWrite := false, regWriteDouble := false, iccWrite := false
                yWrite := false } } := rfl

/-- The word 0 that reset leaves in `IFIDReg` goes through decode like any other. -/
theorem start_idex (syscall : Syscall) (entry : BitVec 32) (regFile : RegFile) (ram : Ram) :
    (start syscall entry regFile ram).idex.fields = Decode.decodeFields 0 := by
  have loaded : (start syscall entry regFile ram).idex =
      (reset entry regFile ram).decodeOut := rfl
  simp only [loaded, decodeOut, reset_hazards]
  simp only [reset]
  decide

theorem start_decode (syscall : Syscall) (entry : BitVec 32) (regFile : RegFile) (ram : Ram) :
    (start syscall entry regFile ram).decode.pState = .a := by
  have decoded : (start syscall entry regFile ram).decode =
      Decode.Regs.reset.step .reset (reset entry regFile ram).hazards true := rfl
  rw [decoded, reset_hazards]
  decide

/-- The first cycle after reset: fetch waits for the word at the entry point, the
word 0 that reset left in `IFIDReg` has passed decode, and the rest is empty. -/
theorem spaced_start (syscall : Syscall) (entry : BitVec 32) (regFile : RegFile) (ram : Ram) :
    (start syscall entry regFile ram).Spaced := by
  have fetching : (start syscall entry regFile ram).fetch.pState = .b := by
    simp [start, stepWith, reset, Fetch.reset, Fetch.Regs.step, Fetch.Regs.nState,
      Fetch.Regs.repeats]
  have requesting : (start syscall entry regFile ram).fetch.pIcReq = true := by
    simp [start, stepWith, reset, Fetch.reset, Fetch.Regs.step, Fetch.Regs.nIcReq,
      Fetch.Regs.repeats, Fetch.Regs.pcOut, Fetch.Regs.ifReady, Fetch.Regs.nPcOut]
  have free := start_decode syscall entry regFile ram
  have empty : (start syscall entry regFile ram).ifid.inst = Inst.nop := rfl
  have cache : (start syscall entry regFile ram).memory.ic.pState = .a := rfl
  have unstalled : (start syscall entry regFile ram).execute.pState = .a := rfl
  have passing : (start syscall entry regFile ram).mem.pState = .a := rfl
  constructor
  · constructor <;> simp [fetching, requesting, free, empty, cache]
  · simp only [DecodeCopied, decoding, Decode.Regs.nFields, Decode.Regs.nInst, free]
  · constructor
    · simp [Decoding, free, empty]
    · intro stalled
      have loads : (start syscall entry regFile ram).exReady = true := rfl
      rw [loads] at stalled
      cases stalled
    · exact fun _ => unstalled
    · simp [passing]
    · intro busy
      exfalso
      apply busy
      constructor <;> rfl
  · constructor
    · exact fun _ => ⟨rfl, rfl⟩
    · simp [passing]
    · simp [passing]

end Core

end Sparcy
