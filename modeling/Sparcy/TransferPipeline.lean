import Sparcy.AnnulledEffects
import Sparcy.DelayedTransfers
import Sparcy.FetchSequence
import Sparcy.PipelineRefinement

/-!
# Transfers in the pipeline

Finishing the instructions in Execute, Mem and write-back gives the state of the machine
after the instructions that have left decode, and the annulment that Execute owes is that of
the machine.  An annulled instruction is never held back, so it is skipped exactly once.
-/

namespace Sparcy

open Execute (idle requestsAnnul takenAnnulling isBicc)
open Sparcy.Sequential (Agree)

namespace Core

/-- The word under decode moves on: it is released, or is the `STBAR` that decode does not
look at. -/
def leaves (s : Core) : Bool :=
  s.releases || (s.decode.passesNop s.ifid && s.ifid.inst != Inst.nop)

/-- The next instruction that comes into Execute will be annulled. -/
def owesAnnul (s : Core) : Bool :=
  match s.execute.pState with
  | .a => if idle s.idex then s.execute.annulIn else !s.execute.annulIn && requestsAnnul s.idex
  | .b => isBicc s.execute.pOp s.execute.pOp2 && s.execute.pA

/-- Mem has no access to make. -/
structure MemFree (s : Core) : Prop where
  ready : s.memReady = true
  empty : Mem.accesses s.exmem = false

section

variable {s : Core} {syscall : Syscall} {events : DramEvents}

theorem memFree_step (ready : s.memReady = true) (empty : Mem.accesses s.exmem = false)
    (quiet : Mem.accesses s.exOut = false) : (s.step syscall events).MemFree where
  ready := by
    have state : s.mem.pState = .a := by simpa [memReady, Mem.Regs.memReady] using ready
    change (s.mem.nState s.exmem s.dcAck == .a) = true
    rw [Mem.Regs.nState, state, empty]
    rfl
  empty := by
    have loaded : (s.step syscall events).exmem = s.exOut := by simp [EXMem.step, ready]
    rw [loaded]
    exact quiet

/-- Behind an instruction in Execute `EXMemReg` is empty. -/
theorem BackSpaced.parked (back : s.BackSpaced)
    (busy : s.execute.pState = .b ∨ idle s.idex = false) (ready : s.memReady = true) :
    Mem.accesses s.exmem = false := by
  have state : s.mem.pState = .a := by simpa [memReady, Mem.Regs.memReady] using ready
  by_contra access
  have full : ¬ s.exmem.Quiet := fun quiet => access quiet.accesses
  obtain ⟨unstalled, quiet⟩ := back.passing full state
  rcases busy with held | word
  · rw [held] at unstalled
    cases unstalled
  · rw [quiet.idle] at word
    cases word

/-- A bubble in Execute is handed on as one. -/
theorem exOut_of_idle (unstalled : s.execute.pState = .a) (bubble : idle s.idex = true) :
    isBubble s.exOut.op s.exOut.op2 s.exOut.regD = true := by
  rw [exOut, Execute.Regs.out, unstalled]
  split
  · rfl
  · exact bubble

theorem accesses_of_isBubble {x : EXMem} (bubble : isBubble x.op x.op2 x.regD = true) :
    Mem.accesses x = false := by
  apply Sequential.accesses_of_op
  simp only [isBubble, Bool.and_eq_true, beq_iff_eq] at bubble
  rw [bubble.1.1]
  decide

theorem exOut_of_annulled (annulled : s.execute.annulIn = true) : s.exOut.Quiet := by
  rw [exOut_eq, if_pos annulled]
  exact squashed_quiet s.execute

theorem exOut_of_kept (kept : s.execute.annulIn = false) : s.exOut = s.inExecute := by
  rw [exOut_eq, kept]
  rfl

theorem not_resolves_of_annulled (annulled : s.execute.annulIn = true) : s.resolves = false := by
  simp [resolves, annulled]

theorem not_repeats_of_unstalled (unstalled : s.execute.pState = .a) :
    s.repeatsRedirect = false := by
  simp [repeatsRedirect, unstalled]

theorem BackSpaced.kept_of_held (back : s.BackSpaced) (holding : s.execute.pState = .b) :
    s.execute.annulIn = false := by
  by_contra annulled
  rw [back.annulled (by simpa using annulled)] at holding
  cases holding

theorem BackSpaced.leaves_of_busy (back : s.BackSpaced) (word : idle s.idex = false) :
    s.leaves = false := by
  have free : ¬ s.Decoding := by
    intro decoding
    rw [(back.behindDecode decoding).idle] at word
    cases word
  have kept : s.releases = false := by
    by_contra released
    exact free (decoding_of_releases (by simpa using released)).1
  simp only [Decoding, not_or, not_not] at free
  simp [leaves, kept, free.2]

/-- A word that leaves without a release is an `STBAR`. -/
theorem isNop_of_leaves (leaving : s.leaves = true) (kept : s.releases = false) :
    s.decode.passesNop s.ifid = true ∧ s.decoding = s.ifid.inst ∧
      Decode.isNop s.decoding = true := by
  simp only [leaves, kept, Bool.false_or, Bool.and_eq_true] at leaving
  have passes := leaving.1
  simp only [Decode.Regs.passesNop, Bool.and_eq_true, beq_iff_eq] at passes
  have same : s.decoding = s.ifid.inst := by simp [decoding, Decode.Regs.nInst, passes.1]
  exact ⟨leaving.1, same, by rw [same]; exact passes.2⟩

theorem decoding_of_leaves (leaving : s.leaves = true) : s.Decoding := by
  cases released : s.releases with
  | true => exact (decoding_of_releases released).1
  | false =>
      right
      simp only [leaves, released, Bool.false_or, Bool.and_eq_true, bne_iff_ne] at leaving
      exact leaving.2

/-- Behind a word that leaves decode is empty. -/
theorem FrontSpaced.empty_of_leaves (front : s.FrontSpaced) (leaving : s.leaves = true) :
    ¬ (s.step syscall events).Decoding := by
  have free : (s.step syscall events).decode.pState = .a := by
    change s.decode.nState s.ifid s.hazards s.exReady = .a
    cases released : s.releases with
    | true =>
        simp only [releases, Decode.Regs.releases, Bool.and_eq_true, Bool.not_eq_true'] at released
        simp [Decode.Regs.nState, released.1.1, released.1.2, released.2]
    | false => rw [Decode.Regs.nState, if_pos (isNop_of_leaves leaving released).1]
  rintro (held | word)
  · exact held free
  · obtain ⟨idle, shown, fetched⟩ := front.arrives word
    rcases decoding_of_leaves leaving with held | word
    · exact held idle
    · rcases front.delivered word with ⟨-, empty⟩ | ⟨busy, -⟩
      · exact fetched empty
      · rw [shown] at busy
        cases busy

/-- A word that does not leave decode is held there. -/
theorem held_of_not_leaves (decoding : s.Decoding) (kept : s.leaves = false) :
    (s.step syscall events).decode.pState ≠ .a := by
  change s.decode.nState s.ifid s.hazards s.exReady ≠ .a
  simp only [leaves, Bool.or_eq_false_iff] at kept
  obtain ⟨unreleased, unpassed⟩ := kept
  cases passes : s.decode.passesNop s.ifid with
  | true =>
      exfalso
      rw [passes, Bool.true_and, bne_eq_false_iff_eq] at unpassed
      simp only [Decode.Regs.passesNop, Bool.and_eq_true, beq_iff_eq] at passes
      rcases decoding with held | word
      · exact held passes.1
      · exact word unpassed
  | false =>
      cases waits : s.decode.waits s.ifid s.hazards with
      | true => simp [Decode.Regs.nState, passes, waits]
      | false =>
          have stalled : s.exReady = false := by
            simpa [releases, Decode.Regs.releases, passes, waits] using unreleased
          simp [Decode.Regs.nState, passes, waits, stalled]

theorem decoding_step_of_held (held : (s.step syscall events).decode.pState ≠ .a) :
    (s.step syscall events).decoding = s.decoding ∧
      (s.step syscall events).decode.nPc (s.step syscall events).ifid = s.decode.nPc s.ifid := by
  constructor
  · rw [decoding, Decode.Regs.nInst]
    split
    · contradiction
    · rfl
  · rw [Decode.Regs.nPc]
    split
    · contradiction
    · rfl

/-- What decode hands on when no word leaves it. -/
theorem decodeOut_quiet_of_not_leaves (ready : s.exReady = true) (kept : s.leaves = false) :
    s.decodeOut.Quiet := by
  simp only [leaves, Bool.or_eq_false_iff] at kept
  obtain ⟨unreleased, unpassed⟩ := kept
  cases passes : s.decode.passesNop s.ifid with
  | true =>
      rw [passes, Bool.true_and, bne_eq_false_iff_eq] at unpassed
      simp only [Decode.Regs.passesNop, Bool.and_eq_true, beq_iff_eq] at passes
      exact decodeOut_quiet (by simp [Decoding, passes.1, unpassed])
  | false =>
      cases waits : s.decode.waits s.ifid s.hazards with
      | true => exact decodeOut_quiet_of_waits waits
      | false => simp [releases, Decode.Regs.releases, passes, waits, ready] at unreleased

/-- What decode hands on when it releases a word. -/
theorem decodeOut_of_releases (decoded : s.DecodeCopied) (released : s.releases = true) :
    s.decodeOut =
      { pcPlus4 := s.decode.nPc s.ifid, fields := Decode.decodeFields s.decoding
        operands := Decode.operands s.regFile s.decoding } := by
  simp only [releases, Decode.Regs.releases, Bool.and_eq_true, Bool.not_eq_true'] at released
  obtain ⟨⟨word, moves⟩, -⟩ := released
  have fields : s.decode.outFields s.ifid s.hazards = s.decode.nFields s.ifid := by
    simp [Decode.Regs.outFields, word, moves]
  have pc : s.decode.outPc s.ifid s.hazards = s.decode.nPc s.ifid := by
    simp [Decode.Regs.outPc, moves]
  rw [decodeOut, fields, pc, decoded]

end

end Core

namespace Journal

/-! ### Ordinary words in front of Execute -/

/-- Decode has only ordinary words, and holds no bubble. -/
structure Supplied (j : Journal) : Prop where
  carried : j.Carried
  ifid : Machine.Ordinary j.core.ifid.inst
  held : j.core.decode.pState ≠ .a →
    Machine.Ordinary j.core.decode.pInst ∧ Decode.isNop j.core.decode.pInst = false

section

variable {j : Journal} {syscall : Syscall} {events : DramEvents}

theorem Supplied.decoding (supplied : j.Supplied) : Machine.Ordinary j.core.decoding := by
  unfold Core.decoding Decode.Regs.nInst
  cases state : j.core.decode.pState with
  | a => exact supplied.ifid
  | b => exact (supplied.held (by simp [state])).1
  | s => exact (supplied.held (by simp [state])).1

theorem Supplied.not_isNop (supplied : j.Supplied)
    (word : j.core.decode.passesNop j.core.ifid = false) :
    Decode.isNop j.core.decoding = false := by
  unfold Core.decoding Decode.Regs.nInst
  cases state : j.core.decode.pState with
  | a => simpa [Decode.Regs.passesNop, state] using word
  | b => exact (supplied.held (by simp [state])).2
  | s => exact (supplied.held (by simp [state])).2

theorem Supplied.not_calls (supplied : j.Supplied) : ¬ j.core.calls := by
  apply Core.not_calls_of_decoding supplied.carried.cleared.spaced
  rintro - ⟨op, trap⟩
  exact supplied.decoding.not_control ⟨op, .inl trap⟩

theorem Supplied.window (supplied : j.Supplied) :
    j.core.cwpInc = false ∧ j.core.cwpDec = false := by
  apply Core.cwp_pulses_of_not_isWindowOp
  rw [Core.isWindowOp, decide_eq_false_iff_not]
  rintro ⟨op, moves⟩
  exact supplied.decoding.not_control ⟨op, .inr moves⟩

theorem Supplied.step (supplied : j.Supplied) (allowed : j.core.memory.Allowed events)
    (word : Machine.Ordinary j.core.fetch.out.inst) : (j.step syscall events).Supplied where
  carried := supplied.carried.step supplied.not_calls allowed
  ifid := by
    change Machine.Ordinary (j.core.ifid.step j.core.fetch.out j.core.idReady).inst
    unfold IFID.step
    split
    · exact word
    · exact supplied.ifid
  held := by
    intro busy
    refine ⟨supplied.decoding, supplied.not_isNop ?_⟩
    by_contra passes
    rw [Bool.not_eq_false] at passes
    apply busy
    change j.core.decode.nState _ _ _ = .a
    rw [Decode.Regs.nState, if_pos passes]

theorem Supplied.passed_step (supplied : j.Supplied) (allowed : j.core.memory.Allowed events) :
    (j.step syscall events).passed =
      if j.core.memReady then j.passed.perform j.core.exOut else j.passed := by
  rw [supplied.carried.passed_step supplied.not_calls supplied.window allowed]
  cases j.core.memReady <;> rfl

end

/-! ### The machine behind decode -/

/-- After all that Execute, Mem and write-back hold, without what is annulled. -/
def finished (j : Journal) : Sequential := j.passed.perform j.core.exOut

/-- The machine that has executed what left decode. -/
structure Follows (j : Journal) (m : Machine) : Prop where
  state : j.finished = m.state
  annul : j.core.owesAnnul = m.annul
  free : j.core.execute.pState = .a → idle j.core.idex = true → m.access = false →
    j.core.MemFree
  hands : j.core.execute.pState = .b ∨ idle j.core.idex = false →
    Mem.accesses j.core.exOut = true → m.access = true
  unstalled : j.core.execute.pState = .a → j.core.execute.annulIn = false →
    takenAnnulling j.core.idex = true → j.core.memReady = true
  annulled : j.core.execute.annulIn = true →
    j.core.MemFree ∧ requestsAnnul j.core.idex = false
  moves : j.core.resolves = true →
    j.core.target = m.nPc ∧ m.nPc ≠ m.pc ∧ m.nPc ≠ 0
  holds : j.core.repeatsRedirect = true → j.core.execute.pTarget ≠ 0

section

variable {j : Journal} {m : Machine} {syscall : Syscall} {events : DramEvents}

/-- With a bubble in Execute only what is annulled and what Mem is doing matter. -/
theorem follows_of_idle (unstalled : j.core.execute.pState = .a)
    (bubble : idle j.core.idex = true) (state : j.passed = m.state)
    (annul : j.core.execute.annulIn = m.annul)
    (free : m.access = false ∨ m.annul = true → j.core.MemFree) : j.Follows m where
  state := by
    rw [finished, Sequential.perform_of_bubble (Core.exOut_of_idle unstalled bubble)]
    exact state
  annul := by
    simp only [Core.owesAnnul, unstalled, bubble, if_true]
    exact annul
  free _ _ silent := free (.inl silent)
  hands busy := by
    rw [unstalled, bubble] at busy
    rcases busy with held | word
    · cases held
    · cases word
  unstalled _ _ taken := by
    have none := Execute.isBicc_of_idle bubble
    simp [takenAnnulling, none] at taken
  annulled owed := by
    have none := Execute.isBicc_of_idle bubble
    exact ⟨free (.inr (annul ▸ owed)), by simp [requestsAnnul, none]⟩
  moves taken := by
    simp [Core.resolves, aluOut_muxSel_of_idle bubble] at taken
  holds taken := by
    rw [Core.not_repeats_of_unstalled unstalled] at taken
    cases taken

/-- While no transfer is resolved the program counters do not matter. -/
theorem Follows.elsewhere {m' : Machine} (follows : j.Follows m)
    (untaken : j.core.resolves = false) (state : m'.state = m.state) (annul : m'.annul = m.annul)
    (access : m'.access = m.access) : j.Follows m' where
  state := follows.state.trans state.symm
  annul := follows.annul.trans annul.symm
  free unstalled bubble silent := follows.free unstalled bubble (access.symm.trans silent)
  hands busy accesses := access.trans (follows.hands busy accesses)
  unstalled := follows.unstalled
  annulled := follows.annulled
  moves taken := by
    rw [untaken] at taken
    cases taken
  holds := follows.holds

theorem Follows.passed_of_idle (follows : j.Follows m) (unstalled : j.core.execute.pState = .a)
    (bubble : idle j.core.idex = true) : j.passed = m.state := by
  rw [← follows.state, finished,
    Sequential.perform_of_bubble (Core.exOut_of_idle unstalled bubble)]

/-- What Execute hands on reaches Mem. -/
theorem Follows.passed_step (follows : j.Follows m) (supplied : j.Supplied)
    (allowed : j.core.memory.Allowed events)
    (moves : j.core.memReady = true ∨
      isBubble j.core.exOut.op j.core.exOut.op2 j.core.exOut.regD = true) :
    (j.step syscall events).passed = m.state := by
  rw [supplied.passed_step allowed, ← follows.state, finished]
  split
  · rfl
  · rcases moves with ready | bubble
    · contradiction
    · exact (Sequential.perform_of_bubble bubble).symm

/-! ### A cycle with a bubble in Execute -/

variable (syscall events) in
/-- The bubble leaves Execute. -/
theorem nState_of_idle (unstalled : j.core.execute.pState = .a)
    (bubble : idle j.core.idex = true) :
    (j.core.step syscall events).execute.pState = .a ∧
      (j.core.step syscall events).execute.annulIn = j.core.execute.annulIn := by
  constructor
  · simp [Execute.Regs.nState, unstalled, bubble]
  · simp [Execute.Regs.annulOut, unstalled, bubble]

/-- The access of the last instruction is over before the bubble behind it leaves. -/
theorem Follows.memFree_step (follows : j.Follows m) (unstalled : j.core.execute.pState = .a)
    (bubble : idle j.core.idex = true) (free : m.access = false ∨ m.annul = true) :
    (j.core.step syscall events).MemFree := by
  have before : j.core.MemFree := by
    rcases free with silent | owed
    · exact follows.free unstalled bubble silent
    · refine (follows.annulled ?_).1
      rw [← follows.annul] at owed
      simpa [Core.owesAnnul, unstalled, bubble] using owed
  exact Core.memFree_step before.ready before.empty
    (Core.accesses_of_isBubble (Core.exOut_of_idle unstalled bubble))

theorem Follows.stays_idle (follows : j.Follows m) (supplied : j.Supplied)
    (allowed : j.core.memory.Allowed events) (unstalled : j.core.execute.pState = .a)
    (bubble : idle j.core.idex = true) (kept : j.core.leaves = false) :
    (j.step syscall events).Follows m := by
  have next := nState_of_idle syscall events unstalled bubble
  have loaded : idle (j.core.step syscall events).idex = true := by
    cases ready : j.core.exReady with
    | true =>
        have quiet := Core.decodeOut_quiet_of_not_leaves ready kept
        simpa [IDEX.step, ready] using quiet.idle
    | false => simpa [IDEX.step, ready] using bubble
  have owed : j.core.execute.annulIn = m.annul := by
    rw [← follows.annul]
    simp [Core.owesAnnul, unstalled, bubble]
  refine follows_of_idle next.1 loaded ?_ (next.2.trans owed) ?_
  · exact follows.passed_step supplied allowed (.inr (Core.exOut_of_idle unstalled bubble))
  · exact follows.memFree_step unstalled bubble

/-! ### A word comes into Execute -/

variable (syscall events) in
/-- The operands are those of the machine. -/
theorem Follows.sameIssue (follows : j.Follows m) (supplied : j.Supplied)
    (unstalled : j.core.execute.pState = .a) (bubble : idle j.core.idex = true)
    (ready : j.core.exReady = true) (leaving : j.core.leaves = true)
    (here : j.core.decode.nPc j.core.ifid = m.pc.setWidth 64) :
    Machine.SameIssue (j.core.step syscall events).idex (m.issued j.core.decoding)
      (j.core.step syscall events).syscallResult 0 := by
  have loaded : (j.core.step syscall events).idex = j.core.decodeOut := by simp [IDEX.step, ready]
  rw [loaded]
  cases released : j.core.releases with
  | true =>
      have word : j.core.decode.passesNop j.core.ifid = false := by
        simp only [Core.releases, Decode.Regs.releases, Bool.and_eq_true,
          Bool.not_eq_true'] at released
        exact released.1.1
      have ordinary := supplied.decoding
      have other := supplied.not_isNop word
      have agree : Agree j.core.decoding j.core.regFile m.state.regs := by
        rw [← follows.passed_of_idle unstalled bubble]
        exact supplied.carried.agree released (ordinary.even other)
      rw [Core.decodeOut_of_releases supplied.carried.cleared.spaced.decoded released, here,
        Machine.issued_of_other other]
      exact Machine.sameIssue ordinary other agree _ _ 0
  | false =>
      obtain ⟨passes, same, nop⟩ := Core.isNop_of_leaves leaving released
      have fields : j.core.decodeOut.fields = Decode.bubbleFields j.core.decoding := by
        rw [same]
        exact if_pos passes
      exact Machine.sameIssue_of_isNop nop fields (Machine.issued_fields_of_isNop nop)

/-- Execute is ready for the word: after a stalled branch `ex_ready` stays low, but then decode
releases nothing, and an annulled word is no `STBAR`. -/
theorem Follows.exReady_of_leaves (follows : j.Follows m)
    (unstalled : j.core.execute.pState = .a) (bubble : idle j.core.idex = true)
    (leaving : j.core.leaves = true) (regular : m.Regular j.core.decoding) :
    j.core.exReady = true := by
  cases released : j.core.releases with
  | true => exact (Core.decoding_of_releases released).2
  | false =>
      obtain ⟨-, -, nop⟩ := Core.isNop_of_leaves leaving released
      apply Execute.Regs.exReady_of_unstalled unstalled
      intro annulled
      have owed : m.annul = true := by
        rw [← follows.annul]
        simpa [Core.owesAnnul, unstalled, bubble] using annulled
      exact absurd (nop.symm.trans (regular.annulled owed).1) (by decide)

/-- The annulled word is squashed in its first cycle. -/
theorem Follows.enters_annulled (follows : j.Follows m) (supplied : j.Supplied)
    (allowed : j.core.memory.Allowed events) (unstalled : j.core.execute.pState = .a)
    (bubble : idle j.core.idex = true)
    (issue : Machine.SameIssue (j.core.step syscall events).idex (m.issued j.core.decoding)
      (j.core.step syscall events).syscallResult 0)
    (regular : m.Regular j.core.decoding) (owed : m.annul = true) :
    (j.step syscall events).Follows (m.next j.core.decoding) := by
  obtain ⟨-, busy, plain⟩ := regular.annulled owed
  have next := nState_of_idle syscall events unstalled bubble
  have annulled : (j.core.step syscall events).execute.annulIn = true := by
    rw [next.2]
    simpa [Core.owesAnnul, unstalled, bubble, owed] using follows.annul
  have word : idle (j.core.step syscall events).idex = false := by
    rw [idle, issue.fields]
    exact busy
  have squashed := Core.exOut_of_annulled annulled
  rw [Machine.next_of_annul owed]
  constructor
  case state =>
    rw [finished]
    change Sequential.perform _ (j.core.step syscall events).exOut = _
    rw [Sequential.perform_of_quiet squashed]
    exact follows.passed_step supplied allowed (.inr (Core.exOut_of_idle unstalled bubble))
  case annul =>
    change (j.core.step syscall events).owesAnnul = false
    simp only [Core.owesAnnul, next.1, word, annulled]
    rfl
  case free =>
    intro _ empty
    exact absurd (word.symm.trans empty) (by decide)
  case hands =>
    intro _ access
    exact absurd (squashed.accesses.symm.trans access) (by decide)
  case unstalled =>
    intro _ kept
    exact absurd (annulled.symm.trans kept) (by decide)
  case annulled =>
    intro _
    refine ⟨follows.memFree_step unstalled bubble (.inr owed), ?_⟩
    exact issue.annul.trans plain
  case moves =>
    intro taken
    exact absurd ((Core.not_resolves_of_annulled annulled).symm.trans taken) (by decide)
  case holds =>
    intro repeated
    exact absurd ((Core.not_repeats_of_unstalled next.1).symm.trans repeated) (by decide)

theorem accesses_live {x x' : IDEX} (fields : x.fields = x'.fields) (syscall syscall' : BitVec 32) :
    Mem.accesses (Execute.live x syscall) = Mem.accesses (Execute.live x' syscall') := by
  change (Mem.loadOp x.fields.op x.fields.op3 || Mem.storeOp x.fields.op x.fields.op3) = _
  rw [fields]
  rfl

/-- The word is executed as the machine does. -/
theorem Follows.enters_kept (follows : j.Follows m) (supplied : j.Supplied)
    (allowed : j.core.memory.Allowed events) (unstalled : j.core.execute.pState = .a)
    (bubble : idle j.core.idex = true)
    (issue : Machine.SameIssue (j.core.step syscall events).idex (m.issued j.core.decoding)
      (j.core.step syscall events).syscallResult 0)
    (regular : m.Regular j.core.decoding) (kept : m.annul = false) :
    (j.step syscall events).Follows (m.next j.core.decoding) := by
  have next := nState_of_idle syscall events unstalled bubble
  have unsquashed : (j.core.step syscall events).execute.annulIn = false := by
    rw [next.2]
    simpa [Core.owesAnnul, unstalled, bubble, kept] using follows.annul
  have shown : (j.core.step syscall events).exOut =
      Execute.live (j.core.step syscall events).idex
        (j.core.step syscall events).syscallResult := by
    rw [Core.exOut_of_kept unsquashed, Core.inExecute_step_of_unstalled next.1]
  have same : idle (j.core.step syscall events).idex = idle (m.issued j.core.decoding) := by
    rw [idle, issue.fields]
    rfl
  rw [Machine.next_of_kept kept]
  constructor
  case state =>
    have passed : (j.step syscall events).passed = m.state :=
      follows.passed_step supplied allowed (.inr (Core.exOut_of_idle unstalled bubble))
    rw [finished, passed]
    change m.state.perform (j.core.step syscall events).exOut = _
    rw [shown]
    exact issue.performs m.state
  case annul =>
    change (j.core.step syscall events).owesAnnul = requestsAnnul (m.issued j.core.decoding)
    simp only [Core.owesAnnul, next.1, unsquashed, issue.annul, Bool.not_false, Bool.true_and]
    split
    · rename_i empty
      rw [same] at empty
      have none := Execute.isBicc_of_idle empty
      simp [requestsAnnul, none]
    · rfl
  case free =>
    intro _ empty silent
    change idle (j.core.step syscall events).idex = true at empty
    rw [same] at empty
    rw [empty, Bool.or_true, if_pos rfl] at silent
    exact follows.memFree_step unstalled bubble (.inl silent)
  case hands =>
    intro busy access
    have word : idle (m.issued j.core.decoding) = false := by
      rw [← same]
      rcases busy with held | word
      · exact absurd (next.1.symm.trans held) (by decide)
      · exact word
    change Mem.accesses (j.core.step syscall events).exOut = true at access
    rw [shown, accesses_live issue.fields _ 0] at access
    cases nop : Decode.isNop j.core.decoding with
    | true =>
        have op : (m.issued j.core.decoding).fields.op ≠ 0b11 := by
          rw [Machine.issued_fields_of_isNop nop]
          simp only [Decode.isNop, Bool.or_eq_true, beq_iff_eq] at nop
          rcases nop with nop | nop <;> rw [nop] <;> decide
        rw [Sequential.accesses_of_op op] at access
        cases access
    | false =>
        change (if false || idle (m.issued j.core.decoding) then m.access
          else Mem.accesses (Execute.live (m.issued j.core.decoding) 0)) = true
        rw [word, Bool.or_self, if_neg (by decide)]
        exact access
  case unstalled =>
    intro _ _ taken
    change takenAnnulling (j.core.step syscall events).idex = true at taken
    rw [issue.taken] at taken
    exact (follows.memFree_step unstalled bubble (.inl (regular.unstalled kept taken))).ready
  case annulled =>
    intro owed
    exact absurd (unsquashed.symm.trans owed) (by decide)
  case moves =>
    intro taken
    change (j.core.step syscall events).resolves = true at taken
    simp only [Core.resolves, Bool.and_eq_true] at taken
    have transfers : m.transfers j.core.decoding = true := issue.muxSel.symm.trans taken.2
    change _ = (if m.transfers j.core.decoding then _ else _) ∧
      (if m.transfers j.core.decoding then _ else _) ≠ m.nPc ∧
      (if m.transfers j.core.decoding then _ else _) ≠ _
    rw [if_pos transfers]
    exact ⟨issue.target transfers, regular.moves kept transfers⟩
  case holds =>
    intro repeated
    exact absurd ((Core.not_repeats_of_unstalled next.1).symm.trans repeated) (by decide)

/-! ### A cycle with a word in Execute -/

variable (syscall events) in
theorem idle_step_of_busy (back : j.core.BackSpaced)
    (busy : j.core.execute.pState = .b ∨ idle j.core.idex = false) :
    idle (j.core.step syscall events).idex = true := by
  cases ready : j.core.exReady with
  | false => simpa [IDEX.step, ready] using (back.stalled ready).idle
  | true =>
      have word : idle j.core.idex = false := by
        rcases busy with held | word
        · rw [(back.held held).1] at ready
          cases ready
        · exact word
      have quiet := Core.decodeOut_quiet_of_not_leaves ready (back.leaves_of_busy word)
      simpa [IDEX.step, ready] using quiet.idle

/-- A branch makes no access. -/
theorem accesses_of_owesAnnul (back : j.core.BackSpaced)
    (busy : j.core.execute.pState = .b ∨ idle j.core.idex = false)
    (owed : j.core.owesAnnul = true) : Mem.accesses j.core.exOut = false := by
  have branch : j.core.exOut.op = 0b00 := by
    cases state : j.core.execute.pState with
    | a =>
        have word : idle j.core.idex = false := by
          rcases busy with held | word
          · exact absurd (state.symm.trans held) (by decide)
          · exact word
        simp only [Core.owesAnnul, state, word, Bool.false_eq_true, if_false, Bool.and_eq_true,
          Bool.not_eq_true', requestsAnnul] at owed
        rw [Core.exOut_of_kept owed.1, Core.inExecute, state]
        exact ((Execute.isBicc_eq_true _ _).mp owed.2.1.1).1
    | b =>
        simp only [Core.owesAnnul, state, Bool.and_eq_true] at owed
        rw [Core.exOut_of_kept (back.kept_of_held state), Core.inExecute, state]
        exact ((Execute.isBicc_eq_true _ _).mp owed.1).1
  exact Sequential.accesses_of_op (by rw [branch]; decide)

/-- The annulment is handed on with the word that owes it. -/
theorem annulIn_step_of_busy
    (annulled : j.core.execute.annulIn = true → requestsAnnul j.core.idex = false)
    (busy : j.core.execute.pState = .b ∨ idle j.core.idex = false)
    (ready : j.core.memReady = true) :
    (j.core.step syscall events).execute.annulIn = j.core.owesAnnul := by
  change j.core.execute.annulOut j.core.idex j.core.memReady j.core.syscallResult = _
  cases state : j.core.execute.pState with
  | a =>
      have word : idle j.core.idex = false := by
        rcases busy with held | word
        · exact absurd (state.symm.trans held) (by decide)
        · exact word
      simp only [Execute.Regs.annulOut, Core.owesAnnul, state, word, ready, Bool.true_and,
        Execute.isBicc_and_aluOut_a, Bool.false_eq_true, if_false]
      cases squashed : j.core.execute.annulIn with
      | true => rw [annulled squashed, Bool.and_false]
      | false => rfl
  | b => simp only [Execute.Regs.annulOut, Core.owesAnnul, state, ready, Bool.true_and]

/-- With a free Mem the word leaves Execute. -/
theorem Follows.leaves_execute (follows : j.Follows m) (supplied : j.Supplied)
    (allowed : j.core.memory.Allowed events)
    (busy : j.core.execute.pState = .b ∨ idle j.core.idex = false)
    (ready : j.core.memReady = true) : (j.step syscall events).Follows m := by
  have back := supplied.carried.cleared.spaced.back
  have unstalled : (j.core.step syscall events).execute.pState = .a := by
    change j.core.execute.nState _ _ = .a
    rw [Execute.Regs.nState, ready]
    cases j.core.execute.pState <;> simp
  have owed : (j.core.step syscall events).execute.annulIn = m.annul := by
    rw [annulIn_step_of_busy (fun squashed => (follows.annulled squashed).2) busy ready]
    exact follows.annul
  apply follows_of_idle unstalled (idle_step_of_busy syscall events back busy) _ owed
  · intro free
    apply Core.memFree_step ready (back.parked busy ready)
    rcases free with silent | annul
    · by_contra access
      rw [Bool.not_eq_false] at access
      rw [follows.hands busy access] at silent
      cases silent
    · exact accesses_of_owesAnnul back busy (follows.annul.trans annul)
  · exact follows.passed_step supplied allowed (.inl ready)

variable (syscall events) in
/-- What Execute does with a word while Mem is busy. -/
theorem held_step (kept : j.core.execute.annulIn = false)
    (busy : j.core.execute.pState = .b ∨ idle j.core.idex = false)
    (waits : j.core.memReady = false) :
    (j.core.step syscall events).execute.pState = .b ∧
      (j.core.step syscall events).execute.annulIn = false ∧
      (j.core.step syscall events).exOut = j.core.exOut := by
  have moves : j.core.execute.nState j.core.idex j.core.memReady = .b ∧
      j.core.execute.annulOut j.core.idex j.core.memReady j.core.syscallResult = false := by
    rw [Execute.Regs.nState, Execute.Regs.annulOut, waits]
    cases state : j.core.execute.pState with
    | a =>
        rcases busy with held | word
        · exact absurd (state.symm.trans held) (by decide)
        · simp [word]
    | b => simp
  have held : (j.core.step syscall events).execute.pState = .b := moves.1
  have unsquashed : (j.core.step syscall events).execute.annulIn = false := moves.2
  refine ⟨held, unsquashed, ?_⟩
  rw [Core.exOut_of_kept unsquashed, Core.exOut_of_kept kept]
  exact Core.inExecute_step_of_held held

/-- The copy of a word owes the annulment that the word owes, because no branch that is taken
in spite of its annul bit waits. -/
theorem Follows.owesAnnul_of_held (follows : j.Follows m)
    (kept : j.core.execute.annulIn = false)
    (busy : j.core.execute.pState = .b ∨ idle j.core.idex = false)
    (waits : j.core.memReady = false) :
    (j.core.step syscall events).owesAnnul = j.core.owesAnnul := by
  obtain ⟨held, -, -⟩ := held_step syscall events kept busy waits
  have copied : (j.core.step syscall events).owesAnnul =
      (isBicc (j.core.execute.copy j.core.idex j.core.syscallResult).pOp
        (j.core.execute.copy j.core.idex j.core.syscallResult).pOp2 &&
          (j.core.execute.copy j.core.idex j.core.syscallResult).pA) := by
    simp only [Core.owesAnnul, held]
    rfl
  rw [copied, Core.owesAnnul]
  cases state : j.core.execute.pState with
  | a =>
      have word : idle j.core.idex = false := by
        rcases busy with held | word
        · exact absurd (state.symm.trans held) (by decide)
        · exact word
      have untaken : takenAnnulling j.core.idex = false := by
        by_contra taken
        rw [follows.unstalled state kept (by simpa using taken)] at waits
        cases waits
      simp only [Execute.Regs.copy, state, word, kept, Execute.isBicc_and_a, untaken]
      simp
  | b => simp only [Execute.Regs.copy_of_held _ _ state]

theorem Follows.target_of_held (follows : j.Follows m)
    (kept : j.core.execute.annulIn = false)
    (repeated : (j.core.step syscall events).repeatsRedirect = true) :
    (j.core.step syscall events).execute.pTarget ≠ 0 := by
  have muxSel : (j.core.execute.copy j.core.idex j.core.syscallResult).pMuxSel = true := by
    simp only [Core.repeatsRedirect, Bool.and_eq_true] at repeated
    exact repeated.2
  change (j.core.execute.copy j.core.idex j.core.syscallResult).pTarget ≠ 0
  cases state : j.core.execute.pState with
  | a =>
      simp only [Execute.Regs.copy, state] at muxSel ⊢
      have taken : j.core.resolves = true := by simp [Core.resolves, state, kept, muxSel]
      obtain ⟨target, -, nonzero⟩ := follows.moves taken
      rw [← target] at nonzero
      exact nonzero
  | b =>
      rw [Execute.Regs.copy_of_held _ _ state] at muxSel ⊢
      exact follows.holds (by simp [Core.repeatsRedirect, state, muxSel])

/-- With a busy Mem the word and what it owes stay as they are. -/
theorem Follows.waits_for_mem (follows : j.Follows m) (supplied : j.Supplied)
    (allowed : j.core.memory.Allowed events)
    (busy : j.core.execute.pState = .b ∨ idle j.core.idex = false)
    (waits : j.core.memReady = false) : (j.step syscall events).Follows m := by
  have kept : j.core.execute.annulIn = false := by
    by_contra squashed
    rw [Bool.not_eq_false] at squashed
    rw [(follows.annulled squashed).1.ready] at waits
    cases waits
  obtain ⟨held, unsquashed, same⟩ := held_step syscall events kept
    busy waits
  constructor
  case state =>
    have stays : (j.step syscall events).passed = j.passed := by
      rw [supplied.passed_step allowed, waits, if_neg (by decide)]
    rw [← follows.state, finished, finished, stays]
    change j.passed.perform (j.core.step syscall events).exOut = _
    rw [same]
  case annul => exact (follows.owesAnnul_of_held kept busy waits).trans follows.annul
  case free =>
    intro free
    exact absurd (held.symm.trans free) (by decide)
  case hands =>
    intro _ access
    change Mem.accesses (j.core.step syscall events).exOut = true at access
    rw [same] at access
    exact follows.hands busy access
  case unstalled =>
    intro free
    exact absurd (held.symm.trans free) (by decide)
  case annulled =>
    intro squashed
    exact absurd (unsquashed.symm.trans squashed) (by decide)
  case moves =>
    intro taken
    change (j.core.step syscall events).resolves = true at taken
    simp only [Core.resolves, held] at taken
    cases taken
  case holds => exact follows.target_of_held kept

/-! ### One cycle -/

/-- An `STBAR` may leave decode while Execute is stalled, and is lost. -/
theorem Follows.step_of_busy (follows : j.Follows m) (supplied : j.Supplied)
    (allowed : j.core.memory.Allowed events)
    (busy : j.core.execute.pState = .b ∨ idle j.core.idex = false)
    (regular : j.core.leaves = true → m.Regular j.core.decoding) :
    (j.step syscall events).Follows
      (if j.core.leaves then m.next j.core.decoding else m) := by
  have back := supplied.carried.cleared.spaced.back
  have stays : (j.step syscall events).Follows m := by
    cases ready : j.core.memReady with
    | true => exact follows.leaves_execute supplied allowed busy ready
    | false => exact follows.waits_for_mem supplied allowed busy ready
  cases leaving : j.core.leaves with
  | false => exact stays
  | true =>
      have held : j.core.releases = false := by
        by_contra released
        rw [Bool.not_eq_false] at released
        obtain ⟨unstalled, quiet, -⟩ := back.empty_of_releases released
        rcases busy with held | word
        · exact absurd (unstalled.symm.trans held) (by decide)
        · exact absurd (quiet.idle.symm.trans word) (by decide)
      obtain ⟨-, -, nop⟩ := Core.isNop_of_leaves leaving held
      have kept : m.annul = false := by
        by_contra owed
        have word := ((regular leaving).annulled (by simpa using owed)).1
        exact absurd (nop.symm.trans word) (by decide)
      have untaken : (j.step syscall events).core.resolves = false := by
        have bubble := idle_step_of_busy syscall events back busy
        change (j.core.step syscall events).resolves = false
        rw [Core.resolves, aluOut_muxSel_of_idle bubble, Bool.and_false]
      rw [if_pos rfl, Machine.next_of_isNop nop kept]
      exact stays.elsewhere untaken rfl kept.symm rfl

/-- The machine takes a step with every word that leaves decode. -/
theorem Follows.step (follows : j.Follows m) (supplied : j.Supplied)
    (allowed : j.core.memory.Allowed events)
    (regular : j.core.leaves = true → m.Regular j.core.decoding)
    (here : j.core.leaves = true → j.core.decode.nPc j.core.ifid = m.pc.setWidth 64) :
    (j.step syscall events).Follows
      (if j.core.leaves then m.next j.core.decoding else m) := by
  by_cases busy : j.core.execute.pState = .b ∨ idle j.core.idex = false
  · exact follows.step_of_busy supplied allowed busy regular
  · rw [not_or, Bool.not_eq_false] at busy
    obtain ⟨free, bubble⟩ := busy
    have unstalled : j.core.execute.pState = .a := by
      cases state : j.core.execute.pState with
      | a => rfl
      | b => exact absurd state free
    cases leaving : j.core.leaves with
    | false => exact follows.stays_idle supplied allowed unstalled bubble leaving
    | true =>
        have ready := follows.exReady_of_leaves unstalled bubble leaving (regular leaving)
        have issue := follows.sameIssue syscall events supplied
          unstalled bubble ready leaving (here leaving)
        rw [if_pos rfl]
        cases owed : m.annul with
        | true =>
            exact follows.enters_annulled supplied allowed unstalled bubble issue
              (regular leaving) owed
        | false =>
            exact follows.enters_kept supplied allowed unstalled bubble issue (regular leaving) owed

variable (syscall events) in
/-- A transfer is resolved in the cycle behind that in which it leaves decode. -/
theorem Follows.resolves_of_transfers (follows : j.Follows m) (supplied : j.Supplied)
    (leaving : j.core.leaves = true) (regular : m.Regular j.core.decoding)
    (here : j.core.decode.nPc j.core.ifid = m.pc.setWidth 64) (kept : m.annul = false)
    (transfers : m.transfers j.core.decoding = true) :
    (j.core.step syscall events).resolves = true := by
  have back := supplied.carried.cleared.spaced.back
  have released : j.core.releases = true := by
    by_contra held
    rw [Bool.not_eq_true] at held
    obtain ⟨-, -, nop⟩ := Core.isNop_of_leaves leaving held
    have straight : (m.issued j.core.decoding).Straight :=
      .of_isNop nop (Machine.issued_fields_of_isNop nop)
    rw [Machine.transfers, straight.muxSel] at transfers
    cases transfers
  obtain ⟨unstalled, quiet, -⟩ := back.empty_of_releases released
  have ready := follows.exReady_of_leaves unstalled quiet.idle leaving regular
  have issue := follows.sameIssue syscall events supplied unstalled
    quiet.idle ready leaving here
  have next := nState_of_idle syscall events unstalled quiet.idle
  have unsquashed : (j.core.step syscall events).execute.annulIn = false := by
    rw [next.2]
    simpa [Core.owesAnnul, unstalled, quiet.idle, kept] using follows.annul
  have taken := issue.muxSel.trans transfers
  simp only [Core.resolves, next.1, unsquashed, taken]
  rfl

/-! ### What has been changed -/

theorem effects_prefix_finished (j : Journal) : j.effects <+: j.finished.effects :=
  j.effects_prefix_passed.trans (Sequential.effects_prefix_perform _ _)

theorem Supplied.finished_of_drained (supplied : j.Supplied) (drained : j.core.Drained) :
    j.finished = j.written := by
  have quiet : j.core.exOut.Quiet := by
    rw [Core.exOut_eq]
    split
    · exact Core.squashed_quiet _
    · exact drained.execute
  rw [finished, Sequential.perform_of_quiet quiet]
  exact supplied.carried.passed_of_drained drained

/-- The word 0 that the reset leaves in `IFIDReg` is in Execute, and does nothing. -/
theorem follows_start (syscall : Syscall) (entry : BitVec 32) (regFile : RegFile) (ram : Ram) :
    (start (Core.start syscall entry regFile ram)).Follows
      { state := Sequential.start regFile ram, pc := entry, nPc := entry + 4, annul := false
        access := false } := by
  let s := Core.start syscall entry regFile ram
  have fields : s.idex.fields = Decode.decodeFields 0 :=
    Core.start_idex syscall entry regFile ram
  have unstalled : s.execute.pState = .a := rfl
  have kept : s.execute.annulIn = false := rfl
  have straight : s.idex.Straight := by
    rw [IDEX.Straight, fields]
    decide
  have word : idle s.idex = false := by
    rw [idle, fields]
    decide
  constructor
  case state =>
    have shown : s.exOut = s.inExecute := Core.exOut_of_kept kept
    rw [← Core.drain_start syscall entry regFile ram, drain_eq]
    exact congrArg _ shown
  case annul =>
    change s.owesAnnul = false
    simp only [Core.owesAnnul, unstalled, word, straight.not_requestsAnnul, Bool.and_false]
    rfl
  case free =>
    intro _ bubble
    exact absurd (word.symm.trans bubble) (by decide)
  case hands =>
    intro _ access
    have op : s.exOut.op = 0b00 := congrArg Fields.op fields
    rw [show (start s).core.exOut = s.exOut from rfl,
      Sequential.accesses_of_op (by rw [op]; decide)] at access
    cases access
  case unstalled =>
    intro _ _ taken
    exact absurd (straight.not_takenAnnulling.symm.trans taken) (by decide)
  case annulled =>
    intro owed
    exact absurd (kept.symm.trans owed) (by decide)
  case moves =>
    intro taken
    change s.resolves = true at taken
    rw [Core.resolves, straight.muxSel, Bool.and_false] at taken
    cases taken
  case holds =>
    intro repeated
    exact absurd ((Core.not_repeats_of_unstalled unstalled).symm.trans repeated) (by decide)

end

end Journal

end Sparcy
