import Sparcy.TransferPipeline

/-!
# The architectural sequence of instructions

The law of delayed control transfer, on the words that fetch delivers and the operands that
decode reads with them.  Whether a word is a taken transfer, where it goes and whether it
annuls the next word are properties of the word and its operands alone, and an annulled word
does nothing.  Execute decides the same when no annulled word slips past it, so fetch keeps
to the law.
-/

namespace Sparcy

open Execute (idle isBicc requestsAnnul takenAnnulling)

/-! ### Transfers of the architecture -/

/-- The condition of a `Bicc`: the low bits select a test of the codes, and the high bit
complements it. -/
def Cond.holds (cond icc : BitVec 4) : Bool :=
  let c := icc.getLsbD 0
  let v := icc.getLsbD 1
  let z := icc.getLsbD 2
  let n := icc.getLsbD 3
  let test := match cond.toNat % 8 with
    | 0 => false
    | 1 => z
    | 2 => z || (n ^^ v)
    | 3 => n ^^ v
    | 4 => c || z
    | 5 => c
    | 6 => n
    | _ => v
  cond.getLsbD 3 ^^ test

namespace Inst

/-- A `CALL`, a `JMPL` or a `Bicc` whose condition holds. -/
def transfers (inst : Inst) (operands : Operands) : Bool :=
  inst.op == 0b01 || (inst.op == 0b10 && inst.op3 == Op3.JMPL) ||
    (isBicc inst.op inst.op2 && Cond.holds inst.cond operands.icc)

/-- Where a transfer at an address goes. -/
def target (inst : Inst) (address : BitVec 32) (operands : Operands) : BitVec 32 :=
  if inst.op = 0b01 then address + 4 * inst.disp30.setWidth 32
  else if inst.op = 0b00 then address + 4 * inst.disp22.signExtend 32
  else operands.valA + if inst.i then inst.imm13.signExtend 32 else operands.valB

/-- A `Bicc` with the annul bit annuls the next instruction unless it is conditional and
taken. -/
def annulsNext (inst : Inst) (operands : Operands) : Bool :=
  isBicc inst.op inst.op2 && inst.a &&
    (inst.cond == Cond.BA || !Cond.holds inst.cond operands.icc)

end Inst

/-- What becomes of the words of a program in front of Execute. -/
inductive SequenceEvent where
  /-- Fetch hands the word at this address to `IFIDReg`. -/
  | deliver (address : BitVec 32) (inst : Inst)
  /-- The last word leaves decode, with the operands that decode has read. -/
  | issue (operands : Operands)

/-- The architectural state in front of Execute. -/
structure SequenceState where
  /-- The delivered word that has not been issued, and its address. -/
  last : Option (BitVec 32 × Inst)
  pc : BitVec 32
  nPc : BitVec 32
  /-- The next word to be issued is annulled. -/
  annul : Bool

namespace SequenceState

def start (entry : BitVec 32) : SequenceState :=
  { last := none, pc := entry, nPc := entry + 4, annul := false }

/-- The last word is executed or, when it is annulled, skipped.  Its delay slot is at `pc`,
so a transfer replaces `nPc`. -/
def issue (m : SequenceState) (operands : Operands) : SequenceState :=
  match m.last with
  | none => m
  | some (address, inst) =>
      if m.annul then { m with last := none, annul := false }
      else
        { last := none
          pc := m.pc
          nPc := if inst.transfers operands then inst.target address operands else m.nPc
          annul := inst.annulsNext operands }

end SequenceState

/-- Delayed control transfer: the word at `pc` is delivered, after the one before it has been
issued, and `nPc` follows. -/
def transferLaw : Runs.Monitor SequenceState SequenceEvent where
  allows m
    | .deliver address _ => m.last = none ∧ address = m.pc
    | .issue _ => m.last ≠ none
  next m
    | .deliver address inst =>
        { m with last := some (address, inst), pc := m.nPc, nPc := m.nPc + 4 }
    | .issue operands => m.issue operands

instance (m : SequenceState) : ∀ event, Decidable (transferLaw.allows m event)
  | .deliver _ _ => inferInstanceAs (Decidable (_ ∧ _))
  | .issue _ => inferInstanceAs (Decidable (_ ≠ _))

namespace Tagged

/-- The event of a cycle. -/
def sequenceEvent (t : Tagged Unit) : Option SequenceEvent :=
  if t.delivers then some (.deliver t.core.fetch.lastAddress t.core.fetch.pInst)
  else if t.leavesDecode then
    some (.issue (Decode.operands t.core.regFile t.core.decoding))
  else none

/-- The cases that break the law, beside those of the counter of fetch: a word that looks like
a bubble, or that decode passes on to a stalled Execute, is to be annulled; an annulled branch
asks for an annulment; and a taken conditional branch with the annul bit is stalled. -/
def SequenceSafe (t : Tagged Unit) : Prop :=
  FetchSafe t.core ∧
  (t.leavesDecode = true → idle t.core.decodeOut = true ∨ t.core.exReady = false →
    t.core.owesAnnul = false) ∧
  (t.core.execute.annulIn = true → requestsAnnul t.core.idex = false) ∧
  (takenAnnulling t.core.idex = true → t.core.memReady = true)

instance (t : Tagged Unit) : Decidable t.SequenceSafe := inferInstanceAs (Decidable (_ ∧ _))

end Tagged

/-! ### What Execute decides -/

theorem Cond.holds_eq :
    ∀ cond icc, Cond.holds cond icc = (cond == Cond.BA || AluIn.condition cond icc) := by
  decide +kernel

namespace Execute

variable (inst : Inst) (operands : Operands) (pc : BitVec 64) (syscall : BitVec 32)

/-- The request for an annulment is that of the word. -/
theorem requestsAnnul_eq_annulsNext :
    requestsAnnul { pcPlus4 := pc, fields := Decode.decodeFields inst, operands := operands } =
      inst.annulsNext operands := by
  change (isBicc inst.op inst.op2 && inst.a &&
    (inst.cond == Cond.BA || !AluIn.condition inst.cond operands.icc)) = _
  rw [Inst.annulsNext, Cond.holds_eq]
  cases inst.cond == Cond.BA <;> simp

/-- The ALU takes the transfers of the architecture. -/
theorem aluOut_muxSel_eq_transfers :
    (aluOut { pcPlus4 := pc, fields := Decode.decodeFields inst, operands := operands }
      syscall).muxSel = inst.transfers operands := by
  let x := aluIn { pcPlus4 := pc, fields := Decode.decodeFields inst, operands := operands }
  change (x.alu syscall).muxSel = _
  have opX : x.op = inst.op := rfl
  have op2X : x.op2 = inst.op2 := rfl
  have op3X : x.op3 = inst.op3 := rfl
  by_cases call : inst.op = 0b01
  · simp [AluIn.alu, AluIn.call, Inst.transfers, opX, call]
  · by_cases branch : inst.op = 0b00 ∧ inst.op2 = Op2.Bicc
    · have out : x.alu syscall = x.bicc := by
        simp [AluIn.alu, AluIn.format2, opX, op2X, branch.1, branch.2]
      have taken : x.bicc.muxSel = Cond.holds inst.cond operands.icc := by
        rw [Cond.holds_eq, AluIn.bicc]
        by_cases always : inst.cond = Cond.BA
        · rw [if_pos (show x.cond = Cond.BA from always), always]
          rfl
        · rw [if_neg (show x.cond ≠ Cond.BA from always), beq_eq_false_iff_ne.mpr always]
          change (if AluIn.condition inst.cond operands.icc = true then _ else _ : AluOut).muxSel =
            AluIn.condition inst.cond operands.icc
          split
          · exact (‹AluIn.condition inst.cond operands.icc = true›).symm
          · rename_i untaken
            exact (Bool.eq_false_iff.mpr untaken).symm
      rw [out, taken]
      simp [Inst.transfers, isBicc, branch.1, branch.2]
    · by_cases jump : inst.op = 0b10 ∧ inst.op3 = Op3.JMPL
      · simp [AluIn.alu, AluIn.format3, AluIn.jmpl, Inst.transfers, opX, op3X, jump.1, jump.2]
      · rw [AluIn.muxSel_of_others x syscall call branch jump]
        have notJump : (inst.op == 0b10 && inst.op3 == Op3.JMPL) = false := by simpa using jump
        have notBranch : isBicc inst.op inst.op2 = false := by simpa [isBicc] using branch
        rw [Inst.transfers, beq_eq_false_iff_ne.mpr call, notJump, notBranch]
        rfl

/-- And to the same target. -/
theorem aluOut_target_eq_target (taken : inst.transfers operands = true) :
    (aluOut { pcPlus4 := pc, fields := Decode.decodeFields inst, operands := operands }
      syscall).target = inst.target (pc.setWidth 32) operands := by
  let x := aluIn { pcPlus4 := pc, fields := Decode.decodeFields inst, operands := operands }
  change (x.alu syscall).target = _
  have opX : x.op = inst.op := rfl
  have op2X : x.op2 = inst.op2 := rfl
  have op3X : x.op3 = inst.op3 := rfl
  simp only [Inst.transfers, isBicc, Bool.or_eq_true, Bool.and_eq_true, beq_iff_eq] at taken
  rcases taken with (call | ⟨op, jump⟩) | ⟨⟨op, branch⟩, -⟩
  · rw [Inst.target, if_pos call, AluIn.alu, if_pos (opX.trans call)]
    rfl
  · have out : x.alu syscall = x.jmpl := by simp [AluIn.alu, AluIn.format3, opX, op3X, op, jump]
    rw [out, Inst.target, if_neg (by simp [op]), if_neg (by simp [op])]
    rfl
  · have out : x.alu syscall = x.bicc := by simp [AluIn.alu, AluIn.format2, opX, op2X, op, branch]
    have target : x.bicc.target = inst.target (pc.setWidth 32) operands := by
      rw [Inst.target, if_neg (by simp [op]), if_pos op, AluIn.bicc]
      dsimp only
      split
      · rfl
      · split <;> rfl
    rw [out, target]

end Execute

/-! ### Execute in one cycle -/

namespace Core

section

variable {s : Core} {syscall : Syscall} {events : DramEvents}

theorem not_resolves_of_idle (bubble : idle s.idex = true) : s.resolves = false := by
  rw [resolves, aluOut_muxSel_of_idle bubble, Bool.and_false]

theorem BackSpaced.unstalled_of_exReady (back : s.BackSpaced) (ready : s.exReady = true) :
    s.execute.pState = .a := by
  cases state : s.execute.pState with
  | a => rfl
  | b =>
      rw [(back.held state).1] at ready
      cases ready

/-- While only bubbles come into Execute it owes the same annulment, in `STATEA` or with the
copy in `STATEB`. -/
theorem owesAnnul_step_of_idle
    (annulled : s.execute.annulIn = true → requestsAnnul s.idex = false)
    (unstalled : takenAnnulling s.idex = true → s.memReady = true)
    (bubble : idle (s.step syscall events).idex = true) :
    (s.step syscall events).owesAnnul = s.owesAnnul := by
  have annulIn : (s.step syscall events).execute.annulIn =
      s.execute.annulOut s.idex s.memReady s.syscallResult := rfl
  have copied : (s.step syscall events).execute.pState = .b → (s.step syscall events).owesAnnul =
      (isBicc (s.execute.copy s.idex s.syscallResult).pOp
        (s.execute.copy s.idex s.syscallResult).pOp2 &&
          (s.execute.copy s.idex s.syscallResult).pA) := by
    intro held
    simp only [owesAnnul, held]
    rfl
  have shown : (s.step syscall events).execute.pState = .a →
      (s.step syscall events).owesAnnul = (s.step syscall events).execute.annulIn := by
    intro free
    simp only [owesAnnul, free, bubble, if_true]
  cases state : s.execute.pState with
  | a =>
      cases word : idle s.idex with
      | true =>
          rw [shown (by simp [Execute.Regs.nState, state, word]), annulIn]
          simp [Execute.Regs.annulOut, owesAnnul, state, word]
      | false =>
          have owes : s.owesAnnul = requestsAnnul s.idex := by
            simp only [owesAnnul, state, word, Bool.false_eq_true, if_false]
            cases squashed : s.execute.annulIn with
            | true => simp [annulled squashed]
            | false => simp
          cases ready : s.memReady with
          | true =>
              rw [shown (by simp [Execute.Regs.nState, state, ready]), annulIn, owes]
              simp [Execute.Regs.annulOut, state, word, ready, Execute.isBicc_and_aluOut_a]
          | false =>
              have notTaken : takenAnnulling s.idex = false := by
                by_contra taken
                rw [unstalled (by simpa using taken)] at ready
                cases ready
              rw [copied (by simp [Execute.Regs.nState, state, word, ready]), owes]
              simp [Execute.Regs.copy, state, Execute.isBicc_and_a, notTaken]
  | b =>
      have owes : s.owesAnnul = (isBicc s.execute.pOp s.execute.pOp2 && s.execute.pA) := by
        simp only [owesAnnul, state]
      rw [owes]
      cases ready : s.memReady with
      | true =>
          rw [shown (by simp [Execute.Regs.nState, state, ready]), annulIn]
          simp [Execute.Regs.annulOut, state, ready]
      | false =>
          rw [copied (by simp [Execute.Regs.nState, state, ready]),
            Execute.Regs.copy_of_held s.idex s.syscallResult state]

/-- The words that decode passes on are no transfers, and come into Execute as none. -/
theorem straight_of_passes (passes : s.decode.passesNop s.ifid = true) :
    s.decodeOut.Straight ∧ (∀ operands, s.decoding.transfers operands = false) ∧
      ∀ operands, s.decoding.annulsNext operands = false := by
  have fields : s.decodeOut.fields = Decode.bubbleFields s.ifid.inst := by
    simp [decodeOut, Decode.Regs.outFields, passes]
  simp only [Decode.Regs.passesNop, Bool.and_eq_true, beq_iff_eq] at passes
  obtain ⟨free, nop⟩ := passes
  refine ⟨.of_isNop nop fields, ?_⟩
  have same : s.decoding = s.ifid.inst := by simp [decoding, Decode.Regs.nInst, free]
  rw [same]
  simp only [Decode.isNop, Bool.or_eq_true, beq_iff_eq] at nop
  constructor
  · intro operands
    rcases nop with word | word <;> rw [word] <;> rfl
  · intro operands
    rcases nop with word | word <;> rw [word] <;> rfl

variable (syscall events) in
/-- What decode hands on in front of an empty Execute finds the annulment owed before. -/
theorem BackSpaced.entered (back : s.BackSpaced) (bubble : idle s.idex = true)
    (ready : s.exReady = true) :
    (s.step syscall events).execute.pState = .a ∧
      (s.step syscall events).execute.annulIn = s.owesAnnul ∧
      (s.step syscall events).idex = s.decodeOut := by
  have unstalled := back.unstalled_of_exReady ready
  refine ⟨?_, ?_, ?_⟩
  · simp [Execute.Regs.nState, unstalled, bubble]
  · simp [Execute.Regs.annulOut, owesAnnul, unstalled, bubble]
  · simp [IDEX.step, ready]

/-- Execute gets the word or, of a word that decode passes on, nothing that transfers. -/
theorem decodeOut_decides (decoded : s.DecodeCopied) (syscall : BitVec 32)
    (leaving : s.releases = true ∨ s.decode.passesNop s.ifid = true) :
    (Execute.aluOut s.decodeOut syscall).muxSel =
        s.decoding.transfers (Decode.operands s.regFile s.decoding) ∧
      requestsAnnul s.decodeOut =
        s.decoding.annulsNext (Decode.operands s.regFile s.decoding) ∧
      (s.decoding.transfers (Decode.operands s.regFile s.decoding) = true →
        (Execute.aluOut s.decodeOut syscall).target =
          s.decoding.target ((s.decode.nPc s.ifid).setWidth 32)
            (Decode.operands s.regFile s.decoding)) := by
  rcases leaving with released | passes
  · rw [decodeOut_of_releases decoded released]
    exact ⟨Execute.aluOut_muxSel_eq_transfers _ _ _ _,
      Execute.requestsAnnul_eq_annulsNext _ _ _, Execute.aluOut_target_eq_target _ _ _ _⟩
  · obtain ⟨straight, transfers, annuls⟩ := straight_of_passes passes
    rw [straight.muxSel, straight.not_requestsAnnul, transfers, annuls]
    exact ⟨rfl, rfl, fun taken => absurd taken (by decide)⟩

end

end Core

namespace Tagged

/-- The word that has been delivered and has not left decode, with its address. -/
def inDecode (t : Tagged Unit) : Option (BitVec 32 × Inst) :=
  if t.core.decode.pState ≠ .a ∨ t.delivered = true then
    some ((t.core.decode.nPc t.core.ifid).setWidth 32, t.core.decoding)
  else none

/-- The architectural state beside the counters that fetch follows: a transfer that has left
decode has set `nPc`, and reaches the counters of fetch when Execute resolves it. -/
structure Sequenced (t : Tagged Unit) (c : ProgramCounters) (m : SequenceState) : Prop where
  tracks : FetchTracks t c
  word : t.core.ifid.inst ≠ Inst.nop → t.delivered = true
  behind : t.delivered = true → t.core.decode.pState = .a ∧ t.core.idex.Quiet ∧
    ¬ (t.core.fetch.pState = .a ∧ t.fetched = true)
  last : m.last = t.inDecode
  pc : m.pc = c.pc
  nPc : m.nPc = if t.core.resolves then t.core.target else c.nPc
  annul : m.annul = t.core.owesAnnul

section

variable {t : Tagged Unit} {c : ProgramCounters} {m : SequenceState} {syscall : Syscall}
  {events : DramEvents}

/-- While a word is in decode nothing is delivered, and Execute has no word. -/
theorem Sequenced.alone (seq : Sequenced t c m) (occupied : t.inDecode ≠ none) :
    t.core.idex.Quiet ∧ ¬ (t.core.fetch.pState = .a ∧ t.fetched = true) := by
  have held : t.core.decode.pState ≠ .a ∨ t.delivered = true := by
    by_contra free
    rw [inDecode, if_neg free] at occupied
    exact occupied rfl
  rcases held with held | delivered
  · refine ⟨seq.tracks.spaced.back.behindDecode (.inl held), ?_⟩
    rintro ⟨idle, shown⟩
    exact (seq.tracks.fresh idle shown).1 (.inl held)
  · exact (seq.behind delivered).2

theorem Sequenced.occupied_of_decoding (seq : Sequenced t c m) (decoding : t.core.Decoding) :
    t.inDecode ≠ none := by
  have held : t.core.decode.pState ≠ .a ∨ t.delivered = true :=
    decoding.imp_right seq.word
  rw [inDecode, if_pos held]
  exact Option.some_ne_none _

theorem Sequenced.occupied_of_leavesDecode (seq : Sequenced t c m)
    (leaving : t.leavesDecode = true) : t.inDecode ≠ none := by
  rw [leavesDecode, Bool.or_eq_true, Bool.and_eq_true] at leaving
  rcases leaving with released | ⟨-, delivered⟩
  · exact seq.occupied_of_decoding (Core.decoding_of_releases released).1
  · rw [inDecode, if_pos (.inr delivered)]
    exact Option.some_ne_none _

theorem Sequenced.not_leavesDecode_of_delivers (seq : Sequenced t c m)
    (delivers : t.delivers = true) : t.inDecode = none ∧ t.leavesDecode = false := by
  have shown := seq.tracks.delivers_iff.mp delivers
  have empty : t.inDecode = none := by
    by_contra occupied
    exact (seq.alone occupied).2 shown
  refine ⟨empty, ?_⟩
  by_contra leaving
  exact seq.occupied_of_leavesDecode (by simpa using leaving) empty

variable (syscall events) in
theorem Sequenced.delivered_step (seq : Sequenced t c m) :
    (t.step (fun _ => ()) syscall events).delivered = t.delivers := by
  cases ready : t.core.idReady with
  | true => simp [step, delivers, ready]
  | false =>
      have idle : t.delivered = false := by
        by_contra delivered
        have free := (seq.behind (by simpa using delivered)).1
        simp [Core.idReady, Decode.Regs.idReady, free] at ready
      simp [step, delivers, ready, idle]

variable (syscall events) in
/-- A word that leaves decode leaves it free. -/
theorem decode_free_of_leavesDecode (leaving : t.leavesDecode = true) :
    (t.core.step syscall events).decode.pState = .a := by
  change t.core.decode.nState t.core.ifid t.core.hazards t.core.exReady = .a
  rw [leavesDecode, Bool.or_eq_true, Bool.and_eq_true] at leaving
  rcases leaving with released | ⟨passes, -⟩
  · simp only [Core.releases, Decode.Regs.releases, Bool.and_eq_true,
      Bool.not_eq_true'] at released
    simp [Decode.Regs.nState, released.1.1, released.1.2, released.2]
  · rw [Decode.Regs.nState, if_pos passes]

/-- `leaves` and `leavesDecode` differ by the delivered no-op. -/
theorem leaves_of_not_leavesDecode (seq : Sequenced t c m) (stays : t.leavesDecode = false) :
    t.core.leaves = false := by
  rw [leavesDecode, Bool.or_eq_false_iff] at stays
  rw [Core.leaves, stays.1, Bool.false_or]
  by_contra leaving
  rw [Bool.not_eq_false, Bool.and_eq_true, bne_iff_ne] at leaving
  have passed := stays.2
  rw [leaving.1, seq.word leaving.2] at passed
  cases passed

theorem Sequenced.inDecode_step (seq : Sequenced t c m) :
    (t.step (fun _ => ()) syscall events).inDecode =
      if t.delivers then some (t.core.fetch.lastAddress, t.core.fetch.pInst)
      else if t.leavesDecode then none
      else t.inDecode := by
  have delivered := seq.delivered_step syscall events
  cases delivers : t.delivers with
  | true =>
      obtain ⟨idle, shown⟩ := seq.tracks.delivers_iff.mp delivers
      have free := (seq.tracks.fresh idle shown).1
      simp only [Core.Decoding, not_or, not_not] at free
      have nextFree := Core.decode_free_of_nop free.1 free.2 syscall events
      have loaded : (t.core.step syscall events).ifid = t.core.fetch.out := by
        simp [IFID.step, Core.idReady, Decode.Regs.idReady, free.1]
      have address : (t.core.step syscall events).decode.nPc (t.core.step syscall events).ifid =
          t.core.fetch.pPc := by
        rw [Decode.Regs.nPc, nextFree, loaded]
        rfl
      have word : (t.core.step syscall events).decoding = t.core.fetch.pInst := by
        rw [Core.decoding, Decode.Regs.nInst, nextFree, loaded]
        simp [Fetch.Regs.out, idle]
      rw [if_pos rfl, inDecode, if_pos (.inr (delivered.trans delivers)), step_core, address, word]
      rfl
  | false =>
      rw [delivers] at delivered
      rw [if_neg (by decide)]
      cases leaving : t.leavesDecode with
      | true =>
          have free := decode_free_of_leavesDecode syscall events leaving
          rw [if_pos rfl, inDecode, step_core, free, delivered, if_neg (by decide)]
      | false =>
          rw [if_neg (by decide)]
          by_cases decoding : t.core.Decoding
          · have held : (t.core.step syscall events).decode.pState ≠ .a :=
              Core.held_of_not_leaves decoding (leaves_of_not_leavesDecode seq leaving)
            have same := Core.decoding_step_of_held held
            have before := decoding.imp_right seq.word
            rw [inDecode, step_core, if_pos (.inl held), inDecode, if_pos before, same.1, same.2]
          · -- nothing can be held, for the no-op would have left
            have free := decoding
            simp only [Core.Decoding, not_or, not_not] at free
            have nextFree := Core.decode_free_of_nop free.1 free.2 syscall events
            have idle : t.delivered = false := by
              simpa [leavesDecode, Decode.Regs.passesNop, Decode.isNop, free.1, free.2] using
                (Bool.or_eq_false_iff.mp leaving).2
            rw [inDecode, step_core, nextFree, delivered, if_neg (by decide), inDecode, free.1,
              idle, if_neg (by decide)]

/-! ### One cycle of the law -/

/-- The architectural state after the event of a cycle. -/
def follow (t : Tagged Unit) (m : SequenceState) : SequenceState :=
  t.sequenceEvent.elim m (transferLaw.next m)

theorem Sequenced.word_step (seq : Sequenced t c m)
    (word : (t.step (fun _ => ()) syscall events).core.ifid.inst ≠ Inst.nop) :
    (t.step (fun _ => ()) syscall events).delivered = true := by
  obtain ⟨-, idle, fetched⟩ := seq.tracks.spaced.front.arrives word
  rw [seq.delivered_step]
  refine seq.tracks.delivers_iff.mpr ⟨idle, ?_⟩
  by_contra hidden
  exact fetched (seq.tracks.stale idle (by simpa using hidden))

theorem Sequenced.behind_step (seq : Sequenced t c m)
    (delivered : (t.step (fun _ => ()) syscall events).delivered = true) :
    (t.step (fun _ => ()) syscall events).core.decode.pState = .a ∧
      (t.step (fun _ => ()) syscall events).core.idex.Quiet ∧
      ¬ ((t.step (fun _ => ()) syscall events).core.fetch.pState = .a ∧
        (t.step (fun _ => ()) syscall events).fetched = true) := by
  rw [seq.delivered_step] at delivered
  obtain ⟨idle, shown⟩ := seq.tracks.delivers_iff.mp delivered
  have decoding := (seq.tracks.fresh idle shown).1
  have free := decoding
  simp only [Core.Decoding, not_or, not_not] at free
  refine ⟨Core.decode_free_of_nop free.1 free.2 syscall events,
    seq.tracks.spaced.back.quiet_step decoding syscall events, ?_⟩
  simp [idle]

variable (syscall events) in
/-- The bubble that decode hands on while no word leaves it. -/
theorem Sequenced.idle_step_of_stays (seq : Sequenced t c m) (stays : t.leavesDecode = false) :
    idle (t.core.step syscall events).idex = true := by
  cases ready : t.core.exReady with
  | true =>
      have quiet := Core.decodeOut_quiet_of_not_leaves ready (leaves_of_not_leavesDecode seq stays)
      simpa [IDEX.step, ready] using quiet.idle
  | false => simpa [IDEX.step, ready] using (seq.tracks.spaced.back.stalled ready).idle

theorem leavesDecode_cases (leaving : t.leavesDecode = true) :
    t.core.releases = true ∨ t.core.decode.passesNop t.core.ifid = true := by
  rw [leavesDecode, Bool.or_eq_true, Bool.and_eq_true] at leaving
  exact leaving.imp_right And.left

/-- A word that does not show in Execute neither transfers control nor annuls. -/
theorem straight_of_lost (spaced : t.core.Spaced) (leaving : t.leavesDecode = true)
    (lost : idle t.core.decodeOut = true ∨ t.core.exReady = false) :
    t.core.decoding.transfers (Decode.operands t.core.regFile t.core.decoding) = false ∧
      t.core.decoding.annulsNext (Decode.operands t.core.regFile t.core.decoding) = false := by
  have kind := leavesDecode_cases leaving
  rcases lost with shown | stalled
  · have decides := Core.decodeOut_decides spaced.decoded t.core.syscallResult kind
    rw [← decides.1, ← decides.2.1, aluOut_muxSel_of_idle shown, requestsAnnul,
      Execute.isBicc_of_idle shown]
    exact ⟨rfl, rfl⟩
  · rcases kind with released | passes
    · rw [(Core.decoding_of_releases released).2] at stalled
      cases stalled
    · have straight := Core.straight_of_passes passes
      exact ⟨straight.2.1 _, straight.2.2 _⟩

variable (syscall events) in
/-- When a word leaves decode Execute comes to decide as the architecture does.  A word that
finds Execute stalled, or that looks like a bubble, is no transfer and is not to be annulled. -/
theorem Sequenced.decided (seq : Sequenced t c m) (safe : t.SequenceSafe)
    (leaving : t.leavesDecode = true) :
    let operands := Decode.operands t.core.regFile t.core.decoding
    (t.core.step syscall events).resolves =
        (!t.core.owesAnnul && t.core.decoding.transfers operands) ∧
      ((t.core.step syscall events).resolves = true →
        (t.core.step syscall events).target =
          t.core.decoding.target ((t.core.decode.nPc t.core.ifid).setWidth 32) operands) ∧
      (t.core.step syscall events).owesAnnul =
        (!t.core.owesAnnul && t.core.decoding.annulsNext operands) := by
  intro operands
  have spaced := seq.tracks.spaced
  have quiet := (seq.alone (seq.occupied_of_leavesDecode leaving)).1
  have kind := leavesDecode_cases leaving
  have decides := Core.decodeOut_decides spaced.decoded
    (t.core.step syscall events).syscallResult kind
  by_cases lost : idle t.core.decodeOut = true ∨ t.core.exReady = false
  · have owes := safe.2.1 leaving lost
    have bubble : idle (t.core.step syscall events).idex = true := by
      cases ready : t.core.exReady with
      | true =>
          have shown : idle t.core.decodeOut = true := by
            rcases lost with shown | stalled
            · exact shown
            · rw [ready] at stalled
              cases stalled
          simpa [IDEX.step, ready] using shown
      | false => simpa [IDEX.step, ready] using quiet.idle
    have harmless := straight_of_lost spaced leaving lost
    have kept := Core.owesAnnul_step_of_idle safe.2.2.1 safe.2.2.2 bubble
    rw [Core.not_resolves_of_idle bubble, kept, owes, harmless.1, harmless.2]
    exact ⟨rfl, fun taken => absurd taken (by decide), rfl⟩
  · rw [not_or, Bool.not_eq_true, Bool.not_eq_false] at lost
    obtain ⟨word, ready⟩ := lost
    obtain ⟨unstalled, annulIn, idex⟩ :=
      spaced.back.entered syscall events quiet.idle ready
    have resolves : (t.core.step syscall events).resolves =
        (!t.core.owesAnnul && t.core.decoding.transfers operands) := by
      rw [Core.resolves, unstalled, annulIn, idex, decides.1]
      rfl
    refine ⟨resolves, ?_, ?_⟩
    · intro taken
      rw [resolves, Bool.and_eq_true] at taken
      rw [Core.target, idex]
      exact decides.2.2 taken.2
    · rw [Core.owesAnnul, unstalled]
      dsimp only
      rw [idex, word, if_neg (by decide), annulIn, decides.2.1]

theorem Sequenced.follow_of_delivers (delivers : t.delivers = true) :
    t.follow m =
      { m with
        last := some (t.core.fetch.lastAddress, t.core.fetch.pInst)
        pc := m.nPc
        nPc := m.nPc + 4 } := by
  rw [follow, sequenceEvent, if_pos delivers]
  rfl

theorem Sequenced.follow_of_leaves (hidden : t.delivers = false)
    (leaving : t.leavesDecode = true) :
    t.follow m = m.issue (Decode.operands t.core.regFile t.core.decoding) := by
  rw [follow, sequenceEvent, hidden, if_neg (by decide), if_pos leaving]
  rfl

theorem Sequenced.follow_of_silent (hidden : t.delivers = false)
    (stays : t.leavesDecode = false) : t.follow m = m := by
  rw [follow, sequenceEvent, hidden, stays, if_neg (by decide), if_neg (by decide)]
  rfl

variable (syscall events) in
/-- Fetch delivers the word at the program counter. -/
theorem Sequenced.step_of_delivers (seq : Sequenced t c m) (safe : t.SequenceSafe)
    (delivers : t.delivers = true) :
    Sequenced (t.step (fun _ => ()) syscall events) (advance t c) (t.follow m) := by
  obtain ⟨idle, shown⟩ := seq.tracks.delivers_iff.mp delivers
  have quiet := (seq.tracks.fresh idle shown).2
  have bubble := seq.idle_step_of_stays syscall events
    (seq.not_leavesDecode_of_delivers delivers).2
  have counter : m.nPc = c.nPc := by
    rw [seq.nPc, Core.not_resolves_of_idle quiet.idle, if_neg (by decide)]
  rw [follow_of_delivers delivers, (seq.tracks.advance_of_delivers idle shown).2]
  constructor
  case tracks =>
    rw [← (seq.tracks.advance_of_delivers idle shown).2]
    exact seq.tracks.step syscall events safe.1
  case word => exact seq.word_step
  case behind => exact seq.behind_step
  case last => rw [seq.inDecode_step, if_pos delivers]
  case pc => exact counter
  case nPc =>
    rw [step_core, Core.not_resolves_of_idle bubble, if_neg (by decide), counter]
  case annul =>
    exact seq.annul.trans (Core.owesAnnul_step_of_idle safe.2.2.1 safe.2.2.2 bubble).symm

variable (syscall events) in
/-- The word under decode is issued. -/
theorem Sequenced.step_of_leaves (seq : Sequenced t c m) (safe : t.SequenceSafe)
    (leaving : t.leavesDecode = true) :
    Sequenced (t.step (fun _ => ()) syscall events) (advance t c) (t.follow m) := by
  have occupied := seq.occupied_of_leavesDecode leaving
  obtain ⟨quiet, apart⟩ := seq.alone occupied
  have hidden : t.delivers = false := by
    rw [← Bool.not_eq_true, seq.tracks.delivers_iff]
    exact apart
  have untaken := Core.not_resolves_of_idle quiet.idle
  have silent := (seq.tracks.advance_of_silent apart untaken).2
  have word : m.last =
      some ((t.core.decode.nPc t.core.ifid).setWidth 32, t.core.decoding) := by
    rw [seq.last, inDecode]
    split
    · rfl
    · rename_i free
      rw [inDecode, if_neg free] at occupied
      exact absurd rfl occupied
  have counter : m.nPc = c.nPc := by rw [seq.nPc, untaken, if_neg (by decide)]
  obtain ⟨resolves, target, owes⟩ := seq.decided syscall events safe leaving
  rw [follow_of_leaves hidden leaving, silent, SequenceState.issue, word]
  dsimp only
  constructor
  case tracks =>
    rw [← silent]
    exact seq.tracks.step syscall events safe.1
  case word => exact seq.word_step
  case behind => exact seq.behind_step
  case last =>
    rw [seq.inDecode_step, hidden, leaving]
    cases m.annul <;> rfl
  case pc =>
    rw [← seq.pc]
    split <;> rfl
  case nPc =>
    rw [seq.annul, step_core]
    cases owed : t.core.owesAnnul with
    | true =>
        rw [owed, Bool.not_true, Bool.false_and] at resolves
        rw [if_pos rfl, resolves, if_neg (by decide)]
        exact counter
    | false =>
        rw [owed, Bool.not_false, Bool.true_and] at resolves
        rw [if_neg (by decide), ← resolves]
        dsimp only
        split
        · exact (target ‹_›).symm
        · exact counter
  case annul =>
    rw [seq.annul, step_core, owes]
    cases t.core.owesAnnul <;> rfl

variable (syscall events) in
/-- A transfer that Execute resolves has been in `nPc` since it was issued. -/
theorem Sequenced.step_of_silent (seq : Sequenced t c m) (safe : t.SequenceSafe)
    (hidden : t.delivers = false) (stays : t.leavesDecode = false) :
    Sequenced (t.step (fun _ => ()) syscall events) (advance t c) (t.follow m) := by
  have apart : ¬ (t.core.fetch.pState = .a ∧ t.fetched = true) := by
    rw [← seq.tracks.delivers_iff, hidden]
    decide
  have bubble := seq.idle_step_of_stays syscall events stays
  rw [follow_of_silent hidden stays]
  constructor
  case tracks => exact seq.tracks.step syscall events safe.1
  case word => exact seq.word_step
  case behind => exact seq.behind_step
  case last =>
    rw [seq.inDecode_step, hidden, stays, if_neg (by decide), if_neg (by decide)]
    exact seq.last
  case pc =>
    rw [seq.pc]
    cases taken : t.core.resolves with
    | true => rw [(seq.tracks.advance_of_resolves taken).2.2]
    | false => rw [(seq.tracks.advance_of_silent apart taken).2]
  case nPc =>
    rw [step_core, Core.not_resolves_of_idle bubble, if_neg (by decide), seq.nPc]
    cases taken : t.core.resolves with
    | true =>
        rw [(seq.tracks.advance_of_resolves taken).2.2]
        rfl
    | false =>
        rw [(seq.tracks.advance_of_silent apart taken).2]
        rfl
  case annul =>
    exact seq.annul.trans (Core.owesAnnul_step_of_idle safe.2.2.1 safe.2.2.2 bubble).symm

variable (syscall events) in
theorem Sequenced.step (seq : Sequenced t c m) (safe : t.SequenceSafe) :
    Sequenced (t.step (fun _ => ()) syscall events) (advance t c) (t.follow m) := by
  cases delivers : t.delivers with
  | true => exact seq.step_of_delivers syscall events safe delivers
  | false =>
      cases leaving : t.leavesDecode with
      | true => exact seq.step_of_leaves syscall events safe leaving
      | false => exact seq.step_of_silent syscall events safe delivers leaving

/-- The law allows the event of a cycle. -/
theorem Sequenced.allows (seq : Sequenced t c m) {event : SequenceEvent}
    (happens : t.sequenceEvent = some event) : transferLaw.allows m event := by
  cases delivers : t.delivers with
  | true =>
      obtain ⟨idle, shown⟩ := seq.tracks.delivers_iff.mp delivers
      rw [sequenceEvent, if_pos delivers] at happens
      cases happens
      refine ⟨seq.last.trans (seq.not_leavesDecode_of_delivers delivers).1, ?_⟩
      rw [seq.pc]
      exact seq.tracks.allows (seq.tracks.advance_of_delivers idle shown).1
  | false =>
      cases leaving : t.leavesDecode with
      | true =>
          rw [sequenceEvent, delivers, if_neg (by decide), if_pos leaving] at happens
          cases happens
          change m.last ≠ none
          rw [seq.last]
          exact seq.occupied_of_leavesDecode leaving
      | false =>
          rw [sequenceEvent, delivers, leaving, if_neg (by decide), if_neg (by decide)] at happens
          cases happens

end

end Tagged

end Sparcy
