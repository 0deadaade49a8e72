import Sparcy.Library.Runs
import Sparcy.PipelineSpacing

/-!
# Instructions in flight

The instruction that Execute works on is in `IDEXReg` or in the copy of
`STATEB`, and that of Mem in `EXMemReg` or in Mem's copy.  This file follows
them from one cycle to the next, and adds marks that travel with them: a mark is
put on an instruction when it leaves decode and says something about that moment.
-/

namespace Sparcy

namespace Core

/-- The instruction in Execute with its results, squashed or not. -/
def inExecute (s : Core) : EXMem :=
  match s.execute.pState with
  | .a => Execute.live s.idex s.syscallResult
  | .b => s.execute.held

/-- What Mem reports about the instruction in it. -/
def inMem (s : Core) : Decode.Hazard := s.mem.hazard s.exmem

/-- Mem hands its instruction on in this cycle. -/
def memPasses (s : Core) : Bool := s.mem.passes s.exmem s.dcAck

theorem exOut_eq (s : Core) :
    s.exOut = if s.execute.annulIn then s.execute.squashed else s.inExecute := by
  cases state : s.execute.pState <;> simp [exOut, Execute.Regs.out, inExecute, state]

section

variable {s : Core} {syscall : Syscall} {events : DramEvents}

theorem inExecute_step_of_held (holding : (s.step syscall events).execute.pState = .b) :
    (s.step syscall events).inExecute = s.inExecute := by
  cases state : s.execute.pState with
  | a =>
      simp only [inExecute, holding, state]
      simp [Execute.Regs.step, Execute.Regs.copy, Execute.Regs.held, Execute.live, state]
  | b =>
      have same := Execute.Regs.copy_of_held s.idex s.syscallResult state
      simp only [inExecute, holding, state]
      simp [Execute.Regs.step, same, Execute.Regs.held]

/-- Execute holds on to an instruction only under a busy Mem. -/
theorem memReady_of_held (holding : (s.step syscall events).execute.pState = .b) :
    s.memReady = false := by
  cases ready : s.memReady with
  | false => rfl
  | true => cases state : s.execute.pState <;> simp [Execute.Regs.nState, state, ready] at holding

/-- An instruction that leaves `STATEB` or passes `STATEA` makes room for the next
contents of `IDEXReg`. -/
theorem inExecute_step_of_unstalled (unstalled : (s.step syscall events).execute.pState = .a) :
    (s.step syscall events).inExecute =
      Execute.live (s.step syscall events).idex (s.step syscall events).syscallResult := by
  simp only [inExecute, unstalled]

/-- A busy Mem keeps its instruction, and `EXMemReg` behind it is quiet. -/
theorem inMem_step_of_waiting (waiting : (s.step syscall events).mem.pState = .b) :
    (s.step syscall events).inMem =
      { s.inMem with
        yWrite := match s.mem.pState with
          | .a => s.exmem.y.getLsbD 0
          | .b => s.inMem.yWrite } := by
  cases state : s.mem.pState with
  | a =>
      simp only [inMem, Mem.Regs.hazard, waiting, state]
      simp [Mem.Regs.step, Mem.Regs.copy, state]
  | b =>
      simp only [inMem, Mem.Regs.hazard, waiting, state]
      simp [Mem.Regs.step, Mem.Regs.copy, state]

theorem inMem_step_of_passing (passing : (s.step syscall events).mem.pState = .a) :
    (s.step syscall events).inMem =
      { rd := (s.step syscall events).exmem.regD
        regWrite := (s.step syscall events).exmem.regWrite
        regWriteDouble := (s.step syscall events).exmem.regWriteDouble
        iccWrite := (s.step syscall events).exmem.iccWrite
        yWrite := (s.step syscall events).exmem.yWrite } := by
  simp only [inMem, Mem.Regs.hazard, passing]

/-- What Mem hands on without its instruction is a bubble to write-back. -/
theorem wbOut_step_of_not_passes (waits : s.memPasses = false) :
    (s.step syscall events).wbOut =
      { regEn := false, regDoubleEn := false, data := 0, regD := 0, yEn := false
        iccEn := false, icc := 0 } := by
  have bubble : isBubble s.memOut.op s.memOut.op2 s.memOut.regD = true := by
    rw [memPasses] at waits
    simp [memOut, Mem.Regs.out, waits, isBubble]
  simp only [wbOut, WB.out, step_memwb, bubble, if_true]

/-- Write-back writes only what Mem has handed on with its instruction. -/
theorem wbOut_step_regEn (writes : (s.step syscall events).wbOut.regEn = true) :
    s.memPasses = true ∧ s.inMem.regWrite = true ∧
      (s.step syscall events).wbOut.regD = s.inMem.rd := by
  have passes : s.memPasses = true := by
    by_contra waits
    rw [wbOut_step_of_not_passes (by simpa using waits)] at writes
    cases writes
  have bubble : isBubble s.memOut.op s.memOut.op2 s.memOut.regD = false := by
    by_contra bubble
    rw [Bool.not_eq_false] at bubble
    simp [wbOut, WB.out, bubble] at writes
  have handed : s.mem.passes s.exmem s.dcAck = true := passes
  simp only [wbOut, WB.out, step_memwb, bubble, Bool.false_eq_true, if_false] at writes ⊢
  refine ⟨passes, ?_⟩
  cases state : s.mem.pState <;>
    simp only [memOut, Mem.Regs.out, handed, state, if_true] at writes ⊢ <;>
    simp [inMem, Mem.Regs.hazard, state, writes]

theorem decoding_of_releases (released : s.releases = true) :
    s.Decoding ∧ s.exReady = true := by
  simp only [releases, Decode.Regs.releases, Bool.and_eq_true, Bool.not_eq_true'] at released
  refine ⟨?_, released.2⟩
  by_contra free
  simp only [Decoding, not_or, not_not] at free
  simp [Decode.Regs.passesNop, Decode.isNop, free.1, free.2] at released

/-- When decode releases an instruction, Execute is empty. -/
theorem BackSpaced.empty_of_releases (back : s.BackSpaced) (released : s.releases = true) :
    s.execute.pState = .a ∧ s.idex.Quiet ∧ s.inExecute.Quiet := by
  obtain ⟨decoding, ready⟩ := decoding_of_releases released
  have unstalled : s.execute.pState = .a := by
    cases state : s.execute.pState with
    | a => rfl
    | b =>
        rw [(back.held state).1] at ready
        cases ready
  have quiet := back.behindDecode decoding
  refine ⟨unstalled, quiet, ?_⟩
  simpa only [inExecute, unstalled] using live_quiet quiet s.syscallResult

/-- Decode drives a register write only with a released instruction. -/
theorem releases_of_regWrite (ready : s.exReady = true)
    (writes : s.decodeOut.fields.regWrite = true) : s.releases = true := by
  have passes : s.decode.passesNop s.ifid = false := by
    by_contra passes
    rw [Bool.not_eq_false] at passes
    simp [decodeOut, Decode.Regs.outFields, passes, Decode.bubbleFields,
      Decode.fieldsOf] at writes
  have waits : s.decode.waits s.ifid s.hazards = false := by
    by_contra waits
    rw [(decodeOut_quiet_of_waits (by simpa using waits)).regWrite] at writes
    cases writes
  simp [releases, Decode.Regs.releases, passes, waits, ready]

end

/-- The hazard lines of Execute are those of the instruction in it, unless it is
squashed. -/
theorem hazard_execute (s : Core) (kept : s.execute.annulIn = false) :
    s.execute.hazard s.idex =
      { rd := s.inExecute.regD, regWrite := s.inExecute.regWrite
        regWriteDouble := s.inExecute.regWriteDouble, iccWrite := s.inExecute.iccWrite
        yWrite := s.inExecute.yWrite } := by
  cases state : s.execute.pState <;>
    simp [Execute.Regs.hazard, inExecute, Execute.live, Execute.Regs.held, kept, state]

end Core

/-- A processor with a mark on each instruction of the back end.  `fetched` and
`delivered` tell a word from the bubbles that fetch emits: fetch shows a word in
the first cycle it is back in `STATEA`. -/
structure Tagged (Tag : Type) where
  core : Core
  fetched : Bool
  delivered : Bool
  idex : Option Tag
  exHeld : Option Tag
  exmem : Option Tag
  memHeld : Option Tag
  memwb : Option Tag

namespace Tagged

variable {Tag : Type}

/-- Nothing is marked in the first cycle. -/
def start (core : Core) : Tagged Tag :=
  { core := core, fetched := false, delivered := false, idex := none, exHeld := none
    exmem := none, memHeld := none, memwb := none }

/-- Fetch hands a word to `IFIDReg` at the end of the cycle. -/
def delivers (t : Tagged Tag) : Bool :=
  t.core.fetch.pState == .a && t.fetched && t.core.idReady

/-- The word under decode moves on: it is released, or passed on unchecked. -/
def leavesDecode (t : Tagged Tag) : Bool :=
  t.core.releases || (t.core.decode.passesNop t.core.ifid && t.delivered)

/-- The marks of the instructions in Execute and in Mem. -/
def exTag (t : Tagged Tag) : Option Tag :=
  match t.core.execute.pState with
  | .a => t.idex
  | .b => t.exHeld

def memTag (t : Tagged Tag) : Option Tag :=
  match t.core.mem.pState with
  | .a => t.exmem
  | .b => t.memHeld

/-- One cycle: every mark moves with its instruction, and `tagOf` marks the one
that leaves decode. -/
def step (tagOf : Core → Tag) (syscall : Syscall) (t : Tagged Tag) (events : DramEvents) :
    Tagged Tag :=
  { core := t.core.step syscall events
    fetched := t.core.fetch.pState != .a
    delivered :=
      if t.core.idReady then t.core.fetch.pState == .a && t.fetched else t.delivered
    idex :=
      if t.core.exReady then if t.leavesDecode then some (tagOf t.core) else none
      else t.idex
    exHeld := t.exTag
    exmem := if t.core.memReady then t.exTag else t.exmem
    memHeld := t.memTag
    memwb := if t.core.memPasses then t.memTag else none }

section

variable (tagOf : Core → Tag) (syscall : Syscall) (t : Tagged Tag) (events : DramEvents)

@[simp]
theorem step_core : (t.step tagOf syscall events).core = t.core.step syscall events := rfl

@[simp]
theorem step_fetched :
    (t.step tagOf syscall events).fetched = (t.core.fetch.pState != .a) := rfl

theorem step_idex : (t.step tagOf syscall events).idex =
    if t.core.exReady then if t.leavesDecode then some (tagOf t.core) else none
    else t.idex := rfl

theorem step_exmem : (t.step tagOf syscall events).exmem =
    if t.core.memReady then t.exTag else t.exmem := rfl

theorem step_memwb : (t.step tagOf syscall events).memwb =
    if t.core.memPasses then t.memTag else none := rfl

variable {tagOf syscall t events}

theorem exTag_step_of_held
    (holding : (t.core.step syscall events).execute.pState = .b) :
    (t.step tagOf syscall events).exTag = t.exTag := by
  simp only [exTag, step_core, holding]
  rfl

theorem exTag_step_of_unstalled
    (unstalled : (t.core.step syscall events).execute.pState = .a) :
    (t.step tagOf syscall events).exTag = (t.step tagOf syscall events).idex := by
  simp only [exTag, step_core, unstalled]

theorem memTag_step_of_waiting
    (waiting : (t.core.step syscall events).mem.pState = .b) :
    (t.step tagOf syscall events).memTag = t.memTag := by
  simp only [memTag, step_core, waiting]
  rfl

theorem memTag_step_of_passing
    (passing : (t.core.step syscall events).mem.pState = .a) :
    (t.step tagOf syscall events).memTag = (t.step tagOf syscall events).exmem := by
  simp only [memTag, step_core, passing]

end

end Tagged

end Sparcy
