import Sparcy.Sequential
import Sparcy.SyscallMemory

/-!
# The pipeline against one instruction at a time

Finishing the instructions in Execute, Mem and write-back gives a state of the sequential
machine.  A cycle executes the instruction that decode releases, and leaves that state as
it is when none is released.
-/

namespace Sparcy

open MemPath (requestOf entry)
open Sparcy.Sequential (Agree Announced Plain agree_step_of_even)

namespace Core

/-- The changes at the end of a cycle.  Write-back is older than the access. -/
def effects (s : Core) : List Effect :=
  Effect.ofWB s.wbOut ++
    if s.memory.dc.serves s.dcRequest then Effect.ofAccess s.dcRequest else []

/-- The word that `IFIDReg` takes from fetch, unless it is a no-op. -/
def fetched (s : Core) (_ : DramEvents) : Option Inst :=
  if s.idReady && !Decode.isNop s.fetch.out.inst then some s.fetch.out.inst else none

/-- The word that decode hands to `IDEXReg`. -/
def released (s : Core) (_ : DramEvents) : Option Inst :=
  if s.releases then some s.decoding else none

/-- The words that are still to be released. -/
def underDecode (s : Core) : List Inst :=
  (BackEnd.ofCore s).heldWord ++ if Decode.isNop s.ifid.inst then [] else [s.ifid.inst]

/-- The changes of a run. -/
def changes (syscall : Syscall) (s : Core) (events : List DramEvents) : List Effect :=
  (Runs.emits (step syscall) (fun s _ => some s.effects) s events).flatten

/-- No instruction is in the pipeline. -/
structure Drained (s : Core) : Prop where
  decode : s.decode.pState = .a
  ifid : Decode.isNop s.ifid.inst = true
  execute : s.inExecute.Quiet
  exmem : s.exmem.Quiet
  mem : s.mem.pState = .a
  wb : s.wbOut.regEn = false ∧ s.wbOut.iccEn = false ∧ s.wbOut.yEn = false

/-- The stall predicates see every writer that has not retired: the instructions in
Execute, Mem and write-back announce their writes, and the registers in front of a stalled
stage hold none. -/
structure Visible (s : Core) : Prop where
  execute : s.pendingEx.Within s.hazards.ex
  mem : s.pendingMem.Within s.hazards.mem
  wb : Decode.Hazard.Within { s.pendingWb with yWrite := false } s.hazards.wb
  idex : s.execute.pState = .b → s.idex.Quiet
  exmem : s.mem.pState = .b → s.exmem.Quiet

/-- The events are those of `System::tick`, and fetch shows a word of the program or a
bubble. -/
def FetchesPlain (s : Core) (events : DramEvents) : Prop :=
  s.memory.Allowed events ∧ Plain s.fetch.out.inst

instance (s : Core) (events : DramEvents) : Decidable (s.FetchesPlain events) :=
  inferInstanceAs (Decidable (_ ∧ _))

end Core

/-- The writes of a load that the data cache has answered. -/
def MemPath.Phase.served (σ : Sequential) : MemPath.Phase → Sequential
  | .answered x data => σ.writeBack (WB.out (entry x data))
  | _ => σ

namespace MemPath

variable {s : MemPath} {phase : Phase}

/-- In a cycle of Mem the instructions that leave are performed. -/
theorem served_step {σ : Sequential} (tracks : phase.Tracks s) (input : Input)
    (accesses : ∀ x, phase = .waiting x → Mem.accesses x = true)
    (line : s.dc.serves s.request = true →
      s.dc.dataSram.readData = σ.memory s.request.lineAddr) :
    (phase.next (s.observe input)).served
        ((if s.dc.serves s.request then σ.access s.request else σ).writeBack
          (WB.out (s.step input).memwb)) =
      (phase.leaving s).foldl Sequential.perform (phase.served σ) := by
  have shows := (Phase.step tracks input).1
  rw [step_wb]
  cases phase with
  | idle =>
      obtain ⟨-, -, -, -, handed⟩ := shows
      have quiet : s.dc.serves s.request = false := by simp [DCache.Regs.serves, tracks.2.1]
      change (if Mem.accesses s.exmem then _ else _) at handed
      change (if Mem.accesses s.exmem then Phase.waiting s.exmem else .idle).served _ =
        (if Mem.accesses s.exmem then [] else [s.exmem]).foldl _ σ
      rw [quiet]
      cases access : Mem.accesses s.exmem with
      | true =>
          rw [access, if_pos rfl] at handed
          rw [handed.2]
          exact Sequential.writeBack_noWrite σ
      | false =>
          rw [access, if_neg Bool.false_ne_true] at handed
          rw [handed.2]
          exact (Sequential.perform_of_passes access).symm
  | waiting x =>
      obtain ⟨-, -, -, -, handed⟩ := shows
      have next : (Phase.waiting x).next (s.observe input) =
          if s.dc.serves s.request then
            .answered x (DCache.loadData (requestOf x) s.dc.dataSram.readData)
          else .waiting x := by
        rw [Phase.next, observe]
        cases s.dc.serves s.request <;> rfl
      rw [handed, next, Phase.leaving]
      cases serves : s.dc.serves s.request with
      | false => exact Sequential.writeBack_noWrite σ
      | true =>
          have request : s.request = requestOf x := request_of_waiting tracks
          have performed := Sequential.perform_of_accesses (σ := σ) (accesses x rfl)
          rw [← request, ← line serves] at performed
          rw [if_pos rfl, if_pos rfl, if_pos rfl, ← request]
          refine Eq.trans ?_ performed.symm
          exact congrArg (Sequential.writeBack · _) (Sequential.writeBack_noWrite _)
  | answered x data =>
      obtain ⟨-, -, -, -, -, handed⟩ := shows
      have quiet : s.dc.serves s.request = false := by simp [DCache.Regs.serves, tracks.2.1]
      rw [quiet, handed]
      rfl

end MemPath

/-- Without a trap under decode the emulation is not called. -/
theorem Core.not_calls_of_decoding {s : Core} (spaced : s.Spaced)
    (word : s.decode.passesNop s.ifid = false →
      ¬ (s.decoding.op = 0b10 ∧ s.decoding.op3 = Op3.Ticc)) : ¬ s.calls := by
  have none : ∀ x : IDEX, ¬ (x.fields.op = 0b10 ∧ x.fields.op3 = Op3.Ticc) →
      (Execute.aluIn x).syscalls = 0 := fun x other => if_neg other
  rw [Core.calls, not_not]
  apply none
  cases ready : s.exReady with
  | false =>
      have idle := (spaced.back.stalled ready).idle
      simp only [Execute.idle, isBubble, Bool.and_eq_true, beq_iff_eq] at idle
      simp [IDEX.step, idle.1.1]
  | true =>
      change ¬ ((s.decode.outFields _ _).op = _ ∧ (s.decode.outFields _ _).op3 = _)
      unfold Decode.Regs.outFields
      split
      · rename_i passes
        simp only [Decode.Regs.passesNop, Decode.isNop, Bool.and_eq_true, Bool.or_eq_true,
          beq_iff_eq] at passes
        rcases passes.2 with nop | nop <;> rw [nop] <;> decide
      · rename_i passes
        split
        · decide
        · rw [Bool.not_eq_true] at passes
          rw [spaced.decoded]
          exact word passes

/-- The processor, the phase of Mem, and what has been changed so far. -/
structure Journal where
  core : Core
  phase : MemPath.Phase
  effects : List Effect

namespace Journal

def start (core : Core) : Journal := { core := core, phase := .idle, effects := [] }

/-- What Mem and the data cache receive. -/
def input (j : Journal) (events : DramEvents) : MemPath.Input :=
  { next := j.core.exOut, bus := j.core.memory.dcResponse events }

def step (syscall : Syscall) (j : Journal) (events : DramEvents) : Journal :=
  { core := j.core.step syscall events
    phase := j.phase.next ((MemPath.ofCore j.core).observe (j.input events))
    effects := j.effects ++ j.core.effects }

/-- The registers and the memory as they are. -/
def written (j : Journal) : Sequential :=
  { regs := j.core.regFile
    memory := j.core.memory.memory j.core.dcRequest
    effects := j.effects }

/-- Without the instructions that are still to be performed. -/
def retired (j : Journal) : Sequential :=
  j.phase.served (j.written.writeBack j.core.wbOut)

/-- After all that is in the pipeline. -/
def drain (j : Journal) : Sequential :=
  (j.phase.pending j.core.exmem ++ [j.core.inExecute]).foldl Sequential.perform j.retired

/-- After all that Mem and write-back hold. -/
def passed (j : Journal) : Sequential :=
  (j.phase.pending j.core.exmem).foldl Sequential.perform j.retired

/-! ### Mem and the data cache in any run without system calls -/

/-- What the phase and the memory are of. -/
structure Carried (j : Journal) : Prop where
  path : j.phase.Tracks (MemPath.ofCore j.core)
  memory : j.core.memory.Tracked j.core.dcRequest
  accesses : ∀ x, j.phase = .waiting x → Mem.accesses x = true
  cleared : j.core.Cleared

section

variable {j : Journal} {syscall : Syscall} {events : DramEvents}

theorem step_memory (silent : ¬ j.core.calls) (syscall : Syscall) (events : DramEvents) :
    (j.core.step syscall events).memory =
      j.core.memory.step j.core.icRequest j.core.dcRequest events := by
  rw [Core.step_memory, Core.ramAfter_of_quiet silent]
  rfl

theorem Carried.step (carried : j.Carried) (silent : ¬ j.core.calls)
    (allowed : j.core.memory.Allowed events) : (j.step syscall events).Carried where
  path := (MemPath.Phase.step carried.path (j.input events)).2
  memory := by
    have stepped : (j.core.step syscall events).memory.Tracked j.core.dcRequest := by
      rw [step_memory silent]
      exact carried.memory.step allowed
    rcases MemPath.Phase.request_step carried.path (j.input events) with idle | same
    · exact stepped.switch idle _
    · exact (show (j.core.step syscall events).dcRequest = j.core.dcRequest from same) ▸ stepped
  accesses := by
    intro x next
    rcases MemPath.Phase.next_waiting next with waits | ⟨-, access, rfl⟩
    · exact carried.accesses x waits
    · exact access
  cleared := Core.Cleared.step syscall j.core events carried.cleared

/-- What a cycle changes, in the order of its effects. -/
theorem Carried.written_step (carried : j.Carried) (silent : ¬ j.core.calls)
    (window : j.core.cwpInc = false ∧ j.core.cwpDec = false)
    (allowed : j.core.memory.Allowed events) :
    (j.step syscall events).written =
      if j.core.memory.dc.serves j.core.dcRequest then
        (j.written.writeBack j.core.wbOut).access j.core.dcRequest
      else j.written.writeBack j.core.wbOut := by
  have regs : (j.step syscall events).core.regFile =
      j.core.regFile.step j.core.wbOut false false := by
    change j.core.regFile.step _ _ _ = _
    rw [window.1, window.2]
  have memory : (j.step syscall events).written.memory =
      if j.core.memory.dc.serves j.core.dcRequest then
        MemorySystem.applyAccess (j.core.memory.memory j.core.dcRequest) j.core.dcRequest
      else j.core.memory.memory j.core.dcRequest := by
    rw [← carried.memory.memory_step_eq allowed j.core.icRequest, ← step_memory silent syscall]
    rcases MemPath.Phase.request_step carried.path (j.input events) with idle | same
    · exact MemorySystem.memory_switch idle _ _
    · exact congrArg (j.core.step syscall events).memory.memory
        (show (j.core.step syscall events).dcRequest = j.core.dcRequest from same)
  have changed : (j.step syscall events).written =
      { regs := j.core.regFile.step j.core.wbOut false false
        memory := (j.step syscall events).written.memory
        effects := j.effects ++ j.core.effects } := by
    rw [← regs]
    rfl
  rw [changed, memory, Core.effects]
  cases j.core.memory.dc.serves j.core.dcRequest with
  | true => simp [written, Sequential.writeBack, Sequential.access]
  | false => simp [written, Sequential.writeBack]

/-- The instructions that leave Mem are performed, and the others are as before. -/
theorem Carried.retired_step (carried : j.Carried) (silent : ¬ j.core.calls)
    (window : j.core.cwpInc = false ∧ j.core.cwpDec = false)
    (allowed : j.core.memory.Allowed events) :
    (j.step syscall events).retired =
      (j.phase.leaving (MemPath.ofCore j.core)).foldl Sequential.perform j.retired := by
  have base : (j.step syscall events).written = _ := carried.written_step silent window allowed
  rw [retired, base]
  exact MemPath.served_step carried.path (j.input events) carried.accesses
    fun serves => carried.memory.served_line serves

/-- What Execute hands on is the youngest instruction of Mem. -/
theorem Carried.passed_step (carried : j.Carried) (silent : ¬ j.core.calls)
    (window : j.core.cwpInc = false ∧ j.core.cwpDec = false)
    (allowed : j.core.memory.Allowed events) :
    (j.step syscall events).passed =
      (if j.core.memReady then [j.core.exOut] else []).foldl Sequential.perform j.passed := by
  have moves := MemPath.pending_step carried.path (j.input events)
  rw [passed, carried.retired_step silent window allowed, passed, ← List.foldl_append,
    ← List.foldl_append]
  exact congrArg (List.foldl Sequential.perform j.retired) moves.symm

end

/-! ### The invariant -/

structure Sound (j : Journal) : Prop where
  path : j.phase.Tracks (MemPath.ofCore j.core)
  memory : j.core.memory.Tracked j.core.dcRequest
  accesses : ∀ x, j.phase = .waiting x → Mem.accesses x = true
  cleared : j.core.Cleared
  calm : (BackEnd.ofCore j.core).Calm
  ifid : Plain j.core.ifid.inst
  held : j.core.decode.pState ≠ .a →
    Plain j.core.decode.pInst ∧ Decode.isNop j.core.decode.pInst = false

section

variable {j : Journal} {syscall : Syscall} {events : DramEvents}

theorem Sound.decoding (sound : j.Sound) : Plain j.core.decoding := by
  unfold Core.decoding Decode.Regs.nInst
  cases state : j.core.decode.pState with
  | a => exact sound.ifid
  | b => exact (sound.held (by simp [state])).1
  | s => exact (sound.held (by simp [state])).1

/-- Words that decode does not let pass as a no-op are none. -/
theorem Sound.not_isNop (sound : j.Sound)
    (word : j.core.decode.passesNop j.core.ifid = false) :
    Decode.isNop j.core.decoding = false := by
  unfold Core.decoding Decode.Regs.nInst
  cases state : j.core.decode.pState with
  | a => simpa [Decode.Regs.passesNop, state] using word
  | b => exact (sound.held (by simp [state])).2
  | s => exact (sound.held (by simp [state])).2

/-- Decode never marks a trap, so the emulation is not called. -/
theorem Sound.not_calls (sound : j.Sound) : ¬ j.core.calls := by
  apply Core.not_calls_of_decoding sound.cleared.spaced
  rintro word ⟨op, op3⟩
  rcases sound.decoding with nop | ⟨-, -, control, -⟩
  · rw [sound.not_isNop word] at nop
    cases nop
  · exact control ⟨op, .inr (.inl op3)⟩

theorem Sound.step_memory (sound : j.Sound) (syscall : Syscall) (events : DramEvents) :
    (j.core.step syscall events).memory =
      j.core.memory.step j.core.icRequest j.core.dcRequest events :=
  Journal.step_memory sound.not_calls syscall events

theorem Sound.carried (sound : j.Sound) : j.Carried :=
  ⟨sound.path, sound.memory, sound.accesses, sound.cleared⟩

theorem not_annulling {inst : Inst} (plain : Plain inst) : BackEnd.annulling inst = false := by
  rcases plain with nop | ⟨-, branch, -⟩
  · simp only [Decode.isNop, Bool.or_eq_true, beq_iff_eq] at nop
    rcases nop with rfl | rfl <;> decide
  · cases bicc : Execute.isBicc inst.op inst.op2 with
    | false => simp [BackEnd.annulling, bicc]
    | true => exact absurd ((Execute.isBicc_eq_true _ _).mp bicc) branch

theorem Sound.step (sound : j.Sound) (plain : j.core.FetchesPlain events) :
    (j.step syscall events).Sound where
  path := (sound.carried.step sound.not_calls plain.1).path
  memory := (sound.carried.step sound.not_calls plain.1).memory
  accesses := (sound.carried.step sound.not_calls plain.1).accesses
  cleared := (sound.carried.step sound.not_calls plain.1).cleared
  calm := by
    change (BackEnd.ofCore (j.core.step syscall events)).Calm
    rw [BackEnd.ofCore_step]
    exact sound.calm.step (not_annulling plain.2)
  ifid := by
    change Plain (j.core.ifid.step j.core.fetch.out j.core.idReady).inst
    unfold IFID.step
    split
    · exact plain.2
    · exact sound.ifid
  held := by
    intro busy
    refine ⟨sound.decoding, sound.not_isNop ?_⟩
    by_contra passes
    rw [Bool.not_eq_false] at passes
    apply busy
    change j.core.decode.nState _ _ _ = .a
    rw [Decode.Regs.nState, if_pos passes]

/-! ### One cycle of Mem -/

theorem not_moving {inst : Inst} (plain : Plain inst) :
    ¬ (inst.op = 0b10 ∧ inst.op3 = Op3.SAVE) ∧ ¬ (inst.op = 0b10 ∧ inst.op3 = Op3.RESTORE) := by
  rcases plain with nop | ⟨-, -, control, -⟩
  · simp only [Decode.isNop, Bool.or_eq_true, beq_iff_eq] at nop
    rcases nop with rfl | rfl <;> decide
  · exact ⟨fun save => control ⟨save.1, .inr (.inr (.inl save.2))⟩,
      fun restore => control ⟨restore.1, .inr (.inr (.inr restore.2))⟩⟩

theorem Sound.window (sound : j.Sound) : j.core.cwpInc = false ∧ j.core.cwpDec = false := by
  have still := not_moving sound.decoding
  constructor
  · exact Bool.and_eq_false_iff.mpr (.inr (decide_eq_false still.2))
  · exact Bool.and_eq_false_iff.mpr (.inr (decide_eq_false still.1))

/-! ### What a released instruction reads -/

/-- Write-back of an instruction announces its writes. -/
theorem announced_out (x : EXMem) (data : BitVec 64) :
    Announced (WB.out (entry x data)) (Core.writesOf x) := by
  cases bubble : isBubble x.op x.op2 x.regD with
  | true => constructor <;> simp [WB.out, entry, bubble]
  | false => constructor <;> simp [WB.out, entry, bubble, Core.writesOf]

theorem announced_pendingWb (s : Core) :
    Announced s.wbOut { s.pendingWb with yWrite := false } :=
  ⟨fun _ => rfl, id, fun _ double => double, id⟩

theorem pendingMem_of_holds {s : Core} {x : EXMem} (holds : MemPath.Holds s.mem x) :
    s.pendingMem = Core.writesOf x := by
  have entry := congrArg MemWB.item (holds.entry s.exmem 0)
  have passes : s.mem.passes s.exmem true = true := by rw [Mem.Regs.passes, holds.state]
  rw [Mem.Regs.out, passes, holds.state] at entry
  injection entry with rd _ _ _ regWrite double icc y
  simp only [Core.pendingMem, holds.state]
  exact congr (congr (congr (congr (congrArg _ rd) regWrite) double) icc) y

/-- Decode releases an instruction whose operands are those that it would find after all
that are in Mem and write-back. -/
theorem Carried.agree (carried : j.Carried) (released : j.core.releases = true)
    (even : j.core.decoding.op = 0b11 → j.core.decoding.op3 = Op3.STD →
      j.core.decoding.rd.getLsbD 0 = false) :
    Agree j.core.decoding j.core.regFile j.passed.regs := by
  have back := carried.cleared.spaced.back
  obtain ⟨-, mem, wb⟩ := carried.cleared.clear_of_releases released
  have first := agree_step_of_even even wb (announced_pendingWb j.core) j.core.regFile
  have inMem : ∀ (x : EXMem) (σ : Sequential), j.core.pendingMem = Core.writesOf x →
      Agree j.core.decoding σ.regs (σ.perform x).regs := by
    intro x σ pending
    rw [pending] at mem
    obtain ⟨data, regs⟩ := σ.perform_regs x
    rw [regs]
    exact agree_step_of_even even mem (announced_out x data) σ.regs
  rw [passed, retired]
  refine first.trans ?_
  have tracks := carried.path
  cases shown : j.phase with
  | idle =>
      rw [shown] at tracks
      refine inMem j.core.exmem (j.written.writeBack j.core.wbOut) ?_
      simp only [Core.pendingMem, show j.core.mem.pState = .a from tracks.1]
  | waiting x =>
      rw [shown] at tracks
      have parked := back.waiting tracks.1.state
      rw [MemPath.Phase.pending, List.foldl_cons, List.foldl_cons, List.foldl_nil,
        Sequential.perform_of_quiet parked]
      exact inMem x (j.written.writeBack j.core.wbOut) (pendingMem_of_holds tracks.1)
  | answered x data =>
      rw [shown] at tracks
      have parked := back.waiting tracks.1.state
      change Agree _ _ (Sequential.perform _ j.core.exmem).regs
      rw [Sequential.perform_of_quiet parked]
      rw [pendingMem_of_holds tracks.1] at mem
      exact agree_step_of_even even mem (announced_out x data)
        (j.written.writeBack j.core.wbOut).regs

theorem drain_eq (j : Journal) : j.drain = j.passed.perform j.core.inExecute := by
  rw [drain, List.foldl_append, List.foldl_cons, List.foldl_nil]
  rfl

theorem Sound.agree (sound : j.Sound) (released : j.core.releases = true) :
    Agree j.core.decoding j.core.regFile j.drain.regs := by
  have word : j.core.decode.passesNop j.core.ifid = false := by
    simp only [Core.releases, Decode.Regs.releases, Bool.and_eq_true,
      Bool.not_eq_true'] at released
    exact released.1.1
  have other := sound.not_isNop word
  have empty := sound.cleared.spaced.back.empty_of_releases released
  rw [drain_eq, Sequential.perform_of_quiet empty.2.2]
  exact sound.carried.agree released fun op op3 => sound.decoding.even other op (.inr op3)

/-! ### One cycle of the pipeline -/

/-- Without a release decode hands on nothing. -/
theorem perform_decodeOut {s : Core} (σ : Sequential) (syscall : BitVec 32)
    (ready : s.exReady = true) (kept : s.releases = false) :
    σ.perform (Execute.live s.decodeOut syscall) = σ := by
  cases passes : s.decode.passesNop s.ifid with
  | true =>
      have fields : s.decodeOut.fields = Decode.bubbleFields s.ifid.inst := if_pos passes
      have op : s.decodeOut.fields.op ≠ 0b11 := by
        rw [fields]
        simp only [Decode.Regs.passesNop, Decode.isNop, Bool.and_eq_true, Bool.or_eq_true,
          beq_iff_eq] at passes
        rcases passes.2 with nop | nop <;> rw [nop] <;> decide
      apply Sequential.perform_of_zero
      · exact Sequential.accesses_of_op op
      · intro writes
        have none : s.decodeOut.fields.regWrite = false := congrArg Fields.regWrite fields
        exact absurd (writes.symm.trans none) (by decide)
      · exact congrArg Fields.iccWrite fields
      · exact congrArg Fields.yWrite fields
  | false =>
      cases waits : s.decode.waits s.ifid s.hazards with
      | true =>
          exact Sequential.perform_of_quiet
            (Core.live_quiet (Core.decodeOut_quiet_of_waits waits) syscall)
      | false => simp [Core.releases, Decode.Regs.releases, passes, waits, ready] at kept

/-- What comes into Execute is the released instruction, or nothing. -/
theorem Sound.enters (sound : j.Sound)
    (free : (j.core.step syscall events).execute.pState = .a) :
    j.drain.perform (j.core.step syscall events).inExecute =
      (j.core.released events).elim j.drain j.drain.execute := by
  have back := sound.cleared.spaced.back
  rw [Core.inExecute_step_of_unstalled free, Core.released]
  cases releases : j.core.releases with
  | true =>
      have word : j.core.decode.passesNop j.core.ifid = false ∧
          j.core.decode.waits j.core.ifid j.core.hazards = false ∧ j.core.exReady = true := by
        simp only [Core.releases, Decode.Regs.releases, Bool.and_eq_true,
          Bool.not_eq_true'] at releases
        exact ⟨releases.1.1, releases.1.2, releases.2⟩
      have other := sound.not_isNop word.1
      have fields : j.core.decodeOut.fields = Decode.decodeFields j.core.decoding := by
        rw [← sound.cleared.spaced.decoded]
        simp [Core.decodeOut, Decode.Regs.outFields, word.1, word.2.1]
      have loaded : (j.core.step syscall events).idex =
          { pcPlus4 := j.core.decodeOut.pcPlus4, fields := Decode.decodeFields j.core.decoding
            operands := Decode.operands j.core.regFile j.core.decoding } := by
        rw [← fields]
        simp [IDEX.step, word.2.2, Core.decodeOut]
      have same := Sequential.sameEffect_live sound.decoding other (sound.agree releases)
        j.core.decodeOut.pcPlus4 0 (j.core.step syscall events).syscallResult 0
      rw [loaded, if_pos rfl, same.perform]
      change _ = j.drain.perform (Execute.live (Sequential.decoded _ _) 0)
      rw [Sequential.decoded, other]
      rfl
  | false =>
      change _ = j.drain
      cases ready : j.core.exReady with
      | true =>
          have loaded : (j.core.step syscall events).idex = j.core.decodeOut := by
            simp [IDEX.step, ready]
          rw [loaded]
          exact perform_decodeOut _ _ ready releases
      | false =>
          have kept : (j.core.step syscall events).idex = j.core.idex := by
            simp [IDEX.step, ready]
          rw [kept]
          exact Sequential.perform_of_quiet (Core.live_quiet (back.stalled ready) _)

theorem Sound.handed (sound : j.Sound) (allowed : j.core.memory.Allowed events) :
    (j.step syscall events).drain =
      ((if j.core.memReady then [j.core.exOut] else []).foldl Sequential.perform
        j.passed).perform (j.core.step syscall events).inExecute := by
  rw [drain_eq, sound.carried.passed_step sound.not_calls sound.window allowed]
  rfl

/-- A cycle of the pipeline executes the released instruction. -/
theorem Sound.drain_step (sound : j.Sound) (plain : j.core.FetchesPlain events) :
    (j.step syscall events).drain = (j.core.released events).elim j.drain j.drain.execute := by
  have back := sound.cleared.spaced.back
  have handed : (j.step syscall events).drain = _ := sound.handed plain.1
  have shown : j.core.exOut = j.core.inExecute := by
    rw [Core.exOut_eq, show j.core.execute.annulIn = false from sound.calm.kept]
    rfl
  cases state : (j.core.step syscall events).execute.pState with
  | b =>
      have busy := Core.memReady_of_held state
      have kept : j.core.releases = false := by
        by_contra releases
        rw [Bool.not_eq_false] at releases
        obtain ⟨unstalled, quiet, -⟩ := back.empty_of_releases releases
        simp [Execute.Regs.nState, unstalled, quiet.idle] at state
      rw [handed, busy, Core.inExecute_step_of_held state, Core.released, kept]
      exact (drain_eq j).symm
  | a =>
      rw [← sound.enters state, handed, drain_eq j, shown]
      cases ready : j.core.memReady with
      | true => rfl
      | false =>
          have idle : isBubble j.core.inExecute.op j.core.inExecute.op2 j.core.inExecute.regD =
              true := by
            cases held : j.core.execute.pState with
            | a =>
                have bubble : Execute.idle j.core.idex = true := by
                  simpa [Execute.Regs.nState, held, ready] using state
                simp only [Core.inExecute, held]
                exact bubble
            | b => simp [Execute.Regs.nState, held, ready] at state
          rw [Sequential.perform_of_bubble idle]
          rfl

/-! ### What the stall predicates see -/

theorem Sound.visible (sound : j.Sound) : j.core.Visible where
  execute := by
    have shown := Core.hazard_execute j.core sound.calm.kept
    simp only [Core.hazards, shown]
    exact .refl _
  mem := by
    cases state : j.core.mem.pState with
    | a => simpa only [Core.hazards, Mem.Regs.hazard, Core.pendingMem, state] using .refl _
    | b =>
        simp only [Core.hazards, Mem.Regs.hazard, Core.pendingMem, state,
          sound.cleared.memY state]
        exact ⟨fun _ => rfl, id, id, id, fun y => by cases y⟩
  wb := by
    refine ⟨fun _ => rfl, id, fun double => ?_, id, fun y => by cases y⟩
    simp only [Core.pendingWb, Core.wbOut, WB.out] at double
    split at double
    · cases double
    · exact double
  idex := fun holding => (sound.cleared.spaced.back.held holding).2
  exmem := sound.cleared.spaced.back.waiting

/-! ### Runs -/

theorem run_core (inputs : List DramEvents) :
    (Runs.run (step syscall) j inputs).core = Runs.run (Core.step syscall) j.core inputs := by
  induction inputs generalizing j with
  | nil => rfl
  | cons events inputs induction => exact induction

theorem run_effects (inputs : List DramEvents) :
    (Runs.run (step syscall) j inputs).effects =
      j.effects ++ j.core.changes syscall inputs := by
  induction inputs generalizing j with
  | nil => exact (List.append_nil _).symm
  | cons events inputs induction =>
      have rest : (Runs.run (step syscall) j (events :: inputs)).effects = _ := induction
      rw [rest, Core.changes, Core.changes, Runs.emits_cons, Option.toList_some,
        List.singleton_append, List.flatten_cons, ← List.append_assoc]
      rfl

theorem emits_core (event : Core → DramEvents → Option Inst) (inputs : List DramEvents) :
    Runs.emits (step syscall) (fun j events => event j.core events) j inputs =
      Runs.emits (Core.step syscall) event j.core inputs := by
  induction inputs generalizing j with
  | nil => rfl
  | cons events inputs induction => exact congrArg _ induction

theorem always_core {holds : Core → Prop} {inputs : List DramEvents}
    (always : Runs.Always (step syscall) (fun j => holds j.core) j inputs) :
    Runs.Always (Core.step syscall) holds j.core inputs := by
  induction inputs generalizing j with
  | nil => exact always
  | cons events inputs induction => exact ⟨always.1, induction always.2⟩

theorem guarded_of_core {inputs : List DramEvents}
    (guarded : Runs.Guarded (Core.step syscall) Core.FetchesPlain j.core inputs) :
    Runs.Guarded (step syscall) (fun j events => j.core.FetchesPlain events) j inputs := by
  induction inputs generalizing j with
  | nil => trivial
  | cons events inputs induction => exact ⟨guarded.1, induction guarded.2⟩

theorem Carried.passed_of_drained (carried : j.Carried) (drained : j.core.Drained) :
    j.passed = j.written := by
  have idle : j.phase = .idle := by
    have tracks := carried.path
    cases shown : j.phase with
    | idle => rfl
    | waiting x =>
        rw [shown] at tracks
        exact absurd (drained.mem.symm.trans tracks.1.state) (by decide)
    | answered x data =>
        rw [shown] at tracks
        exact absurd (drained.mem.symm.trans tracks.1.state) (by decide)
  obtain ⟨reg, icc, y⟩ := drained.wb
  rw [passed, retired, idle]
  change Sequential.perform _ j.core.exmem = _
  rw [Sequential.perform_of_quiet drained.exmem]
  exact Sequential.writeBack_of_none reg icc y

theorem Sound.drain_of_drained (sound : j.Sound) (drained : j.core.Drained) :
    j.drain = j.written := by
  rw [drain_eq, Sequential.perform_of_quiet drained.execute]
  exact sound.carried.passed_of_drained drained

/-- What is still in the pipeline only adds changes. -/
theorem effects_prefix_passed (j : Journal) : j.effects <+: j.passed.effects := by
  have written : j.effects <+: (j.written.writeBack j.core.wbOut).effects :=
    List.prefix_append _ _
  have served : j.effects <+: j.retired.effects := by
    rw [retired]
    cases j.phase with
    | idle => exact written
    | waiting x => exact written
    | answered x data => exact written.trans (List.prefix_append _ _)
  exact served.trans (Sequential.effects_prefix_foldl Sequential.effects_prefix_perform _ _)

theorem effects_prefix_drain (j : Journal) : j.effects <+: j.drain.effects := by
  rw [drain_eq]
  exact j.effects_prefix_passed.trans (Sequential.effects_prefix_perform _ _)

end

end Journal

namespace Core

section

variable {s : Core} {syscall : Syscall} {events : DramEvents}

/-- The words between fetch and `IDEXReg` stay in order. -/
theorem FrontSpaced.words_step (front : s.FrontSpaced) :
    (s.released events).toList ++ (s.step syscall events).underDecode =
      s.underDecode ++ (s.fetched events).toList := by
  let input : BackEnd.Input :=
    { word := s.fetch.out, operands := s.decodeOut.operands, syscall := s.syscallResult
      dcAck := s.dcAck, dcData := s.memory.dc.pProcDataOut }
  have moves : (s.released events).toList ++
      (BackEnd.ofCore (s.step syscall events)).heldWord =
        (BackEnd.ofCore s).heldWord ++
          (if s.idReady && !Decode.isNop s.ifid.inst then some s.ifid.inst else none).toList := by
    rw [BackEnd.ofCore_step]
    exact BackEnd.release_step (BackEnd.ofCore s) input
  rw [underDecode, ← List.append_assoc, moves, underDecode, Core.fetched]
  cases free : s.idReady with
  | true =>
      have loads : (s.step syscall events).ifid = s.fetch.out := by simp [IFID.step, free]
      rw [loads]
      cases Decode.isNop s.ifid.inst <;> cases Decode.isNop s.fetch.out.inst <;> simp
  | false =>
      have kept : (s.step syscall events).ifid = s.ifid := by simp [IFID.step, free]
      have empty : s.ifid.inst = Inst.nop := by
        apply front.held
        intro idle
        simp [idReady, Decode.Regs.idReady, idle] at free
      rw [kept, empty]
      simp [Decode.isNop]

/-! ### The first cycle -/

theorem sound_start (syscall : Syscall) (entry : BitVec 32) (regFile : RegFile) (ram : Ram) :
    (Journal.start (start syscall entry regFile ram)).Sound := by
  have idle := MemPath.ofCore_start syscall entry regFile ram
  have fields := start_idex syscall entry regFile ram
  have free := start_decode syscall entry regFile ram
  refine ⟨idle, ?_, ?_, cleared_start syscall entry regFile ram, ?_, ?_, ?_⟩
  · have reset := (MemorySystem.coherent_reset ((reset entry regFile ram).ramAfter syscall)).tracked
      (reset entry regFile ram).dcRequest
    exact (reset.step (MemorySystem.allowed_completing _)).switch idle.2.1 _
  · intro x waits
    cases waits
  · refine ⟨rfl, ?_, ?_, ?_, rfl⟩
    · change BackEnd.annulling Inst.nop = false
      decide
    · change BackEnd.annulling 0 = false
      decide
    · change BackEnd.annullingFields (start syscall entry regFile ram).idex.fields = false
      rw [fields]
      decide
  · change Plain Inst.nop
    decide
  · exact fun busy => absurd free busy

/-- The word 0 that the reset leaves in `IFIDReg` changes nothing. -/
theorem drain_start (syscall : Syscall) (entry : BitVec 32) (regFile : RegFile) (ram : Ram) :
    (Journal.start (start syscall entry regFile ram)).drain = Sequential.start regFile ram := by
  have fields := start_idex syscall entry regFile ram
  have quiet : ¬ (reset entry regFile ram).calls := by
    rw [calls, not_not]
    refine if_neg fun trap => ?_
    have op : (start syscall entry regFile ram).idex.fields.op = 0b10 := trap.1
    rw [fields] at op
    revert op
    decide
  have executed : ∀ σ : Sequential,
      σ.perform (start syscall entry regFile ram).inExecute = σ := by
    intro σ
    refine Sequential.perform_of_zero (Sequential.accesses_of_op ?_) (fun _ => ⟨?_, ?_⟩) ?_ ?_
    · exact (congrArg Fields.op fields).trans_ne (by decide)
    · exact (congrArg Fields.rd fields).trans (by decide)
    · exact (congrArg Fields.regWriteDouble fields).trans (by decide)
    · exact (congrArg Fields.iccWrite fields).trans (by decide)
    · exact (congrArg Fields.yWrite fields).trans (by decide)
  have idle : EXMem.reset.Quiet := ⟨by decide, rfl, rfl, rfl, rfl⟩
  have coherent := MemorySystem.coherent_reset ram
  let p := (start syscall entry regFile ram).dcRequest
  let p' := (reset entry regFile ram).dcRequest
  have unchanged : (start syscall entry regFile ram).memory.memory p =
      (MemorySystem.reset ram).memory p' := by
    have stepped : (start syscall entry regFile ram).memory =
        ((MemorySystem.reset ram).withRam ((reset entry regFile ram).ramAfter syscall)).step
          { (reset entry regFile ram).icRequest with req := false } p' (.completing []) := rfl
    rw [MemorySystem.memory_switch rfl p p', stepped, ramAfter_of_quiet quiet]
    exact (coherent.tracked p').memory_step_eq (MemorySystem.allowed_completing _) _
  have memory : (MemorySystem.reset ram).memory p' = (Sequential.start regFile ram).memory := by
    funext l
    have present : (MemorySystem.reset ram).dc.pState = .a := rfl
    rw [MemorySystem.memory_of_present (by simp [present]), Sequential.start]
    simp only [eq_comm (a := ICache.tag l)]
    rfl
  have regs : (start syscall entry regFile ram).regFile = regFile := by
    have still : (reset entry regFile ram).cwpInc = false ∧
        (reset entry regFile ram).cwpDec = false := by
      have word : (reset entry regFile ram).decode.nInst (reset entry regFile ram).ifid = 0 := rfl
      unfold cwpInc cwpDec Decode.Regs.cwpInc Decode.Regs.cwpDec
      rw [word]
      exact ⟨Bool.and_false _, Bool.and_false _⟩
    have silent : (Sequential.start regFile ram).writeBack (reset entry regFile ram).wbOut =
        Sequential.start regFile ram := Sequential.writeBack_of_none rfl rfl rfl
    change regFile.step (reset entry regFile ram).wbOut _ _ = regFile
    rw [still.1, still.2]
    exact congrArg Sequential.regs silent
  have written : (Journal.start (start syscall entry regFile ram)).written =
      Sequential.start regFile ram := by
    change Sequential.mk (start syscall entry regFile ram).regFile
      ((start syscall entry regFile ram).memory.memory p) [] = _
    rw [regs, unchanged, memory]
    rfl
  rw [Journal.drain_eq]
  change ((Sequential.perform _ EXMem.reset)).perform (start syscall entry regFile ram).inExecute = _
  rw [executed, Sequential.perform_of_quiet idle, ← written]
  exact Sequential.writeBack_of_none rfl rfl rfl

end

/-! ### Refinement -/

/-- The state of the sequential machine after the words that fetch has handed over. -/
def sequentially (syscall : Syscall) (s : Core) (σ : Sequential) (events : List DramEvents) :
    Sequential :=
  (Runs.emits (step syscall) fetched s events).foldl Sequential.execute σ

/-- The processor does what the sequential machine does. -/
structure Refines (syscall : Syscall) (s : Core) (σ : Sequential) (events : List DramEvents) :
    Prop where
  /-- The changes come in the order of the sequential machine, without any others. -/
  inOrder : s.changes syscall events <+: (s.sequentially syscall σ events).effects
  /-- The missing ones are those of the instructions that the pipeline still holds. -/
  rest : ∃ phase : MemPath.Phase,
    phase.Tracks (MemPath.ofCore (Runs.run (step syscall) s events)) ∧
      (Runs.run (step syscall) s events).underDecode.foldl Sequential.execute
          (Journal.mk (Runs.run (step syscall) s events) phase (s.changes syscall events)).drain =
        s.sequentially syscall σ events
  /-- Between two instructions the registers and the memory are the same, too. -/
  drained : (Runs.run (step syscall) s events).Drained →
    { regs := (Runs.run (step syscall) s events).regFile
      memory := (Runs.run (step syscall) s events).memory.memory
        (Runs.run (step syscall) s events).dcRequest
      effects := s.changes syscall events } = s.sequentially syscall σ events
  visible : Runs.Always (step syscall) Visible s events

/-- For every initial register file and memory, every program of plain instructions and
every hits, misses and latencies. -/
theorem pipeline_refines_sequential (syscall : Syscall) (entry : BitVec 32) (regFile : RegFile)
    (ram : Ram) (events : List DramEvents)
    (plain : Runs.Guarded (step syscall) FetchesPlain (start syscall entry regFile ram) events) :
    (start syscall entry regFile ram).Refines syscall (Sequential.start regFile ram) events := by
  let s := start syscall entry regFile ram
  let last := Runs.run (Journal.step syscall) (Journal.start s) events
  have sound := sound_start syscall entry regFile ram
  have guarded := Journal.guarded_of_core (j := Journal.start s) plain
  have sounds := guarded.always (fun _ _ sound plain => sound.step plain) sound
  have soundLast : last.Sound := sounds.last
  have core : last.core = Runs.run (step syscall) s events := Journal.run_core events
  have effects : last.effects = s.changes syscall events := Journal.run_effects events
  have none : s.underDecode = [] := by
    have free : s.decode.pState = .a := start_decode syscall entry regFile ram
    have empty : s.ifid.inst = Inst.nop := rfl
    simp [underDecode, BackEnd.heldWord, BackEnd.ofCore, Decode.Regs.idReady, Decode.isNop, free,
      empty]
  have words : Runs.emits (step syscall) released s events ++
      (Runs.run (step syscall) s events).underDecode =
        s.underDecode ++ Runs.emits (step syscall) fetched s events :=
    plain.conserves (fun s events (spaced : s.Spaced) _ => spaced.step syscall events)
      (fun _ _ spaced _ => spaced.front.words_step) (spaced_start syscall entry regFile ram)
  have executed : last.drain =
      (Runs.emits (step syscall) released s events).foldl Sequential.execute
        (Sequential.start regFile ram) := by
    have same : Runs.emits (Journal.step syscall) (fun j events => j.core.released events)
        (Journal.start s) events = Runs.emits (step syscall) released s events :=
      Journal.emits_core released events
    rw [← drain_start syscall entry regFile ram, ← same]
    exact guarded.simulates (fun _ _ sound plain => sound.step plain)
      (fun _ _ sound plain => sound.drain_step plain) sound
  have finished : last.core.underDecode.foldl Sequential.execute last.drain =
      s.sequentially syscall (Sequential.start regFile ram) events := by
    rw [executed, ← List.foldl_append, core, words, none]
    rfl
  refine ⟨?_, ?_, ?_, ?_⟩
  · rw [← finished, ← effects]
    exact (Journal.effects_prefix_drain last).trans
      (Sequential.effects_prefix_foldl (fun σ inst => σ.effects_prefix_perform _) _ _)
  · refine ⟨last.phase, core ▸ soundLast.path, ?_⟩
    rw [← core, ← effects]
    exact finished
  · rw [← core, ← effects, ← finished]
    intro drained
    have empty : last.core.underDecode = [] := by
      simp [underDecode, BackEnd.heldWord, BackEnd.ofCore, Decode.Regs.idReady, drained.decode,
        drained.ifid]
    rw [empty]
    exact (soundLast.drain_of_drained drained).symm
  · exact Journal.always_core (j := Journal.start s) (sounds.mono fun _ sound => sound.visible)

/-- `add %g0, 5, %g1` and `add %g1, %g1, %g2`, which waits for the first one.  Both write. -/
theorem pipeline_refines_sequential_add :
    (start (fun _ ram => (0, ram)) 0 RegFile.reset (Ram.ofWords [0x82002005, 0x84004001])).Refines
      (fun _ ram => (0, ram))
      (Sequential.start RegFile.reset (Ram.ofWords [0x82002005, 0x84004001]))
      (DramEvents.firstFetch ++ List.replicate 10 (.completing [])) :=
  pipeline_refines_sequential _ _ _ _ _ (by decide +kernel)

end Core

end Sparcy
