import Sparcy.InFlight

/-!
# What a released instruction has waited for

The stall predicates look at Execute, Mem and write-back in the cycle of the
check; `STATEB` of decode does not look again, and the predicates see neither a
squashed Execute nor the Y port of write-back.  This file compares the reports
with the writes that are really pending, and shows which of these can still
concern an instruction when decode releases it.
-/

namespace Sparcy

namespace Decode

/-- The part of `stalls` that concerns one later stage. -/
def conflicts (inst : Inst) (h : Hazard) : Bool :=
  instructionDependancy inst.rs1 inst.rs2 h.rd h.regWrite h.regWriteDouble ||
  ccDep inst.op inst.op2 inst.op3 h.iccWrite ||
  yDep inst.op inst.op3 h.yWrite false false ||
  storeDep inst.op inst.op3 inst.rd h.rd h.regWrite h.regWriteDouble ||
  trapDep inst.op inst.op3 h.rd h.regWrite 0 false 0 false

theorem stalls_eq_conflicts (inst : Inst) (h : Hazards) :
    stalls inst h = (conflicts inst h.ex || conflicts inst h.mem || conflicts inst h.wb) := by
  have y : yDep inst.op inst.op3 h.ex.yWrite h.mem.yWrite h.wb.yWrite =
      (yDep inst.op inst.op3 h.ex.yWrite false false ||
        yDep inst.op inst.op3 h.mem.yWrite false false ||
        yDep inst.op inst.op3 h.wb.yWrite false false) := by
    cases h.ex.yWrite <;> cases h.mem.yWrite <;> cases h.wb.yWrite <;> simp [yDep]
  have trap : trapDep inst.op inst.op3 h.ex.rd h.ex.regWrite h.mem.rd h.mem.regWrite h.wb.rd
        h.wb.regWrite =
      (trapDep inst.op inst.op3 h.ex.rd h.ex.regWrite 0 false 0 false ||
        trapDep inst.op inst.op3 h.mem.rd h.mem.regWrite 0 false 0 false ||
        trapDep inst.op inst.op3 h.wb.rd h.wb.regWrite 0 false 0 false) := by
    simp only [trapDep, Bool.false_and, Bool.or_false, Bool.and_or_distrib_left]
  unfold stalls conflicts
  rw [y, trap]
  ac_rfl

/-- `h` announces no write that `g` does not announce. -/
structure Hazard.Within (h g : Hazard) : Prop where
  rd : h.regWrite = true ∨ h.regWriteDouble = true → h.rd = g.rd
  regWrite : h.regWrite = true → g.regWrite = true
  regWriteDouble : h.regWriteDouble = true → g.regWriteDouble = true
  iccWrite : h.iccWrite = true → g.iccWrite = true
  yWrite : h.yWrite = true → g.yWrite = true

theorem Hazard.Within.refl (h : Hazard) : h.Within h := ⟨fun _ => rfl, id, id, id, id⟩

/-- No write is announced. -/
structure Hazard.Silent (h : Hazard) : Prop where
  regWrite : h.regWrite = false
  regWriteDouble : h.regWriteDouble = false
  iccWrite : h.iccWrite = false
  yWrite : h.yWrite = false

theorem Hazard.Silent.within {h : Hazard} (silent : h.Silent) (g : Hazard) : h.Within g := by
  constructor <;> simp [silent.regWrite, silent.regWriteDouble, silent.iccWrite, silent.yWrite]

theorem Hazard.Within.silent {h g : Hazard} (within : h.Within g) (silent : g.Silent) :
    h.Silent := by
  constructor
  · simpa [silent.regWrite] using within.regWrite
  · simpa [silent.regWriteDouble] using within.regWriteDouble
  · simpa [silent.iccWrite] using within.iccWrite
  · simpa [silent.yWrite] using within.yWrite

section

variable {rs1 rs2 rs rd exRd : BitVec 5} {op : BitVec 2} {op2 : BitVec 3} {op3 : BitVec 6}
variable {write write' double double' : Bool}

theorem instructionDependancy_mono (more : write = true → write' = true)
    (moreDouble : double = true → double' = true)
    (clear : instructionDependancy rs1 rs2 rd write' double' = false) :
    instructionDependancy rs1 rs2 rd write double = false := by
  simp only [instructionDependancy] at clear ⊢
  grind

theorem storeDep_mono (more : write = true → write' = true)
    (moreDouble : double = true → double' = true)
    (clear : storeDep op op3 rs rd write' double' = false) :
    storeDep op op3 rs rd write double = false := by
  simp only [storeDep] at clear ⊢
  split at clear
  · cases write <;> cases double <;> simp_all
  · split at clear
    · cases write <;> cases double <;> simp_all
    · simp_all

theorem trapDep_mono (more : write = true → write' = true)
    (clear : trapDep op op3 exRd write' 0 false 0 false = false) :
    trapDep op op3 exRd write 0 false 0 false = false := by
  cases write <;> simp_all [trapDep]

theorem ccDep_mono (more : write = true → write' = true)
    (clear : ccDep op op2 op3 write' = false) : ccDep op op2 op3 write = false := by
  cases write
  · simp [ccDep]
  · rwa [more rfl] at clear

theorem yDep_mono (more : write = true → write' = true)
    (clear : yDep op op3 write' false false = false) :
    yDep op op3 write false false = false := by
  cases write
  · simp [yDep]
  · rwa [more rfl] at clear

end

theorem conflicts_of_silent (inst : Inst) {h : Hazard} (silent : h.Silent) :
    conflicts inst h = false := by
  simp [conflicts, instructionDependancy, ccDep, yDep, storeDep, trapDep, silent.regWrite,
    silent.regWriteDouble, silent.iccWrite, silent.yWrite]

/-- A stage that announces less conflicts with less. -/
theorem conflicts_of_within {inst : Inst} {h g : Hazard} (within : h.Within g)
    (clear : conflicts inst g = false) : conflicts inst h = false := by
  simp only [conflicts, Bool.or_eq_false_iff] at clear ⊢
  obtain ⟨⟨⟨⟨dep, cc⟩, y⟩, store⟩, trap⟩ := clear
  by_cases writes : h.regWrite = true ∨ h.regWriteDouble = true
  · rw [within.rd writes]
    exact ⟨⟨⟨⟨instructionDependancy_mono within.regWrite within.regWriteDouble dep,
      ccDep_mono within.iccWrite cc⟩, yDep_mono within.yWrite y⟩,
      storeDep_mono within.regWrite within.regWriteDouble store⟩,
      trapDep_mono within.regWrite trap⟩
  · simp only [not_or, Bool.not_eq_true] at writes
    refine ⟨⟨⟨⟨?_, ccDep_mono within.iccWrite cc⟩, yDep_mono within.yWrite y⟩, ?_⟩, ?_⟩
    · simp [instructionDependancy, writes.1, writes.2]
    · simp [storeDep, writes.1, writes.2]
    · simp [trapDep, writes.1]

end Decode

namespace Core

open Decode (conflicts Hazard)

/-- The register, icc and Y writes of an instruction. -/
def writesOf (x : EXMem) : Hazard :=
  { rd := x.regD, regWrite := x.regWrite, regWriteDouble := x.regWriteDouble
    iccWrite := x.iccWrite, yWrite := x.yWrite }

/-- The pending writes of the instruction in Execute, squashed or not. -/
def pendingEx (s : Core) : Hazard := writesOf s.inExecute

/-- The pending writes of the instruction in Mem. -/
def pendingMem (s : Core) : Hazard :=
  match s.mem.pState with
  | .a => writesOf s.exmem
  | .b =>
      { rd := s.mem.pRegd, regWrite := s.mem.pRegWrite
        regWriteDouble := s.mem.pRegWriteDouble, iccWrite := s.mem.pIccWrite
        yWrite := s.mem.pYWrite }

/-- The writes that write-back makes at the end of the cycle. -/
def pendingWb (s : Core) : Hazard :=
  { rd := s.wbOut.regD, regWrite := s.wbOut.regEn, regWriteDouble := s.wbOut.regDoubleEn
    iccWrite := s.wbOut.iccEn, yWrite := s.wbOut.yEn }

theorem silent_of_quiet {x : EXMem} (quiet : x.Quiet) : (writesOf x).Silent :=
  ⟨quiet.regWrite, quiet.regWriteDouble, quiet.iccWrite, quiet.yWrite⟩

section

variable {s : Core} {syscall : Syscall} {events : DramEvents}

/-! ### How pending writes move -/

theorem pendingEx_step_of_held (holding : (s.step syscall events).execute.pState = .b) :
    (s.step syscall events).pendingEx = s.pendingEx := by
  rw [pendingEx, inExecute_step_of_held holding, pendingEx]

/-- Without room in `IDEXReg` nothing new comes into Execute. -/
theorem BackSpaced.pendingEx_step_of_not_ready (back : s.BackSpaced)
    (stalled : s.exReady = false) :
    (s.step syscall events).pendingEx.Within s.pendingEx := by
  cases state : (s.step syscall events).execute.pState with
  | b =>
      rw [pendingEx_step_of_held state]
      exact .refl _
  | a =>
      have kept : (s.step syscall events).idex = s.idex := by simp [IDEX.step, stalled]
      have quiet : (s.step syscall events).inExecute.Quiet := by
        rw [inExecute_step_of_unstalled state, kept]
        exact live_quiet (back.stalled stalled) _
      exact (silent_of_quiet quiet).within _

/-- What Execute hands to Mem is its instruction or, squashed, nothing. -/
theorem writesOf_exOut_within (s : Core) : (writesOf s.exOut).Within s.pendingEx := by
  rw [exOut_eq]
  cases s.execute.annulIn with
  | false => exact .refl _
  | true => exact (silent_of_quiet (squashed_quiet s.execute)).within _

theorem pendingMem_step_of_waiting (waiting : (s.step syscall events).mem.pState = .b) :
    (s.step syscall events).pendingMem = s.pendingMem := by
  cases state : s.mem.pState <;>
    simp only [pendingMem, waiting, state] <;>
    simp [Mem.Regs.step, Mem.Regs.copy, writesOf, state]

/-- Mem takes over what Execute hands on, or keeps what it has. -/
theorem BackSpaced.pendingMem_step (back : s.BackSpaced) (syscall : Syscall)
    (events : DramEvents) :
    (s.step syscall events).pendingMem = s.pendingMem ∨
      (s.step syscall events).pendingMem = writesOf s.exOut ∨
      (s.step syscall events).pendingMem.Silent := by
  cases state : (s.step syscall events).mem.pState with
  | b => exact .inl (pendingMem_step_of_waiting state)
  | a =>
      have shown : (s.step syscall events).pendingMem =
          writesOf (s.step syscall events).exmem := by simp only [pendingMem, state]
      rw [shown]
      cases held : s.mem.pState with
      | a => simp [EXMem.step, memReady, Mem.Regs.memReady, held]
      | b =>
          have kept : (s.step syscall events).exmem = s.exmem := by
            simp [EXMem.step, memReady, Mem.Regs.memReady, held]
          rw [kept]
          exact .inr (.inr (silent_of_quiet (back.waiting held)))

/-- Write-back makes the writes that were pending in Mem in the cycle before. -/
theorem pendingWb_step : (s.step syscall events).pendingWb.Within s.pendingMem := by
  cases passes : s.memPasses with
  | false =>
      have bubble : (s.step syscall events).wbOut = _ := wbOut_step_of_not_passes passes
      apply Decode.Hazard.Silent.within
      constructor <;> simp only [pendingWb, bubble]
  | true =>
      have handed : s.mem.passes s.exmem s.dcAck = true := passes
      cases bubble : isBubble s.memOut.op s.memOut.op2 s.memOut.regD with
      | true =>
          apply Decode.Hazard.Silent.within
          constructor <;> simp [pendingWb, wbOut, WB.out, bubble]
      | false =>
          have equal : (s.step syscall events).pendingWb = s.pendingMem := by
            simp only [pendingWb, wbOut, WB.out, step_memwb, bubble, Bool.false_eq_true, if_false]
            cases state : s.mem.pState <;>
              simp [memOut, Mem.Regs.out, handed, pendingMem, writesOf, state]
          rw [equal]
          exact .refl _

/-! ### What the stall predicates see -/

/-- A released instruction, or one that decode keeps only because Execute is busy,
has no conflict with a pending write, the Y port of write-back apart. -/
theorem Spaced.clear_of_not_stalls (spaced : s.Spaced) (memY : s.mem.pState = .b →
      s.mem.pYWrite = false) {inst : Inst} (decoding : s.Decoding)
    (clear : Decode.stalls inst s.hazards = false) :
    conflicts inst s.pendingEx = false ∧ conflicts inst s.pendingMem = false ∧
      conflicts inst { s.pendingWb with yWrite := false } = false := by
  rw [Decode.stalls_eq_conflicts, Bool.or_eq_false_iff, Bool.or_eq_false_iff] at clear
  obtain ⟨⟨ex, mem⟩, wb⟩ := clear
  refine ⟨?_, ?_, ?_⟩
  · cases annulled : s.execute.annulIn with
    | true =>
        have unstalled := spaced.back.annulled annulled
        have quiet : s.inExecute.Quiet := by
          simpa only [inExecute, unstalled] using
            live_quiet (spaced.back.behindDecode decoding) s.syscallResult
        exact Decode.conflicts_of_silent inst (silent_of_quiet quiet)
    | false =>
        have shown := hazard_execute s annulled
        simp only [hazards, shown] at ex
        exact ex
  · refine Decode.conflicts_of_within ?_ mem
    cases state : s.mem.pState with
    | a => simpa only [hazards, Mem.Regs.hazard, pendingMem, state] using .refl _
    | b =>
        simp only [hazards, Mem.Regs.hazard, pendingMem, state, memY state]
        exact ⟨fun _ => rfl, id, id, id, fun y => by cases y⟩
  · refine Decode.conflicts_of_within ?_ wb
    refine ⟨fun _ => rfl, id, ?_, id, fun y => by cases y⟩
    intro double
    simp only [pendingWb, wbOut, WB.out] at double
    split at double
    · cases double
    · exact double

/-- The invariant: Y writers are format 3 instructions, so Mem holds none while it
waits, and the word that `STATEB` of decode holds has no conflict any more. -/
structure Cleared (s : Core) : Prop where
  spaced : s.Spaced
  executeY : s.inExecute.yWrite = true → s.inExecute.op = 0b10
  exmemY : s.exmem.yWrite = true → s.exmem.op = 0b10
  memY : s.mem.pState = .b → s.mem.pYWrite = false
  held : s.decode.pState = .b → conflicts s.decoding s.pendingEx = false ∧
    conflicts s.decoding s.pendingMem = false ∧ conflicts s.decoding s.pendingWb = false

theorem decoding_of_not_passesNop (word : s.decode.passesNop s.ifid = false) : s.Decoding := by
  by_contra free
  simp only [Decoding, not_or, not_not] at free
  simp [Decode.Regs.passesNop, Decode.isNop, free.1, free.2] at word

/-- A word that decode does not keep back has no conflict with Execute and Mem, and
none with write-back, of which a first check does not see the Y port. -/
theorem Cleared.clear (cleared : s.Cleared) (word : s.decode.passesNop s.ifid = false)
    (moves : s.decode.waits s.ifid s.hazards = false) :
    conflicts s.decoding s.pendingEx = false ∧ conflicts s.decoding s.pendingMem = false ∧
      conflicts s.decoding { s.pendingWb with yWrite := false } = false := by
  have decoding := decoding_of_not_passesNop word
  cases state : s.decode.pState with
  | a =>
      simp only [Decode.Regs.passesNop, state, beq_self_eq_true, Bool.true_and] at word
      simp only [Decode.Regs.waits, state, word, Bool.not_false, Bool.true_and] at moves
      have inst : s.decoding = s.ifid.inst := by
        simp only [Core.decoding, Decode.Regs.nInst, state]
      rw [inst]
      exact cleared.spaced.clear_of_not_stalls cleared.memY decoding moves
  | b =>
      obtain ⟨ex, mem, wb⟩ := cleared.held state
      refine ⟨ex, mem, Decode.conflicts_of_within ?_ wb⟩
      exact ⟨fun _ => rfl, id, id, id, fun y => by cases y⟩
  | s =>
      simp only [Decode.Regs.waits, state] at moves
      have inst : s.decoding = s.decode.pInst := by
        simp only [Core.decoding, Decode.Regs.nInst, state]
      rw [inst]
      exact cleared.spaced.clear_of_not_stalls cleared.memY decoding moves

/-- When decode releases an instruction, Execute is empty and no pending write of
Mem or write-back conflicts with it, the Y port of write-back apart. -/
theorem Cleared.clear_of_releases (cleared : s.Cleared) (released : s.releases = true) :
    s.pendingEx.Silent ∧ conflicts s.decoding s.pendingMem = false ∧
      conflicts s.decoding { s.pendingWb with yWrite := false } = false := by
  have empty := (cleared.spaced.back.empty_of_releases released).2.2
  simp only [releases, Decode.Regs.releases, Bool.and_eq_true, Bool.not_eq_true'] at released
  have clear := cleared.clear released.1.1 released.1.2
  exact ⟨silent_of_quiet empty, clear.2.1, clear.2.2⟩

theorem Cleared.held_step (cleared : s.Cleared)
    (holding : (s.step syscall events).decode.pState = .b) :
    conflicts (s.step syscall events).decoding (s.step syscall events).pendingEx = false ∧
      conflicts (s.step syscall events).decoding (s.step syscall events).pendingMem = false ∧
      conflicts (s.step syscall events).decoding (s.step syscall events).pendingWb = false := by
  have kept : (s.step syscall events).decoding = s.decoding := by
    simp only [Core.decoding, Decode.Regs.nInst, holding]
    rfl
  rw [kept]
  simp only [step_decode, Decode.Regs.step, Decode.Regs.nState] at holding
  split at holding
  · cases holding
  · rename_i word
    split at holding
    · cases holding
    · rename_i moves
      split at holding
      · cases holding
      · rename_i stalled
        rw [Bool.not_eq_true] at word moves stalled
        obtain ⟨ex, mem, -⟩ := cleared.clear word moves
        refine ⟨?_, ?_, Decode.conflicts_of_within pendingWb_step mem⟩
        · exact Decode.conflicts_of_within
            (cleared.spaced.back.pendingEx_step_of_not_ready stalled) ex
        · rcases cleared.spaced.back.pendingMem_step syscall events with same | loaded | silent
          · rw [same]
            exact mem
          · rw [loaded]
            exact Decode.conflicts_of_within (writesOf_exOut_within s) ex
          · exact Decode.conflicts_of_silent _ silent

/-- Decode marks as Y writers only format 3 instructions. -/
theorem decodeOut_y (decoded : s.DecodeCopied) (writes : s.decodeOut.fields.yWrite = true) :
    s.decodeOut.fields.op = 0b10 := by
  cases passes : s.decode.passesNop s.ifid with
  | true =>
      simp [decodeOut, Decode.Regs.outFields, passes, Decode.bubbleFields,
        Decode.fieldsOf] at writes
  | false =>
      cases waits : s.decode.waits s.ifid s.hazards with
      | true =>
          rw [(decodeOut_quiet_of_waits waits).yWrite] at writes
          cases writes
      | false =>
          have fields : s.decodeOut.fields = Decode.decodeFields s.decoding := by
            rw [← decoded]
            simp [decodeOut, Decode.Regs.outFields, passes, waits]
          rw [fields] at writes ⊢
          simp only [Decode.decodeFields, Decode.fieldsOf, Decode.yWrite,
            decide_eq_true_eq] at writes ⊢
          exact writes.1

theorem Cleared.step (syscall : Syscall) (s : Core) (events : DramEvents) (cleared : s.Cleared) :
    (s.step syscall events).Cleared where
  spaced := cleared.spaced.step syscall events
  executeY := by
    intro writes
    cases state : (s.step syscall events).execute.pState with
    | b =>
        rw [inExecute_step_of_held state] at writes ⊢
        exact cleared.executeY writes
    | a =>
        rw [inExecute_step_of_unstalled state] at writes ⊢
        cases ready : s.exReady with
        | true =>
            have loaded : (s.step syscall events).idex = s.decodeOut := by
              simp [IDEX.step, ready]
            rw [loaded] at writes ⊢
            exact decodeOut_y cleared.spaced.decoded writes
        | false =>
            have kept : (s.step syscall events).idex = s.idex := by simp [IDEX.step, ready]
            rw [kept, (live_quiet (cleared.spaced.back.stalled ready) _).yWrite] at writes
            cases writes
  exmemY := by
    cases ready : s.memReady with
    | false => simpa [EXMem.step, ready] using cleared.exmemY
    | true =>
        have loaded : (s.step syscall events).exmem = s.exOut := by simp [EXMem.step, ready]
        rw [loaded, exOut_eq]
        cases s.execute.annulIn with
        | true => simp [Execute.Regs.squashed]
        | false => simpa using cleared.executeY
  memY := by
    intro waiting
    cases state : s.mem.pState with
    | a =>
        have access : Mem.accesses s.exmem = true := by
          by_contra passes
          simp [Mem.Regs.step, Mem.Regs.nState, state, passes] at waiting
        by_contra writes
        have held : s.exmem.yWrite = true := by
          simpa [Mem.Regs.step, Mem.Regs.copy, state] using writes
        simp [Mem.accesses, Mem.loadOp, Mem.storeOp, cleared.exmemY held] at access
    | b => simpa [Mem.Regs.step, Mem.Regs.copy, state] using cleared.memY state
  held := cleared.held_step

theorem cleared_start (syscall : Syscall) (entry : BitVec 32) (regFile : RegFile) (ram : Ram) :
    (start syscall entry regFile ram).Cleared where
  spaced := spaced_start syscall entry regFile ram
  executeY := by
    intro writes
    have fields := congrArg Fields.yWrite (start_idex syscall entry regFile ram)
    have none : (start syscall entry regFile ram).inExecute.yWrite = false := fields
    rw [none] at writes
    cases writes
  exmemY writes := by cases writes
  memY waiting := by cases waiting
  held holding := by
    rw [start_decode] at holding
    cases holding

end

end Core

end Sparcy
