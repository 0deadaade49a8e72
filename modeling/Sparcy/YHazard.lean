import Sparcy.ReleaseHazards

/-!
# Reading the Y register

An instruction that reads Y carries the value that the register file shows when
decode releases it.  A Y writer in Execute is never there at that moment and one in
Mem is seen by `Y_dep`, but the Y port of write-back is not connected and
`MULScc` is missing from the readers.
-/

namespace Sparcy

namespace Core

/-- The instructions that read Y. -/
def readsY (inst : Inst) : Bool :=
  decide (inst.op = 0b10 ∧ (inst.op3 = Op3.RDY ∨ inst.op3 = Op3.UDIV ∨ inst.op3 = Op3.UDIVcc ∨
    inst.op3 = Op3.SDIV ∨ inst.op3 = Op3.SDIVcc ∨ inst.op3 = Op3.MULScc))

/-- An instruction in Execute, Mem or write-back is still going to write Y. -/
def YPending (s : Core) : Prop :=
  s.pendingEx.yWrite = true ∨ s.pendingMem.yWrite = true ∨ s.pendingWb.yWrite = true

instance (s : Core) : Decidable s.YPending := inferInstanceAs (Decidable (_ ∨ _))

/-- What a Y writer leaves in Y: the high word of its result. -/
def yResult (x : EXMem) : BitVec 32 := x.alures.extractLsb' 32 32

/-- A Y writer leaves Execute. -/
def leavesY (s : Core) : Option (BitVec 32) :=
  if s.memReady && s.exOut.yWrite then some (yResult s.exOut) else none

/-- Neither write-back writes Y while a reader is released, nor Mem while a `MULScc` is. -/
def YSafe (s : Core) : Prop :=
  s.releases = true → readsY s.decoding = true →
    s.pendingWb.yWrite = false ∧
      (s.decoding.op3 = Op3.MULScc → s.pendingMem.yWrite = false)

instance (s : Core) : Decidable s.YSafe := inferInstanceAs (Decidable (_ → _ → _))

/-- The value Y has once the pending writes of Mem and write-back are made. -/
def settledY (s : Core) : BitVec 32 :=
  if s.pendingMem.yWrite then yResult s.exmem
  else if s.pendingWb.yWrite then s.wbOut.data.extractLsb' 32 32
  else s.regFile.y

section

variable {s : Core} {syscall : Syscall} {events : DramEvents}

theorem Cleared.memY_of_waiting (cleared : s.Cleared) (waiting : s.mem.pState = .b) :
    s.pendingMem.yWrite = false := by
  simpa only [pendingMem, waiting] using cleared.memY waiting

/-- A Y writer passes Mem in one cycle and is written back in the next. -/
theorem Cleared.wbOut_step_of_memY (cleared : s.Cleared) (writes : s.pendingMem.yWrite = true) :
    (s.step syscall events).pendingWb.yWrite = true ∧
      (s.step syscall events).wbOut.data.extractLsb' 32 32 = yResult s.exmem := by
  have passing : s.mem.pState = .a := by
    cases state : s.mem.pState with
    | a => rfl
    | b =>
        rw [cleared.memY_of_waiting state] at writes
        cases writes
  have held : s.exmem.yWrite = true := by
    simpa only [pendingMem, writesOf, passing] using writes
  have op := cleared.exmemY held
  have passes : s.mem.passes s.exmem s.dcAck = true := by
    simp [Mem.Regs.passes, passing, Mem.accesses, Mem.loadOp, Mem.storeOp, op]
  have out : s.memOut =
      { alures := s.exmem.alures, loadData := 0, op := s.exmem.op, op2 := s.exmem.op2
        op3 := s.exmem.op3, regD := s.exmem.regD, regWrite := s.exmem.regWrite
        regWriteDouble := s.exmem.regWriteDouble, icc := s.exmem.icc
        iccWrite := s.exmem.iccWrite, y := s.exmem.y, yWrite := s.exmem.yWrite } := by
    simp only [memOut, Mem.Regs.out, passes, passing, if_true]
  constructor
  · simp [pendingWb, wbOut, WB.out, out, isBubble, op, held]
  · simp [wbOut, WB.out, WB.data, out, isBubble, op, yResult]

/-- One cycle changes the settled value exactly by the Y writer that leaves Execute. -/
theorem Cleared.settledY_step (cleared : s.Cleared) :
    (s.step syscall events).settledY = s.leavesY.getD s.settledY := by
  have next := Cleared.step syscall s events cleared
  have written : (s.step syscall events).regFile.y =
      if s.pendingWb.yWrite then s.wbOut.data.extractLsb' 32 32 else s.regFile.y := rfl
  cases left : s.memReady && s.exOut.yWrite with
  | true =>
      -- Execute hands a Y writer to a Mem that is ready for it
      simp only [Bool.and_eq_true] at left
      have loaded : (s.step syscall events).exmem = s.exOut := by
        simp [EXMem.step, left.1]
      have passing : (s.step syscall events).mem.pState = .a := by
        by_contra waits
        have waiting : (s.step syscall events).mem.pState = .b := by
          cases state : (s.step syscall events).mem.pState with
          | a => exact absurd state waits
          | b => rfl
        have quiet := next.spaced.back.waiting waiting
        rw [loaded] at quiet
        rw [quiet.yWrite] at left
        cases left.2
      have pending : (s.step syscall events).pendingMem.yWrite = true := by
        simp only [pendingMem, passing, loaded, writesOf, left.2]
      rw [settledY, if_pos pending, loaded]
      simp [leavesY, left.1, left.2]
  | false =>
      have silent : s.leavesY = none := by simp [leavesY, left]
      rw [silent, Option.getD_none]
      have noNew : (s.step syscall events).pendingMem.yWrite = false := by
        cases passing : (s.step syscall events).mem.pState with
        | b => exact next.memY_of_waiting passing
        | a =>
            cases ready : s.memReady with
            | true =>
                have loaded : (s.step syscall events).exmem = s.exOut := by
                  simp [EXMem.step, ready]
                have writes : s.exOut.yWrite = false := by simpa [ready] using left
                simp only [pendingMem, passing, loaded, writesOf, writes]
            | false =>
                have kept : (s.step syscall events).exmem = s.exmem := by
                  simp [EXMem.step, ready]
                have waiting : s.mem.pState = .b := by
                  cases state : s.mem.pState with
                  | a => simp [memReady, Mem.Regs.memReady, state] at ready
                  | b => rfl
                have quiet := cleared.spaced.back.waiting waiting
                simp only [pendingMem, passing, kept, writesOf, quiet.yWrite]
      cases writes : s.pendingMem.yWrite with
      | true =>
          obtain ⟨back, value⟩ : (s.step syscall events).pendingWb.yWrite = true ∧ _ :=
            cleared.wbOut_step_of_memY writes
          rw [settledY, if_neg (by simp [noNew]), if_pos back, value, settledY, if_pos writes]
      | false =>
          have none : (s.step syscall events).pendingWb.yWrite = false := by
            by_contra some
            rw [Bool.not_eq_false] at some
            rw [pendingWb_step.yWrite some] at writes
            cases writes
          rw [settledY, if_neg (by simp [noNew]), if_neg (by simp [none]), written]
          simp [settledY, writes]

/-- When a reader is released in a safe cycle nothing is going to write Y. -/
theorem Cleared.not_yPending (cleared : s.Cleared) (safe : s.YSafe)
    (released : s.releases = true) (reader : readsY s.decoding = true) : ¬ s.YPending := by
  obtain ⟨silent, clear, -⟩ := cleared.clear_of_releases released
  obtain ⟨back, mulscc⟩ := safe released reader
  rintro (execute | mem | wb)
  · rw [silent.yWrite] at execute
    cases execute
  · by_cases step : s.decoding.op3 = Op3.MULScc
    · rw [mulscc step] at mem
      cases mem
    · -- every other reader is in the list of Y_dep
      simp only [Decode.conflicts, Bool.or_eq_false_iff] at clear
      have dep := clear.1.1.2
      simp only [readsY, decide_eq_true_eq] at reader
      simp only [Decode.yDep, mem, Bool.true_or, Bool.true_and, decide_eq_false_iff_not] at dep
      grind
  · rw [back] at wb
    cases wb

/-- What decode drives as Y is the register. -/
theorem settledY_of_not_yPending (none : ¬ s.YPending) :
    s.decodeOut.operands.y = s.settledY := by
  simp only [YPending, not_or, Bool.not_eq_true] at none
  simp [settledY, none.2.1, none.2.2, decodeOut, Decode.operands]

end

end Core

/-- A processor with the result of the latest Y writer that left Execute. -/
structure YHistory where
  core : Core
  latest : BitVec 32

namespace YHistory

def start (core : Core) : YHistory := { core := core, latest := core.regFile.y }

def step (syscall : Syscall) (h : YHistory) (events : DramEvents) : YHistory :=
  { core := h.core.step syscall events, latest := h.core.leavesY.getD h.latest }

/-- If a Y reader is released in this cycle, nothing in flight is going to write Y,
and the value it carries is that of the latest older writer. -/
def ReadsLatest (h : YHistory) : Prop :=
  h.core.releases = true → Core.readsY h.core.decoding = true →
    ¬ h.core.YPending ∧ h.core.decodeOut.operands.y = h.latest

instance (h : YHistory) : Decidable h.ReadsLatest := inferInstanceAs (Decidable (_ → _ → _))

/-- `ReadsLatest` holds in every step of a run that releases no reader over a Y
writer in write-back and no `MULScc` over one in Mem. -/
theorem reads_latest_y (syscall : Syscall) (entry : BitVec 32) (regFile : RegFile) (ram : Ram)
    (inputs : List DramEvents)
    (safe : Runs.Guarded (step syscall) (fun h _ => h.core.YSafe)
      (start (Core.start syscall entry regFile ram)) inputs) :
    Runs.Guarded (step syscall) (fun h _ => h.ReadsLatest)
      (start (Core.start syscall entry regFile ram)) inputs := by
  have initial : (Core.start syscall entry regFile ram).Cleared ∧
      (start (Core.start syscall entry regFile ram)).latest =
        (Core.start syscall entry regFile ram).settledY :=
    ⟨Core.cleared_start syscall entry regFile ram, rfl⟩
  have strengthened := safe.strengthen
    (fun (h : YHistory) events
        (tracked : h.core.Cleared ∧ h.latest = h.core.settledY) _ =>
      ⟨Core.Cleared.step syscall h.core events tracked.1, by
        rw [show (step syscall h events).latest = h.core.leavesY.getD h.latest from rfl,
          tracked.2]
        exact tracked.1.settledY_step.symm⟩)
    initial
  refine strengthened.mono ?_
  rintro h events ⟨⟨cleared, latest⟩, safeStep⟩ released reader
  have none := cleared.not_yPending safeStep released reader
  exact ⟨none, (Core.settledY_of_not_yPending none).trans latest.symm⟩

/-- `rd %y, %g1` is alone with `wr %g0, 5, %y`, which a no-op keeps away from it. -/
theorem reads_latest_y_alone :
    Runs.Guarded (step fun _ ram => (0, ram)) (fun h _ => h.ReadsLatest)
      (start (Core.boot [0x81802005, Inst.nop, 0x83400000]))
      (DramEvents.firstFetch ++ List.replicate 12 (.completing [])) :=
  reads_latest_y _ 0 RegFile.reset (Ram.ofWords [0x81802005, Inst.nop, 0x83400000]) _
    (by decide +kernel)

/-- `wr %g0, 5, %y` is in write-back when `rd %y, %g1` behind it is released. -/
theorem reads_stale_y_behind_wry :
    ¬ ∀ (syscall : Syscall) (entry : BitVec 32) (regFile : RegFile) (ram : Ram)
      (inputs : List DramEvents),
      Runs.Guarded (step syscall) (fun h _ => h.ReadsLatest)
        (start (Core.start syscall entry regFile ram)) inputs := by
  intro latest
  have run := latest (fun _ ram => (0, ram)) 0 RegFile.reset
    (Ram.ofWords [0x81802005, 0x83400000])
    (DramEvents.firstFetch ++ List.replicate 4 (.completing []) ++ [.completing []])
  exact absurd run.last (by decide +kernel)

end YHistory

end Sparcy
