import Sparcy.ReleaseHazards
import Sparcy.ExecuteStall

/-!
# Effects of annulled instructions

An instruction is annulled when `annul_in` is set in its first cycle in
`IDEXReg`.  Every instruction is marked with that bit when it leaves decode, and
each stage is asked whether an annulled one has an effect there.
-/

namespace Sparcy

open Execute (idle requestsAnnul)

namespace Core

/-- `annul_in` of the next cycle. -/
def annulNext (s : Core) : Bool := s.execute.annulOut s.idex s.memReady s.syscallResult

/-- `SAVE` and `RESTORE`. -/
def isWindowOp (inst : Inst) : Bool :=
  decide (inst.op = 0b10 ∧ (inst.op3 = Op3.SAVE ∨ inst.op3 = Op3.RESTORE))

section

variable {s : Core} {syscall : Syscall} {events : DramEvents}

theorem step_annulIn : (s.step syscall events).execute.annulIn = s.annulNext := rfl

/-- A pending annulment waits for the instruction that decode releases. -/
theorem BackSpaced.annulNext_of_releases (back : s.BackSpaced) (released : s.releases = true) :
    s.annulNext = s.execute.annulIn := by
  obtain ⟨unstalled, quiet, -⟩ := back.empty_of_releases released
  simp [annulNext, Execute.Regs.annulOut, unstalled, quiet.idle]

theorem cwp_pulses_of_not_releases (kept : s.releases = false) :
    s.cwpInc = false ∧ s.cwpDec = false := by
  have held : s.decode.releases s.ifid s.hazards s.exReady = false := kept
  simp [cwpInc, cwpDec, Decode.Regs.cwpInc, Decode.Regs.cwpDec, held]

theorem cwp_pulses_of_not_isWindowOp (other : isWindowOp s.decoding = false) :
    s.cwpInc = false ∧ s.cwpDec = false := by
  simp only [isWindowOp, decoding] at other
  simp only [cwpInc, cwpDec, Decode.Regs.cwpInc, Decode.Regs.cwpDec, Bool.and_eq_false_iff,
    decide_eq_false_iff_not]
  grind

/-- Only a released word can be a trap: the two words that decode passes on are not. -/
theorem syscalls_of_passesNop (passes : s.decode.passesNop s.ifid = true) :
    (Execute.aluIn s.decodeOut).syscalls = 0 := by
  have word : s.ifid.inst = Inst.nop ∨ s.ifid.inst = Inst.stbar := by
    simp only [Decode.Regs.passesNop, Decode.isNop, Bool.and_eq_true, Bool.or_eq_true,
      beq_iff_eq] at passes
    exact passes.2
  have fields : s.decodeOut.fields = Decode.bubbleFields s.ifid.inst := by
    simp [decodeOut, Decode.Regs.outFields, passes]
  have noTrap : ¬ ((Decode.bubbleFields s.ifid.inst).op = 0b10 ∧
      (Decode.bubbleFields s.ifid.inst).op3 = Op3.Ticc) := by
    rcases word with word | word <;> rw [word] <;> decide
  simp only [AluIn.syscalls, Execute.aluIn, fields]
  exact if_neg noTrap

end

end Core

namespace Tagged

/-- The word under decode leaves it and is annulled. -/
def becomesAnnulled (t : Tagged Bool) : Bool :=
  t.core.exReady && t.leavesDecode && t.core.annulNext

/-- No annulled instruction has an effect in this cycle: not on the window or by a
system call when it leaves decode, not through Execute, not on the data cache and
not in write-back. -/
structure NoAnnulledEffect (t : Tagged Bool) : Prop where
  window : t.becomesAnnulled = true → t.core.cwpInc = false ∧ t.core.cwpDec = false
  calls : t.becomesAnnulled = true → (Execute.aluIn t.core.decodeOut).syscalls = 0
  handsOn : t.exTag = some true → t.core.exOut.Quiet
  redirect : t.exTag = some true → t.core.exOut.muxSel = false
  annulment : t.exTag = some true → t.core.annulNext = false
  access : t.memTag = some true → t.core.dcRequest.req = false
  writes : t.memwb = some true → t.core.pendingWb.Silent

/-- The annulled instruction is neither `SAVE`, `RESTORE` nor a trap that is taken; in
Execute it finds Mem ready, does not look like a bubble and is not a branch that
asks for an annulment of its own. -/
def AnnulSafe (t : Tagged Bool) : Prop :=
  (t.core.execute.annulIn = true → t.core.releases = true →
    Core.isWindowOp t.core.decoding = false ∧
      (Execute.aluIn t.core.decodeOut).syscalls = 0) ∧
  (t.exTag = some true →
    t.core.memReady = true ∧ idle t.core.idex = false ∧ requestsAnnul t.core.idex = false)

instance (t : Tagged Bool) : Decidable t.AnnulSafe := inferInstanceAs (Decidable (_ ∧ _))

/-- Where annulled instructions can be: in `IDEXReg` under `annul_in`, and behind
it only as bubbles. -/
structure AnnulTracked (t : Tagged Bool) : Prop where
  spaced : t.core.Spaced
  execute : t.exTag = some true →
    t.core.execute.pState = .a ∧ t.core.execute.annulIn = true
  behind : t.core.execute.pState = .b → t.idex ≠ some true
  exmem : t.exmem = some true → t.core.exmem.Quiet
  waiting : t.core.mem.pState = .b → t.memTag ≠ some true
  writeBack : t.memwb = some true → t.core.pendingWb.Silent

section

variable {t : Tagged Bool} {syscall : Syscall} {events : DramEvents}

theorem AnnulTracked.execute_step (tracked : t.AnnulTracked) (safe : t.AnnulSafe)
    (annulled : (t.step Core.annulNext syscall events).exTag = some true) :
    (t.core.step syscall events).execute.pState = .a ∧
      (t.core.step syscall events).execute.annulIn = true := by
  cases state : (t.core.step syscall events).execute.pState with
  | b =>
      -- an annulled instruction never stays in Execute
      rw [exTag_step_of_held state] at annulled
      have ready := (safe.2 annulled).1
      rw [Core.memReady_of_held state] at ready
      cases ready
  | a =>
      rw [exTag_step_of_unstalled state, step_idex] at annulled
      refine ⟨rfl, ?_⟩
      cases ready : t.core.exReady with
      | true =>
          rw [if_pos ready] at annulled
          split at annulled
          · exact Option.some.inj annulled
          · cases annulled
      | false =>
          rw [if_neg (by simp [ready])] at annulled
          exfalso
          cases held : t.core.execute.pState with
          | b => exact tracked.behind held annulled
          | a =>
              have inExecute : t.exTag = some true := by simpa only [exTag, held] using annulled
              have busy := (safe.2 inExecute).2.1
              rw [(tracked.spaced.back.stalled ready).idle] at busy
              cases busy

/-- An instruction that stalls in Execute asks for nothing, so the word loaded behind
it is not annulled. -/
theorem AnnulTracked.behind_step (tracked : t.AnnulTracked)
    (holding : (t.core.step syscall events).execute.pState = .b) :
    (t.step Core.annulNext syscall events).idex ≠ some true := by
  have busy := Core.memReady_of_held holding
  have idleLine : t.core.annulNext = false := by
    cases state : t.core.execute.pState with
    | b => simp [Core.annulNext, Execute.Regs.annulOut, state, busy]
    | a =>
        have word : idle t.core.idex = false := by
          by_contra bubble
          simp [Execute.Regs.nState, state, bubble] at holding
        simp [Core.annulNext, Execute.Regs.annulOut, state, busy, word]
  rw [step_idex, idleLine]
  cases ready : t.core.exReady with
  | true =>
      rw [if_pos rfl]
      split <;> simp
  | false =>
      rw [if_neg (by simp)]
      cases held : t.core.execute.pState with
      | b => exact tracked.behind held
      | a =>
          exfalso
          have quiet := tracked.spaced.back.stalled ready
          simp [Execute.Regs.nState, held, quiet.idle] at holding

theorem AnnulTracked.handsOn (tracked : t.AnnulTracked) (annulled : t.exTag = some true) :
    t.core.exOut = t.core.execute.squashed := by
  simp [Core.exOut_eq, (tracked.execute annulled).2]

theorem AnnulTracked.step (t : Tagged Bool) (events : DramEvents) (tracked : t.AnnulTracked)
    (safe : t.AnnulSafe) : (t.step Core.annulNext syscall events).AnnulTracked where
  spaced := tracked.spaced.step syscall events
  execute := tracked.execute_step safe
  behind := tracked.behind_step
  exmem := by
    intro annulled
    rw [step_exmem] at annulled
    cases ready : t.core.memReady with
    | true =>
        rw [if_pos ready] at annulled
        have loaded : (t.core.step syscall events).exmem = t.core.exOut := by
          simp [EXMem.step, ready]
        rw [step_core, loaded, tracked.handsOn annulled]
        exact Core.squashed_quiet t.core.execute
    | false =>
        rw [if_neg (by simp [ready])] at annulled
        have kept : (t.core.step syscall events).exmem = t.core.exmem := by
          simp [EXMem.step, ready]
        rw [step_core, kept]
        exact tracked.exmem annulled
  waiting := by
    intro waiting annulled
    rw [memTag_step_of_waiting waiting] at annulled
    cases state : t.core.mem.pState with
    | b => exact tracked.waiting state annulled
    | a =>
        have inMem : t.exmem = some true := by simpa only [memTag, state] using annulled
        have quiet := tracked.exmem inMem
        simp [Mem.Regs.step, Mem.Regs.nState, state, quiet.accesses] at waiting
  writeBack := by
    intro annulled
    rw [step_memwb] at annulled
    split at annulled
    · cases state : t.core.mem.pState with
      | b => exact absurd annulled (tracked.waiting state)
      | a =>
          have inMem : t.exmem = some true := by simpa only [memTag, state] using annulled
          have silent : t.core.pendingMem.Silent := by
            simpa only [Core.pendingMem, state] using
              Core.silent_of_quiet (tracked.exmem inMem)
          exact Core.pendingWb_step.silent silent
    · cases annulled

theorem AnnulTracked.noAnnulledEffect (tracked : t.AnnulTracked) (safe : t.AnnulSafe) :
    t.NoAnnulledEffect where
  window := by
    intro annulled
    simp only [becomesAnnulled, Bool.and_eq_true] at annulled
    cases released : t.core.releases with
    | false => exact Core.cwp_pulses_of_not_releases released
    | true =>
        rw [tracked.spaced.back.annulNext_of_releases released] at annulled
        exact Core.cwp_pulses_of_not_isWindowOp (safe.1 annulled.2 released).1
  calls := by
    intro annulled
    simp only [becomesAnnulled, leavesDecode, Bool.and_eq_true, Bool.or_eq_true] at annulled
    rcases annulled.1.2 with released | passed
    · rw [tracked.spaced.back.annulNext_of_releases released] at annulled
      exact (safe.1 annulled.2 released).2
    · exact Core.syscalls_of_passesNop passed.1
  handsOn := by
    intro annulled
    rw [tracked.handsOn annulled]
    exact Core.squashed_quiet t.core.execute
  redirect := by
    intro annulled
    rw [tracked.handsOn annulled]
    rfl
  annulment := by
    intro annulled
    obtain ⟨ready, word, harmless⟩ := safe.2 annulled
    simp [Core.annulNext, Execute.Regs.annulOut, (tracked.execute annulled).1, word, ready,
      Execute.isBicc_and_aluOut_a, harmless]
  access := by
    intro annulled
    cases state : t.core.mem.pState with
    | b => exact absurd annulled (tracked.waiting state)
    | a =>
        have inMem : t.exmem = some true := by simpa only [memTag, state] using annulled
        simp [Core.dcRequest, Mem.Regs.request, Mem.Regs.dcReq, state,
          (tracked.exmem inMem).accesses]
  writes := tracked.writeBack

end

theorem annulTracked_start (syscall : Syscall) (entry : BitVec 32) (regFile : RegFile)
    (ram : Ram) : (start (Core.start syscall entry regFile ram) : Tagged Bool).AnnulTracked where
  spaced := Core.spaced_start syscall entry regFile ram
  execute annulled := by cases annulled
  behind _ := by simp [start]
  exmem annulled := by cases annulled
  waiting waits := by cases waits
  writeBack annulled := by cases annulled

/-- In a run whose annulled instructions are all safe, none of them has an effect. -/
theorem no_annulled_effect (syscall : Syscall) (entry : BitVec 32) (regFile : RegFile)
    (ram : Ram) (inputs : List DramEvents)
    (safe : Runs.Guarded (step Core.annulNext syscall) (fun t _ => t.AnnulSafe)
      (start (Core.start syscall entry regFile ram)) inputs) :
    Runs.Guarded (step Core.annulNext syscall) (fun t _ => t.NoAnnulledEffect)
      (start (Core.start syscall entry regFile ram)) inputs :=
  (safe.strengthen AnnulTracked.step (annulTracked_start syscall entry regFile ram)).mono
    fun _ _ tracked => tracked.1.noAnnulledEffect tracked.2

/-- `ba,a` and an addition in its delay slot. -/
theorem no_annulled_effect_addition :
    Runs.Guarded (step Core.annulNext fun _ ram => (0, ram)) (fun t _ => t.NoAnnulledEffect)
      (start (Core.boot [0x30800004, 0x82006001]))
      (DramEvents.firstFetch ++ List.replicate 7 (.completing [])) :=
  no_annulled_effect _ 0 RegFile.reset (Ram.ofWords [0x30800004, 0x82006001]) _
    (by decide +kernel)

/-- A `SAVE` in the annulled delay slot of `ba,a` moves the window. -/
theorem annulled_save_moves_window :
    ¬ ∀ (syscall : Syscall) (entry : BitVec 32) (regFile : RegFile) (ram : Ram)
      (inputs : List DramEvents),
      Runs.Guarded (step Core.annulNext syscall) (fun t _ => t.NoAnnulledEffect)
        (start (Core.start syscall entry regFile ram)) inputs := by
  intro noEffect
  have run := noEffect (fun _ ram => (0, ram)) 0 RegFile.reset
    (Ram.ofWords [0x30800004, 0x81e00000])
    (DramEvents.firstFetch ++ List.replicate 4 (.completing []) ++ [.completing []])
  have kept := run.last.window (by decide +kernel)
  exact absurd kept (by decide +kernel)

end Tagged

end Sparcy
