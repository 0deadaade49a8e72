import Sparcy.InFlight

/-!
# Register windows and older writes

Decode changes `PSR_CWP` when it releases a `SAVE` or `RESTORE`, and write-back
indexes the register file with the `PSR_CWP` of its own cycle.  Every instruction
is marked with the window it was released in; a write to a windowed register
lands there as long as no `SAVE` or `RESTORE` overtakes it in Mem.
-/

namespace Sparcy

/-- A pending write to a register of the current window. -/
def Decode.Hazard.Windowed (h : Decode.Hazard) : Prop := h.regWrite = true ∧ 8 ≤ h.rd

instance (h : Decode.Hazard) : Decidable h.Windowed := inferInstanceAs (Decidable (_ ∧ _))

namespace Core

/-- The window an instruction released in this cycle belongs to: the new one for
`SAVE` and `RESTORE`. -/
def releaseWindow (s : Core) : BitVec 5 := s.regFile.nextCwp s.cwpInc s.cwpDec

/-- Decode pulses `cwp_inc` or `cwp_dec`. -/
def changesWindow (s : Core) : Bool := s.cwpInc || s.cwpDec

/-- Write-back writes a windowed register at the end of the cycle. -/
def WritesWindow (s : Core) : Prop := s.wbOut.regEn = true ∧ 8 ≤ s.wbOut.regD

instance (s : Core) : Decidable s.WritesWindow := inferInstanceAs (Decidable (_ ∧ _))

/-- No `SAVE` or `RESTORE` is released over a pending windowed write in Mem. -/
def WindowSafe (s : Core) : Prop := s.changesWindow = true → ¬ s.inMem.Windowed

instance (s : Core) : Decidable s.WindowSafe := inferInstanceAs (Decidable (_ → _))

theorem releases_of_changesWindow {s : Core} (changes : s.changesWindow = true) :
    s.releases = true := by
  simp only [changesWindow, cwpInc, cwpDec, Decode.Regs.cwpInc, Decode.Regs.cwpDec,
    Bool.or_eq_true, Bool.and_eq_true] at changes
  rcases changes with changes | changes
  · exact changes.1
  · exact changes.1

theorem releaseWindow_of_unchanged {s : Core} (kept : s.changesWindow = false) :
    s.releaseWindow = s.regFile.cwp := by
  simp only [changesWindow, Bool.or_eq_false_iff] at kept
  simp [releaseWindow, RegFile.nextCwp, kept.1, kept.2]

theorem step_cwp (s : Core) (syscall : Syscall) (events : DramEvents) :
    (s.step syscall events).regFile.cwp = s.releaseWindow := rfl

end Core

namespace Tagged

/-- Every windowed write of the cycle goes to the window of its instruction. -/
def WritesOwnWindow (t : Tagged (BitVec 5)) : Prop :=
  t.core.WritesWindow → t.memwb = some t.core.regFile.cwp

instance (t : Tagged (BitVec 5)) : Decidable t.WritesOwnWindow :=
  inferInstanceAs (Decidable (_ → _))

/-- Every windowed write in flight belongs to the current window. -/
structure InWindow (t : Tagged (BitVec 5)) : Prop where
  spaced : t.core.Spaced
  execute : t.core.inExecute.regWrite = true → 8 ≤ t.core.inExecute.regD →
    t.exTag = some t.core.regFile.cwp
  mem : t.core.inMem.Windowed → t.memTag = some t.core.regFile.cwp
  writeBack : t.WritesOwnWindow

section

variable {t : Tagged (BitVec 5)} {syscall : Syscall} {events : DramEvents}

/-- The marks in Execute and Mem remain right in the next window: if it changes,
nothing there is going to write. -/
theorem InWindow.carried (inWindow : t.InWindow) (safe : t.core.WindowSafe) :
    (t.core.inExecute.regWrite = true → 8 ≤ t.core.inExecute.regD →
      t.exTag = some t.core.releaseWindow) ∧
    (t.core.inMem.Windowed → t.memTag = some t.core.releaseWindow) := by
  cases changes : t.core.changesWindow with
  | false =>
      rw [Core.releaseWindow_of_unchanged changes]
      exact ⟨inWindow.execute, inWindow.mem⟩
  | true =>
      have released := Core.releases_of_changesWindow changes
      have empty := (inWindow.spaced.back.empty_of_releases released).2.2
      constructor
      · intro writes
        rw [empty.regWrite] at writes
        cases writes
      · intro writes
        exact absurd writes (safe changes)

theorem InWindow.execute_step (inWindow : t.InWindow) (safe : t.core.WindowSafe)
    (writes : (t.core.step syscall events).inExecute.regWrite = true)
    (large : 8 ≤ (t.core.step syscall events).inExecute.regD) :
    (t.step Core.releaseWindow syscall events).exTag = some t.core.releaseWindow := by
  cases state : (t.core.step syscall events).execute.pState with
  | b =>
      rw [Core.inExecute_step_of_held state] at writes large
      rw [exTag_step_of_held state]
      exact (inWindow.carried safe).1 writes large
  | a =>
      rw [Core.inExecute_step_of_unstalled state] at writes
      rw [exTag_step_of_unstalled state]
      cases ready : t.core.exReady with
      | true =>
          have loaded : (t.core.step syscall events).idex = t.core.decodeOut := by
            simp [IDEX.step, ready]
          rw [loaded] at writes
          have released := Core.releases_of_regWrite ready writes
          simp [step_idex, ready, leavesDecode, released]
      | false =>
          have kept : (t.core.step syscall events).idex = t.core.idex := by
            simp [IDEX.step, ready]
          have quiet := Core.live_quiet (inWindow.spaced.back.stalled ready)
          rw [kept, (quiet _).regWrite] at writes
          cases writes

theorem InWindow.mem_step (inWindow : t.InWindow) (safe : t.core.WindowSafe)
    (windowed : (t.core.step syscall events).inMem.Windowed) :
    (t.step Core.releaseWindow syscall events).memTag = some t.core.releaseWindow := by
  cases state : (t.core.step syscall events).mem.pState with
  | b =>
      rw [Core.inMem_step_of_waiting state] at windowed
      rw [memTag_step_of_waiting state]
      exact (inWindow.carried safe).2 windowed
  | a =>
      rw [Core.inMem_step_of_passing state] at windowed
      rw [memTag_step_of_passing state]
      obtain ⟨writes, large⟩ := windowed
      cases ready : t.core.memReady with
      | true =>
          have loaded : (t.core.step syscall events).exmem = t.core.exOut := by
            simp [EXMem.step, ready]
          rw [loaded, Core.exOut_eq] at writes large
          cases annulled : t.core.execute.annulIn with
          | true => simp [annulled, Execute.Regs.squashed] at writes
          | false =>
              simp only [annulled, Bool.false_eq_true, if_false] at writes large
              have marked := (inWindow.carried safe).1 writes large
              simpa [step_exmem, ready] using marked
      | false =>
          have kept : (t.core.step syscall events).exmem = t.core.exmem := by
            simp [EXMem.step, ready]
          have waiting : t.core.mem.pState = .b := by
            cases held : t.core.mem.pState with
            | a => simp [Core.memReady, Mem.Regs.memReady, held] at ready
            | b => rfl
          rw [kept, (inWindow.spaced.back.waiting waiting).regWrite] at writes
          cases writes

theorem InWindow.writeBack_step (inWindow : t.InWindow) (safe : t.core.WindowSafe) :
    (t.step Core.releaseWindow syscall events).WritesOwnWindow := by
  rintro ⟨writes, large⟩
  obtain ⟨passes, regWrite, sameRd⟩ := Core.wbOut_step_regEn writes
  rw [step_core, sameRd] at large
  rw [step_core, Core.step_cwp, ← (inWindow.carried safe).2 ⟨regWrite, large⟩]
  simp [step_memwb, passes]

theorem InWindow.step (t : Tagged (BitVec 5)) (events : DramEvents) (inWindow : t.InWindow)
    (safe : t.core.WindowSafe) : (t.step Core.releaseWindow syscall events).InWindow where
  spaced := inWindow.spaced.step syscall events
  execute := inWindow.execute_step safe
  mem := inWindow.mem_step safe
  writeBack := inWindow.writeBack_step safe

end

theorem inWindow_start (syscall : Syscall) (entry : BitVec 32) (regFile : RegFile) (ram : Ram) :
    (start (Core.start syscall entry regFile ram) : Tagged (BitVec 5)).InWindow where
  spaced := Core.spaced_start syscall entry regFile ram
  execute := by
    -- the word 0 that reset leaves in IFIDReg names register 0
    intro _ large
    have global : (Core.start syscall entry regFile ram).inExecute.regD = 0 :=
      congrArg Fields.rd (Core.start_idex syscall entry regFile ram)
    simp [start, global] at large
  mem windowed := by cases windowed.1
  writeBack writes := by cases writes.1

/-- In a run in which no `SAVE` or `RESTORE` is released over a pending windowed
write in Mem, every windowed write goes to the window its instruction was
released in. -/
theorem writes_own_window (syscall : Syscall) (entry : BitVec 32) (regFile : RegFile) (ram : Ram)
    (inputs : List DramEvents)
    (safe : Runs.Guarded (step Core.releaseWindow syscall) (fun t _ => t.core.WindowSafe)
      (start (Core.start syscall entry regFile ram)) inputs) :
    Runs.Always (step Core.releaseWindow syscall) WritesOwnWindow
      (start (Core.start syscall entry regFile ram)) inputs :=
  (safe.always InWindow.step (inWindow_start syscall entry regFile ram)).mono
    fun _ inWindow => inWindow.writeBack

/-- `add %g0, 1, %l0` and `save %g0, %g0, %l1`: both local registers are written, each in
its own window. -/
theorem writes_own_window_save :
    Runs.Always (step Core.releaseWindow fun _ ram => (0, ram)) WritesOwnWindow
      (start (Core.boot [0xa0002001, 0xa3e00000]))
      (DramEvents.firstFetch ++ List.replicate 20 (.completing [])) :=
  writes_own_window _ 0 RegFile.reset (Ram.ofWords [0xa0002001, 0xa3e00000]) _ (by decide +kernel)

/-- `ld [%g0], %l0` misses and `save %g0, %g0, %g0` is released while Mem waits for the
line: the loaded word goes to `%l0` of the new window. -/
theorem load_writes_behind_save :
    ¬ ∀ (syscall : Syscall) (entry : BitVec 32) (regFile : RegFile) (ram : Ram)
      (inputs : List DramEvents),
      Runs.Always (step Core.releaseWindow syscall) WritesOwnWindow
        (start (Core.start syscall entry regFile ram)) inputs := by
  intro ownWindow
  let waiting := List.replicate 16 (DramEvents.completing [])
  let arriving := DramEvents.completing [0] :: List.replicate 11 (.completing [])
  have run := ownWindow (fun _ ram => (0, ram)) 0 RegFile.reset
    (Ram.ofWords [0xe0002000, 0x81e00000]) (DramEvents.firstFetch ++ waiting ++ arriving)
  exact absurd run.last (by decide +kernel)

end Tagged

end Sparcy
