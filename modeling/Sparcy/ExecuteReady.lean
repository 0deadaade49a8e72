import Sparcy.Library.Runs
import Sparcy.Execute

/-!
# The ready signal of Execute

Decode, `IDEXReg` and Execute as one machine, driven by arbitrary words,
hazards, operands and `mem_ready`.  While `annul_in` is set `ex_ready` keeps the
value of the cycle before, and a branch that leaves `STATEB` was not ready.
-/

namespace Sparcy

/-- `InstructionDecode`, `IDEXReg` and `Execute`. -/
structure Issue where
  decode : Decode.Regs
  idex : IDEX
  execute : Execute.Regs

namespace Issue

/-- What the rest of the processor drives into these three in one cycle. -/
structure Input where
  ifid : IFID
  memHazard : Decode.Hazard
  wbHazard : Decode.Hazard
  operands : Operands
  memReady : Bool
  syscall : BitVec 32

def reset : Issue :=
  { decode := Decode.Regs.reset, idex := IDEX.reset, execute := Execute.reset }

def exReady (s : Issue) : Bool := s.execute.exReady

def hazards (s : Issue) (i : Input) : Decode.Hazards :=
  { ex := s.execute.hazard s.idex, mem := i.memHazard, wb := i.wbHazard }

/-- What decode and the register file drive into `IDEXReg`. -/
def decodeOut (s : Issue) (i : Input) : IDEX :=
  { pcPlus4 := s.decode.outPc i.ifid (s.hazards i)
    fields := s.decode.outFields i.ifid (s.hazards i)
    operands := i.operands }

def step (s : Issue) (i : Input) : Issue :=
  { decode := s.decode.step i.ifid (s.hazards i) s.exReady
    idex := s.idex.step (s.decodeOut i) s.exReady
    execute := s.execute.step s.idex i.memReady i.syscall }

/-- Whenever Execute holds no stalled instruction, `IDEXReg` can load. -/
def Loads (s : Issue) : Prop := s.execute.pState = .a → s.exReady = true

/-- Execute is idle under a pending annulment and `IDEXReg` does not load. -/
def Wedged (s : Issue) : Prop :=
  s.execute.pState = .a ∧ s.execute.annulIn = true ∧ Execute.idle s.idex = true ∧
    s.exReady = false

instance : DecidablePred Loads := fun _ => inferInstanceAs (Decidable (_ → _))

instance : DecidablePred Wedged := fun _ => inferInstanceAs (Decidable (_ ∧ _))

/-- `STATEB` is left with a copied branch whose `a` bit is set. -/
def releasesHeldAnnulling (s : Issue) (i : Input) : Prop :=
  s.execute.pState = .b ∧ i.memReady = true ∧
    Execute.isBicc s.execute.pOp s.execute.pOp2 = true ∧ s.execute.pA = true

/-- `annul_in` is clear in `STATEB`, and set in `STATEA` only over a latch that
holds 1. -/
def LatchHigh (s : Issue) : Prop :=
  match s.execute.pState with
  | .a => s.execute.annulIn = true → s.execute.exReadyLatch = true
  | .b => s.execute.annulIn = false

theorem exReady_of_latchHigh {s : Issue} (high : s.LatchHigh) (unstalled : s.execute.pState = .a) :
    s.exReady = true := by
  simp only [LatchHigh, unstalled] at high
  exact Execute.Regs.exReady_of_unstalled unstalled high

/-- From `STATEA` every step keeps the latch high: the cycle was ready, and an
instruction that stalls asks for nothing yet. -/
theorem latchHigh_step_of_unstalled {s : Issue} (high : s.LatchHigh)
    (unstalled : s.execute.pState = .a) (i : Input) : (s.step i).LatchHigh := by
  have ready : s.execute.exReady = true := exReady_of_latchHigh high unstalled
  cases next : s.execute.nState s.idex i.memReady with
  | a => simp [LatchHigh, step, Execute.Regs.step, next, ready]
  | b =>
      simp only [Execute.Regs.nState, unstalled] at next
      split at next
      · cases next
      · rename_i leaves
        simp only [Bool.or_eq_true, not_or, Bool.not_eq_true] at leaves
        simp [LatchHigh, step, Execute.Regs.step, Execute.Regs.nState, Execute.Regs.annulOut,
          unstalled, leaves.1, leaves.2]

/-- From `STATEB` the latch drops, so the step must not raise `annul_in`. -/
theorem latchHigh_step_of_stalled {s : Issue} (stalled : s.execute.pState = .b) {i : Input}
    (harmless : ¬ s.releasesHeldAnnulling i) : (s.step i).LatchHigh := by
  cases ready : i.memReady with
  | false =>
      simp [LatchHigh, step, Execute.Regs.step, Execute.Regs.nState, Execute.Regs.annulOut,
        stalled, ready]
  | true =>
      have quiet : (Execute.isBicc s.execute.pOp s.execute.pOp2 && s.execute.pA) = false := by
        rw [← Bool.not_eq_true, Bool.and_eq_true]
        exact fun asks => harmless ⟨stalled, ready, asks⟩
      simp [LatchHigh, step, Execute.Regs.step, Execute.Regs.nState, Execute.Regs.annulOut,
        stalled, ready, quiet]

theorem latchHigh_step (s : Issue) (i : Input) (high : s.LatchHigh)
    (harmless : ¬ s.releasesHeldAnnulling i) : (s.step i).LatchHigh := by
  cases state : s.execute.pState with
  | a => exact latchHigh_step_of_unstalled high state i
  | b => exact latchHigh_step_of_stalled state harmless

/-- The excluded step does end in an idle Execute that is not ready. -/
theorem not_loads_of_releasesHeldAnnulling {s : Issue} {i : Input} (high : s.LatchHigh)
    (harmful : s.releasesHeldAnnulling i) : ¬ (s.step i).Loads := by
  obtain ⟨stalled, ready, branch, asks⟩ := harmful
  simp only [LatchHigh, stalled] at high
  simp [Loads, exReady, step, Execute.Regs.step, Execute.Regs.exReady, Execute.Regs.nState,
    Execute.Regs.annulOut, stalled, ready, branch, asks, high]

theorem not_wedged_of_loads {s : Issue} (loads : s.Loads) : ¬ s.Wedged := by
  rintro ⟨unstalled, -, -, latched⟩
  rw [loads unstalled] at latched
  cases latched

/-- A wedged Execute stays wedged, whatever happens around it. -/
theorem wedged_step {s : Issue} (wedged : s.Wedged) (i : Input) : (s.step i).Wedged := by
  obtain ⟨unstalled, annulled, bubble, latched⟩ := wedged
  have latchLow : s.execute.exReadyLatch = false := by
    simpa [exReady, Execute.Regs.exReady, annulled] using latched
  simp [Wedged, exReady, step, IDEX.step, Execute.Regs.step, Execute.Regs.nState,
    Execute.Regs.annulOut, Execute.Regs.exReady, unstalled, annulled, bubble, latchLow]

theorem wedged_run {s : Issue} (wedged : s.Wedged) (inputs : List Input) :
    (Runs.run step s inputs).Wedged := by
  induction inputs generalizing s with
  | nil => exact wedged
  | cons input inputs induction => exact induction (wedged_step wedged input)

/-- Execute never wedges in a run exactly when no step of it leaves `STATEB` with a
branch whose `a` bit is set. -/
theorem always_loads_iff (inputs : List Input) :
    Runs.Always step (fun s => s.Loads ∧ ¬ s.Wedged) reset inputs ↔
      Runs.Guarded step (fun s i => ¬ s.releasesHeldAnnulling i) reset inputs := by
  have initial : reset.LatchHigh := by
    intro _
    rfl
  constructor
  · intro always
    refine Runs.Always.guarded latchHigh_step ?_ initial always
    intro s i high harmful fine
    exact not_loads_of_releasesHeldAnnulling high (not_not.mp harmful) fine.1
  · intro guarded
    refine (guarded.always latchHigh_step initial).mono ?_
    intro s high
    have loads : s.Loads := exReady_of_latchHigh high
    exact ⟨loads, not_wedged_of_loads loads⟩

/-- `bne,a` enters Execute while Mem is busy and leaves with Mem ready; the no-op
behind it then never leaves `IDEXReg`. -/
theorem wedges_behind_stalled_branch :
    ¬ ∀ inputs, Runs.Always step (fun s => s.Loads ∧ ¬ s.Wedged) reset inputs := by
  intro always
  let quiet : Decode.Hazard :=
    { rd := 0, regWrite := false, regWriteDouble := false, iccWrite := false, yWrite := false }
  let cycle (inst : Inst) (memReady : Bool) : Input :=
    { ifid := { pcPlus4 := 8, inst := inst }, memHazard := quiet, wbHazard := quiet
      operands := Operands.reset, memReady := memReady, syscall := 0 }
  have run := always [cycle 0x32800004 true, cycle Inst.nop false, cycle Inst.nop true]
  exact absurd run (by decide)

end Issue

end Sparcy
