import Sparcy.Library.Runs
import Sparcy.ExecuteStall

/-!
# Annulment along an instruction stream

`IDEXReg` and Execute fed by a stream of instructions with bubbles in between.
An instruction is annulled when it leaves Execute under `annul_in`.  The law is
that this happens to the successor of every branch that asks for it and to
nothing else; it is proved of the streams and stalls that avoid three cases.
-/

namespace Sparcy

/-- The contents of `IDEXReg`: an instruction of the stream, or a bubble, which
looks like one. -/
structure Slot where
  contents : IDEX
  real : Bool
  bubble : real = false → Execute.idle contents = true

/-- `IDEXReg` and Execute.  `held` remembers which instruction the copy of `STATEB`
is of. -/
structure AnnulStage where
  idex : Slot
  held : Slot
  execute : Execute.Regs

namespace AnnulStage

open Execute

/-- One cycle of the surroundings: what decode offers, and what Mem answers. -/
structure Input where
  next : Slot
  memReady : Bool
  syscall : BitVec 32

/-- Execute as after a reset, with the first slot of the stream in `IDEXReg`. -/
def start (first : Slot) : AnnulStage :=
  { idex := first, held := first, execute := Execute.reset }

def step (s : AnnulStage) (i : Input) : AnnulStage :=
  { idex := if s.execute.exReady then i.next else s.idex
    held := match s.execute.pState with
      | .a => s.idex
      | .b => s.held
    execute := s.execute.step s.idex.contents i.memReady i.syscall }

/-- The instruction of a slot. -/
def instruction (slot : Slot) : Option IDEX := if slot.real then some slot.contents else none

/-- The slot that leaves Execute in this cycle. -/
def leavingSlot (s : AnnulStage) (i : Input) : Option Slot :=
  match s.execute.pState with
  | .a => if idle s.idex.contents || i.memReady then some s.idex else none
  | .b => if i.memReady then some s.held else none

/-- The instruction that leaves Execute, and whether it leaves squashed. -/
def leaves (s : AnnulStage) (i : Input) : Option (IDEX × Bool) :=
  ((s.leavingSlot i).bind instruction).map fun x => (x, s.execute.annulIn)

/-- The instruction that enters `IDEXReg`. -/
def enters (s : AnnulStage) (i : Input) : Option IDEX :=
  if s.execute.exReady then instruction i.next else none

/-- The instructions in Execute, the older one first. -/
def inFlight (s : AnnulStage) : List IDEX :=
  match s.execute.pState with
  | .a => (instruction s.idex).toList
  | .b => (instruction s.held).toList ++ (instruction s.idex).toList

/-- Annulment as the architecture has it: the successor of a branch that asks for
it is annulled, and no other instruction is. -/
def annulLaw : Runs.Monitor Bool (IDEX × Bool) where
  allows owed leaving := leaving.2 = owed
  next _ leaving := requestsAnnul leaving.1

instance (owed : Bool) (leaving : IDEX × Bool) : Decidable (annulLaw.allows owed leaving) :=
  inferInstanceAs (Decidable (leaving.2 = owed))

/-- The cycle avoids the three cases that break the law: a delay slot with the
bubble pattern under a pending annulment, an annulled instruction that meets a
busy Mem, and a branch with `a = 1` that does. -/
def Clean (s : AnnulStage) (i : Input) : Prop :=
  s.execute.pState = .a →
    (s.idex.real = true ∧ idle s.idex.contents = true → s.execute.annulIn = false) ∧
    (idle s.idex.contents = false ∧ i.memReady = false → s.execute.annulIn = false ∧
      (isBicc s.idex.contents.fields.op s.idex.contents.fields.op2 &&
        s.idex.contents.fields.a) = false)

instance (s : AnnulStage) (i : Input) : Decidable (s.Clean i) :=
  inferInstanceAs (Decidable (_ → _))

/-- What the copy of `STATEB` is: a copy of `held`, which asks for no annulment and
is not annulled; in `STATEA` the next instruction can enter. -/
structure Tracks (s : AnnulStage) : Prop where
  ready : s.execute.pState = .a → s.execute.exReady = true
  kept : s.execute.pState = .b → s.execute.annulIn = false
  op : s.execute.pState = .b → s.execute.pOp = s.held.contents.fields.op
  op2 : s.execute.pState = .b → s.execute.pOp2 = s.held.contents.fields.op2
  a : s.execute.pState = .b → s.execute.pA = s.held.contents.fields.a
  harmless : s.execute.pState = .b →
    (isBicc s.held.contents.fields.op s.held.contents.fields.op2 &&
      s.held.contents.fields.a) = false

theorem requestsAnnul_of_a_and_isBicc {x : IDEX}
    (harmless : (isBicc x.fields.op x.fields.op2 && x.fields.a) = false) :
    requestsAnnul x = false := by
  simp [requestsAnnul, harmless]

theorem requestsAnnul_of_idle {x : IDEX} (bubble : idle x = true) :
    requestsAnnul x = false := by
  simp [requestsAnnul, isBicc_of_idle bubble]

theorem Tracks.busy {s : AnnulStage} (tracks : s.Tracks) (holding : s.execute.pState = .b) :
    s.execute.exReady = false :=
  Regs.exReady_of_held holding (tracks.kept holding)

theorem Tracks.annulOut_held {s : AnnulStage} (tracks : s.Tracks)
    (holding : s.execute.pState = .b) (i : Input) :
    s.execute.annulOut s.idex.contents i.memReady i.syscall = false := by
  have asks : (isBicc s.execute.pOp s.execute.pOp2 && s.execute.pA) = false := by
    rw [tracks.op holding, tracks.op2 holding, tracks.a holding]
    exact tracks.harmless holding
  simp [Regs.annulOut, holding, asks]

theorem tracks_start (first : Slot) : (start first).Tracks where
  ready _ := rfl
  kept holding := by cases holding
  op holding := by cases holding
  op2 holding := by cases holding
  a holding := by cases holding
  harmless holding := by cases holding

theorem tracks_step (s : AnnulStage) (i : Input) (tracks : s.Tracks) (clean : s.Clean i) :
    (s.step i).Tracks := by
  cases state : s.execute.pState with
  | a =>
      have ready := tracks.ready state
      cases next : s.execute.nState s.idex.contents i.memReady with
      | a =>
          have stays : (s.step i).execute.pState = .a := next
          constructor
          case ready =>
            intro _
            exact Regs.exReady_of_unstalled stays fun _ => ready
          all_goals
            intro holding
            rw [stays] at holding
            cases holding
      | b =>
          -- the instruction is copied, so it is neither annulled nor an annulling branch
          have moves : (s.step i).execute.pState = .b := next
          simp only [Regs.nState, state] at next
          have busy : idle s.idex.contents = false ∧ i.memReady = false := by
            cases bubble : idle s.idex.contents <;> cases memReady : i.memReady <;>
              simp [bubble, memReady] at next ⊢
          have harmless := ((clean state).2 busy).2
          constructor
          case ready =>
            intro unstalled
            rw [moves] at unstalled
            cases unstalled
          case kept =>
            intro _
            simp [step, Regs.step, Regs.annulOut, state, busy]
          case harmless =>
            intro _
            simpa [step, state] using harmless
          all_goals
            intro _
            simp [step, Regs.step, Regs.copy, state]
  | b =>
      have asks := tracks.annulOut_held state i
      have sameHeld : (s.step i).held = s.held := by simp [step, state]
      have sameCopy := Regs.copy_of_held s.idex.contents i.syscall state
      have notAnnulled : (s.step i).execute.annulIn = false := asks
      constructor
      case ready =>
        intro unstalled
        refine Regs.exReady_of_unstalled unstalled ?_
        simp [notAnnulled]
      case kept => exact fun _ => notAnnulled
      case harmless =>
        intro _
        rw [sameHeld]
        exact tracks.harmless state
      case op =>
        intro _
        rw [sameHeld, ← tracks.op state]
        simp [step, Regs.step, sameCopy]
      case op2 =>
        intro _
        rw [sameHeld, ← tracks.op2 state]
        simp [step, Regs.step, sameCopy]
      case a =>
        intro _
        rw [sameHeld, ← tracks.a state]
        simp [step, Regs.step, sameCopy]

/-- The instructions in Execute are a queue: none is lost, doubled or overtaken. -/
theorem moves_step (s : AnnulStage) (i : Input) (tracks : s.Tracks) :
    ((s.leaves i).map Prod.fst).toList ++ (s.step i).inFlight =
      s.inFlight ++ (s.enters i).toList := by
  have seen : (s.leaves i).map Prod.fst = (s.leavingSlot i).bind instruction := by
    rw [leaves, Option.map_map]
    exact Option.map_id'
  rw [seen]
  cases state : s.execute.pState with
  | a =>
      have ready := tracks.ready state
      have moved : (s.step i).idex = i.next := by simp [step, ready]
      have copied : (s.step i).held = s.idex := by simp [step, state]
      cases out : (idle s.idex.contents || i.memReady) with
      | true =>
          have stays : (s.step i).execute.pState = .a := by
            simp [step, Regs.step, Regs.nState, state, out]
          simp [leavingSlot, inFlight, enters, state, out, stays, moved, ready]
      | false =>
          have waits : (s.step i).execute.pState = .b := by
            simp [step, Regs.step, Regs.nState, state, out]
          simp [leavingSlot, inFlight, enters, state, out, waits, moved, copied, ready]
  | b =>
      have busy := tracks.busy state
      have unmoved : (s.step i).idex = s.idex := by simp [step, busy]
      have kept : (s.step i).held = s.held := by simp [step, state]
      cases memReady : i.memReady with
      | true =>
          have resumes : (s.step i).execute.pState = .a := by
            simp [step, Regs.step, Regs.nState, state, memReady]
          simp [leavingSlot, inFlight, enters, state, memReady, resumes, unmoved, busy]
      | false =>
          have waits : (s.step i).execute.pState = .b := by
            simp [step, Regs.step, Regs.nState, state, memReady]
          simp [leavingSlot, inFlight, enters, state, memReady, waits, unmoved, kept, busy]

/-- A cycle in which no instruction leaves keeps the pending request. -/
theorem annulOut_of_silent {s : AnnulStage} {i : Input} (tracks : s.Tracks) (clean : s.Clean i)
    (silent : s.leaves i = none) : (s.step i).execute.annulIn = s.execute.annulIn := by
  have request : (s.step i).execute.annulIn =
      s.execute.annulOut s.idex.contents i.memReady i.syscall := rfl
  rw [request]
  cases state : s.execute.pState with
  | a =>
      cases bubble : idle s.idex.contents with
      | true => simp [Regs.annulOut, state, bubble]
      | false =>
          have real : s.idex.real = true := by
            by_contra notReal
            rw [s.idex.bubble (by simpa using notReal)] at bubble
            cases bubble
          cases memReady : i.memReady with
          | true =>
              simp [leaves, leavingSlot, state, memReady, instruction, real] at silent
          | false =>
              have kept := ((clean state).2 ⟨bubble, memReady⟩).1
              simp [Regs.annulOut, state, bubble, kept]
  | b =>
      rw [tracks.kept state]
      exact tracks.annulOut_held state i

/-- A cycle in which an instruction leaves replaces the pending request by that of
the instruction. -/
theorem annulOut_of_visible {s : AnnulStage} {i : Input} (tracks : s.Tracks) (clean : s.Clean i)
    {x : IDEX} {annulled : Bool} (visible : s.leaves i = some (x, annulled)) :
    annulled = s.execute.annulIn ∧ (s.step i).execute.annulIn = requestsAnnul x := by
  have request : (s.step i).execute.annulIn =
      s.execute.annulOut s.idex.contents i.memReady i.syscall := rfl
  rw [request]
  simp only [leaves, Option.map_eq_some_iff, Prod.mk.injEq] at visible
  obtain ⟨leaving, left, sameX, sameBit⟩ := visible
  subst sameX
  refine ⟨sameBit.symm, ?_⟩
  obtain ⟨slot, slotLeaves, slotReal⟩ := Option.bind_eq_some_iff.mp left
  have real : slot.real = true ∧ slot.contents = leaving := by
    simpa [instruction] using slotReal
  cases state : s.execute.pState with
  | a =>
      simp only [leavingSlot, state, Option.ite_none_right_eq_some, Option.some.injEq] at slotLeaves
      obtain ⟨passes, sameSlot⟩ := slotLeaves
      subst sameSlot
      rw [← real.2]
      cases bubble : idle s.idex.contents with
      | true =>
          have kept := (clean state).1 ⟨real.1, bubble⟩
          simp [Regs.annulOut, state, bubble, kept, requestsAnnul_of_idle bubble]
      | false =>
          have memReady : i.memReady = true := by simpa [bubble] using passes
          simp [Regs.annulOut, state, bubble, memReady, isBicc_and_aluOut_a]
  | b =>
      simp only [leavingSlot, state, Option.ite_none_right_eq_some, Option.some.injEq] at slotLeaves
      rw [← real.2, ← slotLeaves.2, requestsAnnul_of_a_and_isBicc (tracks.harmless state)]
      exact tracks.annulOut_held state i

/-- Along every clean run the instructions leave Execute in the order they came, and
exactly the successors of annulling branches leave it annulled. -/
theorem annuls_exactly_delay_slots (first : Slot) (inputs : List Input)
    (clean : Runs.Guarded step Clean (start first) inputs) :
    annulLaw.Accepts false (Runs.emits step leaves (start first) inputs) ∧
    (Runs.emits step leaves (start first) inputs).map Prod.fst ++
        (Runs.run step (start first) inputs).inFlight =
      (instruction first).toList ++ Runs.emits step enters (start first) inputs := by
  constructor
  · have initial : (start first).Tracks ∧ false = (start first).execute.annulIn :=
      ⟨tracks_start first, rfl⟩
    refine Runs.Monitor.accepts_emits
      (fun s owed => s.Tracks ∧ owed = s.execute.annulIn) ?_ ?_ initial clean
    · intro s i owed tracked clean silent
      refine ⟨tracks_step s i tracked.1 clean, ?_⟩
      rw [tracked.2, annulOut_of_silent tracked.1 clean silent]
    · intro s i owed leaving tracked clean visible
      obtain ⟨x, annulled⟩ := leaving
      obtain ⟨law, request⟩ := annulOut_of_visible tracked.1 clean visible
      exact ⟨law.trans tracked.2.symm, tracks_step s i tracked.1 clean, request.symm⟩
  · rw [Runs.map_emits]
    exact Runs.Guarded.conserves tracks_step (fun s i tracks _ => moves_step s i tracks)
      (tracks_start first) clean

/-- The slot of an instruction word. -/
def slotOf (inst : Inst) : Slot where
  contents := { pcPlus4 := 8, fields := Decode.decodeFields inst, operands := .reset }
  real := true
  bubble := by simp

/-- `ba,a`, an addition and another one, with Mem ready: the first addition is
annulled and the second is not. -/
theorem annuls_addition_behind_branch :
    let inputs := [slotOf 0x82006001, slotOf 0x84006001, slotOf 0x86006001].map
      fun slot => { next := slot, memReady := true, syscall := 0 : Input }
    annulLaw.Accepts false (Runs.emits step leaves (start (slotOf 0x30800004)) inputs) :=
  (annuls_exactly_delay_slots (slotOf 0x30800004) _ (by decide)).1

/-- `ba,a` with the no-op in its delay slot annuls also the instruction behind the
no-op. -/
theorem annuls_beyond_nop :
    ¬ ∀ (first : Slot) (inputs : List Input),
      annulLaw.Accepts false (Runs.emits step leaves (start first) inputs) := by
  intro law
  let inputs := [slotOf Inst.nop, slotOf 0x82006001, slotOf 0x84006001].map
    fun slot => { next := slot, memReady := true, syscall := 0 : Input }
  exact absurd (law (slotOf 0x30800004) inputs) (by decide)

end AnnulStage

end Sparcy
