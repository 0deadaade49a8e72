import Sparcy.Execute

/-!
# Execute under a stall

An instruction leaves Execute in the first cycle whose next state is `STATEA`.
If Mem is ready at once, that is the cycle it is in `IDEXReg`; otherwise it
leaves later from the copy of `STATEB`.  This file compares the two.
-/

namespace Sparcy

namespace Execute

/-- A branch that asks for its delay slot to be annulled: `a = 1` and either `BA`
or a condition that is false. -/
def requestsAnnul (x : IDEX) : Bool :=
  isBicc x.fields.op x.fields.op2 && x.fields.a &&
    (x.fields.cond == Cond.BA || !AluIn.condition x.fields.cond x.operands.icc)

/-- A taken conditional branch with `a = 1`. -/
def takenAnnulling (x : IDEX) : Bool :=
  isBicc x.fields.op x.fields.op2 && x.fields.a &&
    (x.fields.cond != Cond.BA && AluIn.condition x.fields.cond x.operands.icc)

theorem isBicc_eq_true (op : BitVec 2) (op2 : BitVec 3) :
    isBicc op op2 = true ↔ op = 0b00 ∧ op2 = Op2.Bicc := by
  simp [isBicc]

theorem isBicc_of_idle {x : IDEX} (bubble : idle x = true) :
    isBicc x.fields.op x.fields.op2 = false := by
  simp only [idle, isBubble, Bool.and_eq_true, beq_iff_eq] at bubble
  simp [isBicc, bubble.1.2]

/-- On a branch the ALU keeps the annul bit exactly when it asks for annulment. -/
theorem aluOut_a_of_isBicc {x : IDEX} (syscall : BitVec 32)
    (branch : isBicc x.fields.op x.fields.op2 = true) :
    (aluOut x syscall).a =
      (x.fields.a &&
        (x.fields.cond == Cond.BA || !AluIn.condition x.fields.cond x.operands.icc)) := by
  obtain ⟨opZero, opBranch⟩ := (isBicc_eq_true _ _).mp branch
  have branchOut : aluOut x syscall = (aluIn x).bicc := by
    simp [aluOut, AluIn.alu, AluIn.format2, aluIn, opZero, opBranch]
  rw [branchOut, AluIn.bicc]
  by_cases always : x.fields.cond = Cond.BA
  · rw [if_pos (show (aluIn x).cond = Cond.BA from always)]
    simp [always, aluIn, AluIn.default]
  · rw [if_neg (show (aluIn x).cond ≠ Cond.BA from always), beq_eq_false_iff_ne.mpr always]
    cases taken : AluIn.condition x.fields.cond x.operands.icc <;>
      simp [aluIn, taken, AluIn.default]

theorem isBicc_and_aluOut_a (x : IDEX) (syscall : BitVec 32) :
    (isBicc x.fields.op x.fields.op2 && (aluOut x syscall).a) = requestsAnnul x := by
  cases branch : isBicc x.fields.op x.fields.op2 with
  | false => simp [requestsAnnul, branch]
  | true => simp [requestsAnnul, branch, aluOut_a_of_isBicc syscall branch]

/-- The copy asks with the `a` bit alone, which is wrong on a taken branch. -/
theorem isBicc_and_a (x : IDEX) :
    (isBicc x.fields.op x.fields.op2 && x.fields.a) = (requestsAnnul x || takenAnnulling x) := by
  simp only [requestsAnnul, takenAnnulling, bne]
  cases isBicc x.fields.op x.fields.op2 <;> cases x.fields.a <;>
    cases AluIn.condition x.fields.cond x.operands.icc <;>
    cases x.fields.cond == Cond.BA <;> rfl

theorem not_requestsAnnul_of_takenAnnulling {x : IDEX} (taken : takenAnnulling x = true) :
    requestsAnnul x = false := by
  simp only [takenAnnulling, bne, Bool.and_eq_true, Bool.not_eq_true'] at taken
  simp only [requestsAnnul, taken.2.1, taken.2.2, Bool.not_true, Bool.or_false, Bool.and_false]

/-- What leaves Execute with an instruction: the tuple for `EXMemReg` and the
annul request. -/
structure Released where
  tuple : EXMem
  annul : Bool
deriving DecidableEq

/-- What leaves Execute for `x` when `mem_ready` is 0 in as many cycles as
`later` has entries, and 1 after them.  An entry is what `IDEXReg` and the trap
result hold in the following cycle. -/
def releaseOf (r : Regs) (x : IDEX) (syscall : BitVec 32) :
    List (IDEX × BitVec 32) → Released
  | [] => { tuple := r.out x syscall, annul := r.annulOut x true syscall }
  | (next, result) :: later =>
      if r.nState x false = .a then
        { tuple := r.out x syscall, annul := r.annulOut x false syscall }
      else releaseOf (r.step x false syscall) next result later

/-- From `STATEB` the copy leaves, however long Mem stays busy. -/
theorem releaseOf_of_held {r : Regs} (holding : r.pState = .b) (kept : r.annulIn = false)
    (x : IDEX) (syscall : BitVec 32) (later : List (IDEX × BitVec 32)) :
    releaseOf r x syscall later =
      { tuple := r.held, annul := isBicc r.pOp r.pOp2 && r.pA } := by
  induction later generalizing r x syscall with
  | nil => simp [releaseOf, Regs.out, Regs.annulOut, holding, kept]
  | cons entry later induction =>
      obtain ⟨next, result⟩ := entry
      have stays : r.nState x false = .b := by simp [Regs.nState, holding]
      have sameCopy : r.copy x syscall = r := by simp [Regs.copy, holding]
      have holdingNext : (r.step x false syscall).pState = .b := stays
      have keptNext : (r.step x false syscall).annulIn = false := by
        simp [Regs.step, Regs.annulOut, holding]
      have rest := induction holdingNext keptNext next result
      simp only [releaseOf, stays, reduceCtorEq, if_false, rest]
      simp [Regs.step, sameCopy, Regs.held]

/-- A stalled instruction leaves with its live tuple and the request of its
`a` bit. -/
theorem releaseOf_of_stalled {r : Regs} (starts : r.pState = .a) {x : IDEX}
    (busy : idle x = false) (syscall : BitVec 32) (entry : IDEX × BitVec 32)
    (later : List (IDEX × BitVec 32)) :
    releaseOf r x syscall (entry :: later) =
      { tuple := live x syscall, annul := isBicc x.fields.op x.fields.op2 && x.fields.a } := by
  obtain ⟨next, result⟩ := entry
  have moves : r.nState x false = .b := by simp [Regs.nState, starts, busy]
  have holding : (r.step x false syscall).pState = .b := moves
  have kept : (r.step x false syscall).annulIn = false := by
    simp [Regs.step, Regs.annulOut, starts, busy]
  have copied : r.copy x syscall =
      { r with
        pRes := (aluOut x syscall).res, pTarget := (aluOut x syscall).target
        pMuxSel := (aluOut x syscall).muxSel, pRd := x.fields.rd, pOp := x.fields.op
        pOp2 := x.fields.op2, pOp3 := x.fields.op3, pValD := x.operands.valD
        pRegWrite := x.fields.regWrite, pRegWriteDouble := x.fields.regWriteDouble
        pIcc := (aluOut x syscall).icc, pIccWrite := x.fields.iccWrite
        pY := (aluOut x syscall).y, pYWrite := x.fields.yWrite, pA := x.fields.a } := by
    simp [Regs.copy, starts]
  simp only [releaseOf, moves, reduceCtorEq, if_false]
  rw [releaseOf_of_held holding kept]
  simp [Regs.step, copied, Regs.held, live]

/-- A bubble leaves in its first cycle whatever Mem does. -/
theorem releaseOf_of_idle {r : Regs} (starts : r.pState = .a) {x : IDEX}
    (bubble : idle x = true) (syscall : BitVec 32) (later : List (IDEX × BitVec 32)) :
    releaseOf r x syscall later = { tuple := r.out x syscall, annul := r.annulIn } := by
  cases later with
  | nil => simp [releaseOf, Regs.annulOut, starts, bubble]
  | cons entry later => simp [releaseOf, Regs.nState, Regs.annulOut, starts, bubble]

/-- An unstalled instruction leaves with its request. -/
theorem releaseOf_of_unstalled {r : Regs} (starts : r.pState = .a) {x : IDEX}
    (busy : idle x = false) (syscall : BitVec 32) :
    releaseOf r x syscall [] = { tuple := r.out x syscall, annul := requestsAnnul x } := by
  simp [releaseOf, Regs.annulOut, starts, busy, isBicc_and_aluOut_a]

/-- The squashed tuple is a bubble, so it differs from that of any other
instruction. -/
theorem squashed_ne_live (r : Regs) {x : IDEX} (busy : idle x = false) (syscall : BitVec 32) :
    r.squashed ≠ live x syscall := by
  intro equal
  have opEq : 0b00 = x.fields.op := congrArg EXMem.op equal
  have op2Eq : 0b100 = x.fields.op2 := congrArg EXMem.op2 equal
  have rdEq : 0 = x.fields.rd := congrArg EXMem.regD equal
  simp [idle, isBubble, ← opEq, ← op2Eq, ← rdEq] at busy

/-- The cycles Mem makes an instruction wait leave no trace in what leaves Execute
exactly when there are none, or the instruction is a bubble, or it is neither
annulled nor a taken conditional branch with `a = 1`. -/
theorem releaseOf_eq_unstalled_iff (r : Regs) (starts : r.pState = .a) (x : IDEX)
    (syscall : BitVec 32) (later : List (IDEX × BitVec 32)) :
    releaseOf r x syscall later = releaseOf r x syscall [] ↔
      later = [] ∨ idle x = true ∨ (r.annulIn = false ∧ takenAnnulling x = false) := by
  cases bubble : idle x with
  | true =>
      rw [releaseOf_of_idle starts bubble, releaseOf_of_idle starts bubble]
      simp
  | false =>
      cases later with
      | nil => simp
      | cons entry later =>
          rw [releaseOf_of_stalled starts bubble, releaseOf_of_unstalled starts bubble,
            isBicc_and_a]
          simp only [Released.mk.injEq, reduceCtorEq, Bool.false_eq_true, false_or]
          constructor
          · rintro ⟨tupleEq, annulEq⟩
            constructor
            · cases annulled : r.annulIn with
              | false => rfl
              | true =>
                  simp only [Regs.out, annulled, if_true] at tupleEq
                  exact absurd tupleEq.symm (squashed_ne_live r bubble syscall)
            · cases taken : takenAnnulling x with
              | false => rfl
              | true =>
                  rw [not_requestsAnnul_of_takenAnnulling taken, taken] at annulEq
                  exact absurd annulEq (by decide)
          · rintro ⟨kept, untaken⟩
            simp [Regs.out, kept, starts, untaken]

/-- `addcc %g0, 1, %g1` loses nothing in a stall of two cycles. -/
theorem releaseOf_addcc_stalled :
    let x : IDEX := { pcPlus4 := 8, fields := Decode.decodeFields 0x82802001, operands := .reset }
    releaseOf reset x 0 [(.reset, 0), (.reset, 0)] = releaseOf reset x 0 [] :=
  (releaseOf_eq_unstalled_iff reset rfl _ _ _).mpr (.inr (.inr ⟨rfl, by decide⟩))

/-- `bne,a` with the zero flag clear: one cycle of stall turns a taken branch into
one that annuls its delay slot. -/
theorem releaseOf_depends_on_stall :
    ¬ ∀ (r : Regs) (x : IDEX) (syscall : BitVec 32) (later : List (IDEX × BitVec 32)),
      r.pState = .a → releaseOf r x syscall later = releaseOf r x syscall [] := by
  intro independent
  let branch : IDEX :=
    { pcPlus4 := 8, fields := Decode.decodeFields 0x32800004, operands := .reset }
  have same := independent reset branch 0 [(.reset, 0)] rfl
  exact absurd same (by decide)

end Execute

end Sparcy
