import Sparcy.Sequential

/-!
# The operands of a trap

A trap reads `%g1`, `%o0` to `%o5` and the codes without naming them.  `trap_dep` looks for
them among the destinations of the older instructions, but not for the register behind that
of a doubleword load, and `%g0` is the one destination outside the list with such a register
in it.
-/

namespace Sparcy

/-- What a trap reads: the codes, the number of the call and its arguments. -/
def Operands.trap (o : Operands) : BitVec 4 × List (BitVec 32) :=
  (o.icc, [o.g1, o.o0, o.o1, o.o2, o.o3, o.o4, o.o5])

namespace Decode

theorem trap_operands_congr {rf rf' : RegFile} {inst : Inst} (icc : rf'.icc = rf.icc)
    (regs : ∀ r, trapRegister r = true → rf'.read r = rf.read r) :
    (operands rf' inst).trap = (operands rf inst).trap := by
  have arguments : ∀ r ∈ [1, 8, 9, 10, 11, 12, 13], rf'.read r = rf.read r :=
    fun r member => regs r (by simpa [trapRegister] using member)
  exact Prod.ext icc (List.map_congr_left arguments)

/-- An instruction with these writes is going to write register `r`.  The element behind
`%g7` does not exist. -/
def Hazard.Writes (h : Hazard) (r : BitVec 5) : Prop :=
  h.regWrite = true ∧
    (h.rd = r ∨ h.regWriteDouble = true ∧ h.rd ≠ 7 ∧ r.toNat = h.rd.toNat + 1)

instance (h : Hazard) (r : BitVec 5) : Decidable (h.Writes r) :=
  inferInstanceAs (Decidable (_ ∧ _))

/-- It is going to write the codes or a register that a trap reads. -/
def Hazard.WritesTrapOperand (h : Hazard) : Prop :=
  h.iccWrite = true ∨ ∃ r, trapRegister r = true ∧ h.Writes r

instance (h : Hazard) : Decidable h.WritesTrapOperand := inferInstanceAs (Decidable (_ ∨ _))

/-- A doubleword load into `%g0`, which writes `%g1`. -/
def Hazard.IsDoubleToZero (h : Hazard) : Prop :=
  h.regWrite = true ∧ h.regWriteDouble = true ∧ h.rd = 0

instance (h : Hazard) : Decidable h.IsDoubleToZero := inferInstanceAs (Decidable (_ ∧ _))

/-- `op == 2'b10 && op3 == 6'b111010`. -/
def IsTicc (inst : Inst) : Prop := inst.op = 0b10 ∧ inst.op3 = Op3.Ticc

instance (inst : Inst) : Decidable (IsTicc inst) := inferInstanceAs (Decidable (_ ∧ _))

/-- The second register of a double is a trap register and the first is not. -/
theorem zero_of_next_trapRegister {rd r : BitVec 5} (trap : trapRegister r = true)
    (other : ¬ trapRegister rd = true) (inside : rd ≠ 7) (next : r.toNat = rd.toNat + 1) :
    rd = 0 := by
  revert rd r
  decide

/-- Among the instructions that a trap does not wait for only that load still writes what
it reads. -/
theorem writesTrapOperand_iff {inst : Inst} (trap : IsTicc inst) {h : Hazard}
    (clear : conflicts inst h = false) : h.WritesTrapOperand ↔ h.IsDoubleToZero := by
  simp only [conflicts, Bool.or_eq_false_iff] at clear
  obtain ⟨⟨⟨⟨-, cc⟩, -⟩, -⟩, dep⟩ := clear
  have codes : h.iccWrite = false := by
    simpa [ccDep, trap.1, trap.2] using cc
  have listed : h.regWrite = true → ¬ trapRegister h.rd = true := by
    intro writes member
    simp [trapDep, trap.1, trap.2, writes, member] at dep
  constructor
  · rintro (icc | ⟨r, member, writes, same | ⟨double, inside, next⟩⟩)
    · rw [codes] at icc
      cases icc
    · rw [← same] at member
      exact absurd member (listed writes)
    · exact ⟨writes, double, zero_of_next_trapRegister member (listed writes) inside next⟩
  · rintro ⟨writes, double, zero⟩
    refine .inr ⟨1, by decide, writes, .inr ⟨double, ?_, ?_⟩⟩
    · rw [zero]
      decide
    · rw [zero]
      rfl

theorem Hazard.Silent.not_writesTrapOperand {h : Hazard} (silent : h.Silent) :
    ¬ h.WritesTrapOperand := by
  rintro (icc | ⟨r, -, writes, -⟩)
  · rw [silent.iccWrite] at icc
    cases icc
  · rw [silent.regWrite] at writes
    cases writes

end Decode

/-- The writes that write-back drives into the register file. -/
def WBOut.writes (wb : WBOut) : Decode.Hazard :=
  { rd := wb.regD, regWrite := wb.regEn, regWriteDouble := wb.regDoubleEn
    iccWrite := wb.iccEn, yWrite := wb.yEn }

namespace RegFile

/-- A rising edge keeps the registers that it does not write. -/
theorem read_writeBack_of_not_writes (rf : RegFile) (wb : WBOut) {r : BitVec 5}
    (kept : ¬ wb.writes.Writes r) : (rf.writeBack wb).read r = rf.read r := by
  have first : wb.regEn = true → r ≠ wb.regD := fun writes same =>
    kept ⟨writes, .inl same.symm⟩
  change (rf.writeRegs wb).read r = _
  rw [writeRegs]
  split
  · rename_i writes
    have single := read_writeFirst rf (wb.data.setWidth 32) fun _ => first writes
    dsimp only
    split
    · rename_i double
      by_cases outside : wb.regD = 7
      · rw [writeNext, outside, if_pos (by decide), if_pos rfl, ← outside]
        exact single
      · have apart : r.toNat ≠ wb.regD.toNat + 1 := fun next =>
          kept ⟨writes, .inr ⟨double, outside, next⟩⟩
        rw [read_writeNext _ _ apart]
        exact single
    · exact single
  · rfl

/-- So what a trap reads is not touched by one that writes no operand of it. -/
theorem trapOperands_writeBack (rf : RegFile) {wb : WBOut}
    (kept : ¬ wb.writes.WritesTrapOperand) :
    (rf.writeBack wb).icc = rf.icc ∧
      ∀ r, Decode.trapRegister r = true → (rf.writeBack wb).read r = rf.read r := by
  refine ⟨if_neg fun icc => kept (.inl icc), fun r member => ?_⟩
  exact rf.read_writeBack_of_not_writes wb fun writes => kept (.inr ⟨r, member, writes⟩)

end RegFile

namespace Core

open Decode (Hazard IsTicc)

/-- If a trap is released in this cycle, nothing in flight is going to write what it reads. -/
def TrapReady (s : Core) : Prop :=
  s.releases = true → IsTicc s.decoding →
    ¬ s.pendingEx.WritesTrapOperand ∧ ¬ s.pendingMem.WritesTrapOperand ∧
      ¬ s.pendingWb.WritesTrapOperand

instance (s : Core) : Decidable s.TrapReady := inferInstanceAs (Decidable (_ → _ → _))

/-- Then neither Mem nor write-back holds a doubleword load into `%g0`. -/
def TrapSafe (s : Core) : Prop :=
  s.releases = true → IsTicc s.decoding →
    ¬ s.pendingMem.IsDoubleToZero ∧ ¬ s.pendingWb.IsDoubleToZero

instance (s : Core) : Decidable s.TrapSafe := inferInstanceAs (Decidable (_ → _ → _))

theorem Cleared.trapReady_iff {s : Core} (cleared : s.Cleared) : s.TrapReady ↔ s.TrapSafe := by
  refine forall_congr' fun released => forall_congr' fun trap => ?_
  obtain ⟨silent, mem, wb⟩ := cleared.clear_of_releases released
  -- the Y port, which the check of write-back leaves out, is no operand of a trap
  have back := Decode.writesTrapOperand_iff trap wb
  have back' : s.pendingWb.WritesTrapOperand ↔ s.pendingWb.IsDoubleToZero := back
  rw [Decode.writesTrapOperand_iff trap mem, back']
  exact and_iff_right silent.not_writesTrapOperand

/-- The codes and the arguments of the call that a released trap carries are those that the
instructions in front of it leave: write-back of the same cycle, and whatever Mem hands on
after it. -/
def TrapSettled (s : Core) : Prop :=
  s.releases = true → IsTicc s.decoding → ∀ wb : WBOut, wb.writes = s.pendingMem →
    (Decode.operands ((s.regFile.writeBack s.wbOut).writeBack wb) s.decoding).trap =
      s.decodeOut.operands.trap

/-- A trap that nothing in flight writes for has its operands. -/
theorem TrapReady.settled {s : Core} (ready : s.TrapReady) : s.TrapSettled := by
  intro released trap wb handed
  obtain ⟨-, mem, back⟩ := ready released trap
  have held : s.decodeOut.operands = Decode.operands s.regFile s.decoding := rfl
  obtain ⟨icc, regs⟩ := s.regFile.trapOperands_writeBack back
  rw [← handed] at mem
  obtain ⟨icc', regs'⟩ := (s.regFile.writeBack s.wbOut).trapOperands_writeBack mem
  rw [held]
  exact Decode.trap_operands_congr (icc'.trans icc) fun r member =>
    (regs' r member).trans (regs r member)

/-- Every trap of a run finds its operands settled, with nothing in flight that writes them,
exactly if none is released over a doubleword load into `%g0`. -/
theorem trap_operands_settled_iff (syscall : Syscall) (entry : BitVec 32) (regFile : RegFile)
    (ram : Ram) (inputs : List DramEvents) :
    Runs.Guarded (step syscall) (fun s _ => s.TrapReady ∧ s.TrapSettled)
        (start syscall entry regFile ram) inputs ↔
      Runs.Guarded (step syscall) (fun s _ => s.TrapSafe) (start syscall entry regFile ram)
        inputs :=
  Runs.guarded_congr (fun s events => Cleared.step syscall s events)
    (fun _ _ cleared =>
      (and_iff_left_of_imp TrapReady.settled).trans cleared.trapReady_iff)
    (cleared_start syscall entry regFile ram) inputs

/-- `ldd [%g0], %g0` is in Mem when `ta 16` behind it is released. -/
theorem trap_overtakes_double_load :
    ¬ ∀ (syscall : Syscall) (entry : BitVec 32) (regFile : RegFile) (ram : Ram)
      (inputs : List DramEvents),
      Runs.Guarded (step syscall) (fun s _ => s.TrapReady ∧ s.TrapSettled)
        (start syscall entry regFile ram) inputs := by
  intro settled
  have run := settled (fun _ ram => (0, ram)) 0 RegFile.reset
    (Ram.ofWords [0xc0182000, 0x91d02010])
    (DramEvents.firstFetch ++ List.replicate 4 (.completing []) ++ [.completing []])
  exact absurd run.last.1 (by decide +kernel)

end Core

end Sparcy
