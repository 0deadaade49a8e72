import Sparcy.BackEnd
import Sparcy.LineMemory
import Sparcy.MemProtocol
import Sparcy.NestedCalls
import Sparcy.ReleaseHazards

/-!
# Execution of one instruction at a time

The ALU, the memory access and write-back of the pipeline, applied to one instruction
after the other.  An instruction depends on the registers that the stall predicates look
at, and on nothing else of what it reads.
-/

namespace Sparcy

open MemPath (requestOf entry)
open Words (word)

/-- A change of the register file, of the condition codes or of a line in the data cache,
of which a store replaces the enabled bytes. -/
inductive Effect where
  | register (r : BitVec 5) (value : BitVec 32)
  | icc (value : BitVec 4)
  | store (line : BitVec 58) (enable : BitVec 64) (bytes : BitVec 512)
deriving DecidableEq

namespace Effect

/-- The changes of a rising edge of the register file.  A write to `%g0` is none. -/
def ofWB (wb : WBOut) : List Effect :=
  (if wb.regEn = true ∧ wb.regD ≠ 0 then [register wb.regD (wb.data.setWidth 32)] else []) ++
    (if wb.regEn = true ∧ wb.regDoubleEn = true then
      [register (wb.regD + 1) (wb.data.extractLsb' 32 32)] else []) ++
    if wb.iccEn then [icc wb.icc] else []

/-- The change of an access of the data cache. -/
def ofAccess (p : DcRequest) : List Effect :=
  if p.readWriteN then []
  else
    [store p.lineAddr (DCache.storeEnable p)
      (writeWords 0 (DCache.storeData p) 8 (DCache.storeEnable p))]

end Effect

/-- The registers and the memory that the next instruction finds, and what all earlier
ones have changed. -/
structure Sequential where
  regs : RegFile
  memory : MemorySystem.LineMemory
  effects : List Effect

namespace Sequential

/-- A rising edge of the register file. -/
def writeBack (σ : Sequential) (wb : WBOut) : Sequential :=
  { σ with regs := σ.regs.step wb false false, effects := σ.effects ++ Effect.ofWB wb }

/-- An access of the data cache. -/
def access (σ : Sequential) (p : DcRequest) : Sequential :=
  { σ with
    memory := MemorySystem.applyAccess σ.memory p
    effects := σ.effects ++ Effect.ofAccess p }

/-- What is left to do for an instruction with its results of the ALU. -/
def perform (σ : Sequential) (x : EXMem) : Sequential :=
  if Mem.accesses x then
    (σ.access (requestOf x)).writeBack
      (WB.out (entry x (DCache.loadData (requestOf x) (σ.memory (requestOf x).lineAddr))))
  else σ.writeBack (WB.out (entry x 0))

/-- Before the first instruction.  The sets of the data cache hold rows of their own
after a reset. -/
def start (regFile : RegFile) (ram : Ram) : Sequential :=
  { regs := regFile
    memory := fun l => if ICache.tag l = 0xf then 0xf else ram.line l
    effects := [] }

/-- What decode makes of an instruction. -/
def decoded (regs : RegFile) (inst : Inst) : IDEX :=
  { pcPlus4 := 0
    fields := if Decode.isNop inst then Decode.bubbleFields inst else Decode.decodeFields inst
    operands := Decode.operands regs inst }

/-- One instruction.  Those that read the program counter or call the operating system
are left out, so both are zero here. -/
def execute (σ : Sequential) (inst : Inst) : Sequential :=
  σ.perform (Execute.live (decoded σ.regs inst) 0)

/-- The instructions that neither branch nor trap, move the window or swap, that do not
read or write Y, and that transfer doublewords only from and to even registers. -/
def Plain (inst : Inst) : Prop :=
  Decode.isNop inst = true ∨
    inst.op ≠ 0b01 ∧ ¬ (inst.op = 0b00 ∧ inst.op2 = Op2.Bicc) ∧
      ¬ (inst.op = 0b10 ∧ (inst.op3 = Op3.JMPL ∨ inst.op3 = Op3.Ticc ∨ inst.op3 = Op3.SAVE ∨
        inst.op3 = Op3.RESTORE)) ∧
      ¬ (inst.op = 0b11 ∧ (inst.op3 = Op3.SWAP ∨ inst.op3 = Op3.LDSTUB)) ∧
      ¬ (inst.op = 0b10 ∧ (inst.op3 = Op3.MULScc ∨ inst.op3 = Op3.UMUL ∨ inst.op3 = Op3.SMUL ∨
        inst.op3 = Op3.UMULcc ∨ inst.op3 = Op3.SMULcc ∨ inst.op3 = Op3.UDIV ∨
        inst.op3 = Op3.SDIV ∨ inst.op3 = Op3.UDIVcc ∨ inst.op3 = Op3.SDIVcc ∨
        inst.op3 = Op3.RDY ∨ inst.op3 = Op3.WRY)) ∧
      (inst.op = 0b11 ∧ (inst.op3 = Op3.LDD ∨ inst.op3 = Op3.STD) → inst.rd.getLsbD 0 = false)

instance (inst : Inst) : Decidable (Plain inst) := inferInstanceAs (Decidable (_ ∨ _))

/-! ### What write-back and the data cache look at -/

section

variable {σ : Sequential} {wb wb' : WBOut} {x x' : EXMem}

theorem writeBack_of_zero (reg : wb.regEn = true → wb.regD = 0 ∧ wb.regDoubleEn = false)
    (icc : wb.iccEn = false) (y : wb.yEn = false) : σ.writeBack wb = σ := by
  have regs : σ.regs.step wb false false = σ.regs := by
    cases writes : wb.regEn with
    | false =>
        simp [RegFile.step, RegFile.writeBack, RegFile.writeRegs, RegFile.nextCwp, writes, icc, y]
    | true =>
        obtain ⟨zero, single⟩ := reg writes
        simp [RegFile.step, RegFile.writeBack, RegFile.writeRegs, RegFile.writeFirst,
          RegFile.nextCwp, writes, zero, single, icc, y]
  have effects : Effect.ofWB wb = [] := by
    cases writes : wb.regEn with
    | false => simp [Effect.ofWB, writes, icc]
    | true =>
        obtain ⟨zero, single⟩ := reg writes
        simp [Effect.ofWB, zero, single, icc]
  rw [writeBack, regs, effects, List.append_nil]

theorem writeBack_of_none (reg : wb.regEn = false) (icc : wb.iccEn = false) (y : wb.yEn = false) :
    σ.writeBack wb = σ :=
  writeBack_of_zero (fun writes => absurd (writes.symm.trans reg) (by decide)) icc y

theorem writeBack_noWrite (σ : Sequential) : σ.writeBack MemPath.noWrite = σ :=
  writeBack_of_none rfl rfl rfl

/-- The condition codes count only under their enable. -/
theorem writeBack_congr (same : { wb with icc := 0 } = { wb' with icc := 0 })
    (icc : wb.iccEn = true → wb.icc = wb'.icc) : σ.writeBack wb = σ.writeBack wb' := by
  obtain ⟨regEn, regDoubleEn, data, regD, yEn, iccEn, codes⟩ := wb
  obtain ⟨regEn', regDoubleEn', data', regD', yEn', iccEn', codes'⟩ := wb'
  injection same with reg double value rd y enable _
  subst reg double value rd y enable
  cases iccEn with
  | true =>
      obtain rfl : codes = codes' := icc rfl
      rfl
  | false => rfl

theorem perform_of_accesses (access : Mem.accesses x = true) :
    σ.perform x =
      (σ.access (requestOf x)).writeBack
        (WB.out (entry x (DCache.loadData (requestOf x) (σ.memory (requestOf x).lineAddr)))) :=
  if_pos access

theorem perform_of_passes (passes : Mem.accesses x = false) :
    σ.perform x = σ.writeBack (WB.out (entry x 0)) := if_neg (by simp [passes])

theorem perform_regs (σ : Sequential) (x : EXMem) :
    ∃ data, (σ.perform x).regs = σ.regs.step (WB.out (entry x data)) false false := by
  cases access : Mem.accesses x with
  | true =>
      rw [perform_of_accesses access]
      exact ⟨_, rfl⟩
  | false =>
      rw [perform_of_passes access]
      exact ⟨0, rfl⟩

theorem accesses_of_op (op : x.op ≠ 0b11) : Mem.accesses x = false := by
  unfold Mem.accesses Mem.loadOp Mem.storeOp
  rw [decide_eq_false fun both => op both.1, decide_eq_false fun both => op both.1]
  rfl

theorem effects_prefix_perform (σ : Sequential) (x : EXMem) :
    σ.effects <+: (σ.perform x).effects := by
  cases access : Mem.accesses x with
  | true =>
      rw [perform_of_accesses access]
      exact (List.prefix_append _ _).trans (List.prefix_append _ _)
  | false =>
      rw [perform_of_passes access]
      exact List.prefix_append _ _

theorem effects_prefix_foldl {α : Type*} {act : Sequential → α → Sequential}
    (adds : ∀ σ x, σ.effects <+: (act σ x).effects) (σ : Sequential) (xs : List α) :
    σ.effects <+: (xs.foldl act σ).effects := by
  induction xs generalizing σ with
  | nil => exact List.prefix_rfl
  | cons x xs induction => exact (adds σ x).trans (induction (act σ x))

/-- An instruction that makes no access and writes nothing but `%g0`. -/
theorem perform_of_zero (passes : Mem.accesses x = false)
    (reg : x.regWrite = true → x.regD = 0 ∧ x.regWriteDouble = false)
    (icc : x.iccWrite = false) (y : x.yWrite = false) : σ.perform x = σ := by
  rw [perform_of_passes passes]
  cases bubble : isBubble x.op x.op2 x.regD with
  | true =>
      have out : WB.out (entry x 0) = MemPath.noWrite := by
        simp [WB.out, entry, bubble, MemPath.noWrite]
      rw [out, writeBack_noWrite]
  | false =>
      have out : WB.out (entry x 0) =
          { regEn := x.regWrite, regDoubleEn := x.regWriteDouble, data := WB.data (entry x 0)
            regD := x.regD, yEn := x.yWrite, iccEn := x.iccWrite, icc := x.icc } :=
        if_neg (ne_true_of_eq_false bubble)
      rw [out]
      exact writeBack_of_zero reg icc y

theorem perform_of_quiet (quiet : x.Quiet) : σ.perform x = σ :=
  perform_of_zero quiet.accesses
    (fun writes => absurd (writes.symm.trans quiet.regWrite) (by decide)) quiet.iccWrite quiet.yWrite

/-- The pattern that Execute and write-back take for a bubble. -/
theorem perform_of_bubble (bubble : isBubble x.op x.op2 x.regD = true) : σ.perform x = σ := by
  have op : x.op = 0b00 := by
    simp only [isBubble, Bool.and_eq_true, beq_iff_eq] at bubble
    exact bubble.1.1
  have passes : Mem.accesses x = false := by
    apply accesses_of_op
    rw [op]
    decide
  have out : WB.out (entry x 0) = MemPath.noWrite := by
    simp [WB.out, entry, bubble, MemPath.noWrite]
  rw [perform_of_passes passes, out, writeBack_noWrite]

end

end Sequential

/-! ### Registers that a write does not name -/

namespace RegFile

section

variable (rf : RegFile) {r w : BitVec 5} (value : BitVec 32)

theorem rowOf_injective {cwp : BitVec 5} {row : Row} (first : rowOf cwp r = some row)
    (second : rowOf cwp w = some row) : r = w := by
  have bound := r.isLt
  have bound' := w.isLt
  have same := first.trans second.symm
  unfold rowOf at same first second
  split at same
  · rename_i zero
    rw [if_pos zero] at first
    cases first
  · split at same
    · rename_i low
      rw [BitVec.le_def] at low
      split at same
      · cases same
      · split at same
        · rename_i low'
          rw [BitVec.le_def] at low'
          have narrow := congrArg BitVec.toNat (Sum.inl.inj (Option.some.inj same))
          rw [BitVec.toNat_setWidth, BitVec.toNat_setWidth] at narrow
          have seven : (7 : BitVec 5).toNat = 7 := rfl
          apply BitVec.eq_of_toNat_eq
          omega
        · cases same
    · rename_i high
      rw [BitVec.le_def, Nat.not_le] at high
      split at same
      · cases same
      · split at same
        · cases same
        · rename_i high'
          rw [BitVec.le_def, Nat.not_le] at high'
          have wide := congrArg BitVec.toNat (Sum.inr.inj (Option.some.inj same))
          have seven : (7 : BitVec 5).toNat = 7 := rfl
          rw [Windows.toNat_windowIndex _ _ (by omega),
            Windows.toNat_windowIndex _ _ (by omega)] at wide
          apply BitVec.eq_of_toNat_eq
          omega

theorem read_of_ne (positive : r ≠ 0) : rf.read r = (rowOf rf.cwp r).elim 0 rf.word := by
  rw [read, rowOf, if_neg positive]
  split <;> rfl

/-- A write changes the register that it names and no other. -/
theorem read_writeFirst (apart : w ≠ 0 → r ≠ w) : (rf.writeFirst w value).read r = rf.read r := by
  by_cases zero : r = 0
  · rw [zero]
    exact zero_writeFirst rf w value
  · rw [read_of_ne _ zero, read_of_ne _ zero, writeFirst_cwp, word_writeFirst]
    cases named : rowOf rf.cwp w with
    | none => rfl
    | some row =>
        cases here : rowOf rf.cwp r with
        | none => rfl
        | some row' =>
            have different : row' ≠ row := by
              rintro rfl
              have same := rowOf_injective here named
              by_cases none : w = 0
              · exact zero (same.trans none)
              · exact apart none same
            exact Function.update_of_ne different _ _

theorem read_writeNext (apart : r.toNat ≠ w.toNat + 1) :
    (rf.writeNext w value).read r = rf.read r := by
  have bound := r.isLt
  have seven : (7 : BitVec 5).toNat = 7 := rfl
  rw [writeNext]
  split
  · rename_i low
    rw [BitVec.le_def] at low
    split
    · rfl
    · rename_i below
      have below' : w.toNat ≠ 7 := fun same => below (BitVec.eq_of_toNat_eq same)
      rw [read, read]
      split
      · rename_i low'
        rw [BitVec.le_def] at low'
        apply Function.update_of_ne
        intro same
        have narrow := congrArg BitVec.toNat same
        rw [BitVec.toNat_add, BitVec.toNat_setWidth, BitVec.toNat_setWidth] at narrow
        have one : (1 : BitVec 3).toNat = 1 := rfl
        omega
      · rfl
  · rename_i high
    rw [BitVec.le_def, Nat.not_le] at high
    rw [read, read]
    split
    · rfl
    · rename_i high'
      rw [BitVec.le_def, Nat.not_le] at high'
      apply Function.update_of_ne
      intro (same : windowIndex rf.cwp (r.setWidth 6) = windowIndex rf.cwp (w.setWidth 6 + 1))
      have wide := congrArg BitVec.toNat same
      rw [Windows.toNat_windowIndex _ _ (by omega)] at wide
      have next : (windowIndex rf.cwp (w.setWidth 6 + 1)).toNat =
          (16 * rf.cwp.toNat + (w.toNat + 1 - 8)) % 512 := by
        have bound' := w.isLt
        have bound'' := rf.cwp.isLt
        simp only [windowIndex, BitVec.toNat_add, BitVec.toNat_sub, BitVec.toNat_mul,
          BitVec.toNat_setWidth, BitVec.ofNat_eq_ofNat, BitVec.toNat_ofNat]
        omega
      have bound' := w.isLt
      rw [next] at wide
      omega

theorem toNat_next_of_even (even : r.getLsbD 0 = false) : (r + 1).toNat = r.toNat + 1 := by
  revert even r
  decide

theorem step_eq_writeBack (wb : WBOut) : rf.step wb false false = rf.writeBack wb := by
  change { rf.writeBack wb with cwp := rf.cwp } = rf.writeBack wb
  rw [← writeBack_cwp]

/-- A rising edge changes the registers that write-back names. -/
theorem read_step (wb : WBOut) (first : wb.regEn = true → wb.regD ≠ 0 → r ≠ wb.regD)
    (next : wb.regEn = true → wb.regDoubleEn = true → r.toNat ≠ wb.regD.toNat + 1) :
    (rf.step wb false false).read r = rf.read r := by
  rw [step_eq_writeBack]
  change (rf.writeRegs wb).read r = _
  rw [writeRegs]
  split
  · rename_i writes
    dsimp only
    split
    · rename_i double
      rw [read_writeNext _ _ (next writes double), read_writeFirst _ _ (first writes)]
    · exact read_writeFirst _ _ (first writes)
  · rfl

end

end RegFile

/-! ### What an instruction reads -/

namespace Sequential

open Decode (conflicts Hazard)

theorem Plain.even {inst : Inst} (plain : Plain inst) (other : Decode.isNop inst = false)
    (op : inst.op = 0b11) (double : inst.op3 = Op3.LDD ∨ inst.op3 = Op3.STD) :
    inst.rd.getLsbD 0 = false := by
  rcases plain with nop | ⟨-, -, -, -, -, even⟩
  · rw [other] at nop
    cases nop
  · exact even ⟨op, double⟩

/-- Two register files that an instruction cannot tell apart. -/
structure Agree (inst : Inst) (regs regs' : RegFile) : Prop where
  rs1 : regs.read inst.rs1 = regs'.read inst.rs1
  rs2 : regs.read inst.rs2 = regs'.read inst.rs2
  data : Mem.storeOp inst.op inst.op3 = true → regs.read inst.rd = regs'.read inst.rd
  next : inst.op = 0b11 → inst.op3 = Op3.STD → regs.readNext inst.rd = regs'.readNext inst.rd
  icc : Decode.ccDep inst.op inst.op2 inst.op3 true = true → regs.icc = regs'.icc

theorem Agree.trans {inst : Inst} {regs regs' regs'' : RegFile} (first : Agree inst regs regs')
    (second : Agree inst regs' regs'') : Agree inst regs regs'' :=
  ⟨first.rs1.trans second.rs1, first.rs2.trans second.rs2,
    fun store => (first.data store).trans (second.data store),
    fun op op3 => (first.next op op3).trans (second.next op op3),
    fun dep => (first.icc dep).trans (second.icc dep)⟩

/-- The writes of write-back are announced. -/
structure Announced (wb : WBOut) (h : Hazard) : Prop where
  rd : wb.regEn = true → wb.regD = h.rd
  regWrite : wb.regEn = true → h.regWrite = true
  regWriteDouble : wb.regEn = true → wb.regDoubleEn = true → h.regWriteDouble = true
  iccWrite : wb.iccEn = true → h.iccWrite = true

/-- What `store_dep` excludes for the data of a store. -/
theorem storeDep_clear {op : BitVec 2} {op3 : BitVec 6} {rs rd : BitVec 5} {write double : Bool}
    (clear : Decode.storeDep op op3 rs rd write double = false) :
    (Mem.storeOp op op3 = true → (write = true → rs ≠ rd) ∧
        (double = true → rs.toNat ≠ rd.toNat + 1)) ∧
      (op = 0b11 → op3 = Op3.STD → (write = true → rs.toNat + 1 ≠ rd.toNat) ∧
        (double = true → rs.toNat ≠ rd.toNat)) := by
  unfold Decode.storeDep at clear
  split at clear
  · rename_i single
    obtain ⟨-, op3s⟩ := single
    have other : op3 ≠ Op3.STD := by
      rintro rfl
      revert op3s
      decide
    refine ⟨fun _ => ⟨?_, ?_⟩, fun _ double => absurd double other⟩ <;> intro enabled <;>
      simp only [enabled, Bool.and_true, Bool.or_eq_false_iff, beq_eq_false_iff_ne] at clear
    · exact clear.1
    · exact clear.2
  · rename_i other
    split at clear
    · refine ⟨fun _ => ⟨?_, ?_⟩, fun _ _ => ⟨?_, ?_⟩⟩ <;> intro enabled <;>
        simp only [enabled, Bool.true_and, Bool.or_eq_false_iff, beq_eq_false_iff_ne] at clear
      · exact clear.1.1
      · exact clear.2.1
      · exact clear.1.2
      · exact fun same => clear.2.2 (congrArg (· + 1) same)
    · rename_i other'
      refine ⟨fun stores => ?_, fun op double => absurd ⟨op, double⟩ other'⟩
      simp only [Mem.storeOp, decide_eq_true_eq] at stores
      exfalso
      obtain ⟨op, byte | half | single | double | swap⟩ := stores
      · exact other ⟨op, .inl byte⟩
      · exact other ⟨op, .inr (.inl half)⟩
      · exact other ⟨op, .inr (.inr (.inl single))⟩
      · exact other' ⟨op, double⟩
      · exact other ⟨op, .inr (.inr (.inr swap))⟩

/-- An instruction does not see the writes of which the stall predicates say that they do
not concern it. -/
theorem agree_step_of_even {inst : Inst} {h : Hazard} {wb : WBOut}
    (even : inst.op = 0b11 → inst.op3 = Op3.STD → inst.rd.getLsbD 0 = false)
    (clear : conflicts inst h = false) (announced : Announced wb h) (regs : RegFile) :
    Agree inst regs (regs.step wb false false) := by
  simp only [conflicts, Bool.or_eq_false_iff] at clear
  obtain ⟨⟨⟨⟨dep, cc⟩, -⟩, store⟩, -⟩ := clear
  simp only [Decode.instructionDependancy, Bool.or_eq_false_iff] at dep
  obtain ⟨first, next⟩ := dep
  have reads : ∀ r, (r = inst.rs1 ∨ r = inst.rs2) →
      (regs.step wb false false).read r = regs.read r := by
    intro r named
    apply RegFile.read_step
    · intro writes positive
      rw [announced.rd writes] at positive ⊢
      have write := announced.regWrite writes
      intro same
      rcases named with named | named <;> simp [write, ← named, same] at first <;>
        exact positive first
    · intro writes double
      rw [announced.rd writes]
      have write := announced.regWriteDouble writes double
      intro same
      rcases named with named | named <;> simp [write, ← named, same] at next
  refine ⟨(reads _ (.inl rfl)).symm, (reads _ (.inr rfl)).symm, ?_, ?_, ?_⟩
  · intro stores
    obtain ⟨own, second⟩ := (storeDep_clear store).1 stores
    refine (RegFile.read_step _ _ ?_ ?_).symm
    · intro writes _
      rw [announced.rd writes]
      exact own (announced.regWrite writes)
    · intro writes double
      rw [announced.rd writes]
      exact second (announced.regWriteDouble writes double)
  · intro op op3
    obtain ⟨own, second⟩ := (storeDep_clear store).2 op op3
    have successor := RegFile.toNat_next_of_even (even op op3)
    rw [RegFile.readNext_of_even _ (even op op3), RegFile.readNext_of_even _ (even op op3)]
    refine (RegFile.read_step _ _ ?_ ?_).symm
    · intro writes _ same
      have here := own (announced.regWrite writes)
      rw [← announced.rd writes, ← same, successor] at here
      exact here rfl
    · intro writes double
      have here := second (announced.regWriteDouble writes double)
      rw [announced.rd writes, successor]
      omega
  · intro reader
    rw [RegFile.step_eq_writeBack]
    have quiet : wb.iccEn = false := by
      by_contra writes
      rw [Bool.not_eq_false] at writes
      rw [announced.iccWrite writes, reader] at cc
      cases cc
    simp [RegFile.writeBack, quiet]

/-! ### The results of the ALU -/

/-- Two choices by one condition are related when the alternatives are. -/
theorem related_ite {α : Type*} {Related : α → α → Prop} {c : Prop} [Decidable c]
    {first first' second second' : α} (left : c → Related first first')
    (right : ¬ c → Related second second') :
    Related (if c then first else second) (if c then first' else second') := by
  by_cases taken : c
  · rw [if_pos taken, if_pos taken]
    exact left taken
  · rw [if_neg taken, if_neg taken]
    exact right taken

/-- Results with the same value, and results with the same condition codes as well. -/
structure SameValue (out out' : AluOut) : Prop where
  res : out.res = out'.res

structure SameResult (out out' : AluOut) : Prop extends SameValue out out' where
  icc : out.icc = out'.icc

/-- The format 3 instructions that read the program counter, call the operating system or
read Y. -/
def ReadsMore (op3 : BitVec 6) : Prop :=
  op3 = Op3.JMPL ∨ op3 = Op3.Ticc ∨ op3 = Op3.MULScc ∨ op3 = Op3.UDIV ∨ op3 = Op3.SDIV ∨
    op3 = Op3.UDIVcc ∨ op3 = Op3.SDIVcc ∨ op3 = Op3.RDY

instance (op3 : BitVec 6) : Decidable (ReadsMore op3) := inferInstanceAs (Decidable (_ ∨ _))

section

variable (x : AluIn) (pc y : BitVec 32) (icc : BitVec 4) (syscall syscall' : BitVec 32)

theorem format3_congr (others : ¬ ReadsMore x.op3) :
    SameResult (x.format3 syscall)
      (({ x with pc := pc, y := y } : AluIn).format3 syscall') := by
  unfold AluIn.format3
  dsimp only
  repeat' refine related_ite (fun here => ?_) fun _ => ?_
  all_goals first
    | (exfalso; rw [here] at others; exact others (by decide))
    | exact ⟨⟨rfl⟩, rfl⟩

/-- The condition codes matter for the instructions that `cc_dep` lists. -/
theorem format3_icc (others : ¬ ReadsMore x.op3)
    (reads : Decode.ccDep 0b10 x.op2 x.op3 true = false) :
    SameValue (x.format3 syscall) (({ x with icc := icc } : AluIn).format3 syscall) := by
  have noCarry : ¬ (x.op3 = Op3.ADDX ∨ x.op3 = Op3.ADDXcc ∨ x.op3 = Op3.SUBX ∨
      x.op3 = Op3.SUBXcc) := by
    rintro (carry | carry | carry | carry) <;> rw [carry] at reads <;>
      simp [Decode.ccDep, Decode.setsCc] at reads
  unfold AluIn.format3
  dsimp only
  repeat' refine related_ite (fun here => ?_) fun _ => ?_
  all_goals first
    | (exfalso; rw [here] at others; exact others (by decide))
    | (exfalso; rw [here] at noCarry; exact noCarry (by decide))
    | exact ⟨rfl⟩

theorem format2_res :
    x.format2.res = ({ x with pc := pc, y := y, icc := icc } : AluIn).format2.res := by
  unfold AluIn.format2 AluIn.bicc
  dsimp only
  split_ifs <;> rfl

theorem alu_congr (call : x.op ≠ 0b01) (others : x.op = 0b10 → ¬ ReadsMore x.op3)
    (codes : Decode.ccDep x.op x.op2 x.op3 true = true → x.icc = icc) :
    (x.alu syscall).res =
        (({ x with pc := pc, y := y, icc := icc } : AluIn).alu syscall').res ∧
      (Decode.ccWrite x.op x.op3 = true →
        (x.alu syscall).icc =
          (({ x with pc := pc, y := y, icc := icc } : AluIn).alu syscall').icc) := by
  unfold AluIn.alu
  dsimp only
  rw [if_neg call, if_neg call]
  by_cases access : x.op = 0b11
  · rw [if_pos access, if_pos access]
    refine ⟨rfl, fun writes => ?_⟩
    simp [Decode.ccWrite, access] at writes
  · rw [if_neg access, if_neg access]
    by_cases short : x.op = 0b00
    · rw [if_pos short, if_pos short]
      refine ⟨format2_res x pc y icc, fun writes => ?_⟩
      simp [Decode.ccWrite, short] at writes
    · rw [if_neg short, if_neg short]
      have long : x.op = 0b10 := by
        have four : ∀ op : BitVec 2, op ≠ 0b01 → op ≠ 0b11 → op ≠ 0b00 → op = 0b10 := by decide
        exact four _ call access short
      have writer : Decode.ccWrite x.op x.op3 = true →
          Decode.ccDep x.op x.op2 x.op3 true = true := by
        intro writes
        simp only [Decode.ccWrite, Bool.and_eq_true] at writes
        simp [Decode.ccDep, writes.2, long]
      cases dep : Decode.ccDep x.op x.op2 x.op3 true with
      | true =>
          obtain rfl := codes dep
          have same := format3_congr x pc y syscall syscall' (others long)
          exact ⟨same.res, fun _ => same.icc⟩
      | false =>
          have first := format3_icc x icc syscall (others long) (by rw [← long]; exact dep)
          have second := format3_congr { x with icc := icc } pc y syscall syscall' (others long)
          refine ⟨first.res.trans second.res, fun writes => ?_⟩
          rw [writer writes] at dep
          cases dep

end

end Sequential

/-! ### The bytes of a store -/

namespace DCache

open ICache (swapHalves)

/-- By how much a store into the second word of a doubleword is shifted back. -/
def backShift (p : DcRequest) : Nat := if p.byteOffset.getLsbD 2 then 32 else 0

section

variable {p p' : DcRequest}

theorem getLsbD_swapHalves_high (v : BitVec 64) {k : Nat} (high : 32 ≤ k) (below : k < 64) :
    (swapHalves v).getLsbD k = (v.extractLsb' 0 32).getLsbD (k - 32) := by
  rw [swapHalves, BitVec.getLsbD_append, if_neg (by omega)]

/-- From the upper half of its doubleword on a row has only the lower half of the data. -/
theorem getLsbD_halfShift {q : DcRequest} {n : Nat}
    (upper : q.wordSelect.toNat * 64 + 32 ≤ n + backShift q) :
    (halfShift q).getLsbD n =
      (decide (n + backShift q < 512) && decide (n + backShift q - q.wordSelect.toNat * 64 < 64) &&
        (q.dataIn.extractLsb' 0 32).getLsbD (n + backShift q - q.wordSelect.toNat * 64 - 32)) := by
  rw [halfShift, writeShift, BitVec.getLsbD_ushiftRight]
  change BitVec.getLsbD _ (backShift q + n) = _
  rw [BitVec.getLsbD_shiftLeft, BitVec.getLsbD_setWidth, Nat.add_comm (backShift q) n]
  by_cases inside : n + backShift q - q.wordSelect.toNat * 64 < 64
  · rw [getLsbD_swapHalves_high _ (by omega) inside]
    simp [inside, show ¬ n + backShift q < q.wordSelect.toNat * 64 by omega,
      show n + backShift q - q.wordSelect.toNat * 64 < 512 by omega]
  · rw [BitVec.getLsbD_of_ge (swapHalves q.dataIn) _ (Nat.le_of_not_lt inside)]
    simp [inside]

theorem getLsbD_halfShift_congr (select : p.wordSelect = p'.wordSelect)
    (offset : p.byteOffset = p'.byteOffset)
    (low : p.dataIn.extractLsb' 0 32 = p'.dataIn.extractLsb' 0 32) {n : Nat}
    (upper : p.wordSelect.toNat * 64 + 32 ≤ n + backShift p) :
    (halfShift p).getLsbD n = (halfShift p').getLsbD n := by
  have shift : backShift p = backShift p' := by rw [backShift, backShift, offset]
  have upper' : p'.wordSelect.toNat * 64 + 32 ≤ n + backShift p' := by
    rw [← shift, ← select]
    exact upper
  rw [getLsbD_halfShift upper, getLsbD_halfShift upper', shift, select, low]

/-- Of its data a store that is not a doubleword enables bytes of the lower half. -/
theorem getLsbD_storeData (select : p.wordSelect = p'.wordSelect)
    (offset : p.byteOffset = p'.byteOffset) (type : p.storeType = p'.storeType)
    (low : p.dataIn.extractLsb' 0 32 = p'.dataIn.extractLsb' 0 32)
    (narrow : p.storeType ≠ 0b11) {i j : Nat} (inside : i < 64)
    (enabled : (storeEnable p).getLsbD i = true) :
    (storeData p).getLsbD (i * 8 + j) = (storeData p').getLsbD (i * 8 + j) := by
  have lanes : ∀ (count n : Nat),
      ((BitVec.ofNat 64 (2 ^ count - 1)) <<< n).getLsbD i = true → n ≤ i := by
    intro count n here
    rw [Words.getLsbD_ones count n inside, decide_eq_true_iff] at here
    exact here.1
  have shifted : ∀ s : Nat, p.wordSelect.toNat * 64 + 32 + s ≤ i * 8 + backShift p →
      (halfShift p <<< s).getLsbD (i * 8 + j) = (halfShift p' <<< s).getLsbD (i * 8 + j) := by
    intro s upper
    rw [BitVec.getLsbD_shiftLeft, BitVec.getLsbD_shiftLeft]
    by_cases below : i * 8 + j < s
    · simp only [below, decide_true, Bool.not_true, Bool.and_false, Bool.false_and]
    · rw [getLsbD_halfShift_congr (n := i * 8 + j - s) select offset low (by omega)]
  rw [storeEnable] at enabled
  rw [storeData, storeData, ← type, ← offset]
  by_cases byte : p.storeType = 0b00
  · rw [if_pos byte] at enabled ⊢
    rw [if_pos byte]
    have lane := lanes 1 _ enabled
    have place : ∀ off : BitVec 3, (~~~off).toNat * 8 + (if off.getLsbD 2 then 32 else 0) =
        32 + 8 * ((~~~off).extractLsb' 0 2).toNat := by decide
    have here := place p.byteOffset
    rw [Words.toNat_append_eq] at lane
    apply shifted
    rw [backShift]
    omega
  · rw [if_neg byte] at enabled ⊢
    rw [if_neg byte]
    by_cases half : p.storeType = 0b01
    · rw [if_pos half] at enabled ⊢
      rw [if_pos half]
      have lane := lanes 2 _ enabled
      have place : ∀ off : BitVec 3,
          (~~~(off.extractLsb' 1 2)).toNat * 16 + (if off.getLsbD 2 then 32 else 0) =
            32 + 16 * ((~~~(off.extractLsb' 1 2)).extractLsb' 0 1).toNat := by decide
      have here := place p.byteOffset
      rw [Words.toNat_append_eq, Words.toNat_append_eq] at lane
      apply shifted
      rw [backShift]
      omega
    · rw [if_neg half] at enabled ⊢
      rw [if_neg half]
      have single : p.storeType = 0b10 := by
        have four : ∀ type : BitVec 2, type ≠ 0b00 → type ≠ 0b01 → type ≠ 0b11 → type = 0b10 := by
          decide
        exact four _ byte half narrow
      rw [if_pos single] at enabled ⊢
      rw [if_pos single]
      have lane := lanes 4 _ enabled
      have place : ∀ off : BitVec 3,
          (~~~(off.extractLsb' 2 1)).toNat * 32 + (if off.getLsbD 2 then 32 else 0) = 32 := by
        decide
      have here := place p.byteOffset
      rw [Words.toNat_append_eq, Words.toNat_append_eq] at lane
      apply getLsbD_halfShift_congr select offset low
      rw [backShift]
      omega

/-- Stores that differ in the upper half of their data store the same, except for a
doubleword. -/
theorem writeWords_store_congr (select : p.wordSelect = p'.wordSelect)
    (offset : p.byteOffset = p'.byteOffset) (type : p.storeType = p'.storeType)
    (low : p.dataIn.extractLsb' 0 32 = p'.dataIn.extractLsb' 0 32)
    (whole : p.storeType = 0b11 → p.dataIn = p'.dataIn) (row : BitVec 512) :
    writeWords row (storeData p) 8 (storeEnable p) =
      writeWords row (storeData p') 8 (storeEnable p') := by
  have enable : storeEnable p = storeEnable p' := by
    rw [storeEnable, storeEnable, select, offset, type]
  by_cases doubleword : p.storeType = 0b11
  · have data : storeData p = storeData p' := by
      rw [storeData, storeData, halfShift, halfShift, writeShift, writeShift, select, offset, type,
        whole doubleword]
    rw [enable, data]
  · apply Words.eq_of_word_eq (show 512 = 64 * 8 from rfl)
    intro i inside
    rw [word_writeWords (by decide) _ _ _ (by omega), word_writeWords (by decide) _ _ _ (by omega),
      ← enable]
    cases enabled : (storeEnable p).getLsbD i with
    | false => rfl
    | true =>
        apply BitVec.eq_of_getLsbD_eq
        intro j below
        rw [if_pos rfl, if_pos rfl, Words.getLsbD_word, Words.getLsbD_word,
          getLsbD_storeData select offset type low doubleword inside enabled]

end

end DCache

/-! ### Instructions that do the same -/

namespace Sequential

/-- Results of Execute that the rest of the pipeline does not tell apart. -/
structure SameEffect (x x' : EXMem) : Prop where
  alures : x.alures = x'.alures
  item : x.item = x'.item
  icc : x.iccWrite = true → x.icc = x'.icc
  low : Mem.storeOp x.op x.op3 = true → x.valD.extractLsb' 0 32 = x'.valD.extractLsb' 0 32
  whole : x.op3 = Op3.STD → x.op = 0b11 → x.valD = x'.valD

section

variable {σ : Sequential} {x x' : EXMem}

theorem storeT_of_doubleword {op3 : BitVec 6} (doubleword : Mem.storeT op3 = 0b11) :
    op3 = Op3.STD := by
  revert op3
  decide

theorem SameEffect.out (same : SameEffect x x') (data : BitVec 64) :
    σ.writeBack (WB.out (entry x data)) = σ.writeBack (WB.out (entry x' data)) := by
  have alures := same.alures
  have item := same.item
  have icc := same.icc
  obtain ⟨_, _, regD, alures, op, op2, op3, _, regWrite, double, codes, iccWrite, _, yWrite⟩ := x
  obtain ⟨_, _, regD', alures', op', op2', op3', _, regWrite', double', codes', iccWrite', _,
    yWrite'⟩ := x'
  simp only [EXMem.item, BackEnd.Item.mk.injEq] at item alures icc
  obtain ⟨rfl, rfl, rfl, rfl, rfl, rfl, rfl, rfl⟩ := item
  subst alures
  cases bubble : isBubble op op2 regD with
  | true => simp [WB.out, entry, bubble]
  | false =>
      simp only [WB.out, entry, bubble, Bool.false_eq_true, if_false]
      exact writeBack_congr rfl icc

/-- The requests differ in their data only. -/
theorem SameEffect.request (same : SameEffect x x') :
    requestOf x' = { requestOf x with dataIn := x'.valD } := by
  have op : x.op = x'.op := congrArg BackEnd.Item.op same.item
  have op3 : x.op3 = x'.op3 := congrArg BackEnd.Item.op3 same.item
  simp only [requestOf, Mem.readWriteN, op, op3, same.alures]

theorem SameEffect.access (same : SameEffect x x') :
    σ.access (requestOf x) = σ.access (requestOf x') := by
  rw [same.request]
  cases store : Mem.storeOp x.op x.op3 with
  | false =>
      have load : (requestOf x).readWriteN = true := by simp [requestOf, Mem.readWriteN, store]
      simp only [Sequential.access, MemorySystem.applyAccess, Effect.ofAccess, load, if_true]
  | true =>
      let q : DcRequest := { requestOf x with dataIn := x'.valD }
      have bytes : ∀ row : BitVec 512,
          writeWords row (DCache.storeData (requestOf x)) 8 (DCache.storeEnable (requestOf x)) =
            writeWords row (DCache.storeData q) 8 (DCache.storeEnable q) := by
        refine DCache.writeWords_store_congr rfl rfl rfl (same.low store) fun doubleword => ?_
        simp only [Mem.storeOp, decide_eq_true_eq] at store
        exact same.whole (storeT_of_doubleword doubleword) store.1
      unfold Sequential.access MemorySystem.applyAccess Effect.ofAccess
      rw [bytes, bytes]
      rfl

theorem SameEffect.perform (same : SameEffect x x') : σ.perform x = σ.perform x' := by
  have op : x.op = x'.op := congrArg BackEnd.Item.op same.item
  have op3 : x.op3 = x'.op3 := congrArg BackEnd.Item.op3 same.item
  have accesses : Mem.accesses x = Mem.accesses x' := by
    rw [Mem.accesses, Mem.accesses, op, op3]
  rw [Sequential.perform, Sequential.perform, accesses, same.out, same.out, same.access,
    same.request]
  rfl

/-- What an instruction does with operands that it cannot tell apart. -/
theorem sameEffect_live {inst : Inst} {regs regs' : RegFile} (plain : Plain inst)
    (other : Decode.isNop inst = false) (agree : Agree inst regs regs') (pc pc' : BitVec 64)
    (syscall syscall' : BitVec 32) :
    SameEffect
      (Execute.live
        { pcPlus4 := pc, fields := Decode.decodeFields inst
          operands := Decode.operands regs inst } syscall)
      (Execute.live
        { pcPlus4 := pc', fields := Decode.decodeFields inst
          operands := Decode.operands regs' inst } syscall') := by
  have excluded : inst.op ≠ 0b01 ∧ (inst.op = 0b10 → ¬ ReadsMore inst.op3) := by
    rcases plain with nop | ⟨call, -, control, -, y, -⟩
    · rw [other] at nop
      cases nop
    · refine ⟨call, fun op reads => ?_⟩
      unfold ReadsMore at reads
      rcases reads with jmpl | trap | reads
      · exact control ⟨op, .inl jmpl⟩
      · exact control ⟨op, .inr (.inl trap)⟩
      · apply y ⟨op, ?_⟩
        rcases reads with same | same | same | same | same | same <;>
          simp only [same, true_or, or_true]
  let aluIn := Execute.aluIn
    { pcPlus4 := pc, fields := Decode.decodeFields inst, operands := Decode.operands regs inst }
  have alu := alu_congr aluIn (pc'.setWidth 32) regs'.y regs'.icc syscall syscall' excluded.1
    excluded.2 agree.icc
  have operands : ({ aluIn with pc := pc'.setWidth 32, y := regs'.y, icc := regs'.icc } : AluIn) =
      Execute.aluIn { pcPlus4 := pc', fields := Decode.decodeFields inst
                      operands := Decode.operands regs' inst } := by
    simp only [aluIn, Execute.aluIn, Decode.operands, agree.rs1, agree.rs2]
  rw [operands] at alu
  have item : ∀ (x : IDEX) (syscall : BitVec 32),
      (Execute.live x syscall).item = x.fields.item := fun _ _ => rfl
  refine ⟨alu.1, by rw [item, item], alu.2, ?_, ?_⟩
  · intro store
    have low : ∀ regs : RegFile, (regs.readDouble inst.rd).extractLsb' 0 32 = regs.read inst.rd :=
      fun regs => BitVec.extractLsb'_append_eq_right
    exact (low regs).trans ((agree.data store).trans (low regs').symm)
  · intro op3 op
    have store : Mem.storeOp inst.op inst.op3 = true := by
      simp [Mem.storeOp, show inst.op = 0b11 from op, show inst.op3 = Op3.STD from op3]
    change regs.readDouble inst.rd = regs'.readDouble inst.rd
    rw [RegFile.readDouble, RegFile.readDouble, agree.data store, agree.next op op3]

end

end Sequential

end Sparcy
