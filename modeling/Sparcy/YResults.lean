import Sparcy.AluResults
import Sparcy.MultiplySteps

/-!
# Results in Y

The Y result of an instruction goes down the pipeline twice, as the high word of the result
bus and on a bus of its own.  The register file is connected to the first one only.  Each
instruction is followed from Execute to write-back.
-/

namespace Sparcy

open MemPath (Holds entry)

namespace AluIn

variable (x : AluIn)

/-- What an instruction is to leave in Y. -/
def architecturalY (x : AluIn) (y : BitVec 32) : BitVec 32 :=
  if x.op = 0b10 then
    if x.op3 = Op3.UMUL ∨ x.op3 = Op3.UMULcc then x.umul.extractLsb' 32 32
    else if x.op3 = Op3.SMUL ∨ x.op3 = Op3.SMULcc then x.smul.extractLsb' 32 32
    else if x.op3 = Op3.WRY then x.valA ^^^ x.operand2
    else if x.op3 = Op3.MULScc then x.mulscc.y
    else y
  else y

/-- What the register file makes of it. -/
def busY (x : AluIn) (syscall y : BitVec 32) : BitVec 32 :=
  if Decode.yWrite x.op x.op3 then (x.alu syscall).res.extractLsb' 32 32 else y

/-- The carry of a step of a multiplication is what is left of Y: rs1 is even, and Y is 0, or
1 and there is no carry, or 3 and there is one. -/
def CarryIsY (x : AluIn) : Prop :=
  x.valA.toNat % 2 = 0 ∧
    (x.y = 0 ∨ x.y = 1 ∧ x.valA.toNat / 2 + x.operand2.toNat < 2 ^ 32 ∨
      x.y = 3 ∧ 2 ^ 32 ≤ x.valA.toNat / 2 + x.operand2.toNat)

instance (x : AluIn) : Decidable x.CarryIsY := inferInstanceAs (Decidable (_ ∧ _))

theorem mulscc_y_eq_iff : x.mulscc.res.extractLsb' 32 32 = x.mulscc.y ↔ x.CarryIsY := by
  have y := x.toNat_mulscc_y
  have bound := x.valA.isLt
  have bound' := x.operand2.isLt
  have boundY := x.y.isLt
  have addend : x.mulAddend.toNat = if x.y.toNat % 2 = 1 then x.operand2.toNat else 0 := by
    have bit : x.y.getLsbD 0 = decide (x.y.toNat % 2 = 1) := Nat.testBit_zero _
    rw [mulAddend, bit]
    by_cases odd : x.y.toNat % 2 = 1
    · rw [if_pos odd, if_pos (decide_eq_true odd)]
    · rw [if_neg odd, if_neg (by simpa using odd)]
      rfl
  have high : (x.mulscc.res.extractLsb' 32 32).toNat =
      (x.valA.toNat / 2 + x.mulAddend.toNat) / 2 ^ 32 := by
    rw [mulscc_res, BitVec.extractLsb'_toNat, BitVec.ofInt_natCast, BitVec.toNat_ofNat,
      Nat.shiftRight_eq_div_pow]
    split at addend <;> omega
  have zero : x.y = 0 ↔ x.y.toNat = 0 := BitVec.toNat_eq
  have one : x.y = 1 ↔ x.y.toNat = 1 := BitVec.toNat_eq
  have three : x.y = 3 ↔ x.y.toNat = 3 := BitVec.toNat_eq
  rw [BitVec.toNat_eq, high, y, CarryIsY, zero, one, three, addend]
  split <;> omega

/-! ### The high word of the result bus -/

/-- The opcodes that write Y. -/
theorem yWrite_cases {op : BitVec 2} {op3 : BitVec 6} (writes : Decode.yWrite op op3 = true) :
    op = 0b10 ∧ (op3 = Op3.MULScc ∨ op3 = Op3.WRY ∨ ∃ k : MulOp, op3 = k.op3) := by
  obtain ⟨op, step | umul | umulcc | smul | smulcc | wry⟩ := of_decide_eq_true writes
  · exact ⟨op, .inl step⟩
  · exact ⟨op, .inr (.inr ⟨.umul, umul⟩)⟩
  · exact ⟨op, .inr (.inr ⟨.umulcc, umulcc⟩)⟩
  · exact ⟨op, .inr (.inr ⟨.smul, smul⟩)⟩
  · exact ⟨op, .inr (.inr ⟨.smulcc, smulcc⟩)⟩
  · exact ⟨op, .inr (.inl wry)⟩

section

variable (syscall y : BitVec 32)

theorem busY_of_mul (k : MulOp) (op : x.op = 0b10) (op3 : x.op3 = k.op3) :
    x.busY syscall y = x.architecturalY y := by
  have result : (x.alu syscall).res = x.mulValue k := by
    rw [x.alu_mul k op op3]
    split <;> rfl
  have writes : Decode.yWrite x.op x.op3 = true := by
    rw [op, op3]
    cases k <;> decide
  rw [busY, if_pos writes, result, architecturalY, if_pos op, op3]
  cases k <;> rfl

theorem busY_of_wry (op : x.op = 0b10) (op3 : x.op3 = Op3.WRY) :
    x.busY syscall y = x.architecturalY y := by
  have result : (x.alu syscall).res = (x.valA ^^^ x.operand2) ++ (0 : BitVec 32) := by
    rw [x.eq_with_op op op3]
    rfl
  have writes : Decode.yWrite x.op x.op3 = true := by
    rw [op, op3]
    decide
  have wanted : x.architecturalY y = x.valA ^^^ x.operand2 := by
    rw [architecturalY, if_pos op, op3]
    rfl
  rw [busY, if_pos writes, result, wanted]
  exact BitVec.extractLsb'_append_eq_left

theorem busY_of_mulscc (op : x.op = 0b10) (op3 : x.op3 = Op3.MULScc) :
    x.busY syscall y = x.architecturalY y ↔ x.CarryIsY := by
  have result : x.alu syscall = x.mulscc := by
    rw [x.eq_with_op op op3]
    rfl
  have writes : Decode.yWrite x.op x.op3 = true := by
    rw [op, op3]
    decide
  have wanted : x.architecturalY y = x.mulscc.y := by
    rw [architecturalY, if_pos op, op3]
    rfl
  rw [busY, if_pos writes, result, wanted]
  exact x.mulscc_y_eq_iff

/-- Another instruction keeps Y. -/
theorem busY_of_silent (silent : Decode.yWrite x.op x.op3 = false) :
    x.busY syscall y = x.architecturalY y := by
  have other := of_decide_eq_false silent
  rw [busY, silent, if_neg Bool.false_ne_true, architecturalY]
  by_cases op : x.op = 0b10
  · rw [if_pos op, if_neg (by tauto), if_neg (by tauto), if_neg (by tauto), if_neg (by tauto)]
  · rw [if_neg op]

/-- The high word of the result bus is the Y result of all instructions but `MULScc`. -/
theorem busY_eq_iff :
    x.busY syscall y = x.architecturalY y ↔
      (x.op = 0b10 → x.op3 = Op3.MULScc → x.CarryIsY) := by
  cases writes : Decode.yWrite x.op x.op3 with
  | false =>
      refine iff_of_true (x.busY_of_silent syscall y writes) fun op op3 => ?_
      rw [op, op3] at writes
      exact absurd writes (by decide)
  | true =>
      obtain ⟨op, step | wry | ⟨k, op3⟩⟩ := yWrite_cases writes
      · refine (x.busY_of_mulscc syscall y op step).trans ?_
        exact ⟨fun carry _ _ => carry, fun carry => carry op step⟩
      · refine iff_of_true (x.busY_of_wry syscall y op wry) fun _ step => ?_
        rw [wry] at step
        exact absurd step (by decide)
      · refine iff_of_true (x.busY_of_mul syscall y k op op3) fun _ step => ?_
        rw [op3] at step
        exact absurd step (by cases k <;> decide)

end

end AluIn

/-! ### Instructions on their way to write-back -/

/-- The Y enable of an instruction in `IDEXReg` is that of its opcode. -/
def IDEX.YDecoded (x : IDEX) : Prop := x.fields.yWrite = Decode.yWrite x.fields.op x.fields.op3

theorem Core.decodeOut_yDecoded {s : Core} (decoded : s.DecodeCopied) : s.decodeOut.YDecoded := by
  cases passes : s.decode.passesNop s.ifid with
  | true =>
      have fields : s.decodeOut.fields = Decode.bubbleFields s.ifid.inst := by
        simp [decodeOut, Decode.Regs.outFields, passes]
      have word : s.ifid.inst = Inst.nop ∨ s.ifid.inst = Inst.stbar := by
        simp only [Decode.Regs.passesNop, Decode.isNop, Bool.and_eq_true, Bool.or_eq_true,
          beq_iff_eq] at passes
        exact passes.2
      rw [IDEX.YDecoded, fields]
      rcases word with word | word <;> rw [word] <;> decide
  | false =>
      cases waits : s.decode.waits s.ifid s.hazards with
      | true =>
          have fields : s.decodeOut.fields = Decode.stallFields := by
            simp [decodeOut, Decode.Regs.outFields, passes, waits]
          rw [IDEX.YDecoded, fields]
          decide
      | false =>
          have fields : s.decodeOut.fields = Decode.decodeFields s.decoding := by
            rw [← decoded]
            simp [decodeOut, Decode.Regs.outFields, passes, waits]
          rw [IDEX.YDecoded, fields]
          rfl

/-- A processor with the instructions that its later stages hold, as they were in `IDEXReg`.
One that Execute squashes goes no further. -/
structure Retiring where
  core : Core
  exHeld : IDEX
  exmem : Option IDEX
  memHeld : Option IDEX
  memwb : Option IDEX

namespace Retiring

def start (core : Core) : Retiring :=
  { core := core, exHeld := core.idex, exmem := none, memHeld := none, memwb := none }

/-- The instructions in Execute and in Mem. -/
def inExecute (h : Retiring) : IDEX :=
  match h.core.execute.pState with
  | .a => h.core.idex
  | .b => h.exHeld

def inMem (h : Retiring) : Option IDEX :=
  match h.core.mem.pState with
  | .a => h.exmem
  | .b => h.memHeld

def step (syscall : Syscall) (h : Retiring) (events : DramEvents) : Retiring :=
  { core := h.core.step syscall events
    exHeld := h.inExecute
    exmem :=
      if h.core.memReady then if h.core.execute.annulIn then none else some h.inExecute
      else h.exmem
    memHeld := h.inMem
    memwb := if h.core.memPasses then h.inMem else none }

/-- The instruction in write-back leaves its result in Y, and without one, or with one that
does not write it, Y stays. -/
def Right (syscall : Syscall) (h : Retiring) (events : DramEvents) : Prop :=
  (h.core.step syscall events).regFile.y =
    h.memwb.elim h.core.regFile.y fun x => (Execute.aluIn x).architecturalY h.core.regFile.y

instance (syscall : Syscall) (h : Retiring) (events : DramEvents) :
    Decidable (Right syscall h events) := inferInstanceAs (Decidable (_ = _))

/-- A `MULScc` in write-back is one whose carry is its Y result. -/
def Safe (h : Retiring) : Prop :=
  ∀ x ∈ h.memwb, x.fields.op = 0b10 → x.fields.op3 = Op3.MULScc → (Execute.aluIn x).CarryIsY

/-- The contents of `EXMemReg` are those of the instruction, or quiet without one. -/
def Shows (x : Option IDEX) (y : EXMem) : Prop :=
  match x with
  | none => y.Quiet
  | some x => x.YDecoded ∧ ∃ syscall, y = Execute.live x syscall

/-- The registers say what they say about the instructions. -/
structure Tracks (h : Retiring) : Prop where
  spaced : h.core.Spaced
  idex : h.core.idex.YDecoded
  held : h.core.execute.pState = .b →
    h.exHeld.YDecoded ∧ ∃ syscall, h.core.execute.held = Execute.live h.exHeld syscall
  exmem : Shows h.exmem h.core.exmem
  waiting : h.core.mem.pState = .b →
    ∃ x ∈ h.memHeld, x.YDecoded ∧ ∃ syscall, Holds h.core.mem (Execute.live x syscall)
  silent : h.memwb = none → h.core.wbOut.yEn = false
  memwb : ∀ x ∈ h.memwb, x.YDecoded ∧
    ∃ syscall data, h.core.memwb = entry (Execute.live x syscall) data

section

variable {h : Retiring} {syscall : Syscall} {events : DramEvents}

theorem Tracks.inExecute (tracks : h.Tracks) :
    h.inExecute.YDecoded ∧ ∃ syscall, h.core.inExecute = Execute.live h.inExecute syscall := by
  cases state : h.core.execute.pState with
  | a =>
      simp only [Retiring.inExecute, Core.inExecute, state]
      exact ⟨tracks.idex, h.core.syscallResult, rfl⟩
  | b =>
      simp only [Retiring.inExecute, Core.inExecute, state]
      exact tracks.held state

theorem Tracks.idex_step (tracks : h.Tracks) : (h.core.step syscall events).idex.YDecoded := by
  rw [Core.step_idex, IDEX.step]
  split
  · exact Core.decodeOut_yDecoded tracks.spaced.decoded
  · exact tracks.idex

theorem Tracks.held_step (tracks : h.Tracks)
    (holding : (h.core.step syscall events).execute.pState = .b) :
    h.inExecute.YDecoded ∧
      ∃ result, (h.core.step syscall events).execute.held = Execute.live h.inExecute result := by
  obtain ⟨decoded, result, same⟩ := tracks.inExecute
  have kept := Core.inExecute_step_of_held holding
  have shown : (h.core.step syscall events).inExecute =
      (h.core.step syscall events).execute.held := by
    simp only [Core.inExecute, holding]
  exact ⟨decoded, result, shown.symm.trans (kept.trans same)⟩

theorem Tracks.exmem_step (tracks : h.Tracks) :
    Shows (h.step syscall events).exmem (h.core.step syscall events).exmem := by
  rw [Core.step_exmem, EXMem.step, step]
  dsimp only
  cases ready : h.core.memReady with
  | false => exact tracks.exmem
  | true =>
      rw [if_pos rfl, if_pos rfl, Core.exOut_eq]
      cases annulled : h.core.execute.annulIn with
      | true => exact Core.squashed_quiet h.core.execute
      | false => exact tracks.inExecute

/-- Mem waits with an instruction. -/
theorem Tracks.waiting_step (tracks : h.Tracks)
    (waits : (h.core.step syscall events).mem.pState = .b) :
    ∃ x ∈ h.inMem, x.YDecoded ∧
      ∃ result, Holds (h.core.step syscall events).mem (Execute.live x result) := by
  have path := MemPath.ofCore_step syscall h.core events
  have mem := congrArg MemPath.mem path
  change (h.core.step syscall events).mem = _ at mem
  have shown := tracks.exmem
  cases state : h.core.mem.pState with
  | a =>
      have access : Mem.accesses h.core.exmem = true := by
        by_contra passes
        simp [Mem.Regs.step, Mem.Regs.nState, state, passes] at waits
      simp only [inMem, state]
      cases mark : h.exmem with
      | none =>
          rw [mark] at shown
          rw [shown.accesses] at access
          cases access
      | some x =>
          rw [mark] at shown
          obtain ⟨decoded, result, same⟩ := shown
          refine ⟨x, rfl, decoded, result, ?_⟩
          rw [mem, ← same]
          exact MemPath.holds_of_accepts state access
  | b =>
      have silent : h.core.dcAck = false := by
        by_contra ack
        simp [Mem.Regs.step, Mem.Regs.nState, state, ack] at waits
      obtain ⟨x, mark, decoded, result, holds⟩ := tracks.waiting state
      simp only [inMem, state]
      refine ⟨x, mark, decoded, result, ?_⟩
      rw [mem]
      exact MemPath.Holds.step holds silent

theorem Tracks.memwb_step (tracks : h.Tracks) (passes : h.core.memPasses = true) :
    (h.inMem = none → (h.core.step syscall events).wbOut.yEn = false) ∧
      ∀ x ∈ h.inMem, x.YDecoded ∧
        ∃ result data, (h.core.step syscall events).memwb =
          entry (Execute.live x result) data := by
  cases state : h.core.mem.pState with
  | a =>
      have access : Mem.accesses h.core.exmem = false := by
        simpa [Core.memPasses, Mem.Regs.passes, state] using passes
      have out : h.core.memOut = entry h.core.exmem 0 :=
        MemPath.out_of_passes (s := MemPath.ofCore h.core) state access
      have shown := tracks.exmem
      simp only [inMem, state]
      constructor
      · intro none
        rw [none] at shown
        rw [Core.wbOut, Core.step_memwb, out, WB.out]
        split
        · rfl
        · exact shown.yWrite
      · intro x mark
        rw [Option.mem_def] at mark
        rw [mark] at shown
        obtain ⟨decoded, result, same⟩ := shown
        refine ⟨decoded, result, 0, ?_⟩
        rw [Core.step_memwb, out, same]
  | b =>
      have ack : h.core.dcAck = true := by
        simpa [Core.memPasses, Mem.Regs.passes, state] using passes
      obtain ⟨x, mark, decoded, result, holds⟩ := tracks.waiting state
      rw [Option.mem_def] at mark
      simp only [inMem, state, mark]
      constructor
      · intro none
        cases none
      · intro y same
        obtain rfl := Option.some.inj same
        refine ⟨decoded, result, h.core.memory.dc.pProcDataOut, ?_⟩
        rw [Core.step_memwb, Core.memOut, ack]
        exact holds.entry _ _

theorem Tracks.step (h : Retiring) (events : DramEvents) (tracks : h.Tracks) :
    (h.step syscall events).Tracks where
  spaced := tracks.spaced.step syscall events
  idex := tracks.idex_step
  held := tracks.held_step
  exmem := tracks.exmem_step
  waiting := tracks.waiting_step
  silent := by
    change (if h.core.memPasses then h.inMem else none) = none →
      (h.core.step syscall events).wbOut.yEn = false
    cases passes : h.core.memPasses with
    | true => exact (tracks.memwb_step passes).1
    | false =>
        intro _
        rw [Core.wbOut_step_of_not_passes passes]
  memwb := by
    change ∀ x ∈ (if h.core.memPasses then h.inMem else none), _
    cases passes : h.core.memPasses with
    | true => exact (tracks.memwb_step passes).2
    | false =>
        intro x mark
        cases mark

end

theorem tracks_start (syscall : Syscall) (entry : BitVec 32) (regFile : RegFile) (ram : Ram) :
    (start (Core.start syscall entry regFile ram)).Tracks where
  spaced := Core.spaced_start syscall entry regFile ram
  idex := by
    have decoded : (Core.reset entry regFile ram).DecodeCopied := rfl
    exact Core.decodeOut_yDecoded decoded
  held := by
    intro stalled
    cases stalled
  exmem := by
    change (Core.start syscall entry regFile ram).exmem.Quiet
    constructor <;> rfl
  waiting := by
    intro stalled
    cases stalled
  silent := fun _ => rfl
  memwb := by
    intro x mark
    cases mark

/-- Write-back of an instruction leaves its result bus in Y. -/
theorem writeBack_y {x : IDEX} (decoded : x.YDecoded) (syscall : BitVec 32) (data : BitVec 64)
    (rf : RegFile) :
    (rf.writeBack (WB.out (entry (Execute.live x syscall) data))).y =
      (Execute.aluIn x).busY syscall rf.y := by
  have enable : x.fields.yWrite = Decode.yWrite x.fields.op x.fields.op3 := decoded
  cases writes : Decode.yWrite x.fields.op x.fields.op3 with
  | false =>
      have silent : (WB.out (entry (Execute.live x syscall) data)).yEn = false := by
        rw [WB.out]
        split
        · rfl
        · exact enable.trans writes
      rw [AluIn.busY]
      change (if _ then _ else rf.y) = if Decode.yWrite x.fields.op x.fields.op3 then _ else rf.y
      rw [silent, writes]
      rfl
  | true =>
      have op : x.fields.op = 0b10 := (of_decide_eq_true writes).1
      have busy : isBubble x.fields.op x.fields.op2 x.fields.rd = false := by
        rw [isBubble, op]
        rfl
      have out : WB.out (entry (Execute.live x syscall) data) =
          { regEn := x.fields.regWrite, regDoubleEn := x.fields.regWriteDouble
            data := ((Execute.aluIn x).alu syscall).res, regD := x.fields.rd
            yEn := x.fields.yWrite, iccEn := x.fields.iccWrite
            icc := ((Execute.aluIn x).alu syscall).icc } := by
        have alures : WB.data (entry (Execute.live x syscall) data) =
            ((Execute.aluIn x).alu syscall).res := by
          rw [WB.data, if_neg]
          · rfl
          · change x.fields.op ≠ 0b11
            rw [op]
            decide
        rw [WB.out, alures, if_neg]
        · rfl
        · change ¬ isBubble x.fields.op x.fields.op2 x.fields.rd = true
          rw [busy]
          decide
      rw [out, AluIn.busY]
      change (if x.fields.yWrite then _ else rf.y) =
        if Decode.yWrite x.fields.op x.fields.op3 then _ else rf.y
      rw [enable, writes]

/-- A cycle leaves the right Y exactly if the instruction in write-back is no `MULScc` that
loses its result. -/
theorem Tracks.right_iff {h : Retiring} (tracks : h.Tracks) (syscall : Syscall)
    (events : DramEvents) : Right syscall h events ↔ h.Safe := by
  have next : (h.core.step syscall events).regFile.y = (h.core.regFile.writeBack h.core.wbOut).y :=
    rfl
  rw [Right, next]
  cases mark : h.memwb with
  | none =>
      have silent := tracks.silent mark
      refine iff_of_true ?_ ?_
      · change (if h.core.wbOut.yEn then _ else h.core.regFile.y) = _
        rw [silent]
        rfl
      · rw [Safe, mark]
        intro x none
        cases none
  | some x =>
      obtain ⟨decoded, result, data, same⟩ := tracks.memwb x mark
      rw [Core.wbOut, same, writeBack_y decoded, Safe, mark]
      simp only [Option.elim_some, Option.mem_some_iff, forall_eq']
      exact (Execute.aluIn x).busY_eq_iff result h.core.regFile.y

/-- Every instruction of a run leaves its result in Y, and the others leave Y alone, exactly
if no `MULScc` loses its result. -/
theorem y_results_iff (syscall : Syscall) (entry : BitVec 32) (regFile : RegFile) (ram : Ram)
    (inputs : List DramEvents) :
    Runs.Guarded (step syscall) (Right syscall) (start (Core.start syscall entry regFile ram))
        inputs ↔
      Runs.Guarded (step syscall) (fun h _ => h.Safe)
        (start (Core.start syscall entry regFile ram)) inputs :=
  Runs.guarded_congr (fun h events => Tracks.step h events)
    (fun _ events tracks => tracks.right_iff syscall events)
    (tracks_start syscall entry regFile ram) inputs

/-- After `wr %g0, 4, %y` a `mulscc %g0, %g0, %g1` is to leave 2 in Y and leaves 0. -/
theorem mulscc_loses_y :
    ¬ ∀ (syscall : Syscall) (entry : BitVec 32) (regFile : RegFile) (ram : Ram)
      (inputs : List DramEvents),
      Runs.Guarded (step syscall) (Right syscall) (start (Core.start syscall entry regFile ram))
        inputs := by
  intro right
  have run := right (fun _ ram => (0, ram)) 0 RegFile.reset
    (Ram.ofWords [0x81802004, 0x01000000, 0x83200000])
    (DramEvents.firstFetch ++ List.replicate 10 (.completing []) ++ [.completing []])
  exact absurd run.last (by decide +kernel)

end Retiring

end Sparcy
