import Sparcy.ExecuteStall
import Sparcy.PipelineSpacing
import Sparcy.Library.Runs

/-!
# The flow through the back end

Decode, Execute, Mem and write-back for any words in `IFIDReg`, at any spacing, and any
acknowledgements of the data cache.  Each of the three stages holds an instruction of
its own beside the pipeline register in front of it; a stage lemma says what comes out
of the two, and the lemmas are put together by conservation.
-/

namespace Sparcy

/-- The pipeline from `IFIDReg` on, with the window pointer. -/
structure BackEnd where
  ifid : IFID
  decode : Decode.Regs
  idex : IDEX
  execute : Execute.Regs
  exmem : EXMem
  mem : Mem.Regs
  memwb : MemWB
  cwp : BitVec 5

namespace BackEnd

/-- What the surroundings drive in a cycle: the next word for `IFIDReg`, the outputs of
the register file, the result of a system call, and the answer of the data cache. -/
structure Input where
  word : IFID
  operands : Operands
  syscall : BitVec 32
  dcAck : Bool
  dcData : BitVec 64

/-! ### One clock cycle -/

/-- The tuples driven into `EXMemReg` and `MemWBReg`. -/
def exOut (s : BackEnd) (input : Input) : EXMem := s.execute.out s.idex input.syscall

def memOut (s : BackEnd) (input : Input) : MemWB :=
  s.mem.out s.exmem input.dcAck input.dcData

/-- The reports to decode. -/
def hazards (s : BackEnd) : Decode.Hazards :=
  { ex := s.execute.hazard s.idex
    mem := s.mem.hazard s.exmem
    wb :=
      { rd := (WB.out s.memwb).regD
        regWrite := (WB.out s.memwb).regEn
        regWriteDouble := s.memwb.regWriteDouble
        iccWrite := (WB.out s.memwb).iccEn
        yWrite := false } }

/-- What is driven into `IDEXReg`. -/
def decodeOut (s : BackEnd) (input : Input) : IDEX :=
  { pcPlus4 := s.decode.outPc s.ifid s.hazards
    fields := s.decode.outFields s.ifid s.hazards
    operands := input.operands }

def step (s : BackEnd) (input : Input) : BackEnd :=
  { ifid := s.ifid.step input.word s.decode.idReady
    decode := s.decode.step s.ifid s.hazards s.execute.exReady
    idex := s.idex.step (s.decodeOut input) s.execute.exReady
    execute := s.execute.step s.idex s.mem.memReady input.syscall
    exmem := s.exmem.step (s.exOut input) s.mem.memReady
    mem := s.mem.step s.exmem input.dcAck
    memwb := s.memOut input
    cwp :=
      if s.decode.cwpDec s.ifid s.hazards s.execute.exReady then s.cwp - 1
      else if s.decode.cwpInc s.ifid s.hazards s.execute.exReady then s.cwp + 1
      else s.cwp }

/-- This part of the processor. -/
def ofCore (s : Core) : BackEnd :=
  { ifid := s.ifid, decode := s.decode, idex := s.idex, execute := s.execute
    exmem := s.exmem, mem := s.mem, memwb := s.memwb, cwp := s.regFile.cwp }

theorem ofCore_step (syscall : Syscall) (s : Core) (events : DramEvents) :
    ofCore (s.step syscall events) =
      (ofCore s).step
        { word := s.fetch.out, operands := s.decodeOut.operands, syscall := s.syscallResult
          dcAck := s.dcAck, dcData := s.memory.dc.pProcDataOut } := rfl

/-! ### Instructions in flight -/

/-- What is followed of an instruction through the stages: destination, opcode fields
and write enables. -/
structure Item where
  rd : BitVec 5
  op : BitVec 2
  op2 : BitVec 3
  op3 : BitVec 6
  regWrite : Bool
  regWriteDouble : Bool
  iccWrite : Bool
  yWrite : Bool
deriving DecidableEq

end BackEnd

/-- The instruction in a pipeline register. -/
def Fields.item (x : Fields) : BackEnd.Item :=
  { rd := x.rd, op := x.op, op2 := x.op2, op3 := x.op3, regWrite := x.regWrite
    regWriteDouble := x.regWriteDouble, iccWrite := x.iccWrite, yWrite := x.yWrite }

def EXMem.item (x : EXMem) : BackEnd.Item :=
  { rd := x.regD, op := x.op, op2 := x.op2, op3 := x.op3, regWrite := x.regWrite
    regWriteDouble := x.regWriteDouble, iccWrite := x.iccWrite, yWrite := x.yWrite }

def MemWB.item (x : MemWB) : BackEnd.Item :=
  { rd := x.regD, op := x.op, op2 := x.op2, op3 := x.op3, regWrite := x.regWrite
    regWriteDouble := x.regWriteDouble, iccWrite := x.iccWrite, yWrite := x.yWrite }

namespace BackEnd

/-- The pattern of `NOP` and `SETHI` to `%g0`, and what decode makes of `STBAR`. -/
def Item.isDropped (i : Item) : Bool :=
  isBubble i.op i.op2 i.rd || i == (Decode.bubbleFields Inst.stbar).item

/-- `NOP`, `STBAR` and `SETHI` to `%g0`. -/
def dropsWord (inst : Inst) : Bool :=
  inst == Inst.stbar || isBubble inst.op inst.op2 inst.rd

/-- What is left of an instruction after the dropping. -/
def keep (i : Item) : Option Item := if i.isDropped then none else some i

/-- The copy of Mem. -/
def memCopy (r : Mem.Regs) : Item :=
  { rd := r.pRegd, op := r.pOp, op2 := r.pOp2, op3 := r.pOp3, regWrite := r.pRegWrite
    regWriteDouble := r.pRegWriteDouble, iccWrite := r.pIccWrite, yWrite := r.pYWrite }

/-- The instructions of Mem: its copy, and `EXMemReg`. -/
def heldByMem (s : BackEnd) : List Item :=
  match s.mem.pState with
  | .a => (keep s.exmem.item).toList
  | .b => (keep (memCopy s.mem)).toList ++ (keep s.exmem.item).toList

/-- The instructions of Execute: its copy, and `IDEXReg`. -/
def heldByExecute (s : BackEnd) : List Item :=
  match s.execute.pState with
  | .a => (keep s.idex.fields.item).toList
  | .b => (keep s.execute.held.item).toList ++ (keep s.idex.fields.item).toList

/-- The instruction that decode holds back. -/
def heldByDecode (s : BackEnd) : List Item :=
  match s.decode.pState with
  | .a => []
  | _ => (keep (s.decode.nFields s.ifid).item).toList

/-- The instructions in flight, the oldest one first. -/
def inFlight (s : BackEnd) : List Item := s.heldByMem ++ s.heldByExecute ++ s.heldByDecode

/-- The instruction that decode accepts from `IFIDReg`, and the one that `MemWBReg`
takes. -/
def accepted (s : BackEnd) (_ : Input) : Option Item :=
  if s.decode.idReady && !dropsWord s.ifid.inst then
    some (Decode.decodeFields s.ifid.inst).item
  else none

def entered (s : BackEnd) (input : Input) : Option Item := keep (s.memOut input).item

section

variable {s : BackEnd} {input : Input}

/-- An instruction is dropped for its word. -/
theorem isDropped_decodeFields (inst : Inst) :
    (Decode.decodeFields inst).item.isDropped = isBubble inst.op inst.op2 inst.rd := by
  have pattern : isBubble inst.op inst.op2 (Decode.destination inst) =
      isBubble inst.op inst.op2 inst.rd := by
    rw [Decode.destination]
    by_cases call : inst.op = 0b01
    · simp [isBubble, call]
    · by_cases trap : inst.op = 0b10
      · simp [isBubble, trap]
      · rw [if_neg call, if_neg (fun both => trap both.1)]
  have other : (Decode.decodeFields inst).item ≠ (Decode.bubbleFields Inst.stbar).item := by
    intro same
    have op : inst.op = 0b10 := congrArg Item.op same
    have op3 : inst.op3 = Op3.RDY := congrArg Item.op3 same
    have writes : Decode.regWrite inst.op inst.op3 inst.op2 inst.cond = false :=
      congrArg Item.regWrite same
    simp [Decode.regWrite, op, op3] at writes
  rw [Item.isDropped, beq_eq_false_iff_ne.mpr other, Bool.or_false]
  exact pattern

theorem keep_of_bubble {i : Item} (bubble : isBubble i.op i.op2 i.rd = true) : keep i = none := by
  simp [keep, Item.isDropped, bubble]

theorem keep_bubbleFields {inst : Inst} (nop : Decode.isNop inst = true) :
    keep (Decode.bubbleFields inst).item = none := by
  rw [Decode.isNop, Bool.or_eq_true, beq_iff_eq, beq_iff_eq] at nop
  rcases nop with rfl | rfl <;> decide

theorem dropsWord_of_isNop {inst : Inst} (nop : Decode.isNop inst = true) :
    dropsWord inst = true := by
  rw [Decode.isNop, Bool.or_eq_true, beq_iff_eq, beq_iff_eq] at nop
  rcases nop with rfl | rfl <;> decide

/-! ### The three stages -/

theorem mem_flow (s : BackEnd) (input : Input) :
    (s.entered input).toList ++ (s.step input).heldByMem =
      s.heldByMem ++ if s.mem.memReady then (keep (s.exOut input).item).toList else [] := by
  cases state : s.mem.pState with
  | a =>
      have ready : s.mem.memReady = true := by simp [Mem.Regs.memReady, state]
      have loads : (s.step input).exmem = s.exOut input := by simp [step, EXMem.step, ready]
      cases access : Mem.accesses s.exmem with
      | false =>
          have next : (s.step input).mem.pState = .a := by
            simp [step, Mem.Regs.step, Mem.Regs.nState, state, access]
          have shown : (s.memOut input).item = s.exmem.item := by
            simp [memOut, Mem.Regs.out, Mem.Regs.passes, state, access, MemWB.item, EXMem.item]
          simp only [heldByMem, state, next, entered, shown, loads, ready, if_true]
      | true =>
          have next : (s.step input).mem.pState = .b := by
            simp [step, Mem.Regs.step, Mem.Regs.nState, state, access]
          have bubble : s.entered input = none := by
            apply keep_of_bubble
            simp [memOut, Mem.Regs.out, Mem.Regs.passes, state, access, MemWB.item, isBubble]
          have copied : memCopy (s.step input).mem = s.exmem.item := by
            simp [step, Mem.Regs.step, Mem.Regs.copy, state, memCopy, EXMem.item]
          simp only [heldByMem, state, next, bubble, copied, loads, ready, if_true,
            Option.toList_none, List.nil_append]
  | b =>
      have ready : s.mem.memReady = false := by simp [Mem.Regs.memReady, state]
      have kept : (s.step input).exmem = s.exmem := by simp [step, EXMem.step, ready]
      cases ack : input.dcAck with
      | false =>
          have next : (s.step input).mem.pState = .b := by
            simp [step, Mem.Regs.step, Mem.Regs.nState, state, ack]
          have bubble : s.entered input = none := by
            apply keep_of_bubble
            simp [memOut, Mem.Regs.out, Mem.Regs.passes, state, ack, MemWB.item, isBubble]
          have copied : memCopy (s.step input).mem = memCopy s.mem := by
            simp [step, Mem.Regs.step, Mem.Regs.copy, state, memCopy]
          simp [heldByMem, state, next, bubble, copied, kept, ready]
      | true =>
          have next : (s.step input).mem.pState = .a := by
            simp [step, Mem.Regs.step, Mem.Regs.nState, state, ack]
          have shown : (s.memOut input).item = memCopy s.mem := by
            simp [memOut, Mem.Regs.out, Mem.Regs.passes, state, ack, MemWB.item, memCopy]
          simp [heldByMem, state, next, entered, shown, kept, ready]

theorem execute_flow (calm : s.execute.annulIn = false) (input : Input) :
    (if s.mem.memReady then (keep (s.exOut input).item).toList else []) ++
        (s.step input).heldByExecute =
      s.heldByExecute ++
        if s.execute.exReady then (keep (s.decodeOut input).fields.item).toList else [] := by
  cases state : s.execute.pState with
  | a =>
      have ready : s.execute.exReady = true := by simp [Execute.Regs.exReady, calm, state]
      have loads : (s.step input).idex = s.decodeOut input := by simp [step, IDEX.step, ready]
      have shown : (s.exOut input).item = s.idex.fields.item := by
        simp [exOut, Execute.Regs.out, calm, state, Execute.live, EXMem.item, Fields.item]
      cases busy : s.mem.memReady with
      | true =>
          have next : (s.step input).execute.pState = .a := by
            simp [step, Execute.Regs.step, Execute.Regs.nState, state, busy]
          simp only [heldByExecute, state, next, shown, loads, ready, if_true]
      | false =>
          cases idle : Execute.idle s.idex with
          | true =>
              have next : (s.step input).execute.pState = .a := by
                simp [step, Execute.Regs.step, Execute.Regs.nState, state, idle]
              have bubble : keep s.idex.fields.item = none := keep_of_bubble idle
              simp [heldByExecute, state, next, bubble, loads, ready]
          | false =>
              have next : (s.step input).execute.pState = .b := by
                simp [step, Execute.Regs.step, Execute.Regs.nState, state, idle, busy]
              have copied : (s.step input).execute.held.item = s.idex.fields.item := by
                simp [step, Execute.Regs.step, Execute.Regs.copy, state, Execute.Regs.held,
                  EXMem.item, Fields.item]
              simp [heldByExecute, state, next, copied, loads, ready]
  | b =>
      have ready : s.execute.exReady = false := Execute.Regs.exReady_of_held state calm
      have kept : (s.step input).idex = s.idex := by simp [step, IDEX.step, ready]
      have shown : s.exOut input = s.execute.held := by
        simp [exOut, Execute.Regs.out, calm, state]
      cases busy : s.mem.memReady with
      | true =>
          have next : (s.step input).execute.pState = .a := by
            simp [step, Execute.Regs.step, Execute.Regs.nState, state, busy]
          simp [heldByExecute, state, next, shown, kept, ready]
      | false =>
          have next : (s.step input).execute.pState = .b := by
            simp [step, Execute.Regs.step, Execute.Regs.nState, state, busy]
          have copied : (s.step input).execute.held = s.execute.held := by
            simp [step, Execute.Regs.step, Execute.Regs.copy, state, Execute.Regs.held]
          simp [heldByExecute, state, next, copied, kept, ready]

/-- The instruction that decode works on. -/
def decoding (s : BackEnd) : Option Item :=
  match s.decode.pState with
  | .a => if dropsWord s.ifid.inst then none else some (Decode.decodeFields s.ifid.inst).item
  | _ => keep (s.decode.nFields s.ifid).item

theorem decoding_eq (s : BackEnd) (input : Input) :
    s.decoding.toList = s.heldByDecode ++ (s.accepted input).toList := by
  cases state : s.decode.pState <;>
    simp [decoding, heldByDecode, accepted, Decode.Regs.idReady, state]
  cases dropsWord s.ifid.inst <;> simp

/-- A word that is not one of the two no-ops goes through decode as its instruction. -/
theorem keep_nFields (word : s.decode.passesNop s.ifid = false) :
    keep (s.decode.nFields s.ifid).item = s.decoding := by
  cases state : s.decode.pState with
  | a =>
      simp only [Decode.Regs.passesNop, state, beq_self_eq_true, Bool.true_and] at word
      have other : (s.ifid.inst == Inst.stbar) = false := by
        rw [Decode.isNop, Bool.or_eq_false_iff] at word
        exact word.2
      simp only [Decode.Regs.nFields, decoding, state, keep, isDropped_decodeFields, dropsWord,
        other, Bool.false_or]
  | b => simp only [decoding, state]
  | s => simp only [decoding, state]

/-- Decode hands its instruction on, or holds it. -/
theorem decode_flow (s : BackEnd) (input : Input) :
    (if s.execute.exReady then (keep (s.decodeOut input).fields.item).toList else []) ++
        (s.step input).heldByDecode =
      s.heldByDecode ++ (s.accepted input).toList := by
  rw [← decoding_eq]
  cases passes : s.decode.passesNop s.ifid with
  | true =>
      have next : (s.step input).decode.pState = .a := by
        simp [step, Decode.Regs.step, Decode.Regs.nState, passes]
      have fields : (s.decodeOut input).fields = Decode.bubbleFields s.ifid.inst := by
        simp [decodeOut, Decode.Regs.outFields, passes]
      simp only [Decode.Regs.passesNop, Bool.and_eq_true, beq_iff_eq] at passes
      have nothing : s.decoding = none := by
        simp [decoding, passes.1, dropsWord_of_isNop passes.2]
      simp [heldByDecode, next, nothing, fields, keep_bubbleFields passes.2]
  | false =>
      have word := keep_nFields passes
      have held : (s.step input).decode.pState ≠ .a →
          (s.step input).heldByDecode = s.decoding.toList := by
        intro busy
        rw [← word]
        have fields : (s.step input).decode.nFields (s.step input).ifid =
            s.decode.nFields s.ifid := by
          cases next : (s.step input).decode.pState with
          | a => exact absurd next busy
          | b =>
              simp only [Decode.Regs.nFields, next]
              cases state : s.decode.pState <;>
                simp [step, Decode.Regs.step, Decode.Regs.nInst, Decode.Regs.nFields, state,
                  Decode.decodeFields, Decode.fieldsOf]
          | s =>
              simp only [Decode.Regs.nFields, next]
              cases state : s.decode.pState <;>
                simp [step, Decode.Regs.step, Decode.Regs.nInst, Decode.Regs.nFields, state,
                  Decode.decodeFields, Decode.fieldsOf]
        rw [heldByDecode, fields]
        cases next : (s.step input).decode.pState with
        | a => exact absurd next busy
        | b => rfl
        | s => rfl
      cases waits : s.decode.waits s.ifid s.hazards with
      | true =>
          have next : (s.step input).decode.pState = .s := by
            simp [step, Decode.Regs.step, Decode.Regs.nState, passes, waits]
          have fields : (s.decodeOut input).fields = Decode.stallFields := by
            simp [decodeOut, Decode.Regs.outFields, passes, waits]
          have bubble : keep Decode.stallFields.item = none := by decide
          rw [held (by rw [next]; decide), fields, bubble]
          simp
      | false =>
          have fields : (s.decodeOut input).fields = s.decode.nFields s.ifid := by
            simp [decodeOut, Decode.Regs.outFields, passes, waits]
          cases ready : s.execute.exReady with
          | true =>
              have next : (s.step input).decode.pState = .a := by
                simp [step, Decode.Regs.step, Decode.Regs.nState, passes, waits, ready]
              have free : (s.step input).heldByDecode = [] := by simp only [heldByDecode, next]
              rw [if_pos rfl, fields, word, free, List.append_nil]
          | false =>
              have next : (s.step input).decode.pState = .b := by
                simp [step, Decode.Regs.step, Decode.Regs.nState, passes, waits, ready]
              rw [held (by rw [next]; decide)]
              rfl

end

/-! ### Runs -/

/-- A branch with `a = 1`. -/
def annulling (inst : Inst) : Bool := Execute.isBicc inst.op inst.op2 && inst.a

def annullingFields (x : Fields) : Bool := Execute.isBicc x.op x.op2 && x.a

def annullingCopy (r : Execute.Regs) : Bool := Execute.isBicc r.pOp r.pOp2 && r.pA

/-- No branch with `a = 1` is in decode or Execute, and nothing is being annulled. -/
structure Calm (s : BackEnd) : Prop where
  kept : s.execute.annulIn = false
  ifid : annulling s.ifid.inst = false
  decode : annulling s.decode.pInst = false
  idex : annullingFields s.idex.fields = false
  copy : annullingCopy s.execute = false

section

variable {s : BackEnd} {input : Input}

theorem Calm.decoding (calm : s.Calm) : annulling (s.decode.nInst s.ifid) = false := by
  cases state : s.decode.pState <;> simp only [Decode.Regs.nInst, state]
  · exact calm.ifid
  · exact calm.decode
  · exact calm.decode

theorem Calm.annulOut (calm : s.Calm) (memReady : Bool) (syscall : BitVec 32) :
    s.execute.annulOut s.idex memReady syscall = false := by
  have idex := calm.idex
  have copy := calm.copy
  rw [annullingFields] at idex
  rw [annullingCopy] at copy
  cases state : s.execute.pState with
  | a =>
      simp only [Execute.Regs.annulOut, state]
      split
      · exact calm.kept
      · have quiet : Execute.requestsAnnul s.idex = false := by
          simp [Execute.requestsAnnul, idex]
        rw [Execute.isBicc_and_aluOut_a, quiet, Bool.and_false]
  | b => simp only [Execute.Regs.annulOut, state, copy, Bool.and_false]

theorem Calm.decodeOut (calm : s.Calm) (input : Input) :
    annullingFields (s.decodeOut input).fields = false := by
  have quiet := calm.decoding
  change annullingFields (s.decode.outFields s.ifid s.hazards) = false
  rw [Decode.Regs.outFields]
  split
  · rename_i passes
    simp only [Decode.Regs.passesNop, Decode.isNop, Bool.and_eq_true, Bool.or_eq_true,
      beq_iff_eq] at passes
    rcases passes.2 with nop | nop <;> rw [nop] <;> decide
  · split
    · decide
    · cases state : s.decode.pState <;>
        simp only [Decode.Regs.nFields, Decode.Regs.nInst, state] at quiet ⊢ <;>
        exact quiet

theorem Calm.step (calm : s.Calm) (harmless : annulling input.word.inst = false) :
    (s.step input).Calm where
  kept := calm.annulOut _ _
  ifid := by
    change annulling (s.ifid.step input.word s.decode.idReady).inst = false
    rw [IFID.step]
    split
    · exact harmless
    · exact calm.ifid
  decode := calm.decoding
  idex := by
    change annullingFields (s.idex.step (s.decodeOut input) s.execute.exReady).fields = false
    rw [IDEX.step]
    split
    · exact calm.decodeOut input
    · exact calm.idex
  copy := by
    change annullingCopy (s.execute.copy s.idex input.syscall) = false
    cases state : s.execute.pState with
    | a =>
        rw [Execute.Regs.copy, state]
        exact calm.idex
    | b =>
        rw [Execute.Regs.copy_of_held _ _ state]
        exact calm.copy

/-- What one cycle moves into and out of the instructions in flight. -/
theorem flow_step (calm : s.Calm) (input : Input) :
    (s.entered input).toList ++ (s.step input).inFlight =
      s.inFlight ++ (s.accepted input).toList := by
  have mem := mem_flow s input
  have execute := execute_flow calm.kept input
  have decode := decode_flow s input
  calc (s.entered input).toList ++ (s.step input).inFlight
      = ((s.entered input).toList ++ (s.step input).heldByMem) ++
          ((s.step input).heldByExecute ++ (s.step input).heldByDecode) := by
        simp only [inFlight, List.append_assoc]
    _ = s.heldByMem ++ ((if s.mem.memReady then (keep (s.exOut input).item).toList else []) ++
          (s.step input).heldByExecute) ++ (s.step input).heldByDecode := by
        rw [mem]
        simp only [List.append_assoc]
    _ = s.heldByMem ++ s.heldByExecute ++
          ((if s.execute.exReady then (keep (s.decodeOut input).fields.item).toList else []) ++
            (s.step input).heldByDecode) := by
        rw [execute]
        simp only [List.append_assoc]
    _ = s.inFlight ++ (s.accepted input).toList := by
        rw [decode, inFlight]
        simp only [List.append_assoc]

/-! ### Released words and the window -/

/-- The word that decode accepts, unless it is a no-op, and the one that it releases. -/
def acceptedWord (s : BackEnd) (_ : Input) : Option Inst :=
  if s.decode.idReady && !Decode.isNop s.ifid.inst then some s.ifid.inst else none

def released (s : BackEnd) (_ : Input) : Option Inst :=
  if s.decode.releases s.ifid s.hazards s.execute.exReady then some (s.decode.nInst s.ifid)
  else none

/-- The word that decode holds back. -/
def heldWord (s : BackEnd) : List Inst := if s.decode.idReady then [] else [s.decode.pInst]

/-- A `SAVE` moves to the previous window, a `RESTORE` to the next one. -/
def moveWindow (cwp : BitVec 5) (inst : Inst) : BitVec 5 :=
  if inst.op = 0b10 ∧ inst.op3 = Op3.SAVE then cwp - 1
  else if inst.op = 0b10 ∧ inst.op3 = Op3.RESTORE then cwp + 1
  else cwp

theorem release_step (s : BackEnd) (input : Input) :
    (s.released input).toList ++ (s.step input).heldWord =
      s.heldWord ++ (s.acceptedWord input).toList := by
  have next : (s.step input).decode.pState =
      s.decode.nState s.ifid s.hazards s.execute.exReady := rfl
  have kept : (s.step input).decode.pInst = s.decode.nInst s.ifid := rfl
  cases state : s.decode.pState <;>
    cases passes : s.decode.passesNop s.ifid <;>
    cases waits : s.decode.waits s.ifid s.hazards <;>
    cases ready : s.execute.exReady <;>
    simp_all [heldWord, released, acceptedWord, Decode.Regs.idReady, Decode.Regs.nState,
      Decode.Regs.releases, Decode.Regs.nInst, Decode.Regs.passesNop, Decode.Regs.waits]

theorem cwp_step (s : BackEnd) (input : Input) :
    (s.step input).cwp = (s.released input).elim s.cwp (moveWindow s.cwp) := by
  change (if s.decode.cwpDec s.ifid s.hazards s.execute.exReady then s.cwp - 1
    else if s.decode.cwpInc s.ifid s.hazards s.execute.exReady then s.cwp + 1 else s.cwp) = _
  cases moves : s.decode.releases s.ifid s.hazards s.execute.exReady <;>
    simp [Decode.Regs.cwpDec, Decode.Regs.cwpInc, released, moveWindow, moves]

/-- Nothing is written without an instruction in `MemWBReg`. -/
theorem wb_of_dropped (x : MemWB) (dropped : x.item.isDropped = true) :
    (WB.out x).regEn = false ∧ (WB.out x).iccEn = false ∧ (WB.out x).yEn = false := by
  cases bubble : isBubble x.op x.op2 x.regD with
  | true => simp [WB.out, bubble]
  | false =>
      have same : x.item = (Decode.bubbleFields Inst.stbar).item := by
        have pattern : isBubble x.item.op x.item.op2 x.item.rd = false := bubble
        simpa [Item.isDropped, pattern] using dropped
      simp only [WB.out, bubble]
      exact ⟨congrArg Item.regWrite same, congrArg Item.iccWrite same, congrArg Item.yWrite same⟩

end

/-- The instructions that enter `MemWBReg` are those that decode accepts, in order, each
once and as decoded; the window moves once for each `SAVE` and `RESTORE` that decode
releases; and without an instruction in `MemWBReg` nothing is written. -/
structure Flows (s : BackEnd) (inputs : List Input) : Prop where
  inOrder : Runs.emits step entered s inputs ++ (Runs.run step s inputs).inFlight =
    s.inFlight ++ Runs.emits step accepted s inputs
  words : Runs.emits step released s inputs ++ (Runs.run step s inputs).heldWord =
    s.heldWord ++ Runs.emits step acceptedWord s inputs
  window : (Runs.run step s inputs).cwp = (Runs.emits step released s inputs).foldl moveWindow s.cwp
  silent : Runs.Always step (fun s => s.memwb.item.isDropped = true →
    (WB.out s.memwb).regEn = false ∧ (WB.out s.memwb).iccEn = false ∧
      (WB.out s.memwb).yEn = false) s inputs

theorem flows_in_order (s : BackEnd) (calm : s.Calm) (inputs : List Input)
    (harmless : ∀ input ∈ inputs, annulling input.word.inst = false) : s.Flows inputs := by
  have guarded : Runs.Guarded step (fun _ input => annulling input.word.inst = false) s inputs :=
    Runs.guarded_of_forall (fun input member _ => harmless input member) s
  refine ⟨?_, ?_, ?_, ?_⟩
  · exact guarded.conserves (fun _ _ calm harmless => calm.step harmless)
      (fun s input calm _ => flow_step calm input) calm
  · exact guarded.conserves (fun _ _ calm harmless => calm.step harmless)
      (fun s input _ _ => release_step s input) calm
  · exact guarded.simulates (fun _ _ calm harmless => calm.step harmless)
      (fun s input _ _ => cwp_step s input) calm
  · exact (guarded.always (fun _ _ calm harmless => calm.step harmless) calm).mono
      fun s _ => wb_of_dropped s.memwb

/-- After a reset.  `IDEXReg` and `EXMemReg` reset to zeros, which are not the no-op
but write nothing either. -/
def reset : BackEnd :=
  { ifid := IFID.reset, decode := Decode.Regs.reset, idex := IDEX.reset
    execute := Execute.reset, exmem := EXMem.reset, mem := Mem.reset, memwb := MemWB.reset
    cwp := 1 }

theorem inFlight_reset :
    reset.inFlight = [EXMem.reset.item, IDEX.reset.fields.item] ∧
      EXMem.reset.item = IDEX.reset.fields.item ∧ EXMem.reset.item.regWrite = false ∧
      EXMem.reset.item.iccWrite = false ∧ EXMem.reset.item.yWrite = false := by decide

/-- `ld [%g0], %g1` and, in the next cycle, `save %g1, 0, %g2`; the load is acknowledged
at once.  Both are written back. -/
theorem flows_in_order_load :
    reset.Flows
      ([⟨⟨4, 0xc2000000⟩, Operands.reset, 0, false, 0⟩,
        ⟨⟨8, 0x85e06000⟩, Operands.reset, 0, true, 0⟩] ++
        List.replicate 8 ⟨⟨0, Inst.nop⟩, Operands.reset, 0, true, 0⟩) :=
  flows_in_order reset ⟨by decide, by decide, by decide, by decide, by decide⟩ _ (by decide)

end BackEnd

end Sparcy
