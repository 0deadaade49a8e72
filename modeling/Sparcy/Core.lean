import Sparcy.MemorySystem
import Sparcy.Execute
import Sparcy.WriteBack

/-!
# The processor

`Core.sv` wires the five stages, the caches and the arbiter; `System` is the
other end of its bus.  A `Core` is the state during one clock cycle, after the
rising edge and the tick that follows it.
-/

namespace Sparcy

/-- The arguments of `syscall_cse502`: `%g1` and `%o0` to `%o5`. -/
structure SyscallArgs where
  g1 : BitVec 32
  o0 : BitVec 32
  o1 : BitVec 32
  o2 : BitVec 32
  o3 : BitVec 32
  o4 : BitVec 32
  o5 : BitVec 32
deriving DecidableEq

/-- The system-call emulation: the value it returns and what it does to RAM. -/
abbrev Syscall := SyscallArgs → Ram → BitVec 32 × Ram

structure Core where
  fetch : Fetch.Regs
  ifid : IFID
  decode : Decode.Regs
  regFile : RegFile
  idex : IDEX
  execute : Execute.Regs
  /-- What the call of `syscall_cse502` returned when the ALU block settled. -/
  syscallResult : BitVec 32
  exmem : EXMem
  mem : Mem.Regs
  memwb : MemWB
  memory : MemorySystem

namespace Core

/-! ### The signals of a cycle -/

/-- `ic_ack` and `dc_ack`. -/
def icAck (s : Core) : Bool := s.memory.ic.pAck

def dcAck (s : Core) : Bool := s.memory.dc.pAck

/-- `id_ready`, `ex_ready` and `mem_ready`. -/
def idReady (s : Core) : Bool := s.decode.idReady

def exReady (s : Core) : Bool := s.execute.exReady

def memReady (s : Core) : Bool := s.mem.memReady

/-- The tuple Execute drives into `EXMemReg`. -/
def exOut (s : Core) : EXMem := s.execute.out s.idex s.syscallResult

/-- The tuple Mem drives into `MemWBReg`. -/
def memOut (s : Core) : MemWB := s.mem.out s.exmem s.dcAck s.memory.dc.pProcDataOut

/-- The outputs of `WB`. -/
def wbOut (s : Core) : WBOut := WB.out s.memwb

/-- The report of WB.  Its double enable is wired to `MemWB_regWriteDouble_out`
and its Y port is left unconnected. -/
def wbHazard (s : Core) : Decode.Hazard :=
  { rd := s.wbOut.regD
    regWrite := s.wbOut.regEn
    regWriteDouble := s.memwb.regWriteDouble
    iccWrite := s.wbOut.iccEn
    yWrite := false }

/-- What the three later stages report to decode. -/
def hazards (s : Core) : Decode.Hazards :=
  { ex := s.execute.hazard s.idex
    mem := s.mem.hazard s.exmem
    wb := s.wbHazard }

/-- Decode hands an instruction to `IDEXReg` at the end of the cycle. -/
def releases (s : Core) : Bool := s.decode.releases s.ifid s.hazards s.exReady

/-- The instruction under decode. -/
def decoding (s : Core) : Inst := s.decode.nInst s.ifid

def cwpInc (s : Core) : Bool := s.decode.cwpInc s.ifid s.hazards s.exReady

def cwpDec (s : Core) : Bool := s.decode.cwpDec s.ifid s.hazards s.exReady

/-- What decode and the register file drive into `IDEXReg`. -/
def decodeOut (s : Core) : IDEX :=
  { pcPlus4 := s.decode.outPc s.ifid s.hazards
    fields := s.decode.outFields s.ifid s.hazards
    operands := Decode.operands s.regFile s.decoding }

/-- The requests to the two caches. -/
def icRequest (s : Core) : IcRequest := s.fetch.request s.icAck

def dcRequest (s : Core) : DcRequest := s.mem.request s.exmem s.dcAck

/-! ### One clock cycle -/

/-- The trap arguments in `IDEXReg`. -/
def syscallArgs (x : IDEX) : SyscallArgs :=
  { g1 := x.operands.g1, o0 := x.operands.o0, o1 := x.operands.o1, o2 := x.operands.o2
    o3 := x.operands.o3, o4 := x.operands.o4, o5 := x.operands.o5 }

/-- `count` calls of `syscall_cse502` in a row; the last result stays. -/
def callTimes (syscall : Syscall) (args : SyscallArgs) (result : BitVec 32) (ram : Ram) :
    Nat → BitVec 32 × Ram
  | 0 => (result, ram)
  | count + 1 => syscall args (callTimes syscall args result ram count).2

/-- The calls the ALU block makes when it settles on new contents of `IDEXReg`. -/
def runSyscalls (syscall : Syscall) (x : IDEX) (result : BitVec 32) (ram : Ram) :
    BitVec 32 × Ram :=
  callTimes syscall (syscallArgs x) result ram (Execute.aluIn x).syscalls

/-- The registers after the rising edge and the tick, the instruction-cache
request being given.  A system call sees the RAM before the tick. -/
def stepWith (syscall : Syscall) (s : Core) (ip : IcRequest) (events : DramEvents) : Core :=
  let idex := s.idex.step s.decodeOut s.exReady
  let called := runSyscalls syscall idex s.syscallResult s.memory.sys.ram
  let memory := { s.memory with sys := { s.memory.sys with ram := called.2 } }
  { fetch := s.fetch.step s.icAck s.memory.ic.pProcDataOut s.idReady s.exOut.muxSel
      s.exOut.target
    ifid := s.ifid.step s.fetch.out s.idReady
    decode := s.decode.step s.ifid s.hazards s.exReady
    regFile := s.regFile.step s.wbOut s.cwpInc s.cwpDec
    idex := idex
    execute := s.execute.step s.idex s.memReady s.syscallResult
    syscallResult := called.1
    exmem := s.exmem.step s.exOut s.memReady
    mem := s.mem.step s.exmem s.dcAck
    memwb := s.memOut
    memory := memory.step ip s.dcRequest events }

/-- One clock cycle. -/
def step (syscall : Syscall) (s : Core) (events : DramEvents) : Core :=
  s.stepWith syscall s.icRequest events

/-- The state while reset is active. -/
def reset (entry : BitVec 32) (regFile : RegFile) (ram : Ram) : Core :=
  { fetch := Fetch.reset entry
    ifid := IFID.reset
    decode := Decode.Regs.reset
    regFile := regFile
    idex := IDEX.reset
    execute := Execute.reset
    syscallResult := 0
    exmem := EXMem.reset
    mem := Mem.reset
    memwb := MemWB.reset
    memory := MemorySystem.reset ram }

/-- The state after the first rising edge without reset.  The falling edge before
it was still under reset and left `p_ic_req` at 0, so that edge starts no
instruction-cache access. -/
def start (syscall : Syscall) (entry : BitVec 32) (regFile : RegFile) (ram : Ram) : Core :=
  (reset entry regFile ram).stepWith syscall
    { (reset entry regFile ram).icRequest with req := false }
    { accepts := true, completed := [], key := false }

/-- A program at address 0 with all registers 0 and no system-call emulation. -/
def boot (words : List (BitVec 32)) : Core :=
  start (fun _ ram => (0, ram)) 0 RegFile.reset (Ram.ofWords words)

/-! ### The components of the next cycle -/

section

variable (syscall : Syscall) (s : Core) (events : DramEvents)

@[simp]
theorem step_fetch : (s.step syscall events).fetch =
    s.fetch.step s.icAck s.memory.ic.pProcDataOut s.idReady s.exOut.muxSel s.exOut.target := rfl

@[simp]
theorem step_ifid : (s.step syscall events).ifid = s.ifid.step s.fetch.out s.idReady := rfl

@[simp]
theorem step_decode :
    (s.step syscall events).decode = s.decode.step s.ifid s.hazards s.exReady := rfl

@[simp]
theorem step_regFile :
    (s.step syscall events).regFile = s.regFile.step s.wbOut s.cwpInc s.cwpDec := rfl

@[simp]
theorem step_idex : (s.step syscall events).idex = s.idex.step s.decodeOut s.exReady := rfl

@[simp]
theorem step_execute :
    (s.step syscall events).execute = s.execute.step s.idex s.memReady s.syscallResult := rfl

@[simp]
theorem step_exmem : (s.step syscall events).exmem = s.exmem.step s.exOut s.memReady := rfl

@[simp]
theorem step_mem : (s.step syscall events).mem = s.mem.step s.exmem s.dcAck := rfl

@[simp]
theorem step_memwb : (s.step syscall events).memwb = s.memOut := rfl

@[simp]
theorem step_ic : (s.step syscall events).memory.ic =
    s.memory.ic.step s.icRequest (s.memory.icResponse events) := rfl

@[simp]
theorem step_dc : (s.step syscall events).memory.dc =
    s.memory.dc.step s.dcRequest (s.memory.dcResponse events) := rfl

end

end Core

end Sparcy
