import Sparcy.AluResults
import Sparcy.LineBytes

/-!
# `SWAP` and `LDSTUB`

Mem lists both among the store and load types, but `SWAP` is only a store for `store_op`
and `load_op`, and `LDSTUB` is neither.  Write-back keeps the result of the ALU for both, so
`rd` receives the address.
-/

namespace Sparcy

open MemPath (requestOf entry)
open Words (word)

namespace Ram

/-- Replace the bytes from an address on. -/
def put (ram : Ram) (a size : Nat) (bytes : Nat → BitVec 8) : Ram := fun b =>
  if a ≤ b.toNat ∧ b.toNat < a + size then bytes (b.toNat - a) else ram b

variable {ram : Ram} {a a' size : Nat} {bytes : Nat → BitVec 8}

theorem put_congr {bytes' : Nat → BitVec 8} (same : ∀ j < size, bytes j = bytes' j) :
    ram.put a size bytes = ram.put a size bytes' := by
  funext b
  rw [put, put]
  split
  · exact same _ (by omega)
  · rfl

/-- Bytes that are there already can be put once more. -/
theorem put_eq_self_iff (inside : a + size ≤ 2 ^ 64) :
    ram.put a size bytes = ram ↔ ∀ j < size, ram (BitVec.ofNat 64 (a + j)) = bytes j := by
  constructor
  · intro same j below
    have value : (BitVec.ofNat 64 (a + j)).toNat = a + j := by
      rw [BitVec.toNat_ofNat, Nat.mod_eq_of_lt (by omega)]
    have here := congrFun same (BitVec.ofNat 64 (a + j))
    rw [put, value, if_pos (by omega), Nat.add_sub_cancel_left] at here
    exact here.symm
  · intro held
    funext b
    rw [put]
    split
    · rename_i stored
      have here := held (b.toNat - a) (by omega)
      rw [Nat.add_sub_cancel' stored.1, BitVec.ofNat_toNat, BitVec.setWidth_eq] at here
      exact here.symm
    · rfl

/-- The same bytes at two places that do not meet. -/
theorem put_eq_put_iff (apart : a' + size ≤ a) :
    ram.put a' size bytes = ram.put a size bytes ↔
      ram.put a size bytes = ram ∧ ram.put a' size bytes = ram := by
  constructor
  · intro same
    have both (b : BitVec 64) : ram.put a size bytes b = ram b ∧ ram.put a' size bytes b = ram b := by
      have here := congrFun same b
      by_cases stored : a ≤ b.toNat ∧ b.toNat < a + size
      · have other : ram.put a' size bytes b = ram b := if_neg (by omega)
        exact ⟨here.symm.trans other, other⟩
      · have other : ram.put a size bytes b = ram b := if_neg stored
        exact ⟨other, here.trans other⟩
    exact ⟨funext fun b => (both b).1, funext fun b => (both b).2⟩
  · rintro ⟨first, second⟩
    rw [first, second]

theorem word32_eq_iff (v : BitVec 32) :
    ram.word32 (BitVec.ofNat 64 a) = v ↔
      ∀ j < 4, ram (BitVec.ofNat 64 (a + j)) = word 8 v (3 - j) := by
  have width : 32 = 4 * 8 := rfl
  constructor
  · rintro rfl j below
    rw [word_word32 _ _ (by omega), show 3 - (3 - j) = j by omega, BitVec.ofNat_add]
  · intro held
    apply Words.eq_of_word_eq width
    intro i inside
    rw [word_word32 _ _ inside, ← BitVec.ofNat_add, held (3 - i) (by omega),
      show 3 - (3 - i) = i by omega]

end Ram

namespace RegFile

theorem writeFirst_control (rf : RegFile) (r : BitVec 5) (value : BitVec 32) :
    (rf.writeFirst r value).icc = rf.icc ∧ (rf.writeFirst r value).cwp = rf.cwp ∧
      (rf.writeFirst r value).y = rf.y := by
  rw [writeFirst]
  split
  · split <;> exact ⟨rfl, rfl, rfl⟩
  · exact ⟨rfl, rfl, rfl⟩

end RegFile

/-! ### What an instruction does to the memory -/

namespace DCache

variable {x : EXMem}

/-- Only the low 20 bits of an address reach the data cache. -/
theorem requestOf_wrap (x : EXMem) :
    requestOf x = requestOf { x with alures := BitVec.ofNat 64 (x.alures.toNat % 2 ^ 20) } := by
  have bits (start len : Nat) (low : start + len ≤ 20) :
      x.alures.extractLsb' start len =
        (BitVec.ofNat 64 (x.alures.toNat % 2 ^ 20)).extractLsb' start len := by
    apply BitVec.eq_of_getLsbD_eq
    intro i below
    rw [BitVec.getLsbD_extractLsb', BitVec.getLsbD_extractLsb', BitVec.getLsbD_ofNat,
      Nat.testBit_mod_two_pow, decide_eq_true (by omega : start + i < 64),
      decide_eq_true (by omega : start + i < 20)]
    rfl
  rw [requestOf, requestOf, Mem.lineAddr, Mem.lineAddr, bits 6 14 (by decide),
    bits 3 3 (by decide), bits 0 3 (by decide)]
  rfl

theorem ofLines_applyAccess (k : StoreOp) (store : Mem.storeOp x.op x.op3 = true)
    (type : Mem.storeT x.op3 = k.type) (aligned : x.alures.toNat % k.size = 0)
    {rd next : BitVec 32} (pair : x.valD = next ++ rd) (memory : MemorySystem.LineMemory) :
    Ram.ofLines (MemorySystem.applyAccess memory (requestOf x)) =
      (Ram.ofLines memory).put (x.alures.toNat % 2 ^ 20) k.size (k.byte rd next) := by
  have fits : k.size ∣ 8 := by cases k <;> decide
  have place : (BitVec.ofNat 64 (x.alures.toNat % 2 ^ 20)).toNat = x.alures.toNat % 2 ^ 20 := by
    rw [BitVec.toNat_ofNat, Nat.mod_eq_of_lt (by omega)]
  have aligned' : (BitVec.ofNat 64 (x.alures.toNat % 2 ^ 20)).toNat % k.size = 0 := by
    rw [place, Nat.mod_mod_of_dvd _ (fits.trans (by decide)), aligned]
  have line : Ram.lineOf (BitVec.ofNat 64 (x.alures.toNat % 2 ^ 20)) = (requestOf x).lineAddr := by
    apply BitVec.eq_of_toNat_eq
    change _ = ((x.alures.extractLsb' 6 14).setWidth 58).toNat
    rw [Ram.lineOf, BitVec.extractLsb'_toNat, place, BitVec.toNat_setWidth,
      BitVec.extractLsb'_toNat, Nat.shiftRight_eq_div_pow, Nat.shiftRight_eq_div_pow]
    omega
  have write : (requestOf x).readWriteN = false := congrArg not store
  generalize wrapped : x.alures.toNat % 2 ^ 20 = a at place aligned' line
  funext b
  rw [Ram.ofLines, Ram.put, MemorySystem.applyAccess, write, if_neg Bool.false_ne_true]
  by_cases own : Ram.lineOf b = (requestOf x).lineAddr
  · have stored := byteOf_store (x := { x with alures := BitVec.ofNat 64 a }) k type
      aligned' pair (memory (requestOf x).lineAddr) (own.trans line.symm)
    rw [place, ← wrapped, ← requestOf_wrap x, wrapped] at stored
    rw [own, Function.update_self, stored, Ram.ofLines, own]
  · have outside := fun both => own ((lineOf_of_inside fits aligned' (b := b) both).trans line)
    rw [place] at outside
    rw [Function.update_of_ne own, if_neg outside, Ram.ofLines]

end DCache

namespace Sequential

/-- The memory by bytes. -/
def ram (σ : Sequential) : Ram := Ram.ofLines σ.memory

/-- The address of a load or store. -/
def address (σ : Sequential) (inst : Inst) : BitVec 32 :=
  σ.regs.read inst.rs1 +
    if inst.i then inst.imm13.signExtend 32 else σ.regs.read inst.rs2

end Sequential

inductive AtomicOp where
  | swap
  | ldstub
deriving DecidableEq

namespace AtomicOp

def op3 : AtomicOp → BitVec 6
  | swap => Op3.SWAP
  | ldstub => Op3.LDSTUB

/-- How many bytes are exchanged. -/
def size : AtomicOp → Nat
  | swap => 4
  | ldstub => 1

/-- The value for `rd`. -/
def old (k : AtomicOp) (ram : Ram) (a : Nat) : BitVec 32 :=
  match k with
  | swap => ram.word32 (BitVec.ofNat 64 a)
  | ldstub => (ram (BitVec.ofNat 64 a)).setWidth 32

/-- The bytes for the memory. -/
def new (k : AtomicOp) (rd : BitVec 32) (j : Nat) : BitVec 8 :=
  match k with
  | swap => word 8 rd (3 - j)
  | ldstub => 0xff

/-- What an instruction is to leave behind: the bytes at its address and `rd`, and nothing
else. -/
structure Right (k : AtomicOp) (inst : Inst) (σ after : Sequential) : Prop where
  memory : after.ram =
    σ.ram.put (σ.address inst).toNat k.size (k.new (σ.regs.read inst.rd))
  rd : inst.rd ≠ 0 → after.regs.read inst.rd = k.old σ.ram (σ.address inst).toNat
  registers : ∀ row, RegFile.rowOf σ.regs.cwp inst.rd ≠ some row →
    after.regs.word row = σ.regs.word row
  control : after.regs.icc = σ.regs.icc ∧ after.regs.cwp = σ.regs.cwp ∧ after.regs.y = σ.regs.y

/-- The contents for which nothing goes wrong.  Beyond 2^20 the address of the store is
another one. -/
def Safe (k : AtomicOp) (inst : Inst) (σ : Sequential) : Prop :=
  let a := (σ.address inst).toNat
  let rd := σ.regs.read inst.rd
  match k with
  | swap =>
      (a < 2 ^ 20 ∨
          σ.ram.word32 (BitVec.ofNat 64 a) = rd ∧
            σ.ram.word32 (BitVec.ofNat 64 (a % 2 ^ 20)) = rd) ∧
        (inst.rd = 0 ∨ σ.ram.word32 (BitVec.ofNat 64 a) = σ.address inst)
  | ldstub => σ.ram (BitVec.ofNat 64 a) = 0xff ∧ (inst.rd = 0 ∨ σ.address inst = 0xff)

end AtomicOp

namespace Sequential

section

variable (σ : Sequential) {inst : Inst}

/-- What is left to do after Execute. -/
abbrev executed (inst : Inst) : EXMem :=
  Execute.live (issued inst (Decode.operands σ.regs inst) 0) 0

theorem execute_access (op : inst.op = 0b11) : σ.execute inst = σ.perform (σ.executed inst) := by
  have other : ¬ Decode.isNop inst = true := by
    rw [Decode.isNop, Bool.or_eq_true, beq_iff_eq, beq_iff_eq]
    rintro (rfl | rfl) <;> exact absurd op (by decide)
  rw [execute, decoded, if_neg other]
  rfl

/-- The address is the result of the ALU, up to the carry. -/
theorem alures_access (op : inst.op = 0b11) :
    (σ.executed inst).alures.setWidth 32 = σ.address inst := by
  have call : inst.op ≠ 0b01 := by
    rw [op]
    decide
  have sum : ((issuedAlu inst (Decode.operands σ.regs inst) 0).alu 0).res =
      wide (σ.regs.read inst.rs1) +
        wide (if inst.i then inst.imm13.signExtend 32 else σ.regs.read inst.rs2) := by
    have stays : (issuedAlu inst (Decode.operands σ.regs inst) 0).op ≠ 0b01 := call
    rw [AluIn.alu, if_neg stays]
    exact congrArg AluOut.res (if_pos op)
  have carry := BitVec.setWidth_add (wide (σ.regs.read inst.rs1))
    (wide (if inst.i then inst.imm13.signExtend 32 else σ.regs.read inst.rs2))
    (by decide : 32 ≤ 64)
  rw [BitVec.setWidth_setWidth_of_le _ (by decide), BitVec.setWidth_eq,
    BitVec.setWidth_setWidth_of_le _ (by decide), BitVec.setWidth_eq] at carry
  exact (congrArg (BitVec.setWidth 32) sum).trans carry

/-- Both instructions write the address to `rd`. -/
theorem regs_execute_atomic (k : AtomicOp) (op : inst.op = 0b11) (op3 : inst.op3 = k.op3) :
    (σ.execute inst).regs = σ.regs.writeFirst inst.rd (σ.address inst) := by
  have call : inst.op ≠ 0b01 := by
    rw [op]
    decide
  have trap : inst.op ≠ 0b10 := by
    rw [op]
    decide
  have shown : ¬ isBubble inst.op inst.op2 (Decode.destination inst) = true := by
    rw [op]
    exact Bool.false_ne_true
  have destination : Decode.destination inst = inst.rd := by
    rw [Decode.destination, if_neg call, if_neg fun both => trap both.1]
  have writes : Decode.regWrite inst.op inst.op3 inst.op2 inst.cond = true := by
    rw [op, op3]
    cases k <;> rfl
  have single : Decode.regWriteDouble inst.op inst.op3 = false := by
    rw [op, op3]
    cases k <;> rfl
  have codes : Decode.ccWrite inst.op inst.op3 = false := by
    rw [Decode.ccWrite, op]
    rfl
  have y : Decode.yWrite inst.op inst.op3 = false := decide_eq_false fun both => trap both.1
  obtain ⟨data, regs⟩ := σ.perform_regs (σ.executed inst)
  have kept : WB.data (entry (σ.executed inst) data) = (σ.executed inst).alures := by
    have named : entry (σ.executed inst) data =
        { entry (σ.executed inst) data with op := 0b11, op3 := k.op3 } := by
      rw [← op, ← op3]
      rfl
    rw [named]
    cases k <;> rfl
  have out : WB.out (entry (σ.executed inst) data) =
      { regEn := true, regDoubleEn := false, data := (σ.executed inst).alures, regD := inst.rd
        yEn := false, iccEn := false, icc := (σ.executed inst).icc } := by
    rw [out_issued _ _ _ shown, kept, destination, writes, single, codes, y]
    rfl
  rw [execute_access σ op, regs, out, RegFile.step_eq_writeBack, ← σ.alures_access op]
  exact RegFile.writeBack_word σ.regs inst.rd _ _

theorem ram_execute_swap (op : inst.op = 0b11) (op3 : inst.op3 = Op3.SWAP)
    (aligned : (σ.address inst).toNat % 4 = 0) :
    (σ.execute inst).ram =
      σ.ram.put ((σ.address inst).toNat % 2 ^ 20) 4 (AtomicOp.swap.new (σ.regs.read inst.rd)) := by
  have access : Mem.accesses (σ.executed inst) = true := by
    change (Mem.loadOp inst.op inst.op3 || Mem.storeOp inst.op inst.op3) = true
    rw [op, op3]
    rfl
  have store : Mem.storeOp (σ.executed inst).op (σ.executed inst).op3 = true := by
    change Mem.storeOp inst.op inst.op3 = true
    rw [op, op3]
    rfl
  have type : Mem.storeT (σ.executed inst).op3 = StoreOp.st.type := by
    change Mem.storeT inst.op3 = _
    rw [op3]
    rfl
  have low : (σ.address inst).toNat = (σ.executed inst).alures.toNat % 2 ^ 32 := by
    rw [← σ.alures_access op, BitVec.toNat_setWidth]
  have place : (σ.address inst).toNat % 2 ^ 20 = (σ.executed inst).alures.toNat % 2 ^ 20 := by
    omega
  have aligned' : (σ.executed inst).alures.toNat % StoreOp.st.size = 0 := by
    change _ % 4 = 0
    omega
  have pair : (σ.executed inst).valD = σ.regs.readNext inst.rd ++ σ.regs.read inst.rd := rfl
  rw [execute_access σ op, perform_of_accesses access, place]
  refine (DCache.ofLines_applyAccess .st store type aligned' pair σ.memory).trans ?_
  apply Ram.put_congr
  intro j below
  have width : 32 = 4 * 8 := rfl
  have first : 3 - j < 4 := by omega
  change word 8 ((σ.regs.read inst.rd).setWidth 64) (3 - j) = word 8 (σ.regs.read inst.rd) (3 - j)
  rw [← DCache.word_pair _ (σ.regs.readNext inst.rd) first, Words.word_append width, if_pos first]

theorem ram_execute_ldstub (op : inst.op = 0b11) (op3 : inst.op3 = Op3.LDSTUB) :
    (σ.execute inst).ram = σ.ram := by
  have passes : Mem.accesses (σ.executed inst) = false := by
    change (Mem.loadOp inst.op inst.op3 || Mem.storeOp inst.op inst.op3) = false
    rw [op, op3]
    rfl
  rw [execute_access σ op, perform_of_passes passes]
  rfl

theorem put_word_iff (ram : Ram) {a : Nat} (inside : a + 4 ≤ 2 ^ 64) (v : BitVec 32) :
    ram.put a 4 (AtomicOp.swap.new v) = ram ↔ ram.word32 (BitVec.ofNat 64 a) = v :=
  (Ram.put_eq_self_iff inside).trans (Ram.word32_eq_iff v).symm

/-- The store of `SWAP` is the right one below 2^20, or if it stores nothing new. -/
theorem ram_execute_swap_iff (op : inst.op = 0b11) (op3 : inst.op3 = Op3.SWAP)
    (aligned : (σ.address inst).toNat % 4 = 0) :
    (σ.execute inst).ram =
        σ.ram.put (σ.address inst).toNat 4 (AtomicOp.swap.new (σ.regs.read inst.rd)) ↔
      (σ.address inst).toNat < 2 ^ 20 ∨
        σ.ram.word32 (BitVec.ofNat 64 (σ.address inst).toNat) = σ.regs.read inst.rd ∧
          σ.ram.word32 (BitVec.ofNat 64 ((σ.address inst).toNat % 2 ^ 20)) =
            σ.regs.read inst.rd := by
  have bound := (σ.address inst).isLt
  rw [σ.ram_execute_swap op op3 aligned]
  by_cases low : (σ.address inst).toNat < 2 ^ 20
  · rw [Nat.mod_eq_of_lt low]
    exact iff_of_true rfl (.inl low)
  · have apart : (σ.address inst).toNat % 2 ^ 20 + 4 ≤ (σ.address inst).toNat := by omega
    rw [or_iff_right low, Ram.put_eq_put_iff apart, put_word_iff _ (by omega),
      put_word_iff _ (by omega)]

theorem ram_execute_ldstub_iff (op : inst.op = 0b11) (op3 : inst.op3 = Op3.LDSTUB) :
    (σ.execute inst).ram =
        σ.ram.put (σ.address inst).toNat 1 (AtomicOp.ldstub.new (σ.regs.read inst.rd)) ↔
      σ.ram (BitVec.ofNat 64 (σ.address inst).toNat) = 0xff := by
  have bound := (σ.address inst).isLt
  rw [σ.ram_execute_ldstub op op3, eq_comm, Ram.put_eq_self_iff (by omega)]
  constructor
  · intro held
    exact held 0 (by decide)
  · intro held j below
    obtain rfl : j = 0 := by omega
    exact held

theorem read_execute_atomic_iff (k : AtomicOp) (op : inst.op = 0b11) (op3 : inst.op3 = k.op3)
    (value : BitVec 32) :
    (inst.rd ≠ 0 → (σ.execute inst).regs.read inst.rd = value) ↔
      inst.rd = 0 ∨ value = σ.address inst := by
  by_cases zero : inst.rd = 0
  · exact iff_of_true (fun other => absurd zero other) (.inl zero)
  · rw [σ.regs_execute_atomic k op op3, σ.regs.read_writeFirst_self zero, or_iff_right zero]
    exact ⟨fun read => (read zero).symm, fun same _ => same.symm⟩

/-- Besides `rd` no register changes, so only the two exchanged values count. -/
theorem right_execute_iff (k : AtomicOp) (op : inst.op = 0b11) (op3 : inst.op3 = k.op3) :
    k.Right inst σ (σ.execute inst) ↔
      (σ.execute inst).ram =
          σ.ram.put (σ.address inst).toNat k.size (k.new (σ.regs.read inst.rd)) ∧
        (inst.rd = 0 ∨ k.old σ.ram (σ.address inst).toNat = σ.address inst) := by
  rw [← σ.read_execute_atomic_iff k op op3]
  constructor
  · intro right
    exact ⟨right.memory, right.rd⟩
  · rintro ⟨memory, rd⟩
    refine ⟨memory, rd, ?_, ?_⟩
    · intro row other
      rw [σ.regs_execute_atomic k op op3, RegFile.word_writeFirst]
      cases named : RegFile.rowOf σ.regs.cwp inst.rd with
      | none => rfl
      | some first =>
          rw [named] at other
          exact Function.update_of_ne (fun same => other (congrArg some same.symm)) _ _
    · rw [σ.regs_execute_atomic k op op3]
      exact σ.regs.writeFirst_control inst.rd _

theorem atomic_right_iff (k : AtomicOp) (op : inst.op = 0b11) (op3 : inst.op3 = k.op3)
    (aligned : (σ.address inst).toNat % k.size = 0) :
    k.Right inst σ (σ.execute inst) ↔ k.Safe inst σ := by
  rw [σ.right_execute_iff k op op3]
  cases k with
  | swap => exact and_congr_left fun _ => σ.ram_execute_swap_iff op op3 aligned
  | ldstub =>
      have loaded (held : σ.ram (BitVec.ofNat 64 (σ.address inst).toNat) = 0xff) :
          (inst.rd = 0 ∨ AtomicOp.ldstub.old σ.ram (σ.address inst).toNat = σ.address inst) ↔
            (inst.rd = 0 ∨ σ.address inst = 0xff) := by
        have byte : (0xff : BitVec 8).setWidth 32 = 0xff := rfl
        rw [AtomicOp.old, held, byte]
        exact or_congr_right eq_comm
      have memory := σ.ram_execute_ldstub_iff op op3
      exact (and_congr_left fun _ => memory).trans (and_congr_right loaded)

end

theorem word32_idle (a : BitVec 64) : idle.ram.word32 a = 0 := by
  have byte (b : BitVec 64) : idle.ram b = 0 := by
    change word 8 (0 : BitVec 512) (Ram.laneOf b) = 0
    simp [word]
  rw [Ram.word32, byte, byte, byte, byte]
  rfl

/-- `SWAP [%g0+4], %g1`. -/
abbrev swapAtFour : Inst := 0xc2782004

/-- `LDSTUB [%g0+255], %g1`. -/
abbrev ldstubAt255 : Inst := 0xc26820ff

/-- The word at 4 is 4, the byte at 255 is 255, and `%g1` has another value. -/
def selfNaming : Sequential :=
  start { RegFile.reset with globalRegister := fun r => if r = 1 then 7 else 0 }
    (Ram.ofWords ([0, 4] ++ List.replicate 61 0 ++ [0xff]))

/-- `SWAP` exchanges 7 for the 4 at address 4, and `LDSTUB` loads the 255 at address 255. -/
theorem atomic_right_iff_swap :
    AtomicOp.swap.Right swapAtFour selfNaming (selfNaming.execute swapAtFour) ∧
      AtomicOp.ldstub.Right ldstubAt255 selfNaming (selfNaming.execute ldstubAt255) :=
  ⟨(atomic_right_iff selfNaming .swap rfl rfl (by decide +kernel)).mpr
    ⟨.inl (by decide +kernel), .inr (by decide +kernel)⟩,
    (atomic_right_iff selfNaming .ldstub rfl rfl (by decide +kernel)).mpr
      ⟨by decide +kernel, .inr (by decide +kernel)⟩⟩

/-- The word at 4 is 0, and `%g1` receives 4. -/
theorem swap_returns_address :
    ¬ ∀ (σ : Sequential) (k : AtomicOp) (inst : Inst), inst.op = 0b11 → inst.op3 = k.op3 →
      (σ.address inst).toNat % k.size = 0 → k.Right inst σ (σ.execute inst) := by
  intro right
  have returned := (right idle .swap swapAtFour rfl rfl (by decide)).rd (by decide)
  rw [regs_execute_atomic idle .swap rfl rfl] at returned
  rw [AtomicOp.old, word32_idle] at returned
  exact absurd returned (by decide)

end Sequential

end Sparcy
