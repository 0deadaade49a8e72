import Mathlib.Tactic.Common

/-!
# Opcode macros and instruction fields

The `` `define `` table of `ALUops.sv`, under the same names, and the bit
ranges of an instruction word that decode, fetch and the ALU slice out.
-/

namespace Sparcy

/-! ### `op3` values of the format 3 instructions -/

namespace Op3

abbrev AND : BitVec 6 := 0b000001
abbrev ANDcc : BitVec 6 := 0b010001
abbrev ANDN : BitVec 6 := 0b000101
abbrev ANDNcc : BitVec 6 := 0b010101
abbrev OR : BitVec 6 := 0b000010
abbrev ORcc : BitVec 6 := 0b010010
abbrev ORN : BitVec 6 := 0b000110
abbrev ORNcc : BitVec 6 := 0b010110
abbrev XOR : BitVec 6 := 0b000011
abbrev XORcc : BitVec 6 := 0b010011
abbrev XNOR : BitVec 6 := 0b000111
abbrev XNORcc : BitVec 6 := 0b010111
abbrev SLL : BitVec 6 := 0b100101
abbrev SRL : BitVec 6 := 0b100110
abbrev SRA : BitVec 6 := 0b100111
abbrev ADD : BitVec 6 := 0b000000
abbrev ADDcc : BitVec 6 := 0b010000
abbrev ADDX : BitVec 6 := 0b001000
abbrev ADDXcc : BitVec 6 := 0b011000
abbrev TADDcc : BitVec 6 := 0b100000
abbrev TADDccTV : BitVec 6 := 0b100010
abbrev SUB : BitVec 6 := 0b000100
abbrev SUBcc : BitVec 6 := 0b010100
abbrev SUBX : BitVec 6 := 0b001100
abbrev SUBXcc : BitVec 6 := 0b011100
abbrev TSUBcc : BitVec 6 := 0b100001
abbrev TSUBccTV : BitVec 6 := 0b100011
abbrev MULScc : BitVec 6 := 0b100100
abbrev UMUL : BitVec 6 := 0b001010
abbrev SMUL : BitVec 6 := 0b001011
abbrev UMULcc : BitVec 6 := 0b011010
abbrev SMULcc : BitVec 6 := 0b011011
abbrev UDIV : BitVec 6 := 0b001110
abbrev SDIV : BitVec 6 := 0b001111
abbrev UDIVcc : BitVec 6 := 0b011110
abbrev SDIVcc : BitVec 6 := 0b011111
abbrev SAVE : BitVec 6 := 0b111100
abbrev RESTORE : BitVec 6 := 0b111101
abbrev JMPL : BitVec 6 := 0b111000
abbrev LDSB : BitVec 6 := 0b001001
abbrev LDSH : BitVec 6 := 0b001010
abbrev LDUB : BitVec 6 := 0b000001
abbrev LDUH : BitVec 6 := 0b000010
abbrev LD : BitVec 6 := 0b000000
abbrev LDD : BitVec 6 := 0b000011
abbrev STB : BitVec 6 := 0b000101
abbrev STH : BitVec 6 := 0b000110
abbrev ST : BitVec 6 := 0b000100
abbrev STD : BitVec 6 := 0b000111
abbrev LDSTUB : BitVec 6 := 0b001101
abbrev SWAP : BitVec 6 := 0b001111
abbrev RDY : BitVec 6 := 0b101000
abbrev WRY : BitVec 6 := 0b110000
/-- The trap opcode, written as the literal `6'b111010` throughout the source. -/
abbrev Ticc : BitVec 6 := 0b111010

end Op3

/-! ### `op2` values of the format 2 instructions -/

namespace Op2

abbrev SETHI : BitVec 3 := 0b100
/-- The branch opcode, written as the literal `3'b010` throughout the source. -/
abbrev Bicc : BitVec 3 := 0b010

end Op2

/-! ### Condition fields

The trap macros repeat the branch values, except that `TNEG` repeats the code
of `TLEU`. -/

namespace Cond

abbrev BA : BitVec 4 := 0b1000
abbrev BN : BitVec 4 := 0b0000
abbrev BNE : BitVec 4 := 0b1001
abbrev BE : BitVec 4 := 0b0001
abbrev BG : BitVec 4 := 0b1010
abbrev BLE : BitVec 4 := 0b0010
abbrev BGE : BitVec 4 := 0b1011
abbrev BL : BitVec 4 := 0b0011
abbrev BGU : BitVec 4 := 0b1100
abbrev BLEU : BitVec 4 := 0b0100
abbrev BCC : BitVec 4 := 0b1101
abbrev BCS : BitVec 4 := 0b0101
abbrev BPOS : BitVec 4 := 0b1110
abbrev BNEG : BitVec 4 := 0b0110
abbrev BVC : BitVec 4 := 0b1111
abbrev BVS : BitVec 4 := 0b0111
abbrev TA : BitVec 4 := 0b1000
abbrev TN : BitVec 4 := 0b0000
abbrev TNE : BitVec 4 := 0b1001
abbrev TE : BitVec 4 := 0b0001
abbrev TG : BitVec 4 := 0b1010
abbrev TLE : BitVec 4 := 0b0010
abbrev TGE : BitVec 4 := 0b1011
abbrev TL : BitVec 4 := 0b0011
abbrev TGU : BitVec 4 := 0b1100
abbrev TLEU : BitVec 4 := 0b0100
abbrev TCC : BitVec 4 := 0b1101
abbrev TCS : BitVec 4 := 0b0101
abbrev TPOS : BitVec 4 := 0b1110
abbrev TNEG : BitVec 4 := 0b0100
abbrev TVC : BitVec 4 := 0b1111
abbrev TVS : BitVec 4 := 0b0111

end Cond

/-- An instruction word. -/
abbrev Inst := BitVec 32

namespace Inst

def op (inst : Inst) : BitVec 2 := inst.extractLsb' 30 2
def a (inst : Inst) : Bool := inst.getLsbD 29
def rd (inst : Inst) : BitVec 5 := inst.extractLsb' 25 5
def cond (inst : Inst) : BitVec 4 := inst.extractLsb' 25 4
def op2 (inst : Inst) : BitVec 3 := inst.extractLsb' 22 3
def op3 (inst : Inst) : BitVec 6 := inst.extractLsb' 19 6
def rs1 (inst : Inst) : BitVec 5 := inst.extractLsb' 14 5
def i (inst : Inst) : Bool := inst.getLsbD 13
def rs2 (inst : Inst) : BitVec 5 := inst.extractLsb' 0 5
def imm13 (inst : Inst) : BitVec 13 := inst.extractLsb' 0 13
def disp22 (inst : Inst) : BitVec 22 := inst.extractLsb' 0 22
def disp30 (inst : Inst) : BitVec 30 := inst.extractLsb' 0 30

/-- `SETHI 0, %g0`: the genuine no-op and also the word fetch emits as a bubble. -/
abbrev nop : Inst := 0x01000000
/-- `STBAR`, which decode treats like the no-op. -/
abbrev stbar : Inst := 0x8143c000

end Inst

end Sparcy
