import Sparcy.Opcodes
import Mathlib.Logic.Function.Basic

/-!
# Synchronous memories

`SRAM.sv` and `dcache_SRAM.sv` differ only in their reset contents.  The read
register takes the contents before the write of the same edge.
-/

namespace Sparcy

/-- Replace word `i` of `line`, `wordSize` bits long, by the same word of `data`. -/
def writeWord {w : Nat} (line data : BitVec w) (wordSize i : Nat) : BitVec w :=
  let mask : BitVec w := (BitVec.allOnes wordSize).setWidth w <<< (i * wordSize)
  (line &&& ~~~mask) ||| (data &&& mask)

/-- The write loop over the words that `enable` selects. -/
def writeWords {w n : Nat} (line data : BitVec w) (wordSize : Nat) (enable : BitVec n) :
    BitVec w :=
  (List.range n).foldl
    (fun line i => if enable.getLsbD i then writeWord line data wordSize i else line) line

/-- A memory of 16 rows with its registered read port. -/
structure Sram (w : Nat) where
  mem : BitVec 4 → BitVec w
  readData : BitVec w

namespace Sram

variable {w n : Nat}

/-- Every row holds the reset value of the module. -/
def reset (value : BitVec w) : Sram w := { mem := fun _ => value, readData := 0 }

/-- One edge; both ports use the same address in every instance. -/
def step (s : Sram w) (addr : BitVec 4) (wordSize : Nat) (data : BitVec w)
    (enable : BitVec n) : Sram w :=
  { mem :=
      if enable = 0 then s.mem
      else Function.update s.mem addr (writeWords (s.mem addr) data wordSize enable)
    readData := s.mem addr }

end Sram

end Sparcy
