import Sparcy.Decode
import Sparcy.Library.Runs
import Mathlib.Data.Sum.Basic

/-!
# The register windows

The window model of SPARC: seven globals and, for each of 32 windows, eight outs and
eight locals.  The ins of a window are the outs of the next one.  `RegFile.sv` keeps
all of them in two flat memories, and this file shows that it implements the model.
-/

namespace Sparcy

namespace RegFile

/-- The inputs of a rising edge. -/
structure Edge where
  wb : WBOut
  cwpInc : Bool
  cwpDec : Bool
deriving DecidableEq

/-- One rising edge. -/
def clock (rf : RegFile) (edge : Edge) : RegFile := rf.step edge.wb edge.cwpInc edge.cwpDec

/-- A double write names an even register, and the window moves one way only. -/
structure Edge.Legal (edge : Edge) : Prop where
  even : edge.wb.regDoubleEn = true → edge.wb.regD.getLsbD 0 = false
  single : ¬ (edge.cwpInc = true ∧ edge.cwpDec = true)

theorem Edge.legal_iff {edge : Edge} :
    edge.Legal ↔ (edge.wb.regDoubleEn = true → edge.wb.regD.getLsbD 0 = false) ∧
      ¬ (edge.cwpInc = true ∧ edge.cwpDec = true) :=
  ⟨fun legal => ⟨legal.even, legal.single⟩, fun both => ⟨both.1, both.2⟩⟩

instance (edge : Edge) : Decidable edge.Legal := decidable_of_iff _ Edge.legal_iff.symm

/-- What the read ports show after a falling edge. -/
structure Ports where
  val1 : BitVec 32
  val2 : BitVec 32
  val3 : BitVec 64
  icc : BitVec 4
  cwp : BitVec 5
  y : BitVec 32
  g1 : BitVec 32
  o0 : BitVec 32
  o1 : BitVec 32
  o2 : BitVec 32
  o3 : BitVec 32
  o4 : BitVec 32
  o5 : BitVec 32
deriving DecidableEq

/-- `GeneralRegister[(k+(16*PSR_CWP))%(16*32)]`. -/
def outPort (rf : RegFile) (k : BitVec 9) : BitVec 32 :=
  rf.generalRegister (k + 16 * rf.cwp.setWidth 9)

/-- The falling edge. -/
def sample (rf : RegFile) (rs1 rs2 rd : BitVec 5) : Ports :=
  { val1 := rf.read rs1
    val2 := rf.read rs2
    val3 := rf.readDouble rd
    icc := rf.icc
    cwp := rf.cwp
    y := rf.y
    g1 := rf.globalRegister 1
    o0 := rf.outPort 0
    o1 := rf.outPort 1
    o2 := rf.outPort 2
    o3 := rf.outPort 3
    o4 := rf.outPort 4
    o5 := rf.outPort 5 }

/-- `IDEXReg` samples these ports. -/
theorem operands_eq_sample (rf : RegFile) (inst : Inst) :
    Decode.operands rf inst =
      let ports := rf.sample inst.rs1 inst.rs2 inst.rd
      { valA := ports.val1, valB := ports.val2, valD := ports.val3, icc := ports.icc
        y := ports.y, g1 := ports.g1, o0 := ports.o0, o1 := ports.o1, o2 := ports.o2
        o3 := ports.o3, o4 := ports.o4, o5 := ports.o5 } := rfl

/-- The row of either memory. -/
abbrev Row := BitVec 3 ⊕ BitVec 9

/-- Both memories. -/
def word (rf : RegFile) : Row → BitVec 32 := Sum.elim rf.globalRegister rf.generalRegister

/-- The row that a register number selects; `%g0` has none. -/
def rowOf (cwp : BitVec 5) (r : BitVec 5) : Option Row :=
  if r = 0 then none
  else if r ≤ 7 then some (.inl (r.setWidth 3))
  else some (.inr (windowIndex cwp (r.setWidth 6)))

section

variable (rf : RegFile) (r : BitVec 5) (value : BitVec 32)

theorem word_writeFirst :
    (rf.writeFirst r value).word =
      (rowOf rf.cwp r).elim rf.word fun row => Function.update rf.word row value := by
  rw [writeFirst, rowOf]
  by_cases zero : r = 0
  · have global : r ≤ 7 := by
      rw [zero]
      decide
    rw [if_pos global, if_pos zero, if_pos zero]
    rfl
  · by_cases global : r ≤ 7
    · rw [if_pos global, if_neg zero, if_neg zero, if_pos global]
      exact Sum.update_elim_inl.symm
    · rw [if_neg global, if_neg zero, if_neg global]
      exact Sum.update_elim_inr.symm

@[simp]
theorem writeFirst_cwp : (rf.writeFirst r value).cwp = rf.cwp := by
  rw [writeFirst]
  split
  · split <;> rfl
  · rfl

theorem read_eq (none : rf.globalRegister 0 = 0) :
    rf.read r = (rowOf rf.cwp r).elim 0 rf.word := by
  rw [read, rowOf]
  by_cases zero : r = 0
  · subst zero
    exact none
  · rw [if_neg zero]
    by_cases global : r ≤ 7
    · rw [if_pos global, if_pos global]
      rfl
    · rw [if_neg global, if_neg global]
      rfl

/-- The successor of an even register is below 32 and on the same side of 8. -/
theorem next_of_even {r : BitVec 5} (even : r.getLsbD 0 = false) :
    (r + 1 ≤ 7 ↔ r ≤ 7) ∧ r ≠ 7 ∧ r + 1 ≠ 0 ∧ (r + 1).setWidth 6 = r.setWidth 6 + 1 ∧
      (r + 1).setWidth 3 = r.setWidth 3 + (1 : BitVec 3) := by
  revert even r
  decide

theorem writeNext_of_even {r : BitVec 5} (even : r.getLsbD 0 = false) :
    rf.writeNext r value = rf.writeFirst (r + 1) value := by
  obtain ⟨side, seven, zero, wide, narrow⟩ := next_of_even even
  rw [writeNext, writeFirst, wide, narrow]
  simp only [side, seven, zero, if_false]

theorem readNext_of_even {r : BitVec 5} (even : r.getLsbD 0 = false) :
    rf.readNext r = rf.read (r + 1) := by
  obtain ⟨side, seven, zero, wide, narrow⟩ := next_of_even even
  rw [readNext, read, wide, narrow]
  simp only [side, seven, if_false]

end

end RegFile

/-! ### The window model -/

/-- A register of the window model. -/
inductive Cell where
  | g (i : Fin 7)
  | o (window : BitVec 5) (i : BitVec 3)
  | l (window : BitVec 5) (i : BitVec 3)
deriving DecidableEq

/-- The state of the window model. -/
structure Windows where
  cells : Cell → BitVec 32
  cwp : BitVec 5
  icc : BitVec 4
  y : BitVec 32

namespace Windows

/-- The register that a number names in a window; `%g0` is none. -/
def cellOf (cwp : BitVec 5) (r : BitVec 5) : Option Cell :=
  if r = 0 then none
  else if below : r.toNat < 8 then some (.g ⟨r.toNat - 1, by omega⟩)
  else if r.toNat < 16 then some (.o cwp (r.setWidth 3))
  else if r.toNat < 24 then some (.l cwp (r.setWidth 3))
  else some (.o (cwp + 1) (r.setWidth 3))

def read (w : Windows) (r : BitVec 5) : BitVec 32 := (cellOf w.cwp r).elim 0 w.cells

def write (w : Windows) (r : BitVec 5) (value : BitVec 32) : Windows :=
  { w with cells := (cellOf w.cwp r).elim w.cells fun cell => Function.update w.cells cell value }

/-- The registers that a rising edge writes. -/
def written (cwp : BitVec 5) (wb : WBOut) : List Cell :=
  if wb.regEn then
    (cellOf cwp wb.regD).toList ++
      if wb.regDoubleEn then (cellOf cwp (wb.regD + 1)).toList else []
  else []

/-- The writes of a rising edge, in the window before the change. -/
def writeRegs (w : Windows) (wb : WBOut) : Windows :=
  if wb.regEn then
    let first := w.write wb.regD (wb.data.setWidth 32)
    if wb.regDoubleEn then first.write (wb.regD + 1) (wb.data.extractLsb' 32 32) else first
  else w

/-- One rising edge: the writes, then the move to the next or the previous window. -/
def clock (w : Windows) (edge : RegFile.Edge) : Windows :=
  { cells := (w.writeRegs edge.wb).cells
    cwp :=
      if edge.cwpInc then w.cwp + 1 else if edge.cwpDec then w.cwp - 1 else w.cwp
    icc := if edge.wb.iccEn then edge.wb.icc else w.icc
    y := if edge.wb.yEn then edge.wb.data.extractLsb' 32 32 else w.y }

/-- The read ports; `val3` has the odd register in its high half. -/
def sample (w : Windows) (rs1 rs2 rd : BitVec 5) : RegFile.Ports :=
  { val1 := w.read rs1
    val2 := w.read rs2
    val3 := w.read (rd + 1) ++ w.read rd
    icc := w.icc
    cwp := w.cwp
    y := w.y
    g1 := w.read 1
    o0 := w.read 8
    o1 := w.read 9
    o2 := w.read 10
    o3 := w.read 11
    o4 := w.read 12
    o5 := w.read 13 }

/-- Where `RegFile.sv` keeps a register. -/
def row : Cell → RegFile.Row
  | .g i => .inl (BitVec.ofNat 3 (i.val + 1))
  | .o window i => .inr (16 * window.setWidth 9 + i.setWidth 9)
  | .l window i => .inr (16 * window.setWidth 9 + 8 + i.setWidth 9)

/-- The window model that a register file stands for. -/
def of (rf : RegFile) : Windows :=
  { cells := rf.word ∘ row, cwp := rf.cwp, icc := rf.icc, y := rf.y }

/-! ### Reads and writes -/

theorem write_of_other (w : Windows) (r : BitVec 5) (value : BitVec 32) {cell : Cell}
    (other : cell ∉ (cellOf w.cwp r).toList) : (w.write r value).cells cell = w.cells cell := by
  rw [write]
  cases named : cellOf w.cwp r with
  | none => rfl
  | some target =>
      have apart : cell ≠ target := by simpa [named] using other
      simp [Function.update_of_ne apart]

theorem clock_of_other (w : Windows) (edge : RegFile.Edge) {cell : Cell}
    (other : cell ∉ written w.cwp edge.wb) : (w.clock edge).cells cell = w.cells cell := by
  rw [written] at other
  change (w.writeRegs edge.wb).cells cell = w.cells cell
  rw [writeRegs]
  cases enabled : edge.wb.regEn with
  | false => rfl
  | true =>
      rw [enabled, if_pos rfl, List.mem_append, not_or] at other
      have first := w.write_of_other edge.wb.regD (edge.wb.data.setWidth 32) other.1
      cases double : edge.wb.regDoubleEn with
      | false => simpa using first
      | true =>
          rw [double, if_pos rfl] at other
          have second := (w.write edge.wb.regD (edge.wb.data.setWidth 32)).write_of_other
            (edge.wb.regD + 1) (edge.wb.data.extractLsb' 32 32) other.2
          simpa using second.trans first

theorem toNat_row_o (window : BitVec 5) (i : BitVec 3) :
    (16 * window.setWidth 9 + i.setWidth 9 : BitVec 9).toNat = 16 * window.toNat + i.toNat := by
  have bound := window.isLt
  have bound' := i.isLt
  simp only [BitVec.toNat_add, BitVec.toNat_mul, BitVec.toNat_setWidth,
    BitVec.ofNat_eq_ofNat, BitVec.toNat_ofNat]
  omega

theorem toNat_row_l (window : BitVec 5) (i : BitVec 3) :
    (16 * window.setWidth 9 + 8 + i.setWidth 9 : BitVec 9).toNat =
      16 * window.toNat + 8 + i.toNat := by
  have bound := window.isLt
  have bound' := i.isLt
  simp only [BitVec.toNat_add, BitVec.toNat_mul, BitVec.toNat_setWidth,
    BitVec.ofNat_eq_ofNat, BitVec.toNat_ofNat]
  omega

theorem row_injective : Function.Injective row := by
  have apart : ∀ {w w' : BitVec 5} {i i' : BitVec 3},
      16 * w.toNat + i.toNat = 16 * w'.toNat + i'.toNat → w = w' ∧ i = i' := by
    intro w w' i i' same
    have bound := i.isLt
    have bound' := i'.isLt
    exact ⟨BitVec.eq_of_toNat_eq (by omega), BitVec.eq_of_toNat_eq (by omega)⟩
  rintro (i | ⟨w, i⟩ | ⟨w, i⟩) (j | ⟨w', j⟩ | ⟨w', j⟩) same <;>
    simp only [row, reduceCtorEq, Sum.inl.injEq, Sum.inr.injEq] at same <;>
    replace same := congrArg BitVec.toNat same
  · have bound := i.isLt
    have bound' := j.isLt
    simp only [BitVec.toNat_ofNat] at same
    congr 1
    omega
  · rw [toNat_row_o, toNat_row_o] at same
    obtain ⟨rfl, rfl⟩ := apart same
    rfl
  · rw [toNat_row_o, toNat_row_l] at same
    have bound := i.isLt
    have bound' := j.isLt
    omega
  · rw [toNat_row_l, toNat_row_o] at same
    have bound := i.isLt
    have bound' := j.isLt
    omega
  · rw [toNat_row_l, toNat_row_l] at same
    obtain ⟨rfl, rfl⟩ := apart (show 16 * w.toNat + i.toNat = 16 * w'.toNat + j.toNat by omega)
    rfl

theorem toNat_windowIndex (cwp r : BitVec 5) (windowed : 8 ≤ r.toNat) :
    (RegFile.windowIndex cwp (r.setWidth 6)).toNat =
      (16 * cwp.toNat + (r.toNat - 8)) % 512 := by
  have bound := r.isLt
  have bound' := cwp.isLt
  simp only [RegFile.windowIndex, BitVec.toNat_add, BitVec.toNat_sub, BitVec.toNat_mul,
    BitVec.toNat_setWidth, BitVec.ofNat_eq_ofNat, BitVec.toNat_ofNat]
  omega

/-- Every register number selects the row of the register that it names. -/
theorem rowOf_eq (cwp r : BitVec 5) : RegFile.rowOf cwp r = (cellOf cwp r).map row := by
  have bound := r.isLt
  have bound' := cwp.isLt
  have low : (r.setWidth 3).toNat = r.toNat % 8 := by rw [BitVec.toNat_setWidth]
  rw [RegFile.rowOf, cellOf]
  by_cases zero : r = 0
  · rw [if_pos zero, if_pos zero]
    rfl
  · have positive : r.toNat ≠ 0 := fun none => zero (BitVec.eq_of_toNat_eq none)
    rw [if_neg zero, if_neg zero]
    by_cases global : r.toNat < 8
    · rw [dif_pos global, if_pos (show r ≤ 7 by rw [BitVec.le_def]; exact Nat.le_of_lt_succ global)]
      refine congrArg (some ∘ Sum.inl) (BitVec.eq_of_toNat_eq ?_)
      simp only [BitVec.toNat_setWidth, BitVec.toNat_ofNat]
      omega
    · have index := toNat_windowIndex cwp r (by omega)
      rw [dif_neg global, if_neg (show ¬ r ≤ 7 by rw [BitVec.le_def]; exact fun le => global (Nat.lt_succ_of_le le))]
      split
      · refine congrArg (some ∘ Sum.inr) (BitVec.eq_of_toNat_eq ?_)
        rw [index, toNat_row_o]
        omega
      · split
        · refine congrArg (some ∘ Sum.inr) (BitVec.eq_of_toNat_eq ?_)
          rw [index, toNat_row_l]
          omega
        · refine congrArg (some ∘ Sum.inr) (BitVec.eq_of_toNat_eq ?_)
          rw [index, toNat_row_o, BitVec.toNat_add]
          change _ = 16 * ((cwp.toNat + 1) % 32) + _
          omega

theorem of_writeFirst (rf : RegFile) (r : BitVec 5) (value : BitVec 32) :
    (of (rf.writeFirst r value)).cells = ((of rf).write r value).cells := by
  change (rf.writeFirst r value).word ∘ row = _
  rw [RegFile.word_writeFirst, rowOf_eq, write]
  change _ = (cellOf rf.cwp r).elim _ _
  cases cellOf rf.cwp r with
  | none => rfl
  | some cell => exact Function.update_comp_eq_of_injective rf.word row_injective cell value

theorem read_of {rf : RegFile} (zero : rf.globalRegister 0 = 0) (r : BitVec 5) :
    (of rf).read r = rf.read r := by
  rw [RegFile.read_eq rf r zero, rowOf_eq, read]
  change (cellOf rf.cwp r).elim 0 _ = _
  cases cellOf rf.cwp r <;> rfl

/-- `RegFile.sv` writes the registers that the window model writes. -/
theorem of_writeRegs (rf : RegFile) (wb : WBOut)
    (even : wb.regDoubleEn = true → wb.regD.getLsbD 0 = false) :
    (of (rf.writeRegs wb)).cells = ((of rf).writeRegs wb).cells := by
  rw [RegFile.writeRegs, writeRegs]
  cases wb.regEn with
  | false => rfl
  | true =>
      have first := of_writeFirst rf wb.regD (wb.data.setWidth 32)
      cases double : wb.regDoubleEn with
      | false => simpa using first
      | true =>
          simp only [if_true, RegFile.writeNext_of_even _ _ (even double), of_writeFirst]
          rw [write, first]
          simp [of, write]

theorem of_clock (rf : RegFile) {edge : RegFile.Edge} (legal : edge.Legal) :
    of (rf.clock edge) = (of rf).clock edge := by
  have cells := of_writeRegs rf edge.wb legal.even
  have cwp : rf.nextCwp edge.cwpInc edge.cwpDec =
      if edge.cwpInc then rf.cwp + 1 else if edge.cwpDec then rf.cwp - 1 else rf.cwp := by
    have single := legal.single
    rw [RegFile.nextCwp]
    cases inc : edge.cwpInc <;> cases dec : edge.cwpDec <;> simp_all
  change Windows.mk _ _ _ _ = Windows.mk _ _ _ _
  congr 1

end Windows

namespace RegFile

open Windows (of written)

theorem zero_writeFirst (rf : RegFile) (r : BitVec 5) (value : BitVec 32) :
    (rf.writeFirst r value).globalRegister 0 = rf.globalRegister 0 := by
  have named : rowOf rf.cwp r ≠ some (.inl 0) := by
    rw [rowOf]
    split
    · simp
    · split
      · rename_i positive global
        revert positive global r
        decide
      · simp
  have kept := congrFun (word_writeFirst rf r value) (.inl 0)
  cases row : rowOf rf.cwp r with
  | none =>
      rw [row] at kept
      exact kept
  | some target =>
      rw [row] at kept named
      rw [Option.elim, Function.update_of_ne (fun same => named (congrArg some same.symm))] at kept
      exact kept

/-- Nothing writes `%g0`. -/
theorem zero_clock (rf : RegFile) {edge : Edge} (legal : edge.Legal) :
    (rf.clock edge).globalRegister 0 = rf.globalRegister 0 := by
  change (rf.writeRegs edge.wb).globalRegister 0 = _
  rw [writeRegs]
  cases edge.wb.regEn with
  | false => rfl
  | true =>
      cases double : edge.wb.regDoubleEn with
      | false => simpa using zero_writeFirst rf _ _
      | true =>
          simp only [if_true, writeNext_of_even _ _ (legal.even double)]
          rw [zero_writeFirst, zero_writeFirst]

/-- The ports show the registers of the current window. -/
theorem sample_of {rf : RegFile} (zero : rf.globalRegister 0 = 0) (rs1 rs2 : BitVec 5)
    {rd : BitVec 5} (even : rd.getLsbD 0 = false) :
    rf.sample rs1 rs2 rd = (of rf).sample rs1 rs2 rd := by
  have double : rf.readDouble rd = rf.read (rd + 1) ++ rf.read rd := by
    rw [readDouble, readNext_of_even rf even]
  rw [sample, Windows.sample, double]
  simp only [Windows.read_of zero]
  rfl

/-- The register file shows the registers of the window model, and an edge leaves all
others as they are. -/
structure Implements (rf : RegFile) (w : Windows) : Prop where
  windows : of rf = w
  ports : ∀ rs1 rs2 rd : BitVec 5, rd.getLsbD 0 = false →
    rf.sample rs1 rs2 rd = w.sample rs1 rs2 rd
  zero : rf.read 0 = 0
  frame : ∀ edge : Edge, edge.Legal → ∀ cell, cell ∉ written w.cwp edge.wb →
    (of (rf.clock edge)).cells cell = w.cells cell

theorem implements_of {rf : RegFile} (zero : rf.globalRegister 0 = 0) :
    rf.Implements (of rf) where
  windows := rfl
  ports rs1 rs2 _ even := sample_of zero rs1 rs2 even
  zero := zero
  frame edge legal cell other := by
    rw [Windows.of_clock rf legal]
    exact (of rf).clock_of_other edge other

/-- After every sequence of edges `RegFile.sv` shows the window model after the same
edges. -/
theorem implements_windows (rf : RegFile) (zero : rf.globalRegister 0 = 0) (edges : List Edge)
    (legal : ∀ edge ∈ edges, edge.Legal) :
    (Runs.run clock rf edges).Implements (Runs.run Windows.clock (of rf) edges) := by
  induction edges generalizing rf with
  | nil => exact implements_of zero
  | cons edge edges induction =>
      have first := legal edge List.mem_cons_self
      rw [Runs.run_cons, Runs.run_cons, ← Windows.of_clock rf first]
      apply induction
      · rw [zero_clock rf first, zero]
      · exact fun later member => legal later (List.mem_cons_of_mem _ member)

/-- From the reset: a write of `%o6` at the edge that also moves to the previous window,
and a double write of `%i2` there. -/
theorem implements_windows_save :
    (Runs.run clock reset
      [⟨⟨true, false, 5, 14, false, false, 0⟩, false, true⟩,
        ⟨⟨true, true, 6, 26, false, true, 9⟩, false, false⟩]).Implements
      (Runs.run Windows.clock (of reset)
        [⟨⟨true, false, 5, 14, false, false, 0⟩, false, true⟩,
          ⟨⟨true, true, 6, 26, false, true, 9⟩, false, false⟩]) :=
  implements_windows reset rfl _ (by decide)

end RegFile

end Sparcy
