import Sparcy.Library.SignedWords
import Sparcy.Sequential
import Sparcy.SyscallMemory

/-!
# Loads and stores of a line

What a hit of the data cache does with the bytes at an address.  A store replaces just
these bytes.  Of the loads only `LDD` returns them.
-/

namespace Sparcy

open Words (word)
open MemPath (requestOf entry)

namespace Ram

theorem laneOf_eq (b : BitVec 64) : laneOf b = b.toNat / 8 % 8 * 8 + (7 - b.toNat % 8) := by
  rw [laneOf, BitVec.extractLsb'_toNat, BitVec.extractLsb'_toNat, Nat.shiftRight_eq_div_pow,
    Nat.shiftRight_eq_div_pow]
  omega

/-- The bytes of a doubleword stand in the order of falling lanes. -/
theorem byteOf_add (row : BitVec 512) (b : BitVec 64) {k : Nat} (inside : b.toNat % 8 + k < 8) :
    byteOf row (b + BitVec.ofNat 64 k) = word 8 row (laneOf b - k) := by
  have bound := b.isLt
  have sum : (b + BitVec.ofNat 64 k).toNat = b.toNat + k := by
    rw [BitVec.toNat_add, BitVec.toNat_ofNat]
    omega
  rw [byteOf, laneOf_eq, laneOf_eq, sum]
  congr 1
  omega

/-- The big-endian halfword and word at an address. -/
def halfOf (row : BitVec 512) (b : BitVec 64) : BitVec 16 := byteOf row b ++ byteOf row (b + 1)

def wordOf (row : BitVec 512) (b : BitVec 64) : BitVec 32 := word32 (byteOf row) b

theorem append_eq_zero_iff {w v : Nat} (a : BitVec w) (b : BitVec v) :
    a ++ b = 0 ↔ a = 0 ∧ b = 0 := by
  have positive : 0 < 2 ^ v := Nat.two_pow_pos v
  rw [BitVec.toNat_eq, BitVec.toNat_eq, BitVec.toNat_eq, Words.toNat_append_eq]
  change _ = 0 ↔ _ = 0 ∧ _ = 0
  rw [Nat.add_eq_zero_iff, Nat.mul_eq_zero, or_iff_left positive.ne']

/-- The two words of a doubleword stand the other way round. -/
theorem wordOf_eq (row : BitVec 512) {b : BitVec 64} (aligned : b.toNat % 4 = 0) :
    wordOf row b = word 32 row (b.toNat / 8 % 8 * 2 + (1 - b.toNat / 4 % 2)) := by
  have width : 32 = 4 * 8 := rfl
  apply Words.eq_of_word_eq width
  intro i inside
  rw [wordOf, word_word32 _ b inside, byteOf_add row b (by omega),
    Words.word_word width row _ inside, laneOf_eq]
  congr 1
  omega

end Ram

/-! ### Loads -/

inductive LoadOp where
  | ldub
  | ldsb
  | lduh
  | ldsh
  | ld
  | ldd
deriving DecidableEq

namespace LoadOp

open Ram (byteOf halfOf wordOf)

theorem forall_iff {p : LoadOp → Prop} :
    (∀ k, p k) ↔ p ldub ∧ p ldsb ∧ p lduh ∧ p ldsh ∧ p ld ∧ p ldd := by
  constructor
  · exact fun all => ⟨all _, all _, all _, all _, all _, all _⟩
  · rintro ⟨ldub, ldsb, lduh, ldsh, ld, ldd⟩ k
    cases k <;> assumption

instance (p : LoadOp → Prop) [DecidablePred p] : Decidable (∀ k, p k) :=
  decidable_of_iff _ forall_iff.symm

def op3 : LoadOp → BitVec 6
  | ldub => Op3.LDUB
  | ldsb => Op3.LDSB
  | lduh => Op3.LDUH
  | ldsh => Op3.LDSH
  | ld => Op3.LD
  | ldd => Op3.LDD

/-- How many bytes are loaded. -/
def size : LoadOp → Nat
  | ldub | ldsb => 1
  | lduh | ldsh => 2
  | ld => 4
  | ldd => 8

/-- The value for `rd`. -/
def value (k : LoadOp) (row : BitVec 512) (b : BitVec 64) : BitVec 32 :=
  match k with
  | ldub => (byteOf row b).setWidth 32
  | ldsb => (byteOf row b).signExtend 32
  | lduh => (halfOf row b).setWidth 32
  | ldsh => (halfOf row b).signExtend 32
  | ld | ldd => wordOf row b

/-- What write-back is to drive: `rd` in the low half and, for `LDD`, `rd+1` in the high
one. -/
def Right (k : LoadOp) (row : BitVec 512) (b : BitVec 64) (data : BitVec 64) : Prop :=
  data.setWidth 32 = k.value row b ∧ (k = ldd → data.extractLsb' 32 32 = wordOf row (b + 4))

instance (k : LoadOp) (row : BitVec 512) (b : BitVec 64) (data : BitVec 64) :
    Decidable (k.Right row b data) := inferInstanceAs (Decidable (_ ∧ _))

/-- The value is that of the bytes. -/
theorem right_congr (k : LoadOp) {row row' : BitVec 512} {b b' : BitVec 64}
    (same : ∀ j < k.size, byteOf row (b + BitVec.ofNat 64 j) =
      byteOf row' (b' + BitVec.ofNat 64 j)) (data : BitVec 64) :
    k.Right row b data ↔ k.Right row' b' data := by
  have first (wide : 0 < k.size) : byteOf row b = byteOf row' b' := by
    simpa using same 0 wide
  have half (wide : 1 < k.size) : halfOf row b = halfOf row' b' := by
    rw [halfOf, first (by omega), show byteOf row (b + 1) = byteOf row' (b' + 1) from same 1 wide,
      ← halfOf]
  have near (wide : 3 < k.size) : wordOf row b = wordOf row' b' := by
    have two : byteOf row (b + 2) = byteOf row' (b' + 2) := same 2 (by omega)
    have three : byteOf row (b + 3) = byteOf row' (b' + 3) := same 3 wide
    rw [wordOf, Ram.word32, ← halfOf, half (by omega), two, three]
    rfl
  have far (wide : 7 < k.size) : wordOf row (b + 4) = wordOf row' (b' + 4) := by
    have byte (j : Nat) (low : 4 + j < k.size) : byteOf row (b + 4 + BitVec.ofNat 64 j) =
        byteOf row' (b' + 4 + BitVec.ofNat 64 j) := by
      have here := same (4 + j) low
      rwa [BitVec.ofNat_add, ← BitVec.add_assoc, ← BitVec.add_assoc] at here
    have zero : byteOf row (b + 4) = byteOf row' (b' + 4) := same 4 (by omega)
    have one : byteOf row (b + 4 + 1) = byteOf row' (b' + 4 + 1) := byte 1 (by omega)
    have two : byteOf row (b + 4 + 2) = byteOf row' (b' + 4 + 2) := byte 2 (by omega)
    have three : byteOf row (b + 4 + 3) = byteOf row' (b' + 4 + 3) := byte 3 (by omega)
    rw [wordOf, wordOf, Ram.word32, Ram.word32, zero, one, two, three]
  cases k with
  | ldub => simp only [Right, value, first (by decide), reduceCtorEq, false_implies]
  | ldsb => simp only [Right, value, first (by decide), reduceCtorEq, false_implies]
  | lduh => simp only [Right, value, half (by decide), reduceCtorEq, false_implies]
  | ldsh => simp only [Right, value, half (by decide), reduceCtorEq, false_implies]
  | ld => simp only [Right, value, near (by decide), reduceCtorEq, false_implies]
  | ldd => simp only [Right, value, near (by decide), far (by decide)]

/-- Extended or not, a value is zero if its bytes are. -/
theorem value_eq_zero_iff (k : LoadOp) (narrow : k ≠ ldd) (row : BitVec 512) (b : BitVec 64) :
    k.value row b = 0 ↔ ∀ j < k.size, byteOf row (b + BitVec.ofNat 64 j) = 0 := by
  have first : b + 0#64 = b := BitVec.add_zero b
  have unsigned {w : Nat} (short : w ≤ 32) (a : BitVec w) : a.setWidth 32 = 0 ↔ a = 0 := by
    rw [BitVec.toNat_eq, BitVec.toNat_eq, BitVec.toNat_setWidth_of_le short]
    rfl
  have signed {w : Nat} (short : w ≤ 32) (a : BitVec w) : a.signExtend 32 = 0 ↔ a = 0 := by
    rw [← BitVec.toInt_inj, ← BitVec.toInt_inj, BitVec.toInt_signExtend_of_le short]
    simp
  have byte : (∀ j < 1, byteOf row (b + BitVec.ofNat 64 j) = 0) ↔ byteOf row b = 0 := by
    constructor
    · intro zero
      rw [← first]
      exact zero 0 (by decide)
    · intro zero j below
      obtain rfl : j = 0 := by omega
      rw [first, zero]
  have half : (∀ j < 2, byteOf row (b + BitVec.ofNat 64 j) = 0) ↔ halfOf row b = 0 := by
    rw [halfOf, Ram.append_eq_zero_iff, ← byte]
    constructor
    · intro zero
      exact ⟨fun j below => zero j (by omega), zero 1 (by decide)⟩
    · rintro ⟨zero, one⟩ j below
      rcases Nat.lt_succ_iff_lt_or_eq.mp below with before | rfl
      · exact zero j before
      · exact one
  cases k with
  | ldub => exact (unsigned (by decide) _).trans byte.symm
  | ldsb => exact (signed (by decide) _).trans byte.symm
  | lduh => exact (unsigned (by decide) _).trans half.symm
  | ldsh => exact (signed (by decide) _).trans half.symm
  | ld =>
      change wordOf row b = 0 ↔ ∀ j < 4, byteOf row (b + BitVec.ofNat 64 j) = 0
      rw [wordOf, Ram.word32, Ram.append_eq_zero_iff, Ram.append_eq_zero_iff, ← halfOf,
        ← half]
      constructor
      · rintro ⟨⟨zero, two⟩, three⟩ j below
        interval_cases j
        · exact zero 0 (by decide)
        · exact zero 1 (by decide)
        · exact two
        · exact three
      · intro zero
        exact ⟨⟨fun j below => zero j (by omega), zero 2 (by decide)⟩, zero 3 (by decide)⟩
  | ldd => exact absurd rfl narrow

end LoadOp

namespace DCache

theorem toNat_wordSelect (x : EXMem) : (requestOf x).wordSelect.toNat = x.alures.toNat / 8 % 8 := by
  change (x.alures.extractLsb' 3 3).toNat = _
  rw [BitVec.extractLsb'_toNat, Nat.shiftRight_eq_div_pow]

/-- `LDD` returns the two words in the order of their addresses, the first one below. -/
theorem loadData_doubleword {p : DcRequest} (doubleword : p.loadType = 0b11) (row : BitVec 512) :
    loadData p row =
      word 32 row (p.wordSelect.toNat * 2) ++ word 32 row (p.wordSelect.toNat * 2 + 1) := by
  have width : 64 = 2 * 32 := rfl
  rw [loadData, if_pos doubleword]
  exact congrArg₂ (· ++ ·) (Words.word_word width row p.wordSelect.toNat (k := 0) (by decide))
    (Words.word_word width row p.wordSelect.toNat (k := 1) (by decide))

end DCache

namespace MemPath

variable {s : MemPath} {x : EXMem}

/-- Two edges after the hit write-back shows the instruction with what the line gave. -/
theorem wb_of_served (tracks : (Phase.waiting x).Tracks s)
    (serves : s.dc.serves s.request = true) (first second : Input) :
    WB.out ((s.step first).step second).memwb =
      WB.out (entry x (DCache.loadData (requestOf x) s.dc.dataSram.readData)) := by
  have answered := (Phase.step tracks first).2
  have next : (Phase.waiting x).next (s.observe first) =
      .answered x (DCache.loadData (requestOf x) s.dc.dataSram.readData) := by
    simp [Phase.next, observe, serves]
  rw [next] at answered
  obtain ⟨-, -, -, -, -, handed⟩ := (Phase.step answered second).1
  rw [step_wb, handed]
  rfl

theorem data_of_served (op : x.op = 0b11) (tracks : (Phase.waiting x).Tracks s)
    (serves : s.dc.serves s.request = true) (first second : Input) :
    (WB.out ((s.step first).step second).memwb).data =
      WB.data (entry x (DCache.loadData (requestOf x) s.dc.dataSram.readData)) := by
  have other : ¬ isBubble x.op x.op2 x.regD = true := by
    rw [op]
    exact Bool.false_ne_true
  rw [wb_of_served tracks serves, WB.out]
  exact congrArg WBOut.data (if_neg other)

theorem entry_of_load (k : LoadOp) (op : x.op = 0b11) (op3 : x.op3 = k.op3) (data : BitVec 64) :
    entry x data = { entry x data with op := 0b11, op3 := k.op3 } := by
  rw [← op, ← op3]
  rfl

/-- `LDD` returns both words. -/
theorem right_of_ldd (op : x.op = 0b11) (op3 : x.op3 = LoadOp.ldd.op3)
    (aligned : x.alures.toNat % 8 = 0) (line : BitVec 512) :
    LoadOp.ldd.Right line x.alures (WB.data (entry x (DCache.loadData (requestOf x) line))) := by
  have bound := x.alures.isLt
  have type : (requestOf x).loadType = 0b11 := congrArg Mem.loadT op3
  have select := DCache.toNat_wordSelect x
  have next : (x.alures + 4).toNat = x.alures.toNat + 4 := by
    rw [BitVec.toNat_add]
    change (_ + 4) % _ = _
    omega
  have near : Ram.wordOf line x.alures = word 32 line (x.alures.toNat / 8 % 8 * 2 + 1) := by
    rw [Ram.wordOf_eq line (by omega)]
    congr 2
    omega
  have far : Ram.wordOf line (x.alures + 4) = word 32 line (x.alures.toNat / 8 % 8 * 2) := by
    rw [Ram.wordOf_eq line (by omega), next]
    congr 1
    omega
  have data (d : BitVec 64) : WB.data (entry x d) = d := by
    rw [entry_of_load .ldd op op3]
    rfl
  rw [data, DCache.loadData_doubleword type, LoadOp.Right, LoadOp.value, near, far, select]
  constructor
  · exact BitVec.setWidth_append.trans (dif_pos (Nat.le_refl 32))
  · exact fun _ => BitVec.extractLsb'_append_eq_left

/-- The others return zero, for the shift leaves nothing of the row. -/
theorem data_of_narrow (k : LoadOp) (narrow : k ≠ .ldd) (op : x.op = 0b11) (op3 : x.op3 = k.op3)
    (line : BitVec 512) : WB.data (entry x (DCache.loadData (requestOf x) line)) = 0 := by
  have type : (requestOf x).loadType ≠ 0b11 := by
    change Mem.loadT x.op3 ≠ 0b11
    rw [op3]
    cases k <;> first | decide | exact absurd rfl narrow
  rw [DCache.loadData_of_narrow type, entry_of_load k op op3]
  cases k <;> rfl

/-- After a hit the loads other than `LDD` write zero. -/
theorem load_right_iff (k : LoadOp) (op : x.op = 0b11) (op3 : x.op3 = k.op3)
    (aligned : x.alures.toNat % k.size = 0) (tracks : (Phase.waiting x).Tracks s)
    (serves : s.dc.serves s.request = true) (first second : Input) :
    k.Right s.dc.dataSram.readData x.alures (WB.out ((s.step first).step second).memwb).data ↔
      k = .ldd ∨
        ∀ j < k.size, Ram.byteOf s.dc.dataSram.readData (x.alures + BitVec.ofNat 64 j) = 0 := by
  rw [data_of_served op tracks serves]
  by_cases doubleword : k = .ldd
  · subst doubleword
    exact iff_of_true (right_of_ldd op op3 aligned _) (.inl rfl)
  · rw [data_of_narrow k doubleword op op3, LoadOp.Right, or_iff_right doubleword,
      ← k.value_eq_zero_iff doubleword]
    exact (and_iff_left fun same => absurd same doubleword).trans eq_comm

/-- A cycle without anything from Execute or the bus. -/
def quiet : Input :=
  { next := .reset, bus := { reqack := false, respcyc := false, resp := 0, resptag := 0 } }

/-- An instruction that has just been taken from `EXMemReg` after a reset.  The sets of the
data cache hold the lines `0xf0` to `0xff` then. -/
def taken (x : EXMem) : MemPath := (start x .reset).step quiet

theorem taken_waits (access : Mem.accesses x = true) : (Phase.waiting x).Tracks (taken x) := by
  have tracks : Phase.idle.Tracks (start x .reset) := ⟨rfl, rfl, rfl⟩
  have next := (Phase.step tracks quiet).2
  change (if Mem.accesses x then Phase.waiting x else .idle).Tracks _ at next
  rwa [if_pos access] at next

/-- A load of `%g1`. -/
def loadOf (k : LoadOp) (address : BitVec 64) : EXMem :=
  { EXMem.reset with op := 0b11, op3 := k.op3, alures := address, regD := 1, regWrite := true }

theorem reset_byte : Ram.byteOf (0xf : BitVec 512) 0x3c07 = 0xf := by
  have lane : Ram.laneOf 0x3c07 = 0 := by decide
  rw [Ram.byteOf, lane, word, Nat.zero_mul, ← BitVec.setWidth_eq_extractLsb' (by decide)]
  exact BitVec.setWidth_ofNat_of_le (by decide) 15

/-- The last byte of the doubleword at `0x3c00` is `0x0f`. -/
theorem ldub_returns_zero :
    ¬ ∀ (s : MemPath) (x : EXMem) (k : LoadOp), x.op = 0b11 → x.op3 = k.op3 →
      x.alures.toNat % k.size = 0 → (Phase.waiting x).Tracks s →
      s.dc.serves s.request = true → ∀ first second : Input,
        k.Right s.dc.dataSram.readData x.alures
          (WB.out ((s.step first).step second).memwb).data := by
  intro right
  have waits : (Phase.waiting (loadOf .ldub 0x3c07)).Tracks (taken (loadOf .ldub 0x3c07)) :=
    taken_waits (by decide)
  have returned := (right _ _ .ldub rfl rfl rfl waits (by decide) quiet quiet).1
  rw [wb_of_served waits (by decide), DCache.loadData_of_narrow (by decide)] at returned
  change _ = (Ram.byteOf (0xf : BitVec 512) 0x3c07).setWidth 32 at returned
  rw [reset_byte] at returned
  exact absurd returned (by decide)

/-- The doubleword there. -/
theorem load_right_iff_ldd :
    LoadOp.ldd.Right (taken (loadOf .ldd 0x3c00)).dc.dataSram.readData 0x3c00
      (WB.out (((taken (loadOf .ldd 0x3c00)).step quiet).step quiet).memwb).data :=
  (load_right_iff (x := loadOf .ldd 0x3c00) .ldd rfl rfl rfl (taken_waits (by decide))
    (by decide) quiet quiet).mpr (.inl rfl)

end MemPath

/-! ### Stores -/

inductive StoreOp where
  | stb
  | sth
  | st
  | std
deriving DecidableEq

namespace StoreOp

def op3 : StoreOp → BitVec 6
  | stb => Op3.STB
  | sth => Op3.STH
  | st => Op3.ST
  | std => Op3.STD

/-- The store type of Mem. -/
def type : StoreOp → BitVec 2
  | stb => 0b00
  | sth => 0b01
  | st => 0b10
  | std => 0b11

theorem storeT_op3 (k : StoreOp) : Mem.storeT k.op3 = k.type := by cases k <;> rfl

/-- How many bytes are stored. -/
def size : StoreOp → Nat
  | stb => 1
  | sth => 2
  | st => 4
  | std => 8

/-- The value to store, in the low bytes: `rd`, and for a doubleword `rd+1` below it. -/
def value (k : StoreOp) (rd next : BitVec 32) : BitVec 64 :=
  match k with
  | std => rd ++ next
  | _ => rd.setWidth 64

/-- Its bytes, the most significant one first. -/
def byte (k : StoreOp) (rd next : BitVec 32) (j : Nat) : BitVec 8 :=
  word 8 (k.value rd next) (k.size - 1 - j)

end StoreOp

namespace DCache

open ICache (swapHalves)

variable {x : EXMem}

/-- In the upper half of its doubleword a row has the low half of the data. -/
theorem getLsbD_halfShift_low {p : DcRequest} {n j : Nat} (below : j < 32)
    (place : n + backShift p = p.wordSelect.toNat * 64 + 32 + j) :
    (halfShift p).getLsbD n = p.dataIn.getLsbD j := by
  have select := p.wordSelect.isLt
  have index : p.wordSelect.toNat * 64 + 32 + j - p.wordSelect.toNat * 64 = 32 + j := by omega
  have first : 32 + j - 32 = j := by omega
  rw [getLsbD_halfShift (by omega), place, index, first, BitVec.getLsbD_extractLsb',
    decide_eq_true (by omega : p.wordSelect.toNat * 64 + 32 + j < 512),
    decide_eq_true (by omega : 32 + j < 64), decide_eq_true below, Nat.zero_add]
  rfl

theorem word_halfShift {p : DcRequest} {s lane i : Nat} (low : i < 4) (inside : lane < 64)
    (shifted : s ≤ lane * 8)
    (place : lane * 8 + backShift p = p.wordSelect.toNat * 64 + 32 + i * 8 + s) :
    word 8 (halfShift p <<< s) lane = word 8 p.dataIn i := by
  apply BitVec.eq_of_getLsbD_eq
  intro j below
  have bits := getLsbD_halfShift_low (p := p) (n := lane * 8 + j - s) (j := i * 8 + j)
    (by omega) (by omega)
  have within : decide (lane * 8 + j < 512) = true := decide_eq_true (by omega)
  have above : decide (lane * 8 + j < s) = false := decide_eq_false (by omega)
  rw [Words.getLsbD_word, Words.getLsbD_word, BitVec.getLsbD_shiftLeft, bits, within, above]
  rfl

theorem toNat_byteOffset (x : EXMem) : (requestOf x).byteOffset.toNat = x.alures.toNat % 8 := by
  change (x.alures.extractLsb' 0 3).toNat = _
  rw [BitVec.extractLsb'_toNat]
  rfl

/-- The enabled lanes end with that of the address. -/
theorem storeEnable_eq (k : StoreOp) (type : Mem.storeT x.op3 = k.type)
    (aligned : x.alures.toNat % k.size = 0) :
    storeEnable (requestOf x) =
      BitVec.ofNat 64 (2 ^ k.size - 1) <<< (Ram.laneOf x.alures + 1 - k.size) := by
  have lane := Ram.laneOf_eq x.alures
  have select := toNat_wordSelect x
  have offset := toNat_byteOffset x
  cases k with
  | stb =>
      have type : (requestOf x).storeType = 0b00 := type
      have first := BitVec.toNat_not (x := (requestOf x).byteOffset)
      rw [storeEnable, if_pos type, Words.toNat_append_eq]
      change 1#64 <<< _ = 1#64 <<< (_ + 1 - 1)
      congr 1
      omega
  | sth =>
      have type : (requestOf x).storeType = 0b01 := type
      have even : x.alures.toNat % 2 = 0 := aligned
      have first : ∀ off : BitVec 3, off.toNat % 2 = 0 →
          (~~~(off.extractLsb' 1 2)).toNat * 2 = 6 - off.toNat := by decide
      have here := first (requestOf x).byteOffset (by omega)
      rw [storeEnable, type, if_neg (by decide), if_pos rfl, Words.toNat_append_eq,
        Words.toNat_append_eq]
      change 3#64 <<< (_ * 2 + 0) = 3#64 <<< (_ + 1 - 2)
      congr 1
      omega
  | st =>
      have type : (requestOf x).storeType = 0b10 := type
      have fourth : x.alures.toNat % 4 = 0 := aligned
      have first : ∀ off : BitVec 3, off.toNat % 4 = 0 →
          (~~~(off.extractLsb' 2 1)).toNat * 4 = 4 - off.toNat := by decide
      have here := first (requestOf x).byteOffset (by omega)
      rw [storeEnable, type, if_neg (by decide), if_neg (by decide), if_pos rfl,
        Words.toNat_append_eq, Words.toNat_append_eq]
      change 15#64 <<< (_ * 4 + 0) = 15#64 <<< (_ + 1 - 4)
      congr 1
      omega
  | std =>
      have type : (requestOf x).storeType = 0b11 := type
      have eighth : x.alures.toNat % 8 = 0 := aligned
      rw [storeEnable, type, if_neg (by decide), if_neg (by decide), if_neg (by decide),
        Words.toNat_append_eq]
      change 255#64 <<< (_ * 8 + 0) = 255#64 <<< (_ + 1 - 8)
      congr 1
      omega

/-- The bytes of a doubleword. -/
theorem word_writeShift (p : DcRequest) {i : Nat} (inside : i < 8) :
    word 8 (writeShift p) (p.wordSelect.toNat * 8 + i) = word 8 (swapHalves p.dataIn) i := by
  apply BitVec.eq_of_getLsbD_eq
  intro j below
  have bound := p.wordSelect.isLt
  have within : decide ((p.wordSelect.toNat * 8 + i) * 8 + j < 512) = true :=
    decide_eq_true (by omega)
  have above : decide ((p.wordSelect.toNat * 8 + i) * 8 + j < p.wordSelect.toNat * 64) = false :=
    decide_eq_false (by omega)
  have rest : decide (i * 8 + j < 512) = true := decide_eq_true (by omega)
  have index : (p.wordSelect.toNat * 8 + i) * 8 + j - p.wordSelect.toNat * 64 = i * 8 + j := by
    omega
  rw [Words.getLsbD_word, Words.getLsbD_word, writeShift, BitVec.getLsbD_shiftLeft, within, above,
    index, BitVec.getLsbD_setWidth, rest]
  rfl

theorem word_pair (rd next : BitVec 32) {i : Nat} (low : i < 4) :
    word 8 (next ++ rd) i = word 8 (rd.setWidth 64) i := by
  have width : 32 = 4 * 8 := rfl
  rw [Words.word_append width, if_pos low]
  apply BitVec.eq_of_getLsbD_eq
  intro j below
  have inside : decide (i * 8 + j < 64) = true := decide_eq_true (by omega)
  rw [Words.getLsbD_word, Words.getLsbD_word, BitVec.getLsbD_setWidth, inside, Bool.true_and]

theorem backShift_le (p : DcRequest) : backShift p ≤ 32 := by
  rw [backShift]
  split
  · exact Nat.le_refl 32
  · exact Nat.zero_le 32

/-- The bytes in them are those of the value. -/
theorem word_storeData (k : StoreOp) (type : Mem.storeT x.op3 = k.type)
    (aligned : x.alures.toNat % k.size = 0) {rd next : BitVec 32} (pair : x.valD = next ++ rd)
    {i : Nat} (inside : i < k.size) :
    word 8 (storeData (requestOf x)) (Ram.laneOf x.alures + 1 - k.size + i) =
      word 8 (k.value rd next) i := by
  have lane := Ram.laneOf_eq x.alures
  have select := toNat_wordSelect x
  have offset := toNat_byteOffset x
  have short := backShift_le (requestOf x)
  have data : (requestOf x).dataIn = next ++ rd := pair
  cases k with
  | stb =>
      have type : (requestOf x).storeType = 0b00 := type
      have single : i < 1 := inside
      have place : ∀ off : BitVec 3, (7 - off.toNat) * 8 + (if off.getLsbD 2 then 32 else 0) =
          32 + 8 * ((~~~off).extractLsb' 0 2).toNat := by decide
      have here : _ + backShift (requestOf x) = _ := place (requestOf x).byteOffset
      rw [storeData, if_pos type]
      change word 8 _ (_ + 1 - 1 + i) = word 8 (rd.setWidth 64) i
      rw [← word_pair rd next (by omega), ← data]
      apply word_halfShift <;> omega
  | sth =>
      have type : (requestOf x).storeType = 0b01 := type
      have even : x.alures.toNat % 2 = 0 := aligned
      have double : i < 2 := inside
      have place : ∀ off : BitVec 3, off.toNat % 2 = 0 →
          (6 - off.toNat) * 8 + (if off.getLsbD 2 then 32 else 0) =
            32 + 16 * ((~~~(off.extractLsb' 1 2)).extractLsb' 0 1).toNat := by decide
      have here : _ + backShift (requestOf x) = _ := place (requestOf x).byteOffset (by omega)
      rw [storeData, type, if_neg (by decide), if_pos rfl]
      change word 8 _ (_ + 1 - 2 + i) = word 8 (rd.setWidth 64) i
      rw [← word_pair rd next (by omega), ← data]
      apply word_halfShift <;> omega
  | st =>
      have type : (requestOf x).storeType = 0b10 := type
      have fourth : x.alures.toNat % 4 = 0 := aligned
      have four : i < 4 := inside
      have place : ∀ off : BitVec 3, off.toNat % 4 = 0 →
          (4 - off.toNat) * 8 + (if off.getLsbD 2 then 32 else 0) = 32 := by decide
      have here : _ + backShift (requestOf x) = _ := place (requestOf x).byteOffset (by omega)
      have unshifted := BitVec.shiftLeft_zero (x := halfShift (requestOf x))
      rw [storeData, type, if_neg (by decide), if_neg (by decide), if_pos rfl, ← unshifted]
      change word 8 _ (_ + 1 - 4 + i) = word 8 (rd.setWidth 64) i
      rw [← word_pair rd next (by omega), ← data]
      apply word_halfShift <;> omega
  | std =>
      have type : (requestOf x).storeType = 0b11 := type
      have eighth : x.alures.toNat % 8 = 0 := aligned
      have eight : i < 8 := inside
      have swapped : swapHalves (next ++ rd) = rd ++ next := by
        rw [swapHalves, BitVec.extractLsb'_append_eq_right, BitVec.extractLsb'_append_eq_left]
      have lanes : Ram.laneOf x.alures + 1 - 8 = (requestOf x).wordSelect.toNat * 8 := by omega
      rw [storeData, type, if_neg (by decide), if_neg (by decide), if_neg (by decide)]
      change word 8 _ (Ram.laneOf x.alures + 1 - 8 + i) = word 8 (rd ++ next) i
      rw [lanes, word_writeShift _ eight, data, swapped]

variable {r : Regs}

theorem stores_of_serves (k : StoreOp) (op : x.op = 0b11) (op3 : x.op3 = k.op3)
    (hit : r.serves (requestOf x) = true) : r.stores (requestOf x) = true := by
  have write : Mem.storeOp x.op x.op3 = true := by
    rw [op, op3]
    cases k <;> rfl
  have readWriteN : (requestOf x).readWriteN = false := congrArg not write
  rw [Regs.stores, hit, readWriteN]
  rfl

theorem word_store (k : StoreOp) (type : Mem.storeT x.op3 = k.type)
    (aligned : x.alures.toNat % k.size = 0) {rd next : BitVec 32} (pair : x.valD = next ++ rd)
    (row : BitVec 512) {l : Nat} (inside : l < 64) :
    word 8 (writeWords row (storeData (requestOf x)) 8 (storeEnable (requestOf x))) l =
      if Ram.laneOf x.alures + 1 - k.size ≤ l ∧
          l < Ram.laneOf x.alures + 1 - k.size + k.size then
        word 8 (k.value rd next) (l - (Ram.laneOf x.alures + 1 - k.size))
      else word 8 row l := by
  rw [word_writeWords (by decide) _ _ _ (by omega), storeEnable_eq k type aligned,
    Words.getLsbD_ones _ _ inside]
  simp only [decide_eq_true_eq]
  by_cases stored : Ram.laneOf x.alures + 1 - k.size ≤ l ∧
      l < Ram.laneOf x.alures + 1 - k.size + k.size
  · have data := word_storeData k type aligned pair
      (i := l - (Ram.laneOf x.alures + 1 - k.size)) (by omega)
    rw [Nat.add_sub_cancel' stored.1] at data
    rw [if_pos stored, if_pos stored, data]
  · rw [if_neg stored, if_neg stored]

theorem size_cases {size : Nat} (fits : size ∣ 8) :
    size = 1 ∨ size = 2 ∨ size = 4 ∨ size = 8 := by
  have bound := Nat.le_of_dvd (by decide) fits
  interval_cases size <;> omega

/-- A byte of the line is addressed exactly if its lane is enabled. -/
theorem lane_inside_iff {size : Nat} (fits : size ∣ 8) {a b : BitVec 64}
    (aligned : a.toNat % size = 0) (line : Ram.lineOf b = Ram.lineOf a) :
    (Ram.laneOf a + 1 - size ≤ Ram.laneOf b ∧
        Ram.laneOf b < Ram.laneOf a + 1 - size + size ↔
      a.toNat ≤ b.toNat ∧ b.toNat < a.toNat + size) ∧
    (a.toNat ≤ b.toNat → b.toNat < a.toNat + size →
      Ram.laneOf b - (Ram.laneOf a + 1 - size) = size - 1 - (b.toNat - a.toNat)) := by
  have block : b.toNat / 64 = a.toNat / 64 := by
    have same := congrArg BitVec.toNat line
    rwa [Ram.lineOf, Ram.lineOf, BitVec.extractLsb'_toNat, BitVec.extractLsb'_toNat,
      Nat.shiftRight_eq_div_pow, Nat.shiftRight_eq_div_pow, Nat.mod_eq_of_lt (by omega),
      Nat.mod_eq_of_lt (by omega)] at same
  have lane := Ram.laneOf_eq a
  have lane' := Ram.laneOf_eq b
  rcases size_cases fits with rfl | rfl | rfl | rfl <;> omega

/-- The addressed bytes are in one line. -/
theorem lineOf_of_inside {size : Nat} (fits : size ∣ 8) {a b : BitVec 64}
    (aligned : a.toNat % size = 0) (inside : a.toNat ≤ b.toNat ∧ b.toNat < a.toNat + size) :
    Ram.lineOf b = Ram.lineOf a := by
  apply BitVec.eq_of_toNat_eq
  rw [Ram.lineOf, Ram.lineOf, BitVec.extractLsb'_toNat, BitVec.extractLsb'_toNat,
    Nat.shiftRight_eq_div_pow, Nat.shiftRight_eq_div_pow]
  rcases size_cases fits with rfl | rfl | rfl | rfl <;> omega

theorem byteOf_store (k : StoreOp) (type : Mem.storeT x.op3 = k.type)
    (aligned : x.alures.toNat % k.size = 0) {rd next : BitVec 32} (pair : x.valD = next ++ rd)
    (row : BitVec 512) {b : BitVec 64} (line : Ram.lineOf b = Ram.lineOf x.alures) :
    Ram.byteOf (writeWords row (storeData (requestOf x)) 8 (storeEnable (requestOf x))) b =
      if x.alures.toNat ≤ b.toNat ∧ b.toNat < x.alures.toNat + k.size then
        k.byte rd next (b.toNat - x.alures.toNat)
      else Ram.byteOf row b := by
  have fits : k.size ∣ 8 := by cases k <;> decide
  obtain ⟨addressed, place⟩ := lane_inside_iff fits aligned line
  rw [Ram.byteOf, Ram.byteOf, word_store k type aligned pair _ (Ram.laneOf_lt b)]
  by_cases stored : x.alures.toNat ≤ b.toNat ∧ b.toNat < x.alures.toNat + k.size
  · rw [if_pos (addressed.mpr stored), if_pos stored, place stored.1 stored.2]
    rfl
  · rw [if_neg (mt addressed.mp stored), if_neg stored]

/-- A store hit changes the addressed bytes of its set, which becomes dirty, and nothing
else. -/
theorem store_hit (k : StoreOp) (op : x.op = 0b11) (op3 : x.op3 = k.op3)
    (aligned : x.alures.toNat % k.size = 0) {rf : RegFile} {rd : BitVec 5}
    (pair : x.valD = rf.readDouble rd) (hit : r.serves (requestOf x) = true)
    (bus : BusResponse) :
    let after := r.step (requestOf x) bus
    let i := ICache.index (requestOf x).lineAddr
    (∀ b : BitVec 64, Ram.lineOf b = Ram.lineOf x.alures →
        Ram.byteOf (after.dataSram.mem i) b =
          if x.alures.toNat ≤ b.toNat ∧ b.toNat < x.alures.toNat + k.size then
            k.byte (rf.read rd) (rf.readNext rd) (b.toNat - x.alures.toNat)
          else Ram.byteOf (r.dataSram.mem i) b) ∧
      (∀ j ≠ i, after.dataSram.mem j = r.dataSram.mem j) ∧
      after.dirtySram.mem = Function.update r.dirtySram.mem i 1 ∧
      after.tagSram.mem = r.tagSram.mem := by
  intro after i
  have stores := stores_of_serves k op op3 hit
  have idle : r.requests bus = false := by
    rw [Regs.serves, Bool.and_eq_true, beq_iff_eq] at hit
    rw [Regs.requests, hit.1]
    rfl
  have data : after.dataSram.mem = Function.update r.dataSram.mem i
      (writeWords (r.dataSram.mem i) (storeData (requestOf x)) 8 (storeEnable (requestOf x))) := by
    change (r.dataSram.step i 8 (r.writeData (requestOf x) bus)
      (r.dataWrite (requestOf x) bus)).mem = _
    rw [Sram.step_mem, Regs.writeData, Regs.dataWrite, if_pos stores, if_pos stores]
  have type : Mem.storeT x.op3 = k.type := (congrArg Mem.storeT op3).trans k.storeT_op3
  refine ⟨?_, ?_, ?_, ?_⟩
  · intro b line
    rw [data, Function.update_self]
    exact byteOf_store k type aligned pair _ line
  · intro j other
    rw [data, Function.update_of_ne other]
  · change (r.dirtySram.step i 1 (BitVec.ofBool (r.stores (requestOf x)))
      (BitVec.ofBool (r.stores (requestOf x) || r.requests bus))).mem = _
    rw [Sram.step_mem_ofBool (by decide), stores]
    rfl
  · change (r.tagSram.step i 54 (ICache.tag (requestOf x).lineAddr)
      (BitVec.ofBool (r.requests bus))).mem = _
    rw [Sram.step_mem_ofBool (by decide), idle]
    rfl

end DCache

namespace MemPath

/-- A register file with `0xabcd` in every global register but `%g0`. -/
def storeRegs : RegFile :=
  { RegFile.reset with globalRegister := fun r => if r = 0 then 0 else 0xabcd }

/-- A store of `%g1`. -/
def storeOf (k : StoreOp) (address : BitVec 64) : EXMem :=
  { EXMem.reset with
    op := 0b11, op3 := k.op3, alures := address, regD := 1, valD := storeRegs.readDouble 1 }

/-- The two bytes of a halfword. -/
theorem store_hit_sth :
    let after := (taken (storeOf .sth 0x3c06)).dc.step (requestOf (storeOf .sth 0x3c06)) quiet.bus
    Ram.byteOf (after.dataSram.mem 0) 0x3c06 = 0xab ∧
      Ram.byteOf (after.dataSram.mem 0) 0x3c07 = 0xcd ∧ after.dirtySram.mem 0 = 1 := by
  intro after
  have pair : (storeOf .sth 0x3c06).valD = storeRegs.readDouble 1 := rfl
  have hit : (taken (storeOf .sth 0x3c06)).dc.serves (requestOf (storeOf .sth 0x3c06)) = true := by
    decide
  obtain ⟨bytes, -, dirty, -⟩ := DCache.store_hit .sth rfl rfl rfl pair hit quiet.bus
  refine ⟨?_, ?_, ?_⟩
  · exact (bytes 0x3c06 rfl).trans (if_pos (by decide))
  · exact (bytes 0x3c07 rfl).trans (if_pos (by decide))
  · exact congrFun dirty 0

end MemPath

end Sparcy
