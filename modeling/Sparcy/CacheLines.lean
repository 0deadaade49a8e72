import Sparcy.Sram
import Sparcy.Library.Words

/-!
# Rows of the cache memories

What an edge does to the row of a data, tag or dirty memory.
-/

namespace Sparcy

open Words (word)

section

variable {w n size : Nat}

theorem getLsbD_writeWords (positive : 0 < size) (line data : BitVec w) (enable : BitVec n)
    {j : Nat} (inside : j < w) :
    (writeWords line data size enable).getLsbD j =
      if enable.getLsbD (j / size) then data.getLsbD j else line.getLsbD j := by
  have loop := Words.getLsbD_foldl_merge positive enable.getLsbD data n inside line
  rw [show (writeWords line data size enable).getLsbD j = _ from loop]
  by_cases selected : j / size < n
  · simp [selected]
  · simp [selected, BitVec.getLsbD_of_ge _ _ (Nat.le_of_not_lt selected)]

theorem writeWords_zero (line data : BitVec w) (size : Nat) :
    writeWords line data size (0 : BitVec n) = line := by
  have loop : ∀ words : List Nat, words.foldl (fun line i =>
      if (0 : BitVec n).getLsbD i then writeWord line data size i else line) line = line := by
    intro words
    induction words with
    | nil => rfl
    | cons _ words induction => simpa using induction
  exact loop _

theorem writeWords_whole (positive : 0 < w) (line data : BitVec w) :
    writeWords line data w (1 : BitVec 1) = data := by
  apply BitVec.eq_of_getLsbD_eq
  intro j inside
  rw [getLsbD_writeWords positive line data _ inside, Nat.div_eq_of_lt inside]
  rfl

/-- An enabled byte is that of the data, any other is kept. -/
theorem word_writeWords (positive : 0 < size) (line data : BitVec w) (enable : BitVec n)
    {i : Nat} (inside : (i + 1) * size ≤ w) :
    word size (writeWords line data size enable) i =
      if enable.getLsbD i then word size data i else word size line i := by
  apply BitVec.eq_of_getLsbD_eq
  intro j below
  have here : i * size + j < w := by
    rw [Nat.add_mul, Nat.one_mul] at inside
    omega
  have index : (i * size + j) / size = i := by
    rw [Nat.mul_comm, Nat.mul_add_div positive, Nat.div_eq_of_lt below, Nat.add_zero]
  rw [Words.getLsbD_word, getLsbD_writeWords positive line data enable here, index]
  cases enable.getLsbD i <;>
    simp only [Words.getLsbD_word, below, decide_true, Bool.true_and, if_true, if_false,
      Bool.false_eq_true]

/-- A beat is written by the enables of its own words, `count` of them. -/
theorem word_writeWords_beat {count : Nat} (whole : count * size = 64) (positive : 0 < size)
    (line : BitVec 512) (beat : BitVec 64) {c i : Nat} (fits : 8 * count ≤ n) (low : c < 8)
    (inside : i < 8) :
    word 64 (writeWords line (beat.setWidth 512 <<< (c * 64)) size
        (BitVec.ofNat n (2 ^ count - 1) <<< (c * count))) i =
      if i = c then beat else word 64 line i := by
  have some_word : 0 < count := by
    rcases Nat.eq_zero_or_pos count with zero | some_word
    · rw [zero, Nat.zero_mul] at whole
      cases whole
    · exact some_word
  apply BitVec.eq_of_getLsbD_eq
  intro j below
  have here : i * 64 + j < 512 := by omega
  have small : j / size < count := by
    rw [Nat.div_lt_iff_lt_mul positive, whole]
    exact below
  have index : (i * 64 + j) / size = i * count + j / size := by
    rw [← whole, ← Nat.mul_assoc, Nat.mul_comm, Nat.mul_add_div positive]
  have mine : (i * count + j / size) / count = i := by
    rw [Nat.mul_comm, Nat.mul_add_div some_word, Nat.div_eq_of_lt small, Nat.add_zero]
  have bound : i * count + j / size < n := by
    have rows : (i + 1) * count ≤ 8 * count := Nat.mul_le_mul_right count inside
    rw [Nat.add_mul, Nat.one_mul] at rows
    omega
  have enabled : (BitVec.ofNat n (2 ^ count - 1) <<< (c * count)).getLsbD ((i * 64 + j) / size) =
      decide (i = c) := by
    have own := Words.in_word_iff some_word c (i * count + j / size)
    rw [mine, Nat.add_mul, Nat.one_mul] at own
    rw [index, BitVec.getLsbD_shiftLeft, BitVec.getLsbD_ofNat, Nat.testBit_two_pow_sub_one,
      Bool.eq_iff_iff, decide_eq_true_iff, ← own]
    simp only [Bool.and_eq_true, decide_eq_true_eq, Bool.not_eq_true', decide_eq_false_iff_not]
    omega
  rw [Words.getLsbD_word, getLsbD_writeWords positive _ _ _ here, enabled]
  by_cases same : i = c
  · subst same
    simp only [below, here, decide_true, Bool.true_and, if_true, BitVec.getLsbD_shiftLeft,
      BitVec.getLsbD_setWidth, Nat.not_lt.mpr (Nat.le_add_right (i * 64) j), decide_false,
      Bool.not_false, Nat.add_sub_cancel_left]
    simp [show j < 512 by omega]
  · simp only [same, Words.getLsbD_word, below, decide_false, decide_true, Bool.true_and,
      Bool.false_eq_true, if_false]

end

namespace Sram

variable {w n : Nat}

@[simp] theorem step_readData (s : Sram w) (addr : BitVec 4) (size : Nat) (data : BitVec w)
    (enable : BitVec n) : (s.step addr size data enable).readData = s.mem addr := rfl

@[simp] theorem step_mem_zero (s : Sram w) (addr : BitVec 4) (size : Nat) (data : BitVec w) :
    (s.step addr size data (0 : BitVec n)).mem = s.mem := by
  simp [step]

theorem step_mem (s : Sram w) (addr : BitVec 4) (size : Nat) (data : BitVec w)
    (enable : BitVec n) :
    (s.step addr size data enable).mem =
      Function.update s.mem addr (writeWords (s.mem addr) data size enable) := by
  by_cases none : enable = 0
  · subst none
    rw [step_mem_zero, writeWords_zero, Function.update_eq_self]
  · rw [step, if_neg none]

theorem step_mem_ofBool (positive : 0 < w) (s : Sram w) (addr : BitVec 4) (data : BitVec w)
    (write : Bool) :
    (s.step addr w data (BitVec.ofBool write)).mem =
      if write then Function.update s.mem addr data else s.mem := by
  rw [step_mem]
  cases write with
  | false =>
      rw [show BitVec.ofBool false = 0 from rfl, writeWords_zero, Function.update_eq_self]
      rfl
  | true =>
      rw [show BitVec.ofBool true = 1 from rfl, writeWords_whole positive]
      rfl

end Sram

end Sparcy
