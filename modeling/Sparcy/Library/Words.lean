import Mathlib.Algebra.Group.Nat.Defs
import Mathlib.Tactic.Common

/-!
# Words of a bit vector

A bit vector read as a row of words of one size, the least significant word first,
and the replacement of some of its words.
-/

namespace Words

variable {w size : Nat}

/-- Word `i` of a bit vector. -/
def word (size : Nat) (v : BitVec w) (i : Nat) : BitVec size := v.extractLsb' (i * size) size

theorem getLsbD_word (v : BitVec w) (i j : Nat) :
    (word size v i).getLsbD j = (decide (j < size) && v.getLsbD (i * size + j)) := by
  simp [word, BitVec.getLsbD_extractLsb']

theorem toNat_append_eq {n : Nat} (v : BitVec w) (v' : BitVec n) :
    (v ++ v').toNat = v.toNat * 2 ^ n + v'.toNat := by
  rw [BitVec.toNat_append, ← Nat.shiftLeft_add_eq_or_of_lt v'.isLt, Nat.shiftLeft_eq]

/-- The second part of a concatenation holds the low words. -/
theorem word_append {v count : Nat} (width : v = count * size) (a : BitVec w) (b : BitVec v)
    (i : Nat) :
    word size (a ++ b) i = if i < count then word size b i else word size a (i - count) := by
  apply BitVec.eq_of_getLsbD_eq
  intro j below
  rw [getLsbD_word, BitVec.getLsbD_append]
  by_cases low : i < count
  · have rows : (i + 1) * size ≤ count * size := Nat.mul_le_mul_right size low
    rw [Nat.add_mul, Nat.one_mul] at rows
    rw [if_pos low, if_pos (by omega), getLsbD_word]
  · have rows : count * size ≤ i * size := Nat.mul_le_mul_right size (Nat.le_of_not_lt low)
    rw [if_neg low, if_neg (by omega), getLsbD_word, Nat.sub_mul, width,
      Nat.sub_add_comm rows]

theorem word_self (v : BitVec w) : word w v 0 = v := by
  apply BitVec.eq_of_getLsbD_eq
  intro j below
  rw [getLsbD_word, decide_eq_true below, Bool.true_and, Nat.zero_mul, Nat.zero_add]

theorem word_word {size' count : Nat} (whole : size' = count * size) (v : BitVec w) (i : Nat)
    {k : Nat} (inside : k < count) :
    word size (word size' v i) k = word size v (i * count + k) := by
  apply BitVec.eq_of_getLsbD_eq
  intro j below
  have fits : k * size + j < size' := by
    have rows : (k + 1) * size ≤ count * size := Nat.mul_le_mul_right size inside
    rw [Nat.add_mul, Nat.one_mul] at rows
    omega
  have index : i * size' + (k * size + j) = (i * count + k) * size + j := by
    rw [whole, Nat.add_mul, Nat.mul_assoc]
    omega
  rw [getLsbD_word, getLsbD_word, getLsbD_word, index]
  simp only [below, fits, decide_true, Bool.true_and]

theorem getLsbD_ones (count n : Nat) {i : Nat} (inside : i < w) :
    (BitVec.ofNat w (2 ^ count - 1) <<< n).getLsbD i = decide (n ≤ i ∧ i < n + count) := by
  rw [BitVec.getLsbD_shiftLeft, BitVec.getLsbD_ofNat, Nat.testBit_two_pow_sub_one,
    Bool.eq_iff_iff]
  simp only [Bool.and_eq_true, decide_eq_true_eq, Bool.not_eq_true', decide_eq_false_iff_not]
  omega

/-- A bit vector is determined by its words. -/
theorem eq_of_word_eq {count : Nat} (width : w = count * size) {v v' : BitVec w}
    (same : ∀ i < count, word size v i = word size v' i) : v = v' := by
  apply BitVec.eq_of_getLsbD_eq
  intro j inside
  have positive : 0 < size := by
    rcases Nat.eq_zero_or_pos size with zero | positive
    · rw [width, zero] at inside
      omega
    · exact positive
  have index : j / size < count := by
    rw [Nat.div_lt_iff_lt_mul positive, ← width]
    exact inside
  have bit := congrArg (fun word => word.getLsbD (j % size)) (same _ index)
  simpa only [getLsbD_word, Nat.mod_lt j positive, Nat.div_add_mod', decide_true,
    Bool.true_and] using bit

/-- The bits of word `i`. -/
def mask (w size i : Nat) : BitVec w := (BitVec.allOnes size).setWidth w <<< (i * size)

theorem getLsbD_mask (w size i j : Nat) :
    (mask w size i).getLsbD j = decide (j < w ∧ i * size ≤ j ∧ j < (i + 1) * size) := by
  simp only [mask, BitVec.getLsbD_shiftLeft, BitVec.getLsbD_setWidth, BitVec.getLsbD_allOnes]
  rw [Bool.eq_iff_iff]
  simp only [Bool.and_eq_true, decide_eq_true_eq, Bool.not_eq_true', decide_eq_false_iff_not,
    Nat.add_mul, Nat.one_mul]
  omega

/-- A bit is in word `i` exactly when `i` is its index divided by the word size. -/
theorem in_word_iff (positive : 0 < size) (i j : Nat) :
    i * size ≤ j ∧ j < (i + 1) * size ↔ j / size = i := by
  constructor
  · rintro ⟨low, high⟩
    exact Nat.div_eq_of_lt_le low high
  · rintro rfl
    exact ⟨Nat.div_mul_le_self j size, Nat.lt_mul_of_div_lt (Nat.lt_succ_self _) positive⟩

/-- Replace the bits under the mask. -/
def merge (line data bits : BitVec w) : BitVec w := (line &&& ~~~bits) ||| (data &&& bits)

theorem getLsbD_merge (line data bits : BitVec w) (j : Nat) :
    (merge line data bits).getLsbD j =
      if bits.getLsbD j then data.getLsbD j else line.getLsbD j := by
  by_cases inside : j < w
  · simp only [merge, BitVec.getLsbD_or, BitVec.getLsbD_and, BitVec.getLsbD_not, inside,
      decide_true, Bool.true_and]
    cases bits.getLsbD j <;> simp
  · simp only [BitVec.getLsbD_of_ge _ _ (Nat.le_of_not_lt inside), ite_self]

/-- Replacing one word after the other replaces the selected ones. -/
theorem getLsbD_foldl_merge (positive : 0 < size) (select : Nat → Bool) (data : BitVec w)
    (count : Nat) {j : Nat} (inside : j < w) (line : BitVec w) :
    ((List.range count).foldl
        (fun line i => if select i then merge line data (mask w size i) else line)
        line).getLsbD j =
      if j / size < count ∧ select (j / size) = true then data.getLsbD j
      else line.getLsbD j := by
  induction count with
  | zero => simp
  | succ count induction =>
      rw [List.range_succ, List.foldl_append, List.foldl_cons, List.foldl_nil]
      have here : (mask w size count).getLsbD j = decide (j / size = count) := by
        rw [getLsbD_mask]
        exact decide_eq_decide.mpr (by rw [in_word_iff positive]; simp [inside])
      by_cases found : j / size = count
      · cases selected : select count <;>
          simp [getLsbD_merge, here, induction, found, selected]
      · have below : j / size < count + 1 ↔ j / size < count := by omega
        cases select count <;> simp [getLsbD_merge, here, induction, found, below]

end Words
