import Mathlib.Data.Nat.Digits.Defs
import Mathlib.Tactic.LinearCombination
import Sparcy.Library.SignedWords

/-!
# Sums and differences word by word

A long number is a list of words, the least significant first.  A sum takes the carry of a
word into the next one and a difference the borrow, so both are one chain, which differs
only in the sign of its second operand.
-/

namespace Limbs

variable {w : Nat}

/-- The number that words stand for. -/
def value (xs : List (BitVec w)) : Nat := Nat.ofDigits (2 ^ w) (xs.map BitVec.toNat)

/-- The number they stand for in two's complement. -/
def signed (xs : List (BitVec w)) : Int := (value xs : Int).bmod (2 ^ (w * xs.length))

theorem value_cons (x : BitVec w) (xs : List (BitVec w)) :
    value (x :: xs) = x.toNat + 2 ^ w * value xs :=
  Nat.ofDigits_cons

theorem value_concat (xs : List (BitVec w)) (x : BitVec w) :
    value (xs ++ [x]) = value xs + 2 ^ (w * xs.length) * x.toNat := by
  rw [value, List.map_append, Nat.ofDigits_append, List.length_map, ← Nat.pow_mul,
    List.map_singleton, Nat.ofDigits_singleton]
  rfl

theorem value_lt (xs : List (BitVec w)) : value xs < 2 ^ (w * xs.length) := by
  induction xs with
  | nil => exact Nat.one_pos
  | cons x xs induction =>
      have bound := x.isLt
      have rest : 2 ^ w * (value xs + 1) ≤ 2 ^ w * 2 ^ (w * xs.length) :=
        Nat.mul_le_mul_left _ induction
      rw [Nat.mul_add, Nat.mul_one] at rest
      rw [value_cons, List.length_cons, Nat.mul_add, Nat.mul_one, Nat.pow_add,
        Nat.mul_comm (2 ^ (w * xs.length))]
      omega

/-- The sign of a long number is that of its last word. -/
theorem signed_concat (xs : List (BitVec (w + 1))) (x : BitVec (w + 1)) :
    signed (xs ++ [x]) = value xs + 2 ^ ((w + 1) * xs.length) * x.toInt := by
  have rest : (value xs : Int) < 2 ^ ((w + 1) * xs.length) := by exact_mod_cast value_lt xs
  have above : (0 : Int) < 2 ^ ((w + 1) * xs.length) := by positivity
  have low : -2 ^ w ≤ x.toInt := x.le_toInt
  have high : x.toInt + 1 ≤ 2 ^ w := x.toInt_lt
  replace low := Int.mul_le_mul_of_nonneg_left low above.le
  replace high := Int.mul_le_mul_of_nonneg_left high above.le
  rw [Int.mul_neg] at low
  rw [Int.mul_add, Int.mul_one] at high
  have width : 2 ^ ((w + 1) * (xs ++ [x]).length) =
      2 ^ ((w + 1) * xs.length) * (2 ^ w + 2 ^ w) := by
    rw [List.length_append, List.length_singleton, Nat.mul_add, Nat.mul_one, Nat.pow_add]
    ring
  -- both readings of the last word agree up to a multiple of its size
  obtain ⟨k, split⟩ : ∃ k : Int, (x.toNat : Int) = x.toInt + (2 ^ w + 2 ^ w) * k := by
    have bound := x.isLt
    have double : 2 ^ (w + 1) = 2 ^ w + 2 ^ w := by ring
    obtain ⟨-, -, same⟩ | ⟨-, -, same⟩ := SignedWords.sign_cases x
    · exact ⟨0, by rw [same]; ring⟩
    · refine ⟨1, ?_⟩
      rw [same, Int.ofNat_sub bound.le, double]
      push_cast
      ring
  have number : (value (xs ++ [x]) : Int) =
      value xs + 2 ^ ((w + 1) * xs.length) * x.toInt +
        ((2 ^ ((w + 1) * (xs ++ [x]).length) : Nat) : Int) * k := by
    rw [value_concat, width]
    push_cast
    rw [split]
    ring
  rw [signed, number, Int.add_mul_bmod_self_left]
  apply Int.bmod_eq_of_le_mul_two
  · rw [width]
    push_cast
    rw [Int.mul_add]
    omega
  · rw [width]
    push_cast
    rw [Int.mul_add]
    omega

/-! ### The chain -/

/-- What a word of the chain holds before its carry is taken out: `sign` is 1 for a sum and
-1 for a difference. -/
def total (sign : Int) (c : Bool) (a b : BitVec w) : Int := a.toNat + sign * (b.toNat + c.toInt)

/-- The carry or the borrow of a word. -/
def carryOut (w : Nat) (s : Int) : Bool := decide (¬ (0 ≤ s ∧ s < 2 ^ w))

/-- The words of the result and the last carry. -/
def chain (sign : Int) (c : Bool) : List (BitVec w × BitVec w) → List (BitVec w) × Bool
  | [] => ([], c)
  | (a, b) :: ps =>
      let rest := chain sign (carryOut w (total sign c a b)) ps
      (BitVec.ofInt w (total sign c a b) :: rest.1, rest.2)

theorem length_chain (sign : Int) (c : Bool) (ps : List (BitVec w × BitVec w)) :
    (chain sign c ps).1.length = ps.length := by
  induction ps generalizing c with
  | nil => rfl
  | cons p ps induction => exact congrArg (· + 1) (induction _)

/-- A word keeps its total less the carry. -/
theorem toNat_ofInt_total {sign : Int} (unit : sign = 1 ∨ sign = -1) (c : Bool)
    (a b : BitVec w) :
    ((BitVec.ofInt w (total sign c a b)).toNat : Int) +
        sign * 2 ^ w * (carryOut w (total sign c a b)).toInt =
      total sign c a b := by
  have first := a.isLt
  have second := b.isLt
  have bit : c.toInt = 0 ∨ c.toInt = 1 := by cases c <;> decide
  have positive : (0 : Int) < 2 ^ w := by positivity
  have lowA : (a.toNat : Int) < 2 ^ w := by exact_mod_cast first
  have lowB : (b.toNat : Int) < 2 ^ w := by exact_mod_cast second
  have reduced {t : Int} (low : 0 ≤ t) (high : t < 2 ^ w) :
      ((BitVec.ofInt w t).toNat : Int) = t := by
    rw [BitVec.toNat_ofInt, Int.toNat_of_nonneg (Int.emod_nonneg _ (by positivity))]
    exact Int.emod_eq_of_lt low (by exact_mod_cast high)
  by_cases inside : 0 ≤ total sign c a b ∧ total sign c a b < 2 ^ w
  · rw [carryOut, decide_eq_false (not_not_intro inside), reduced inside.1 inside.2]
    exact (congrArg _ (Int.mul_zero _)).trans (Int.add_zero _)
  · rw [carryOut, decide_eq_true inside]
    obtain rfl | rfl := unit
    · have split : total 1 c a b = total 1 c a b - 2 ^ w + 2 ^ w := by ring
      unfold total at inside split ⊢
      rw [split, SignedWords.ofInt_add_two_pow, reduced (by omega) (by omega)]
      simp
    · unfold total at inside ⊢
      rw [← SignedWords.ofInt_add_two_pow, reduced (by omega) (by omega)]
      simp

/-- The whole chain does so too. -/
theorem value_chain {sign : Int} (unit : sign = 1 ∨ sign = -1) (c : Bool)
    (ps : List (BitVec w × BitVec w)) :
    (value (chain sign c ps).1 : Int) +
        sign * 2 ^ (w * ps.length) * (chain sign c ps).2.toInt =
      value (ps.map Prod.fst) + sign * (value (ps.map Prod.snd) + c.toInt) := by
  induction ps generalizing c with
  | nil => simp [chain, value]
  | cons p ps induction =>
      obtain ⟨a, b⟩ := p
      have here := toNat_ofInt_total unit c a b
      have rest := induction (carryOut w (total sign c a b))
      rw [chain, List.map_cons, List.map_cons, value_cons, value_cons, value_cons,
        List.length_cons, Nat.mul_add, Nat.mul_one, Int.pow_add]
      push_cast
      have exact : total sign c a b = a.toNat + sign * (b.toNat + c.toInt) := rfl
      linear_combination here + 2 ^ w * rest + exact

section

variable (c : Bool) (ps : List (BitVec w × BitVec w))

/-- A chain of sums adds. -/
theorem chain_sum :
    value (chain 1 c ps).1 =
        (value (ps.map Prod.fst) + value (ps.map Prod.snd) + c.toNat) % 2 ^ (w * ps.length) ∧
      (chain 1 c ps).2 = decide
        (2 ^ (w * ps.length) ≤ value (ps.map Prod.fst) + value (ps.map Prod.snd) + c.toNat) := by
  have whole := value_chain (.inl rfl) c ps
  have bound := value_lt (chain 1 c ps).1
  have bit : c.toInt = c.toNat := by cases c <;> rfl
  rw [length_chain] at bound
  rw [bit] at whole
  cases carry : (chain 1 c ps).2 with
  | false =>
      rw [carry, Bool.toInt_false] at whole
      have total : value (ps.map Prod.fst) + value (ps.map Prod.snd) + c.toNat =
          value (chain 1 c ps).1 := by omega
      rw [total, Nat.mod_eq_of_lt bound]
      exact ⟨rfl, (decide_eq_false (Nat.not_le_of_lt bound)).symm⟩
  | true =>
      rw [carry, Bool.toInt_true] at whole
      have total : value (ps.map Prod.fst) + value (ps.map Prod.snd) + c.toNat =
          value (chain 1 c ps).1 + 2 ^ (w * ps.length) := by
        have whole' : (value (ps.map Prod.fst) : Int) + value (ps.map Prod.snd) + c.toNat =
            value (chain 1 c ps).1 + 2 ^ (w * ps.length) := by
          linear_combination -whole
        exact_mod_cast whole'
      rw [total, Nat.add_mod_right, Nat.mod_eq_of_lt bound]
      exact ⟨rfl, (decide_eq_true (Nat.le_add_left _ _)).symm⟩

/-- A chain of differences subtracts. -/
theorem chain_difference :
    (value (chain (-1) c ps).1 : Int) =
        ((value (ps.map Prod.fst) : Int) - value (ps.map Prod.snd) - c.toInt) %
          2 ^ (w * ps.length) ∧
      (chain (-1) c ps).2 = decide
        ((value (ps.map Prod.fst) : Int) < value (ps.map Prod.snd) + c.toInt) := by
  have whole := value_chain (.inr rfl) c ps
  have bound : (value (chain (-1) c ps).1 : Int) < 2 ^ (w * ps.length) := by
    have bound := value_lt (chain (-1) c ps).1
    rw [length_chain] at bound
    exact_mod_cast bound
  have low : (0 : Int) ≤ value (chain (-1) c ps).1 := Int.natCast_nonneg _
  cases borrow : (chain (-1) c ps).2 with
  | false =>
      rw [borrow, Bool.toInt_false] at whole
      have total : (value (ps.map Prod.fst) : Int) - value (ps.map Prod.snd) - c.toInt =
          value (chain (-1) c ps).1 := by omega
      rw [total, Int.emod_eq_of_lt low bound]
      exact ⟨rfl, (decide_eq_false (by omega)).symm⟩
  | true =>
      rw [borrow, Bool.toInt_true] at whole
      have total : (value (ps.map Prod.fst) : Int) - value (ps.map Prod.snd) - c.toInt =
          value (chain (-1) c ps).1 + 2 ^ (w * ps.length) * -1 := by
        linear_combination -whole
      have less : (value (ps.map Prod.fst) : Int) < value (ps.map Prod.snd) + c.toInt := by
        omega
      rw [total, Int.add_mul_emod_self_left, Int.emod_eq_of_lt low bound]
      exact ⟨rfl, (decide_eq_true less).symm⟩

end

/-- The last words and the borrow into them decide the signed comparison. -/
theorem signed_lt_iff (ps : List (BitVec (w + 1) × BitVec (w + 1))) (a b : BitVec (w + 1)) :
    signed ((ps ++ [(a, b)]).map Prod.fst) < signed ((ps ++ [(a, b)]).map Prod.snd) ↔
      a.toInt - b.toInt - (chain (-1) false ps).2.toInt < 0 := by
  have whole := value_chain (.inr rfl) false ps
  have bound : (value (chain (-1) false ps).1 : Int) < 2 ^ ((w + 1) * ps.length) := by
    have bound := value_lt (chain (-1) false ps).1
    rw [length_chain] at bound
    exact_mod_cast bound
  have low : (0 : Int) ≤ value (chain (-1) false ps).1 := Int.natCast_nonneg _
  have positive : (0 : Int) < 2 ^ ((w + 1) * ps.length) := by positivity
  -- the difference of the two numbers, with the low words of the result split off
  have difference : signed ((ps ++ [(a, b)]).map Prod.fst) -
      signed ((ps ++ [(a, b)]).map Prod.snd) =
        value (chain (-1) false ps).1 + 2 ^ ((w + 1) * ps.length) *
          (a.toInt - b.toInt - (chain (-1) false ps).2.toInt) := by
    rw [List.map_append, List.map_append, List.map_singleton, List.map_singleton,
      signed_concat, signed_concat, List.length_map, List.length_map]
    rw [Bool.toInt_false] at whole
    linear_combination -whole
  generalize a.toInt - b.toInt - (chain (-1) false ps).2.toInt = s at difference ⊢
  constructor
  · intro negative
    by_contra more
    have product := Int.mul_nonneg positive.le (Int.not_lt.mp more)
    omega
  · intro negative
    have product : 2 ^ ((w + 1) * ps.length) * s ≤ 2 ^ ((w + 1) * ps.length) * -1 :=
      Int.mul_le_mul_of_nonneg_left (by omega) positive.le
    omega

end Limbs
