import Sparcy.ConditionCodes
import Sparcy.Library.Limbs

/-!
# Arithmetic on long numbers

A long number is added by `ADDcc` on the lowest words and `ADDXcc` on all others, and
subtracted by `SUBcc` and `SUBXcc`.  Each instruction finds the carry in the codes of the
one before it.
-/

namespace Sparcy

open Limbs (chain total carryOut)

namespace ArithCc

/-- The carry that an opcode takes in. -/
def takes : ArithCc → Bool → Bool
  | addxcc, c | subxcc, c => c
  | _, _ => false

/-- Whether the second operand is added or subtracted. -/
def sign : ArithCc → Int
  | addcc | addxcc | taddcc => 1
  | subcc | subxcc | tsubcc => -1

variable (k : ArithCc) (x : AluIn)

theorem unsigned_eq_total :
    k.unsigned x = total k.sign (k.takes (x.icc.getLsbD 0)) x.valA x.operand2 := by
  unfold unsigned total
  cases k <;> cases x.icc.getLsbD 0 <;> simp [exact, carry, sign, takes] <;> omega

theorem signed_eq :
    k.signed x = x.valA.toInt +
      k.sign * (x.operand2.toInt + (k.takes (x.icc.getLsbD 0)).toInt) := by
  unfold signed
  cases k <;> cases x.icc.getLsbD 0 <;> simp [exact, carry, sign, takes] <;> omega

theorem signed_range : -2 ^ 32 ≤ k.signed x ∧ k.signed x < 2 ^ 32 := by
  have sum := SignedWords.sum_range x.valA x.operand2 (k.carry_bit (x.icc.getLsbD 0))
  have difference :=
    SignedWords.difference_range x.valA x.operand2 (k.carry_bit (x.icc.getLsbD 0))
  cases k with
  | addcc | addxcc | taddcc => exact sum
  | subcc | subxcc | tsubcc => exact difference

end ArithCc

namespace AluIn

/-- The pairs of words that a row of instructions works on. -/
def operandWords (xs : List AluIn) : List (BitVec 32 × BitVec 32) :=
  xs.map fun x => (x.valA, x.operand2)

/-- The opcode `first` on the lowest words and `next` on all others, each under the codes
that the instruction before it has left: the words of the result and the last codes. -/
def multiWord (first next : ArithCc) (syscall : BitVec 32) (icc : BitVec 4) :
    List AluIn → List (BitVec 32) × BitVec 4
  | [] => ([], icc)
  | x :: xs =>
      let out := { x with op := 0b10, op3 := first.op3, icc := icc }.alu syscall
      let rest := multiWord next next syscall out.icc xs
      (out.res.setWidth 32 :: rest.1, rest.2)

section

variable (k : ArithCc) (x : AluIn) (syscall : BitVec 32)

theorem alu_arithCc_res :
    ({ x with op := 0b10, op3 := k.op3 }.alu syscall).res.setWidth 32 =
      BitVec.ofInt 32 (k.unsigned x) := by
  rw [alu_arithCc]
  change (x.arithValue k).setWidth 32 = _
  rw [arithValue_eq, SignedWords.setWidth_ofInt (by decide)]

theorem alu_arithCc_icc :
    ({ x with op := 0b10, op3 := k.op3 }.alu syscall).icc =
      iccOf (BitVec.ofInt 32 (k.unsigned x)).msb (decide (k.unsigned x = 0))
        (k.tag x || decide (¬ (-2 ^ 31 ≤ k.signed x ∧ k.signed x < 2 ^ 31)))
        (carryOut 32 (k.unsigned x)) := by
  obtain ⟨low, high⟩ := k.unsigned_range x
  rw [alu_arithCc]
  change arithIcc (x.arithValue k) (x.arithOverflow k) = _
  rw [arithOverflow_eq, arithValue_eq, arithIcc_ofInt low high]
  rfl

/-- Where tags do not count, N and V together give the sign of the exact result. -/
theorem alu_arithCc_sign (untagged : k.tag x = false) :
    (({ x with op := 0b10, op3 := k.op3 }.alu syscall).icc.getLsbD 3 ^^
        ({ x with op := 0b10, op3 := k.op3 }.alu syscall).icc.getLsbD 1) =
      decide (k.signed x < 0) := by
  obtain ⟨low, high⟩ := k.signed_range x
  rw [alu_arithCc_icc, iccOf_n, iccOf_v, untagged, Bool.false_or, k.ofInt_unsigned]
  exact SignedWords.msb_xor_overflow low high

end

section

variable (first next : ArithCc) (syscall : BitVec 32)

/-- The words and the last carry are those of the chain. -/
theorem multiWord_chain (same : first.sign = next.sign) (through : next.takes = id)
    (icc : BitVec 4) (x : AluIn) (xs : List AluIn) :
    (multiWord first next syscall icc (x :: xs)).1 =
        (chain next.sign (first.takes (icc.getLsbD 0)) (operandWords (x :: xs))).1 ∧
      (multiWord first next syscall icc (x :: xs)).2.getLsbD 0 =
        (chain next.sign (first.takes (icc.getLsbD 0)) (operandWords (x :: xs))).2 := by
  induction xs generalizing first icc x with
  | nil =>
      have res := alu_arithCc_res first { x with icc := icc } syscall
      have codes := alu_arithCc_icc first { x with icc := icc } syscall
      rw [first.unsigned_eq_total, same] at res codes
      constructor
      · exact congrArg (fun word => [word]) res
      · exact (congrArg (fun icc => icc.getLsbD 0) codes).trans (iccOf_c _ _ _ _)
  | cons y ys induction =>
      have res := alu_arithCc_res first { x with icc := icc } syscall
      have codes := alu_arithCc_icc first { x with icc := icc } syscall
      rw [first.unsigned_eq_total, same] at res codes
      have carry := (congrArg (fun icc => icc.getLsbD 0) codes).trans (iccOf_c _ _ _ _)
      obtain ⟨words, last⟩ := induction next rfl
        ({ x with op := 0b10, op3 := first.op3, icc := icc }.alu syscall).icc y
      rw [through, id, carry] at words last
      exact ⟨congrArg₂ List.cons res words, last⟩

/-- N and V together give the sign of the last words' exact result. -/
theorem multiWord_sign (same : first.sign = next.sign) (through : next.takes = id)
    (untagged : ∀ x, first.tag x = false) (untagged' : ∀ x, next.tag x = false)
    (icc : BitVec 4) (xs : List AluIn) (x : AluIn) :
    ((multiWord first next syscall icc (xs ++ [x])).2.getLsbD 3 ^^
        (multiWord first next syscall icc (xs ++ [x])).2.getLsbD 1) =
      decide (x.valA.toInt + next.sign * (x.operand2.toInt +
        (chain next.sign (first.takes (icc.getLsbD 0)) (operandWords xs)).2.toInt) < 0) := by
  induction xs generalizing first icc with
  | nil =>
      have sign := alu_arithCc_sign first { x with icc := icc } syscall (untagged _)
      rw [first.signed_eq, same] at sign
      exact sign
  | cons y ys induction =>
      have codes := alu_arithCc_icc first { y with icc := icc } syscall
      rw [first.unsigned_eq_total, same] at codes
      have carry := (congrArg (fun icc => icc.getLsbD 0) codes).trans (iccOf_c _ _ _ _)
      have rest := induction next rfl untagged'
        ({ y with op := 0b10, op3 := first.op3, icc := icc }.alu syscall).icc
      rw [through, id, carry] at rest
      exact rest

end

section

variable (xs : List AluIn)

theorem length_operandWords : (operandWords xs).length = xs.length := List.length_map _

theorem operandWords_fst : (operandWords xs).map Prod.fst = xs.map valA := List.map_map

theorem operandWords_snd : (operandWords xs).map Prod.snd = xs.map operand2 := List.map_map

end

section

variable (x : AluIn) (xs : List AluIn) (icc : BitVec 4) (syscall : BitVec 32)

theorem multiWord_sum :
    let sum := multiWord .addcc .addxcc syscall icc (x :: xs)
    let a := Limbs.value ((x :: xs).map valA)
    let b := Limbs.value ((x :: xs).map operand2)
    sum.1.length = (x :: xs).length ∧
      Limbs.value sum.1 = (a + b) % 2 ^ (32 * (x :: xs).length) ∧
      sum.2.getLsbD 0 = decide (2 ^ (32 * (x :: xs).length) ≤ a + b) := by
  obtain ⟨words, carry⟩ :=
    multiWord_chain .addcc .addxcc syscall rfl rfl icc x xs
  obtain ⟨added, overflow⟩ := Limbs.chain_sum false (operandWords (x :: xs))
  have length := Limbs.length_chain 1 false (operandWords (x :: xs))
  rw [operandWords_fst, operandWords_snd, length_operandWords] at added overflow
  exact ⟨(congrArg List.length words).trans (length.trans (length_operandWords _)),
    (congrArg Limbs.value words).trans added, carry.trans overflow⟩

theorem multiWord_difference :
    let difference := multiWord .subcc .subxcc syscall icc (x :: xs)
    let a := Limbs.value ((x :: xs).map valA)
    let b := Limbs.value ((x :: xs).map operand2)
    difference.1.length = (x :: xs).length ∧
      (Limbs.value difference.1 : Int) = ((a : Int) - b) % 2 ^ (32 * (x :: xs).length) ∧
      difference.2.getLsbD 0 = decide (a < b) := by
  obtain ⟨words, borrow⟩ :=
    multiWord_chain .subcc .subxcc syscall rfl rfl icc x xs
  obtain ⟨subtracted, under⟩ := Limbs.chain_difference false (operandWords (x :: xs))
  have length := Limbs.length_chain (-1) false (operandWords (x :: xs))
  rw [operandWords_fst, operandWords_snd, Bool.toInt_false] at subtracted under
  rw [Int.sub_zero, length_operandWords] at subtracted
  rw [Int.add_zero] at under
  refine ⟨(congrArg List.length words).trans (length.trans (length_operandWords _)),
    (congrArg (fun words => (Limbs.value words : Int)) words).trans subtracted, ?_⟩
  refine (borrow.trans under).trans (decide_eq_decide.mpr ?_)
  exact Int.ofNat_lt

theorem multiWord_difference_sign :
    ((multiWord .subcc .subxcc syscall icc (x :: xs)).2.getLsbD 3 ^^
        (multiWord .subcc .subxcc syscall icc (x :: xs)).2.getLsbD 1) =
      decide (Limbs.signed ((x :: xs).map valA) < Limbs.signed ((x :: xs).map operand2)) := by
  obtain ⟨init, last, split⟩ := (x :: xs).eq_nil_or_concat.resolve_left (List.cons_ne_nil x xs)
  rw [List.concat_eq_append] at split
  have sign := multiWord_sign .subcc .subxcc syscall rfl rfl
    (fun _ => rfl) (fun _ => rfl) icc init last
  have less := Limbs.signed_lt_iff (operandWords init) last.valA last.operand2
  have words : operandWords init ++ [(last.valA, last.operand2)] = operandWords (x :: xs) := by
    rw [split, operandWords, operandWords, List.map_append]
    rfl
  rw [words, operandWords_fst, operandWords_snd] at less
  rw [split] at less ⊢
  refine sign.trans (decide_eq_decide.mpr (Iff.trans ?_ less.symm))
  change last.valA.toInt +
      -1 * (last.operand2.toInt + (chain (-1) false (operandWords init)).2.toInt) < 0 ↔ _
  omega

end

/-- The two rows of instructions add and subtract numbers of any length.  The last codes hold
the carry and the borrow of the whole number, and N and V its signed comparison. -/
theorem multiWord_exact (x : AluIn) (xs : List AluIn) (icc : BitVec 4) (syscall : BitVec 32) :
    let count := (x :: xs).length
    let a := (x :: xs).map valA
    let b := (x :: xs).map operand2
    let sum := multiWord .addcc .addxcc syscall icc (x :: xs)
    let difference := multiWord .subcc .subxcc syscall icc (x :: xs)
    (sum.1.length = count ∧
        Limbs.value sum.1 = (Limbs.value a + Limbs.value b) % 2 ^ (32 * count) ∧
        sum.2.getLsbD 0 = decide (2 ^ (32 * count) ≤ Limbs.value a + Limbs.value b)) ∧
      difference.1.length = count ∧
        (Limbs.value difference.1 : Int) =
          ((Limbs.value a : Int) - Limbs.value b) % 2 ^ (32 * count) ∧
        difference.2.getLsbD 0 = decide (Limbs.value a < Limbs.value b) ∧
        (difference.2.getLsbD 3 ^^ difference.2.getLsbD 1) =
          decide (Limbs.signed a < Limbs.signed b) := by
  intro count a b sum difference
  obtain ⟨length, words, borrow⟩ := multiWord_difference x xs icc syscall
  exact ⟨multiWord_sum x xs icc syscall, length, words, borrow,
    multiWord_difference_sign x xs icc syscall⟩

/-- `0xffffffff00000001 - 0xffffffff` borrows from the upper word. -/
example :
    multiWord .subcc .subxcc 0 0
        [{ zero with valA := 1, valB := 0xffffffff }, { zero with valA := 0xffffffff }] =
      ([2, 0xfffffffe], 0b1000) := by
  decide

end AluIn

end Sparcy
