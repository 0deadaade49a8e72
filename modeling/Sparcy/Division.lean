import Sparcy.ConditionCodes
import Sparcy.Library.Words

/-!
# Division

The divisions cut quotient and remainder to 32 bits before they look for an overflow.  The
unsigned test adds the two, and finds an overflow only with the greatest remainder.  The
signed divisions divide the operands unsigned, and their tests never succeed.
-/

namespace Sparcy

namespace AluIn

section

variable (x : AluIn)

/-- The quotient of the unsigned operands. -/
def unsignedQuotient : Nat := x.dividend.toNat / x.operand2.toNat

def unsignedRemainder : Nat := x.dividend.toNat % x.operand2.toNat

variable {x}

theorem operand2_pos (divisor : x.operand2 ≠ 0) : 0 < x.operand2.toNat :=
  Nat.pos_of_ne_zero fun zero => divisor (BitVec.eq_of_toNat_eq zero)

theorem toNat_quotient (divisor : x.operand2 ≠ 0) :
    x.quotient.toNat = x.unsignedQuotient % 2 ^ 32 := by
  rw [quotient, if_neg divisor, BitVec.toNat_setWidth, BitVec.toNat_udiv, wide,
    BitVec.toNat_setWidth_of_le (by decide)]
  rfl

theorem toNat_remainder (divisor : x.operand2 ≠ 0) :
    x.remainder.toNat = x.unsignedRemainder := by
  have below : x.unsignedRemainder < x.operand2.toNat := Nat.mod_lt _ (operand2_pos divisor)
  have bound := x.operand2.isLt
  rw [remainder, if_neg divisor, BitVec.toNat_setWidth, BitVec.toNat_umod, wide,
    BitVec.toNat_setWidth_of_le (by decide)]
  exact Nat.mod_eq_of_lt (below.trans bound)

end

/-! ### Unsigned division -/

/-- The remainder is the greatest one and, added to the low word of the quotient, carries. -/
def UdivCarries (x : AluIn) : Prop :=
  x.unsignedRemainder = x.operand2.toNat - 1 ∧
    2 ^ 32 ≤ x.unsignedRemainder + x.unsignedQuotient % 2 ^ 32

instance (x : AluIn) : Decidable x.UdivCarries := inferInstanceAs (Decidable (_ ∧ _))

theorem udivOverflow_eq {x : AluIn} (divisor : x.operand2 ≠ 0) :
    x.udivOverflow = decide x.UdivCarries := by
  have quotient := toNat_quotient divisor
  have remainder := toNat_remainder divisor
  have positive := operand2_pos divisor
  have bound := x.operand2.isLt
  have below := x.remainder.isLt
  have last : x.remainder = x.operand2 - 1 ↔ x.unsignedRemainder = x.operand2.toNat - 1 := by
    rw [BitVec.toNat_eq, BitVec.toNat_sub, remainder]
    change _ = (2 ^ 32 - 1 + x.operand2.toNat) % 2 ^ 32 ↔ _
    omega
  have carries : (0xffffffff : BitVec 33) < x.remainder.setWidth 33 + x.quotient.setWidth 33 ↔
      2 ^ 32 ≤ x.unsignedRemainder + x.unsignedQuotient % 2 ^ 32 := by
    rw [BitVec.lt_def, BitVec.toNat_add, BitVec.toNat_setWidth, BitVec.toNat_setWidth, quotient,
      remainder]
    change 0xffffffff < _ ↔ _
    omega
  rw [Bool.eq_iff_iff, udivOverflow, Bool.and_eq_true, decide_eq_true_eq, decide_eq_true_eq,
    decide_eq_true_eq, last, UdivCarries, and_comm]
  exact and_congr_right fun _ => carries

/-- What an unsigned division is to return. -/
def udivSaturated (x : AluIn) : BitVec 32 := BitVec.ofNat 32 (min x.unsignedQuotient (2 ^ 32 - 1))

/-- The word and, of the opcode that sets them, the codes. -/
def UdivRight (x : AluIn) (cc : Bool) (out : AluOut) : Prop :=
  out.res.setWidth 32 = x.udivSaturated ∧
    (cc = true → out.icc = iccOf x.udivSaturated.msb (decide (x.udivSaturated = 0))
      (decide (2 ^ 32 ≤ x.unsignedQuotient)) false)

instance (x : AluIn) (cc : Bool) (out : AluOut) : Decidable (x.UdivRight cc out) :=
  inferInstanceAs (Decidable (_ ∧ _))

/-- The test finds the overflows and nothing else.  Without the codes it may be wrong where
the low word of the quotient has all bits set. -/
def UdivSafe (x : AluIn) (cc : Bool) : Prop :=
  if cc then x.UdivCarries ↔ 2 ^ 32 ≤ x.unsignedQuotient
  else (x.unsignedQuotient < 2 ^ 32 - 1 → ¬ x.UdivCarries) ∧
    (2 ^ 32 ≤ x.unsignedQuotient →
      x.UdivCarries ∨ x.unsignedQuotient % 2 ^ 32 = 2 ^ 32 - 1)

instance (x : AluIn) : (cc : Bool) → Decidable (x.UdivSafe cc)
  | true => inferInstanceAs (Decidable (_ ↔ _))
  | false => inferInstanceAs (Decidable (_ ∧ _))

theorem udiv_low {x : AluIn} (divisor : x.operand2 ≠ 0) :
    x.udiv.setWidth 32 = x.udivSaturated ↔
      (x.unsignedQuotient < 2 ^ 32 - 1 → ¬ x.UdivCarries) ∧
        (2 ^ 32 ≤ x.unsignedQuotient →
          x.UdivCarries ∨ x.unsignedQuotient % 2 ^ 32 = 2 ^ 32 - 1) := by
  have low (value : BitVec 32) : (wide value).setWidth 32 = value :=
    BitVec.setWidth_setWidth_of_le _ (by decide)
  rw [udiv, apply_ite (BitVec.setWidth 32), low, low, udivSaturated, BitVec.toNat_eq,
    apply_ite BitVec.toNat, toNat_quotient divisor, udivOverflow_eq divisor, BitVec.toNat_ofNat]
  by_cases carries : x.UdivCarries
  · rw [decide_eq_true carries, if_pos rfl, Nat.min_def]
    change 0xffffffff = _ ↔ _
    simp only [carries, not_true_eq_false, imp_false, true_or, implies_true, and_true]
    split <;> omega
  · rw [decide_eq_false carries, if_neg Bool.false_ne_true, Nat.min_def]
    simp only [carries, not_false_eq_true, implies_true, false_or, true_and]
    split <;> omega

theorem udiv_right_iff (x : AluIn) (cc : Bool) (syscall : BitVec 32) (divisor : x.operand2 ≠ 0) :
    x.UdivRight cc ({ x with
        op := 0b10
        op3 := if cc then Op3.UDIVcc else Op3.UDIV }.alu syscall) ↔ x.UdivSafe cc := by
  cases cc with
  | false => exact (and_iff_left fun set => absurd set Bool.false_ne_true).trans (udiv_low divisor)
  | true =>
      change x.udiv.setWidth 32 = _ ∧ (true = true → lowIcc x.udiv x.udivOverflow = _) ↔ _
      rw [lowIcc_eq, udivOverflow_eq divisor]
      constructor
      · rintro ⟨_, codes⟩
        exact decide_eq_decide.mp (iccOf_inj.mp (codes rfl)).2.2.1
      · intro (safe : x.UdivCarries ↔ 2 ^ 32 ≤ x.unsignedQuotient)
        have low : x.udiv.setWidth 32 = x.udivSaturated := by
          apply (udiv_low divisor).mpr
          exact ⟨fun small carries => by have := safe.mp carries; omega,
            fun large => .inl (safe.mpr large)⟩
        rw [low, decide_eq_decide.mpr safe]
        exact ⟨rfl, fun _ => rfl⟩

/-- The quotient `2^32` comes back as zero. -/
theorem udiv_misses_overflow :
    ¬ ∀ (x : AluIn) (cc : Bool) (syscall : BitVec 32), x.operand2 ≠ 0 →
      x.UdivRight cc ({ x with
        op := 0b10
        op3 := if cc then Op3.UDIVcc else Op3.UDIV }.alu syscall) := fun right =>
  absurd (right { zero with y := 1, valB := 1 } false 0 (by decide)) (by decide)

/-- `7 / 2`. -/
theorem udiv_right_iff_seven :
    AluIn.UdivRight { zero with valA := 7, valB := 2 } true
      ({ zero with valA := 7, valB := 2, op := 0b10, op3 := Op3.UDIVcc }.alu 0) :=
  (udiv_right_iff { zero with valA := 7, valB := 2 } true 0 (by decide)).mpr (by decide)

end AluIn

/-! ### Signed division -/

/-- The nearest number that a signed word holds. -/
def saturate (s : Int) : Int :=
  if s < -2 ^ 31 then -2 ^ 31 else if 2 ^ 31 ≤ s then 2 ^ 31 - 1 else s

section

variable {n d m q : Nat}

theorem quotient_of_positive :
    (((n / d % 2 ^ 32 : Nat) : Int) = saturate (n / d : Nat) % 2 ^ 32) ↔
      n / d < 2 ^ 31 ∨ n / d % 2 ^ 32 = 2 ^ 31 - 1 := by
  unfold saturate
  generalize n / d = q
  split
  · omega
  · split <;> omega

/-- A positive dividend and the divisor `-m`. -/
theorem quotient_of_negative_divisor (dividend : n < 2 ^ 63) (positive : 0 < m)
    (least : m ≤ 2 ^ 31) :
    (((n / (2 ^ 32 - m) % 2 ^ 32 : Nat) : Int) = saturate (-(n / m : Nat)) % 2 ^ 32) ↔
      n < m ∨ n / (2 ^ 32 - m) = 2 ^ 31 := by
  have divisor : 0 < 2 ^ 32 - m := by omega
  have one : 1 ≤ n / m ↔ 1 * m ≤ n := Nat.le_div_iff_mul_le positive
  have half : 2 ^ 31 ≤ n / m ↔ 2 ^ 31 * m ≤ n := Nat.le_div_iff_mul_le positive
  have one' : 1 ≤ n / (2 ^ 32 - m) ↔ 1 * (2 ^ 32 - m) ≤ n := Nat.le_div_iff_mul_le divisor
  have half' : 2 ^ 31 ≤ n / (2 ^ 32 - m) ↔ 2 ^ 31 * (2 ^ 32 - m) ≤ n :=
    Nat.le_div_iff_mul_le divisor
  have more' : 2 ^ 31 + 1 ≤ n / (2 ^ 32 - m) ↔ (2 ^ 31 + 1) * (2 ^ 32 - m) ≤ n :=
    Nat.le_div_iff_mul_le divisor
  have all' : 2 ^ 32 ≤ n / (2 ^ 32 - m) ↔ 2 ^ 32 * (2 ^ 32 - m) ≤ n :=
    Nat.le_div_iff_mul_le divisor
  unfold saturate
  generalize n / (2 ^ 32 - m) = Q at *
  generalize n / m = q at *
  split
  · omega
  · split <;> omega

theorem quotient_in_range_of_negative_divisor (dividend : n < 2 ^ 63) (positive : 0 < m)
    (least : m ≤ 2 ^ 31) :
    (n < m ∨ n / (2 ^ 32 - m) = 2 ^ 31) ∧ n / m ≤ 2 ^ 31 ↔
      n < m ∨ m = 2 ^ 31 ∧ 2 ^ 62 ≤ n ∧ n < 2 ^ 62 + 2 ^ 31 := by
  have divisor : 0 < 2 ^ 32 - m := by omega
  have one : 1 ≤ n / m ↔ 1 * m ≤ n := Nat.le_div_iff_mul_le positive
  have more : 2 ^ 31 + 1 ≤ n / m ↔ (2 ^ 31 + 1) * m ≤ n := Nat.le_div_iff_mul_le positive
  have half' : 2 ^ 31 ≤ n / (2 ^ 32 - m) ↔ 2 ^ 31 * (2 ^ 32 - m) ≤ n :=
    Nat.le_div_iff_mul_le divisor
  have more' : 2 ^ 31 + 1 ≤ n / (2 ^ 32 - m) ↔ (2 ^ 31 + 1) * (2 ^ 32 - m) ≤ n :=
    Nat.le_div_iff_mul_le divisor
  generalize n / (2 ^ 32 - m) = Q at *
  generalize n / m = q at *
  omega

/-- The dividend `-n` and a positive divisor. -/
theorem quotient_of_negative_dividend (positive : 0 < n) (least : n ≤ 2 ^ 63) (divisor : 0 < d)
    (small : d < 2 ^ 31) :
    ((((2 ^ 64 - n) / d % 2 ^ 32 : Nat) : Int) = saturate (-(n / d : Nat)) % 2 ^ 32) ↔
      (n / d ≤ 2 ^ 31 ∧ d ∣ 2 ^ 32 ∧ d ∣ n) ∨
        2 ^ 31 < n / d ∧ (2 ^ 64 - n) / d % 2 ^ 32 = 2 ^ 31 := by
  by_cases large : 2 ^ 31 < n / d
  · unfold saturate
    generalize n / d = q at *
    rw [if_pos (by omega)]
    omega
  · have first := Nat.div_add_mod (2 ^ 64 - n) d
    have second := Nat.div_add_mod n d
    have below := Nat.mod_lt (2 ^ 64 - n) divisor
    have below' := Nat.mod_lt n divisor
    have congruent : ((((2 ^ 64 - n) / d % 2 ^ 32 : Nat) : Int) =
        saturate (-(n / d : Nat)) % 2 ^ 32) ↔ 2 ^ 32 ∣ (2 ^ 64 - n) / d + n / d := by
      unfold saturate
      generalize n / d = q at *
      rw [if_neg (by omega), if_neg (by omega)]
      omega
    have exact : (2 ^ 32 ∣ (2 ^ 64 - n) / d + n / d) ↔ d ∣ 2 ^ 32 ∧ d ∣ n := by
      constructor
      · rintro ⟨t, whole⟩
        -- the two remainders sum to a multiple of `2^32` below it
        have product : d * ((2 ^ 64 - n) / d) + d * (n / d) = 2 ^ 32 * (d * t) := by
          rw [← Nat.mul_add, whole]
          ring
        have zero : n % d = 0 := by omega
        exact ⟨⟨t, by omega⟩, Nat.dvd_of_mod_eq_zero zero⟩
      · rintro ⟨⟨t, power⟩, divides⟩
        have divides' : d ∣ 2 ^ 64 - n := by
          apply Nat.dvd_sub _ divides
          exact ⟨t * 2 ^ 32, by rw [← Nat.mul_assoc, ← power]; rfl⟩
        have zero := Nat.mod_eq_zero_of_dvd divides
        have zero' := Nat.mod_eq_zero_of_dvd divides'
        have product : d * ((2 ^ 64 - n) / d + n / d) = d * (2 ^ 32 * t) := by
          rw [Nat.mul_add, Nat.mul_left_comm, ← power]
          omega
        exact ⟨t, Nat.eq_of_mul_eq_mul_left divisor product⟩
    rw [congruent, exact]
    omega

/-- The dividend `-n` and the divisor `-m`. -/
theorem quotient_of_negative (positive : 0 < n) (least : n ≤ 2 ^ 63) (positive' : 0 < m)
    (least' : m ≤ 2 ^ 31) :
    ((((2 ^ 64 - n) / (2 ^ 32 - m) % 2 ^ 32 : Nat) : Int) = saturate (n / m : Nat) % 2 ^ 32) ↔
      (m < 2 ^ 31 ∧ n = m * m) ∨ m = 2 ^ 31 ∧ 2 ^ 62 < n ∧ n ≤ 2 ^ 62 + 2 ^ 31 := by
  have divisor : 0 < 2 ^ 32 - m := by omega
  have half : 2 ^ 31 ≤ n / m ↔ 2 ^ 31 * m ≤ n := Nat.le_div_iff_mul_le positive'
  have half' : 2 ^ 31 ≤ (2 ^ 64 - n) / (2 ^ 32 - m) ↔ 2 ^ 31 * (2 ^ 32 - m) ≤ 2 ^ 64 - n :=
    Nat.le_div_iff_mul_le divisor
  have twice' : 2 ^ 33 ≤ (2 ^ 64 - n) / (2 ^ 32 - m) ↔ 2 ^ 33 * (2 ^ 32 - m) ≤ 2 ^ 64 - n :=
    Nat.le_div_iff_mul_le divisor
  by_cases large : 2 ^ 31 * m ≤ n
  · have most : 2 ^ 32 + 2 ^ 31 - 1 ≤ (2 ^ 64 - n) / (2 ^ 32 - m) ↔
        (2 ^ 32 + 2 ^ 31 - 1) * (2 ^ 32 - m) ≤ 2 ^ 64 - n := Nat.le_div_iff_mul_le divisor
    have more : 2 ^ 32 + 2 ^ 31 ≤ (2 ^ 64 - n) / (2 ^ 32 - m) ↔
        (2 ^ 32 + 2 ^ 31) * (2 ^ 32 - m) ≤ 2 ^ 64 - n := Nat.le_div_iff_mul_le divisor
    have square : ¬ (m < 2 ^ 31 ∧ n = m * m) := by
      rintro ⟨below, rfl⟩
      exact absurd (Nat.le_of_mul_le_mul_right large positive') (by omega)
    rw [or_iff_right square]
    unfold saturate
    generalize (2 ^ 64 - n) / (2 ^ 32 - m) = Q at *
    generalize n / m = q at *
    rw [if_neg (by omega), if_pos (by omega)]
    omega
  · have congruent : ((((2 ^ 64 - n) / (2 ^ 32 - m) % 2 ^ 32 : Nat) : Int) =
        saturate (n / m : Nat) % 2 ^ 32) ↔
        (2 ^ 64 - n) / (2 ^ 32 - m) = 2 ^ 32 + n / m := by
      unfold saturate
      generalize (2 ^ 64 - n) / (2 ^ 32 - m) = Q at *
      generalize n / m = q at *
      rw [if_neg (by omega), if_neg (by omega)]
      omega
    have square : (2 ^ 64 - n) / (2 ^ 32 - m) = 2 ^ 32 + n / m ↔ n = m * m := by
      have whole (q : Nat) : (2 ^ 32 - m) * q + m * q = 2 ^ 32 * q := by
        rw [← Nat.add_mul]
        congr 1
        omega
      constructor
      · intro same
        have first := Nat.div_add_mod (2 ^ 64 - n) (2 ^ 32 - m)
        have second := Nat.div_add_mod n m
        have below := Nat.mod_lt (2 ^ 64 - n) divisor
        have below' := Nat.mod_lt n positive'
        have parts := whole (2 ^ 32 + n / m)
        rw [same] at first
        rw [Nat.mul_add m] at parts
        -- the two remainders sum to a multiple of `2^32` below it
        have equal : n / m = m := by omega
        have zero : n % m = 0 := by omega
        rw [equal, zero] at second
        exact second.symm
      · rintro rfl
        have parts := whole (2 ^ 32 + m)
        rw [Nat.mul_add m] at parts
        rw [Nat.mul_div_cancel_left m positive']
        apply Nat.div_eq_of_eq_mul_right divisor
        omega
    have below : n = m * m → m < 2 ^ 31 := by
      rintro rfl
      exact Nat.lt_of_not_le fun above => large (Nat.mul_le_mul_right m above)
    rw [congruent, square]
    omega

theorem quotient_in_range_of_negative (positive' : 0 < m) :
    ((m < 2 ^ 31 ∧ n = m * m) ∨ m = 2 ^ 31 ∧ 2 ^ 62 < n ∧ n ≤ 2 ^ 62 + 2 ^ 31) ∧ n / m < 2 ^ 31 ↔
      m < 2 ^ 31 ∧ n = m * m := by
  have half : 2 ^ 31 ≤ n / m ↔ 2 ^ 31 * m ≤ n := Nat.le_div_iff_mul_le positive'
  constructor
  · rintro ⟨square | ⟨rfl, above, _⟩, below⟩
    · exact square
    · omega
  · rintro ⟨below, rfl⟩
    refine ⟨.inl ⟨below, rfl⟩, ?_⟩
    rwa [Nat.mul_div_cancel_left m positive']

end

namespace AluIn

/-- The quotient of the signed operands, truncated toward zero. -/
def signedQuotient (x : AluIn) : Int := x.dividend.toInt.tdiv x.operand2.toInt

/-- What a signed division is to return. -/
def sdivSaturated (x : AluIn) : BitVec 32 := BitVec.ofInt 32 (saturate x.signedQuotient)

/-- The word and, of the opcode that sets them, the codes. -/
def SdivRight (x : AluIn) (cc : Bool) (out : AluOut) : Prop :=
  out.res.setWidth 32 = x.sdivSaturated ∧
    (cc = true → out.icc = iccOf x.sdivSaturated.msb (decide (x.sdivSaturated = 0))
      (decide (¬ (-2 ^ 31 ≤ x.signedQuotient ∧ x.signedQuotient < 2 ^ 31))) false)

instance (x : AluIn) (cc : Bool) (out : AluOut) : Decidable (x.SdivRight cc out) :=
  inferInstanceAs (Decidable (_ ∧ _))

/-- The dividend and the divisor without their signs. -/
def dividendMagnitude (x : AluIn) : Nat :=
  if x.dividend.msb then 2 ^ 64 - x.dividend.toNat else x.dividend.toNat

def divisorMagnitude (x : AluIn) : Nat :=
  if x.operand2.msb then 2 ^ 32 - x.operand2.toNat else x.operand2.toNat

/-- The operands, by their signs and magnitudes, whose unsigned quotient has the low word
of the saturated signed one and, with the codes, for which there is no overflow. -/
def SdivSafe (x : AluIn) (cc : Bool) : Prop :=
  let n := x.dividendMagnitude
  let m := x.divisorMagnitude
  match x.dividend.msb, x.operand2.msb with
  | false, false => n / m < 2 ^ 31 ∨ cc = false ∧ n / m % 2 ^ 32 = 2 ^ 31 - 1
  | false, true =>
      n < m ∨ if cc then m = 2 ^ 31 ∧ 2 ^ 62 ≤ n ∧ n < 2 ^ 62 + 2 ^ 31
        else n / (2 ^ 32 - m) = 2 ^ 31
  | true, false =>
      (n / m ≤ 2 ^ 31 ∧ m ∣ 2 ^ 32 ∧ m ∣ n) ∨
        cc = false ∧ 2 ^ 31 < n / m ∧ (2 ^ 64 - n) / m % 2 ^ 32 = 2 ^ 31
  | true, true =>
      (m < 2 ^ 31 ∧ n = m * m) ∨ cc = false ∧ m = 2 ^ 31 ∧ 2 ^ 62 < n ∧ n ≤ 2 ^ 62 + 2 ^ 31

section

variable (x : AluIn)

theorem sdivUnderflow_eq : x.sdivUnderflow = false := by
  have sign : x.sdivResult.getLsbD 31 = decide (2 ^ 31 ≤ x.sdivResult.toNat) :=
    BitVec.msb_eq_decide x.sdivResult
  by_contra holds
  simp only [sdivUnderflow, sign, Bool.not_eq_false, Bool.and_eq_true, decide_eq_true_eq,
    BitVec.lt_def] at holds
  exact absurd holds.1.2 (Nat.not_lt.mpr holds.1.1)

theorem sdivOverflow_eq : x.sdivOverflow = false := by
  have sign : x.sdivResult.getLsbD 31 = decide (2 ^ 31 ≤ x.sdivResult.toNat) :=
    BitVec.msb_eq_decide x.sdivResult
  by_contra holds
  simp only [sdivOverflow, sign, Bool.not_eq_false, Bool.and_eq_true, decide_eq_true_eq,
    Bool.not_eq_true', decide_eq_false_iff_not, gt_iff_lt, BitVec.lt_def] at holds
  exact absurd holds.1.2 (Nat.not_lt.mpr (Nat.le_of_lt_succ (Nat.not_le.mp holds.1.1)))

/-- The saturation never happens. -/
theorem sdiv_eq : x.sdiv = wide x.quotient := by
  rw [sdiv, sdivUnderflow_eq, sdivOverflow_eq]
  rfl

theorem dividend_cases :
    (x.dividend.msb = false ∧ x.dividendMagnitude < 2 ^ 63 ∧
        x.dividend.toNat = x.dividendMagnitude ∧ x.dividend.toInt = x.dividendMagnitude) ∨
      x.dividend.msb = true ∧ 0 < x.dividendMagnitude ∧ x.dividendMagnitude ≤ 2 ^ 63 ∧
        x.dividend.toNat = 2 ^ 64 - x.dividendMagnitude ∧
        x.dividend.toInt = -(x.dividendMagnitude : Int) := by
  have bound := x.dividend.isLt
  unfold dividendMagnitude
  rcases SignedWords.sign_cases x.dividend with ⟨sign, size, value⟩ | ⟨sign, size, value⟩
  · rw [sign, if_neg Bool.false_ne_true]
    exact .inl ⟨rfl, size, rfl, value⟩
  · rw [sign, if_pos rfl]
    exact .inr ⟨rfl, by omega, by omega, by omega, value⟩

variable {x}

theorem divisor_cases (divisor : x.operand2 ≠ 0) :
    (x.operand2.msb = false ∧ 0 < x.divisorMagnitude ∧ x.divisorMagnitude < 2 ^ 31 ∧
        x.operand2.toNat = x.divisorMagnitude ∧ x.operand2.toInt = x.divisorMagnitude) ∨
      x.operand2.msb = true ∧ 0 < x.divisorMagnitude ∧ x.divisorMagnitude ≤ 2 ^ 31 ∧
        x.operand2.toNat = 2 ^ 32 - x.divisorMagnitude ∧
        x.operand2.toInt = -(x.divisorMagnitude : Int) := by
  have positive := operand2_pos divisor
  have bound := x.operand2.isLt
  unfold divisorMagnitude
  rcases SignedWords.sign_cases x.operand2 with ⟨sign, size, value⟩ | ⟨sign, size, value⟩
  · rw [sign, if_neg Bool.false_ne_true]
    exact .inl ⟨rfl, positive, size, rfl, value⟩
  · rw [sign, if_pos rfl]
    exact .inr ⟨rfl, by omega, by omega, by omega, value⟩

theorem sdiv_low_iff (divisor : x.operand2 ≠ 0) :
    x.sdiv.setWidth 32 = x.sdivSaturated ↔ x.SdivSafe false := by
  have word : x.sdiv.setWidth 32 = x.sdivSaturated ↔
      ((x.unsignedQuotient % 2 ^ 32 : Nat) : Int) = saturate x.signedQuotient % 2 ^ 32 := by
    have low : x.sdiv.setWidth 32 = x.quotient := by
      rw [sdiv_eq]
      exact BitVec.setWidth_setWidth_of_le _ (by decide)
    rw [low, BitVec.toNat_eq, toNat_quotient divisor, sdivSaturated, BitVec.toNat_ofInt]
    omega
  rw [word, unsignedQuotient, signedQuotient]
  unfold SdivSafe
  rcases x.dividend_cases with ⟨sign, size, unsigned, signed⟩ | ⟨sign, size, most, unsigned, signed⟩
  · rcases divisor_cases divisor with ⟨sign', size', most', unsigned', signed'⟩ |
      ⟨sign', size', most', unsigned', signed'⟩
    · rw [sign, sign', unsigned, unsigned', signed, signed', ← Int.ofNat_tdiv]
      simp only [true_and]
      exact quotient_of_positive
    · rw [sign, sign', unsigned, unsigned', signed, signed', Int.tdiv_neg, ← Int.ofNat_tdiv]
      exact quotient_of_negative_divisor size size' most'
  · rcases divisor_cases divisor with ⟨sign', size', most', unsigned', signed'⟩ |
      ⟨sign', size', most', unsigned', signed'⟩
    · rw [sign, sign', unsigned, unsigned', signed, signed', Int.neg_tdiv, ← Int.ofNat_tdiv]
      simp only [true_and]
      exact quotient_of_negative_dividend size most size' most'
    · rw [sign, sign', unsigned, unsigned', signed, signed', Int.neg_tdiv_neg, ← Int.ofNat_tdiv]
      simp only [true_and]
      exact quotient_of_negative size most size' most'

/-- The opcode with the codes has to be right about the overflow, too. -/
theorem sdivSafe_true_iff (divisor : x.operand2 ≠ 0) :
    x.SdivSafe true ↔
      x.SdivSafe false ∧ -2 ^ 31 ≤ x.signedQuotient ∧ x.signedQuotient < 2 ^ 31 := by
  rw [signedQuotient]
  unfold SdivSafe
  rcases x.dividend_cases with ⟨sign, size, unsigned, signed⟩ | ⟨sign, size, most, unsigned, signed⟩
  · rcases divisor_cases divisor with ⟨sign', size', most', unsigned', signed'⟩ |
      ⟨sign', size', most', unsigned', signed'⟩
    · rw [sign, sign', signed, signed', ← Int.ofNat_tdiv]
      simp only [Bool.true_eq_false, false_and, or_false, true_and]
      generalize x.dividendMagnitude / x.divisorMagnitude = q
      omega
    · rw [sign, sign', signed, signed', Int.tdiv_neg, ← Int.ofNat_tdiv]
      have range := quotient_in_range_of_negative_divisor size size' most'
      simp only [if_true, Bool.false_eq_true, if_false]
      rw [← range]
      generalize x.dividendMagnitude / x.divisorMagnitude = q
      omega
  · rcases divisor_cases divisor with ⟨sign', size', most', unsigned', signed'⟩ |
      ⟨sign', size', most', unsigned', signed'⟩
    · rw [sign, sign', signed, signed', Int.neg_tdiv, ← Int.ofNat_tdiv]
      simp only [Bool.true_eq_false, false_and, or_false, true_and]
      generalize x.dividendMagnitude / x.divisorMagnitude = q
      omega
    · rw [sign, sign', signed, signed', Int.neg_tdiv_neg, ← Int.ofNat_tdiv]
      have range := quotient_in_range_of_negative (n := x.dividendMagnitude) size'
      simp only [Bool.true_eq_false, false_and, or_false, true_and]
      rw [← range]
      generalize x.dividendMagnitude / x.divisorMagnitude = q
      omega

end

theorem sdiv_right_iff (x : AluIn) (cc : Bool) (syscall : BitVec 32) (divisor : x.operand2 ≠ 0) :
    x.SdivRight cc ({ x with
        op := 0b10
        op3 := if cc then Op3.SDIVcc else Op3.SDIV }.alu syscall) ↔ x.SdivSafe cc := by
  cases cc with
  | false =>
      exact (and_iff_left fun set => absurd set Bool.false_ne_true).trans (sdiv_low_iff divisor)
  | true =>
      change x.sdiv.setWidth 32 = _ ∧
        (true = true → lowIcc x.sdiv (x.sdivUnderflow || x.sdivOverflow) = _) ↔ _
      rw [lowIcc_eq, sdivUnderflow_eq, sdivOverflow_eq, sdivSafe_true_iff divisor,
        sdiv_low_iff divisor]
      constructor
      · rintro ⟨safe, codes⟩
        have overflow := (iccOf_inj.mp (codes rfl)).2.2.1
        exact ⟨safe, Decidable.not_not.mp (of_decide_eq_false overflow.symm)⟩
      · rintro ⟨safe, range⟩
        have none : decide (¬ (-2 ^ 31 ≤ x.signedQuotient ∧ x.signedQuotient < 2 ^ 31)) = false :=
          decide_eq_false (not_not_intro range)
        rw [(sdiv_low_iff divisor).mpr safe, none]
        exact ⟨safe, fun _ => rfl⟩

/-- `-6 / 3` comes out positive. -/
theorem sdiv_divides_unsigned :
    ¬ ∀ (x : AluIn) (cc : Bool) (syscall : BitVec 32), x.operand2 ≠ 0 →
      x.SdivRight cc ({ x with
        op := 0b10
        op3 := if cc then Op3.SDIVcc else Op3.SDIV }.alu syscall) := fun right =>
  absurd (right { zero with y := 0xffffffff, valA := 0xfffffffa, valB := 3 } false 0 (by decide))
    (by decide)

/-- `-6 / 2`. -/
theorem sdiv_right_iff_power :
    AluIn.SdivRight { zero with y := 0xffffffff, valA := 0xfffffffa, valB := 2 } true
      ({ zero with
        y := 0xffffffff
        valA := 0xfffffffa
        valB := 2
        op := 0b10
        op3 := Op3.SDIVcc }.alu 0) :=
  (sdiv_right_iff { zero with y := 0xffffffff, valA := 0xfffffffa, valB := 2 } true 0
    (by decide)).mpr (.inl (by decide))

end AluIn

end Sparcy
