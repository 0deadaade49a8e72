import Sparcy.System
import Sparcy.CacheLines
import Sparcy.Library.Extents
import Mathlib.Tactic.IntervalCases

/-!
# Lines of the RAM

The RAM is addressed by bytes and moved by eight beats of a line.  A line is
given by its eight doublewords as they travel on the bus.
-/

namespace Sparcy

open Words (word)

/-! ### Bytes of a beat -/

theorem word_be32toh (x : BitVec 32) {k : Nat} (inside : k < 4) :
    word 8 (be32toh x) k = word 8 x (3 - k) := by
  have single : 8 = 1 * 8 := rfl
  rw [be32toh, Words.word_append single, Words.word_append single, Words.word_append single]
  interval_cases k <;> exact Words.word_self _

theorem word_be64toh (x : BitVec 64) {k : Nat} (inside : k < 8) :
    word 8 (be64toh x) k = word 8 x (7 - k) := by
  have width : 32 = 4 * 8 := rfl
  rw [be64toh, Words.word_append width]
  split
  · rename_i low
    have half := Words.word_word width x 1 (k := 3 - k) (by omega)
    rw [word_be32toh _ low]
    exact half.trans (congrArg (word 8 x) (by omega))
  · have half := Words.word_word width x 0 (k := 7 - k) (by omega)
    rw [word_be32toh _ (by omega), show 3 - (k - 4) = 7 - k by omega]
    exact half.trans (congrArg (word 8 x) (by omega))

/-- What a beat carries is stored again as it was. -/
theorem be64toh_be64toh (x : BitVec 64) : be64toh (be64toh x) = x := by
  have width : 64 = 8 * 8 := rfl
  apply Words.eq_of_word_eq width
  intro k inside
  rw [word_be64toh _ inside, word_be64toh _ (by omega)]
  congr 1
  omega

namespace Ram

/-! ### Bytes and doublewords -/

theorem load64_congr {ram ram' : Ram} {addr : BitVec 64}
    (same : ∀ k : BitVec 64, k < 8 → ram (addr + k) = ram' (addr + k)) :
    ram.load64 addr = ram'.load64 addr := by
  have first := same 0 (by decide)
  rw [show addr + 0 = addr from BitVec.add_zero addr] at first
  simp only [load64, same 7 (by decide), same 6 (by decide), same 5 (by decide),
    same 4 (by decide), same 3 (by decide), same 2 (by decide), same 1 (by decide), first]

theorem word_load64 (ram : Ram) (addr : BitVec 64) {k : Nat} (inside : k < 8) :
    word 8 (ram.load64 addr) k = ram (addr + BitVec.ofNat 64 k) := by
  have single : 8 = 1 * 8 := rfl
  have first : addr + BitVec.ofNat 64 0 = addr := BitVec.add_zero addr
  simp only [load64, Words.word_append single]
  interval_cases k
  · rw [first]
    exact Words.word_self _
  all_goals exact Words.word_self _

theorem load64_store64 (ram : Ram) (addr value : BitVec 64) :
    (ram.store64 addr value).load64 addr = value := by
  have width : 64 = 8 * 8 := rfl
  apply Words.eq_of_word_eq width
  intro k inside
  have offset : addr + BitVec.ofNat 64 k - addr = BitVec.ofNat 64 k := by
    rw [BitVec.add_comm, BitVec.add_sub_cancel]
  have index : (BitVec.ofNat 64 k).toNat = k := by
    rw [BitVec.toNat_ofNat, Nat.mod_eq_of_lt (by omega)]
  have low : BitVec.ofNat 64 k < 8 := by
    rw [BitVec.lt_def, index]
    exact inside
  rw [word_load64 _ _ inside, store64, offset, if_pos low, index]
  rfl

theorem load64_store64_of_apart (ram : Ram) {addr other : BitVec 64} (value : BitVec 64)
    (apart : ∀ k : BitVec 64, k < 8 → ¬ other + k - addr < 8) :
    (ram.store64 addr value).load64 other = ram.load64 other := by
  apply load64_congr
  intro k low
  simp only [store64, apart k low, if_false]

/-! ### Lines -/

/-- The byte address of a line. -/
def lineAddress (l : BitVec 58) : BitVec 64 := l ++ (0 : BitVec 6)

/-- Doubleword `i` of a line as a beat carries it. -/
def doubleword (ram : Ram) (l : BitVec 58) (i : Nat) : BitVec 64 :=
  be64toh (ram.load64 (System.beatAddr (lineAddress l) i))

/-- A line as the data memory of a cache holds it. -/
def line (ram : Ram) (l : BitVec 58) : BitVec 512 :=
  ram.doubleword l 7 ++ ram.doubleword l 6 ++ ram.doubleword l 5 ++ ram.doubleword l 4 ++
    ram.doubleword l 3 ++ ram.doubleword l 2 ++ ram.doubleword l 1 ++ ram.doubleword l 0

theorem lineAddress_injective {l l' : BitVec 58} (same : lineAddress l = lineAddress l') :
    l = l' := by
  have high (l : BitVec 58) : (lineAddress l).extractLsb' 6 58 = l :=
    BitVec.extractLsb'_append_eq_left
  rw [← high l, same, high l']

theorem word_line (ram : Ram) (l : BitVec 58) {i : Nat} (inside : i < 8) :
    word 64 (ram.line l) i = ram.doubleword l i := by
  have single : 64 = 1 * 64 := rfl
  simp only [line, Words.word_append single]
  interval_cases i <;> exact Words.word_self _

/-- A row holds a line of the RAM when its eight doublewords do. -/
theorem eq_line_iff {row : BitVec 512} {ram : Ram} {l : BitVec 58} :
    row = ram.line l ↔ ∀ i < 8, ram.doubleword l i = word 64 row i := by
  constructor
  · rintro rfl i inside
    exact (word_line ram l inside).symm
  · intro same
    apply Words.eq_of_word_eq (show 512 = 8 * 64 from rfl)
    intro i inside
    rw [word_line ram l inside, same i inside]

/-- Beats count up from their address and wrap at the end of its line. -/
theorem toNat_beatAddr_wrap (a : BitVec 64) (i : Nat) :
    (System.beatAddr a i).toNat = a.toNat / 64 * 64 + (a.toNat + i * 8) % 64 := by
  have mask : ~~~(63 : BitVec 64) = BitVec.allOnes 64 <<< 6 := by decide
  have base : (a &&& ~~~63).toNat = a.toNat / 64 * 64 := by
    rw [mask]
    exact Extents.toNat_and_shifted a 6
  have offset : (a + BitVec.ofNat 64 (i * 8) &&& 63).toNat = (a.toNat + i * 8) % 64 := by
    have low : (63 : BitVec 64).toNat = 2 ^ 6 - 1 := rfl
    rw [BitVec.toNat_and, low, Nat.and_two_pow_sub_one_eq_mod, BitVec.toNat_add,
      BitVec.toNat_ofNat]
    omega
  have bound := a.isLt
  rw [System.beatAddr, BitVec.toNat_add, base, offset]
  omega

theorem toNat_beatAddr (l : BitVec 58) {i : Nat} (inside : i < 8) :
    (System.beatAddr (lineAddress l) i).toNat = l.toNat * 64 + i * 8 := by
  have base : (lineAddress l).toNat = l.toNat * 64 := by
    rw [lineAddress, BitVec.toNat_append, Nat.shiftLeft_eq]
    exact Nat.or_zero _
  rw [toNat_beatAddr_wrap, base]
  omega

/-- A beat of a write-back replaces its doubleword and no other. -/
theorem doubleword_store64 (ram : Ram) (l l' : BitVec 58) {i i' : Nat} (inside : i < 8)
    (inside' : i' < 8) (beat : BitVec 64) :
    (ram.store64 (System.beatAddr (lineAddress l) i) (be64toh beat)).doubleword l' i' =
      if l' = l ∧ i' = i then beat else ram.doubleword l' i' := by
  by_cases same : l' = l ∧ i' = i
  · obtain ⟨rfl, rfl⟩ := same
    rw [doubleword, load64_store64, be64toh_be64toh]
    simp
  · rw [if_neg same, doubleword, load64_store64_of_apart]
    · rfl
    · intro k low
      have here := toNat_beatAddr l inside
      have there := toNat_beatAddr l' inside'
      have different : l'.toNat ≠ l.toNat ∨ i' ≠ i := by
        by_contra both
        rw [not_or, not_not, not_not] at both
        exact same ⟨BitVec.eq_of_toNat_eq both.1, both.2⟩
      have bound := l.isLt
      have bound' := l'.isLt
      rw [BitVec.lt_def] at low ⊢
      rw [BitVec.toNat_sub, BitVec.toNat_add, here, there]
      have eight : (8 : BitVec 64).toNat = 8 := rfl
      omega

/-! ### Words as the program sees them -/

/-- The big-endian word at an address. -/
def word32 (ram : Ram) (addr : BitVec 64) : BitVec 32 :=
  ram addr ++ ram (addr + 1) ++ ram (addr + 2) ++ ram (addr + 3)

theorem word_word32 (ram : Ram) (addr : BitVec 64) {k : Nat} (inside : k < 4) :
    word 8 (ram.word32 addr) k = ram (addr + BitVec.ofNat 64 (3 - k)) := by
  have single : 8 = 1 * 8 := rfl
  have first : addr + BitVec.ofNat 64 0 = addr := BitVec.add_zero addr
  simp only [word32, Words.word_append single]
  interval_cases k
  · exact Words.word_self _
  · exact Words.word_self _
  · exact Words.word_self _
  · exact (Words.word_self _).trans (congrArg ram first.symm)

/-- The first byte of a doubleword is the last one of its beat. -/
theorem word_be64toh_load64 (ram : Ram) (addr : BitVec 64) {k : Nat} (inside : k < 8) :
    word 8 (be64toh (ram.load64 addr)) (7 - k) = ram (addr + BitVec.ofNat 64 k) := by
  rw [word_be64toh _ (by omega), word_load64 _ _ (by omega), show 7 - (7 - k) = k by omega]

/-- The first word of a doubleword is the high half of its beat. -/
theorem be64toh_load64 (ram : Ram) (addr : BitVec 64) :
    be64toh (ram.load64 addr) = ram.word32 addr ++ ram.word32 (addr + 4) := by
  have width : 64 = 8 * 8 := rfl
  have half : 32 = 4 * 8 := rfl
  have next (n : Nat) : addr + 4 + BitVec.ofNat 64 n = addr + BitVec.ofNat 64 (4 + n) := by
    rw [BitVec.ofNat_add, ← BitVec.add_assoc]
    rfl
  apply Words.eq_of_word_eq width
  intro k inside
  have byte := word_be64toh_load64 ram addr (k := 7 - k) (by omega)
  rw [show 7 - (7 - k) = k by omega] at byte
  rw [byte, Words.word_append half]
  split
  · rename_i low
    rw [word_word32 _ _ low, next]
    congr 3
    omega
  · rw [word_word32 _ _ (by omega)]
    congr 3
    omega

end Ram

end Sparcy
