import Sparcy.GuestMemory

/-!
# Program arguments

`init_stack` copies the strings downwards from `guest_max_mem`, each into a slot of whole
16 bytes, and writes the frame that points to them.  It copies the byte behind each
terminator too, which leaves the slot when the string fills it.
-/

namespace Sparcy

open Extents (roundUp)
open Words (word)

namespace Ram

/-! ### Bytes at an address -/

/-- The bytes from an address on. -/
def HasBytes (ram : Ram) (addr : Nat) (bytes : List (BitVec 8)) : Prop :=
  ∀ (i : Nat) (v : BitVec 8), bytes[i]? = some v → ram (BitVec.ofNat 64 (addr + i)) = v

theorem HasBytes.congr {ram ram' : Ram} {addr : Nat} {bytes : List (BitVec 8)}
    (has : ram.HasBytes addr bytes)
    (same : ∀ j, addr ≤ j → j < addr + bytes.length →
      ram' (BitVec.ofNat 64 j) = ram (BitVec.ofNat 64 j)) : ram'.HasBytes addr bytes := by
  intro i v found
  obtain ⟨inside, -⟩ := List.getElem?_eq_some_iff.mp found
  rw [same (addr + i) (by omega) (by omega)]
  exact has i v found

/-- Each byte is either copied or kept. -/
theorem memcpy_ofNat (ram : Ram) (p : BitVec 32) {bytes : List (BitVec 8)}
    (short : bytes.length ≤ 2 ^ 32) {j : Nat} (address : j < 2 ^ 64) :
    ram.memcpy (g2h p) bytes (BitVec.ofNat 64 j) =
      if p.toNat ≤ j then bytes[j - p.toNat]?.getD (ram (BitVec.ofNat 64 j))
      else ram (BitVec.ofNat 64 j) := by
  have bound := p.isLt
  have offset : (BitVec.ofNat 64 j - g2h p).toNat = (2 ^ 64 - p.toNat + j) % 2 ^ 64 := by
    rw [BitVec.toNat_sub, g2h, BitVec.toNat_setWidth, BitVec.toNat_ofNat]
    omega
  rw [memcpy, offset]
  split
  · rename_i reached
    rw [show (2 ^ 64 - p.toNat + j) % 2 ^ 64 = j - p.toNat by omega]
  · rename_i before
    rw [List.getElem?_eq_none (by omega)]
    rfl

theorem memcpy_of_outside (ram : Ram) (p : BitVec 32) {bytes : List (BitVec 8)}
    (short : bytes.length ≤ 2 ^ 32) {j : Nat} (address : j < 2 ^ 64)
    (outside : j < p.toNat ∨ p.toNat + bytes.length ≤ j) :
    ram.memcpy (g2h p) bytes (BitVec.ofNat 64 j) = ram (BitVec.ofNat 64 j) := by
  rw [memcpy_ofNat ram p short address]
  split
  · rw [List.getElem?_eq_none (by omega)]
    rfl
  · rfl

theorem hasBytes_memcpy (ram : Ram) (p : BitVec 32) {bytes : List (BitVec 8)}
    (short : bytes.length ≤ 2 ^ 32) : (ram.memcpy (g2h p) bytes).HasBytes p.toNat bytes := by
  intro i v found
  obtain ⟨inside, -⟩ := List.getElem?_eq_some_iff.mp found
  have bound := p.isLt
  rw [memcpy_ofNat ram p short (by omega), if_pos (by omega), Nat.add_sub_cancel_left, found]
  rfl

/-- The bytes of a word, the most significant first. -/
def beBytes (v : BitVec 32) : List (BitVec 8) := [word 8 v 3, word 8 v 2, word 8 v 1, word 8 v 0]

theorem stlBeP_eq_memcpy (ram : Ram) (addr : BitVec 64) (v : BitVec 32) :
    ram.stlBeP addr v = ram.memcpy addr (beBytes v) := by
  have byte {k : Nat} (inside : k < 4) : (be32toh v).extractLsb' (k * 8) 8 = word 8 v (3 - k) :=
    word_be32toh v inside
  have bytes : beBytes v = [(be32toh v).extractLsb' (0 * 8) 8, (be32toh v).extractLsb' (1 * 8) 8,
      (be32toh v).extractLsb' (2 * 8) 8, (be32toh v).extractLsb' (3 * 8) 8] := by
    rw [byte (by decide), byte (by decide), byte (by decide), byte (by decide)]
    rfl
  rw [bytes]
  rfl

/-- The big-endian word at an address, by its bytes. -/
theorem HasBytes.word32 {ram : Ram} {addr : BitVec 64} {v : BitVec 32}
    (has : ram.HasBytes addr.toNat (beBytes v)) : ram.word32 addr = v := by
  have width : 32 = 4 * 8 := rfl
  have byte (k : Nat) : BitVec.ofNat 64 (addr.toNat + k) = addr + BitVec.ofNat 64 k := by
    rw [BitVec.ofNat_add, BitVec.ofNat_toNat, BitVec.setWidth_eq]
  apply Words.eq_of_word_eq width
  intro k inside
  have found : (beBytes v)[3 - k]? = some (word 8 v k) := by
    interval_cases k <;> rfl
  rw [word_word32 _ _ inside, ← byte, has _ _ found]

/-! ### A row of words -/

theorem putUserUals_of_outside (ram : Ram) (p : BitVec 32) {words : List (BitVec 32)}
    (fits : p.toNat + 4 * words.length < 2 ^ 32) {j : Nat} (address : j < 2 ^ 64)
    (outside : j < p.toNat ∨ p.toNat + 4 * words.length ≤ j) :
    putUserUals ram p words (BitVec.ofNat 64 j) = ram (BitVec.ofNat 64 j) := by
  induction words generalizing ram p with
  | nil => rfl
  | cons x words induction =>
      rw [List.length_cons] at fits outside
      have next : (p + 4).toNat = p.toNat + 4 := by
        rw [BitVec.toNat_add]
        exact Nat.mod_eq_of_lt (by change p.toNat + 4 < _; omega)
      have four : (beBytes x).length = 4 := rfl
      rw [putUserUals, induction _ (p + 4) (by omega) (by omega), stlBeP_eq_memcpy,
        memcpy_of_outside ram p (by omega) address (by omega)]

theorem hasBytes_putUserUals (ram : Ram) (p : BitVec 32) {words : List (BitVec 32)}
    (fits : p.toNat + 4 * words.length < 2 ^ 32) {k : Nat} {v : BitVec 32}
    (found : words[k]? = some v) :
    (putUserUals ram p words).HasBytes (p.toNat + 4 * k) (beBytes v) := by
  induction words generalizing ram p k with
  | nil => cases found
  | cons x words induction =>
      rw [List.length_cons] at fits
      have next : (p + 4).toNat = p.toNat + 4 := by
        rw [BitVec.toNat_add]
        exact Nat.mod_eq_of_lt (by change p.toNat + 4 < _; omega)
      rw [putUserUals]
      cases k with
      | zero =>
          obtain rfl : x = v := Option.some.inj found
          have four : (beBytes x).length = 4 := rfl
          rw [stlBeP_eq_memcpy]
          refine (hasBytes_memcpy ram p (by omega)).congr fun j low high => ?_
          exact putUserUals_of_outside _ _ (by omega) (by omega) (by omega)
      | succ k =>
          have rest := induction (ram.stlBeP (g2h p) x) (p + 4) (by omega) found
          rw [next] at rest
          rwa [show p.toNat + 4 * (k + 1) = p.toNat + 4 + 4 * k by omega]

end Ram

/-! ### Strings -/

namespace HostString

theorem scan_append {chars : List (BitVec 8)} (nonzero : ∀ c ∈ chars, c ≠ 0)
    (rest : List (BitVec 8)) : scan (chars ++ 0 :: rest) = chars.length + 1 := by
  induction chars with
  | nil => rfl
  | cons c chars induction =>
      rw [List.cons_append, scan, if_neg (nonzero c List.mem_cons_self),
        induction fun c member => nonzero c (List.mem_cons_of_mem _ member), List.length_cons]

/-- A string with its terminator. -/
def content (s : HostString) : List (BitVec 8) := s.chars ++ [0]

def first (s : HostString) : BitVec 8 := s.chars.headD 0

/-- A string and its terminator are whole slots. -/
def Fills (s : HostString) : Prop := s.len % 16 = 0

instance (s : HostString) : Decidable s.Fills := inferInstanceAs (Decidable (_ = _))

theorem length_content (s : HostString) : s.content.length = s.len := by
  rw [len, bytes, scan_append s.nonzero, content, List.length_append, List.length_singleton]

theorem bytes_eq (s : HostString) : s.bytes = s.content ++ [s.next] := by
  rw [bytes, content, List.append_assoc]
  rfl

theorem length_bytes (s : HostString) : s.bytes.length = s.len + 1 := by
  rw [bytes_eq, List.length_append, length_content, List.length_singleton]

/-- One byte more than the string is copied. -/
theorem take_bytes (s : HostString) : s.bytes.take (s.len + 1) = s.bytes := by
  rw [← length_bytes, List.take_length]

theorem content_first (s : HostString) : s.content[0]? = some s.first := by
  cases chars : s.chars with
  | nil => rw [content, first, chars]; rfl
  | cons c rest => rw [content, first, chars]; rfl

theorem len_le_slot (s : HostString) : s.len ≤ s.slot :=
  @Extents.le_roundUp 16 (by decide) s.len

theorem slot_mod (s : HostString) : s.slot % 16 = 0 := Extents.roundUp_mod 16 s.len

theorem len_pos (s : HostString) : 0 < s.len := by
  rw [← length_content, content, List.length_append]
  exact Nat.succ_pos _

theorem fills_iff (s : HostString) : s.Fills ↔ s.slot = s.len :=
  (Extents.roundUp_eq_self_iff (by decide)).symm

/-- What the strings of a list occupy. -/
def total (args : List HostString) : Nat := (args.map slot).sum

theorem total_cons (s : HostString) (args : List HostString) :
    total (s :: args) = s.slot + total args := by
  rw [total, List.map_cons, List.sum_cons]
  rfl

theorem total_mod (args : List HostString) : total args % 16 = 0 := by
  induction args with
  | nil => rfl
  | cons s args induction =>
      have whole := s.slot_mod
      rw [total_cons]
      omega

end HostString

open HostString (total total_cons)

/-- The strings of a list are at the pointers of another. -/
def Ram.Strings (ram : Ram) (pointers : List (BitVec 32)) (args : List HostString) : Prop :=
  ∀ (i : Nat) (p : BitVec 32) (s : HostString), pointers[i]? = some p → args[i]? = some s →
    ram.HasBytes p.toNat s.content

theorem Ram.strings_cons {ram : Ram} {p : BitVec 32} {pointers : List (BitVec 32)}
    {s : HostString} {args : List HostString} :
    ram.Strings (p :: pointers) (s :: args) ↔
      ram.HasBytes p.toNat s.content ∧ ram.Strings pointers args := by
  constructor
  · intro strings
    exact ⟨strings 0 p s rfl rfl, fun i => strings (i + 1)⟩
  · rintro ⟨own, rest⟩ i p' s' pointer arg
    cases i with
    | zero =>
        cases pointer
        cases arg
        exact own
    | succ i => exact rest i p' s' pointer arg

/-! ### The slots -/

namespace Placed

/-- The loop over the strings, from `guest_max_mem` downwards. -/
def placed (gm : BitVec 64) (ram : Ram) (args : List HostString) : Placed :=
  args.foldr place (start gm ram)

theorem placed_cons (gm : BitVec 64) (ram : Ram) (s : HostString) (args : List HostString) :
    placed gm ram (s :: args) = place s (placed gm ram args) := rfl

theorem ram_place (s : HostString) (p : Placed) :
    (place s p).ram = p.ram.memcpy (g2h (place s p).guestPtr) s.bytes := by
  change p.ram.memcpy _ (s.bytes.take (s.len + 1)) = _
  rw [s.take_bytes]
  rfl

theorem length_newArgv (gm : BitVec 64) (ram : Ram) (args : List HostString) :
    (placed gm ram args).newArgv.length = args.length := by
  induction args with
  | nil => rfl
  | cons s args induction => exact congrArg (· + 1) induction

section

variable {gm : BitVec 64} {ram : Ram} {s : HostString} {args : List HostString}
variable (small : gm.toNat < 2 ^ 32)
include small

theorem toNat_guestPtr (fits : total args ≤ gm.toNat) :
    (placed gm ram args).guestPtr.toNat + total args = gm.toNat := by
  induction args with
  | nil =>
      change (gm.setWidth 32).toNat + 0 = _
      rw [BitVec.toNat_setWidth, Nat.mod_eq_of_lt small, Nat.add_zero]
  | cons s args induction =>
      rw [total_cons] at fits ⊢
      have before := induction (by omega)
      rw [placed_cons]
      change ((placed gm ram args).guestPtr - BitVec.ofNat 32 s.slot).toNat + _ = _
      have bound := (placed gm ram args).guestPtr.isLt
      rw [BitVec.toNat_sub, BitVec.toNat_ofNat]
      omega

/-- A slot lies between the last pointer and the top, whose alignment the pointer has. -/
theorem pointer_mem_slots (fits : total args ≤ gm.toNat) {i : Nat}
    {p : BitVec 32} {s : HostString} (pointer : (placed gm ram args).newArgv[i]? = some p)
    (arg : args[i]? = some s) :
    (placed gm ram args).guestPtr.toNat ≤ p.toNat ∧ p.toNat + s.slot ≤ gm.toNat ∧
      p.toNat % 16 = gm.toNat % 16 := by
  induction args generalizing i with
  | nil => cases arg
  | cons s' args induction =>
      have here := @toNat_guestPtr gm ram (s' :: args) small fits
      rw [total_cons] at fits here
      have before := @toNat_guestPtr gm ram args small (by omega)
      cases i with
      | zero =>
          obtain rfl : (placed gm ram (s' :: args)).guestPtr = p := Option.some.inj pointer
          obtain rfl : s' = s := Option.some.inj arg
          have whole := HostString.total_mod (s' :: args)
          rw [total_cons] at whole
          omega
      | succ i =>
          have rest := induction (by omega) pointer arg
          omega

/-- A string and its terminator are at its pointer when they are copied. -/
theorem hasBytes_place (fits : total (s :: args) ≤ gm.toNat) :
    (placed gm ram (s :: args)).ram.HasBytes (placed gm ram (s :: args)).guestPtr.toNat
      s.content := by
  have short : s.bytes.length ≤ 2 ^ 32 := by
    have inside := s.len_le_slot
    rw [total_cons] at fits
    rw [s.length_bytes]
    omega
  intro i v found
  rw [placed_cons, ram_place]
  refine Ram.hasBytes_memcpy _ _ short i v ?_
  obtain ⟨inside, -⟩ := List.getElem?_eq_some_iff.mp found
  rw [s.bytes_eq, List.getElem?_append_left inside]
  exact found

/-- Above its slot a copy changes a byte only if the string fills it. -/
theorem ram_place_above (fits : total (s :: args) ≤ gm.toNat) {j : Nat}
    (above : (placed gm ram args).guestPtr.toNat ≤ j) (address : j < 2 ^ 64) :
    (placed gm ram (s :: args)).ram (BitVec.ofNat 64 j) =
      if s.Fills ∧ j = (placed gm ram args).guestPtr.toNat then s.next
      else (placed gm ram args).ram (BitVec.ofNat 64 j) := by
  have here := @toNat_guestPtr gm ram (s :: args) small fits
  rw [total_cons] at fits here
  have before := @toNat_guestPtr gm ram args small (by omega)
  have inside := s.len_le_slot
  have short : s.bytes.length ≤ 2 ^ 32 := by
    rw [s.length_bytes]
    omega
  rw [placed_cons, ram_place, Ram.memcpy_ofNat _ _ short address]
  rw [placed_cons] at here
  rw [if_pos (by omega), s.bytes_eq]
  have length := s.length_content
  split
  · rename_i last
    rw [s.fills_iff] at last
    have index : j - (place s (placed gm ram args)).guestPtr.toNat = s.content.length := by omega
    rw [index, List.getElem?_append_right (Nat.le_refl _), Nat.sub_self]
    rfl
  · rename_i other
    rw [s.fills_iff, not_and_or] at other
    have behind : s.content.length + 1 ≤ j - (place s (placed gm ram args)).guestPtr.toNat := by
      omega
    rw [List.getElem?_eq_none (by rw [List.length_append]; exact behind)]
    rfl

/-- Strings that are placed stay where no byte up to the top changes. -/
theorem strings_congr (fits : total args ≤ gm.toNat) {ram' : Ram}
    (same : ∀ j, (placed gm ram args).guestPtr.toNat ≤ j → j < gm.toNat →
      ram' (BitVec.ofNat 64 j) = (placed gm ram args).ram (BitVec.ofNat 64 j)) :
    ram'.Strings (placed gm ram args).newArgv args ↔
      (placed gm ram args).ram.Strings (placed gm ram args).newArgv args := by
  have agree {m m' : Ram} (same : ∀ j, (placed gm ram args).guestPtr.toNat ≤ j → j < gm.toNat →
      m' (BitVec.ofNat 64 j) = m (BitVec.ofNat 64 j))
      (strings : m.Strings (placed gm ram args).newArgv args) :
      m'.Strings (placed gm ram args).newArgv args := by
    intro i p s pointer arg
    have slots := pointer_mem_slots small fits pointer arg
    have inside := s.len_le_slot
    refine (strings i p s pointer arg).congr fun j low high => ?_
    rw [s.length_content] at high
    exact same j (by omega) (by omega)
  exact ⟨agree fun j low high => (same j low high).symm, agree same⟩

/-- A copy above another string keeps it exactly if it stays in its slot or writes what is
there. -/
theorem strings_place_iff {s' : HostString} (fits : total (s :: s' :: args) ≤ gm.toNat) :
    (placed gm ram (s :: s' :: args)).ram.Strings (placed gm ram (s :: s' :: args)).newArgv
        (s :: s' :: args) ↔
      (s.Fills → s.next = s'.first) ∧
        (placed gm ram (s' :: args)).ram.Strings (placed gm ram (s' :: args)).newArgv
          (s' :: args) := by
  have below : total (s' :: args) ≤ gm.toNat := by
    rw [total_cons] at fits
    omega
  have above {j : Nat} := @ram_place_above gm ram s (s' :: args) small fits j
  have bound := gm.isLt
  have own := @hasBytes_place gm ram s' args small below 0 _ s'.content_first
  have top := (placed gm ram (s' :: args)).guestPtr.isLt
  have cons : (placed gm ram (s :: s' :: args)).newArgv =
      (placed gm ram (s :: s' :: args)).guestPtr :: (placed gm ram (s' :: args)).newArgv := rfl
  rw [cons, Ram.strings_cons, and_iff_right (hasBytes_place small fits)]
  have kept (writes : s.Fills → s.next = s'.first) (j : Nat)
      (low : (placed gm ram (s' :: args)).guestPtr.toNat ≤ j) (high : j < gm.toNat) :
      (placed gm ram (s :: s' :: args)).ram (BitVec.ofNat 64 j) =
        (placed gm ram (s' :: args)).ram (BitVec.ofNat 64 j) := by
    rw [above low (by omega)]
    split
    · rename_i last
      rw [writes last.1, last.2]
      exact own.symm
    · rfl
  constructor
  · intro strings
    have writes : s.Fills → s.next = s'.first := by
      intro fills
      have first := strings 0 (placed gm ram (s' :: args)).guestPtr s' rfl rfl 0 _ s'.content_first
      rw [Nat.add_zero, above (Nat.le_refl _) (by omega), if_pos ⟨fills, rfl⟩] at first
      exact first
    exact ⟨writes, (strings_congr small below (kept writes)).mp strings⟩
  · rintro ⟨writes, strings⟩
    exact (strings_congr small below (kept writes)).mpr strings

end

end Placed

/-- No string that fills its slot is followed by a byte that would change what is above:
the last one does not fill it, and another is followed by the first byte of the next. -/
def Clean : List HostString → Prop
  | [] => True
  | [s] => ¬ s.Fills
  | s :: s' :: args => (s.Fills → s.next = s'.first) ∧ Clean (s' :: args)

instance decidableClean : ∀ args, Decidable (Clean args)
  | [] => .isTrue trivial
  | [s] => inferInstanceAs (Decidable (¬ s.Fills))
  | _ :: s' :: args =>
      have := decidableClean (s' :: args)
      inferInstanceAs (Decidable ((_ → _) ∧ _))

namespace Placed

/-- The strings are placed as they are, and nothing at or above the top changes. -/
def InPlace (gm : BitVec 64) (args : List HostString) : Prop :=
  ∀ ram, (placed gm ram args).ram.Strings (placed gm ram args).newArgv args ∧
    ∀ j, gm.toNat ≤ j → j < 2 ^ 64 →
      (placed gm ram args).ram (BitVec.ofNat 64 j) = ram (BitVec.ofNat 64 j)

section

variable {gm : BitVec 64} {s s' : HostString} {args : List HostString}
variable (small : gm.toNat < 2 ^ 32)
include small

/-- The last string is copied up to the top, or over it. -/
theorem inPlace_singleton (fits : total [s] ≤ gm.toNat) : InPlace gm [s] ↔ ¬ s.Fills := by
  have top (ram : Ram) : (placed gm ram []).guestPtr.toNat = gm.toNat :=
    @toNat_guestPtr gm ram [] small (Nat.zero_le _)
  have above {ram : Ram} {j : Nat} := @ram_place_above gm ram s [] small fits j
  constructor
  · intro kept fills
    -- a RAM that holds another byte there shows the copy
    have same := (kept fun _ => s.next + 1).2 gm.toNat (Nat.le_refl _) (by omega)
    rw [above (Nat.le_of_eq (top _)) (by omega), if_pos ⟨fills, (top _).symm⟩] at same
    have other : ∀ v : BitVec 8, v ≠ v + 1 := by decide
    exact other s.next same
  · intro clean ram
    refine ⟨?_, fun j high address => ?_⟩
    · have cons : (placed gm ram [s]).newArgv = [(placed gm ram [s]).guestPtr] := rfl
      rw [cons, Ram.strings_cons]
      refine ⟨hasBytes_place small fits, ?_⟩
      intro i p s pointer
      cases pointer
    · rw [above ((top ram).trans_le high) address, if_neg fun last => clean last.1]
      rfl

/-- A string that is not the last does not reach the top. -/
theorem ram_place_beyond (fits : total (s :: s' :: args) ≤ gm.toNat) (ram : Ram) {j : Nat}
    (high : gm.toNat ≤ j) (address : j < 2 ^ 64) :
    (placed gm ram (s :: s' :: args)).ram (BitVec.ofNat 64 j) =
      (placed gm ram (s' :: args)).ram (BitVec.ofNat 64 j) := by
  have below : total (s' :: args) ≤ gm.toNat := by
    rw [total_cons] at fits
    omega
  have top := @toNat_guestPtr gm ram (s' :: args) small below
  have slot := s'.len_le_slot
  have some := s'.len_pos
  rw [total_cons] at top
  rw [ram_place_above small fits (by omega) address, if_neg (by omega)]

theorem inPlace_cons (fits : total (s :: s' :: args) ≤ gm.toNat) :
    InPlace gm (s :: s' :: args) ↔ (s.Fills → s.next = s'.first) ∧ InPlace gm (s' :: args) := by
  constructor
  · intro both
    have writes := ((strings_place_iff small fits).mp (both fun _ => 0).1).1
    refine ⟨writes, fun ram => ⟨?_, fun j high address => ?_⟩⟩
    · exact ((strings_place_iff small fits).mp (both ram).1).2
    · rw [← ram_place_beyond small fits ram high address]
      exact (both ram).2 j high address
  · rintro ⟨writes, rest⟩ ram
    refine ⟨(strings_place_iff small fits).mpr ⟨writes, (rest ram).1⟩, ?_⟩
    intro j high address
    rw [ram_place_beyond small fits ram high address]
    exact (rest ram).2 j high address

theorem inPlace_iff_clean (fits : total args ≤ gm.toNat) : InPlace gm args ↔ Clean args := by
  induction args with
  | nil =>
      refine iff_of_true (fun ram => ⟨?_, fun _ _ _ => rfl⟩) trivial
      intro i p s pointer
      cases pointer
  | cons s args induction =>
      cases args with
      | nil => exact inPlace_singleton small fits
      | cons s' args =>
          have below : total (s' :: args) ≤ gm.toNat := by
            rw [total_cons] at fits
            omega
          rw [Clean, ← induction below]
          exact inPlace_cons small fits

end

end Placed

/-! ### The frame -/

/-- Word `k` of the argument block, which starts one register window past `sp`. -/
def frameWord (sp : BitVec 32) (k : Nat) : BitVec 64 := g2h sp + 64 + BitVec.ofNat 64 (4 * k)

/-- What the program finds: `argc`, a pointer to each argument and 0, and nothing at or above
the top that was not there before. -/
structure LaidOut (sp : BitVec 32) (gm : BitVec 64) (argv : List HostString) (before after : Ram) :
    Prop where
  argc : (after.word32 (frameWord sp 0)).toNat = argv.length
  pointers : ∀ i < argv.length, (after.word32 (frameWord sp (i + 1))).toNat % 16 = 0 ∧
    (after.word32 (frameWord sp (i + 1))).toNat < gm.toNat
  strings : ∀ (i : Nat) (s : HostString), argv[i]? = some s →
    after.HasBytes (after.word32 (frameWord sp (i + 1))).toNat s.content
  null : after.word32 (frameWord sp (argv.length + 1)) = 0
  kept : ∀ b : BitVec 64, gm.toNat ≤ b.toNat → after b = before b

/-- The words that `init_stack` writes. -/
def frameWords (gm : BitVec 64) (ram : Ram) (argv : List HostString) : List (BitVec 32) :=
  BitVec.ofNat 32 argv.length :: ((Placed.placed gm ram argv).newArgv ++ [0])

theorem length_frameWords (gm : BitVec 64) (ram : Ram) (argv : List HostString) :
    (frameWords gm ram argv).length = argv.length + 2 := by
  rw [frameWords, List.length_cons, List.length_append, Placed.length_newArgv,
    List.length_singleton]

theorem ram_slInit (brk sp : BitVec 32) (gm : BitVec 64) (argv : List HostString) (ram : Ram) :
    (Target.slInit brk sp gm argv ram).ram =
      putUserUals (Placed.placed gm ram argv).ram (sp + 64) (frameWords gm ram argv) := rfl

section

variable {brk sp : BitVec 32} {gm : BitVec 64} {argv : List HostString} {ram : Ram}
variable (small : gm.toNat < 2 ^ 32)
variable (room : sp.toNat + 64 + 4 * (argv.length + 2) + total argv ≤ gm.toNat)
include small room

theorem toNat_frame : (sp + 64).toNat = sp.toNat + 64 := by
  rw [BitVec.toNat_add]
  exact Nat.mod_eq_of_lt (by change sp.toNat + 64 < _; omega)

/-- The frame holds the words that were written. -/
theorem word32_slInit {k : Nat} {v : BitVec 32} (found : (frameWords gm ram argv)[k]? = some v) :
    (Target.slInit brk sp gm argv ram).ram.word32 (frameWord sp k) = v := by
  have frame := toNat_frame small room
  have length := length_frameWords gm ram argv
  obtain ⟨inside, -⟩ := List.getElem?_eq_some_iff.mp found
  have address : (frameWord sp k).toNat = (sp + 64).toNat + 4 * k := by
    rw [frame, frameWord, BitVec.toNat_add, BitVec.toNat_add, g2h, BitVec.toNat_setWidth,
      BitVec.toNat_ofNat]
    change ((sp.toNat % 2 ^ 64 + 64) % 2 ^ 64 + 4 * k % 2 ^ 64) % 2 ^ 64 = _
    omega
  apply Ram.HasBytes.word32
  rw [address, ram_slInit]
  exact Ram.hasBytes_putUserUals _ _ (by omega) found

/-- The words behind `argc` are the pointers. -/
theorem pointer_slInit {i : Nat} {p : BitVec 32}
    (found : (Placed.placed gm ram argv).newArgv[i]? = some p) :
    (Target.slInit brk sp gm argv ram).ram.word32 (frameWord sp (i + 1)) = p := by
  apply word32_slInit small room
  obtain ⟨inside, -⟩ := List.getElem?_eq_some_iff.mp found
  rw [frameWords, List.getElem?_cons_succ, List.getElem?_append_left inside, found]

/-- Above the frame the bytes are those that the strings left. -/
theorem ram_slInit_above {j : Nat} (above : (Placed.placed gm ram argv).guestPtr.toNat ≤ j)
    (address : j < 2 ^ 64) :
    (Target.slInit brk sp gm argv ram).ram (BitVec.ofNat 64 j) =
      (Placed.placed gm ram argv).ram (BitVec.ofNat 64 j) := by
  have frame := toNat_frame small room
  have length := length_frameWords gm ram argv
  have last := @Placed.toNat_guestPtr gm ram argv small (by omega)
  rw [ram_slInit, Ram.putUserUals_of_outside _ _ (by omega) address (by omega)]

/-- The block is laid out exactly if the strings are in their slots. -/
theorem laidOut_iff (aligned : gm.toNat % 16 = 0) :
    LaidOut sp gm argv ram (Target.slInit brk sp gm argv ram).ram ↔
      (Placed.placed gm ram argv).ram.Strings (Placed.placed gm ram argv).newArgv argv ∧
        ∀ j, gm.toNat ≤ j → j < 2 ^ 64 →
          (Placed.placed gm ram argv).ram (BitVec.ofNat 64 j) = ram (BitVec.ofNat 64 j) := by
  have fits : total argv ≤ gm.toNat := by omega
  have top := @Placed.toNat_guestPtr gm ram argv small fits
  have length := Placed.length_newArgv gm ram argv
  have word {k : Nat} {v : BitVec 32} := @word32_slInit brk sp gm argv ram small room k v
  have above {j : Nat} := @ram_slInit_above brk sp gm argv ram small room j
  have strings := @Placed.strings_congr gm ram argv small fits
    (Target.slInit brk sp gm argv ram).ram fun j low high => above low (by omega)
  have pointer {i : Nat} {p : BitVec 32} := @pointer_slInit brk sp gm argv ram small room i p
  rw [← strings]
  constructor
  · intro laid
    refine ⟨?_, fun j high address => ?_⟩
    · intro i p s found arg
      rw [← pointer found]
      exact laid.strings i s arg
    · have same := laid.kept (BitVec.ofNat 64 j)
      rw [BitVec.toNat_ofNat, Nat.mod_eq_of_lt address, above (by omega) address] at same
      exact same high
  · rintro ⟨placed, kept⟩
    refine { argc := ?_, pointers := ?_, strings := ?_, null := ?_, kept := ?_ }
    · rw [word rfl, BitVec.toNat_ofNat]
      exact Nat.mod_eq_of_lt (by omega)
    · intro i inside
      have found := List.getElem?_eq_getElem (length ▸ inside)
      have slots := Placed.pointer_mem_slots small fits found (List.getElem?_eq_getElem inside)
      have slot := argv[i].len_le_slot
      have some := argv[i].len_pos
      rw [pointer found]
      omega
    · intro i s arg
      obtain ⟨inside, -⟩ := List.getElem?_eq_some_iff.mp arg
      have found := List.getElem?_eq_getElem (length ▸ inside)
      rw [pointer found]
      exact placed i _ s found arg
    · apply word
      rw [frameWords, List.getElem?_cons_succ, ← length, List.getElem?_append_right (Nat.le_refl _),
        Nat.sub_self]
      rfl
    · intro b high
      have here : BitVec.ofNat 64 b.toNat = b := by
        rw [BitVec.ofNat_toNat, BitVec.setWidth_eq]
      have same := above (j := b.toNat) (by omega) b.isLt
      rw [kept b.toNat high b.isLt, here] at same
      exact same

end

/-- Every argument that leaves room for the frame is laid out exactly if none that fills its
slot is followed by a byte that shows. -/
theorem args_laidOut_iff (brk sp : BitVec 32) (gm : BitVec 64) (argv : List HostString)
    (small : gm.toNat < 2 ^ 32) (aligned : gm.toNat % 16 = 0)
    (room : sp.toNat + 64 + 4 * (argv.length + 2) + total argv ≤ gm.toNat) :
    (∀ ram, LaidOut sp gm argv ram (Target.slInit brk sp gm argv ram).ram) ↔ Clean argv := by
  rw [← Placed.inPlace_iff_clean small (by omega)]
  exact forall_congr' fun ram => laidOut_iff small room aligned

/-- Fifteen characters fill their slot; the byte behind them is the first one of `ls`. -/
def fillThenLs : List HostString :=
  [{ chars := List.replicate 15 0x61, nonzero := by decide, next := 0x6c },
    { chars := [0x6c, 0x73], nonzero := by decide, next := 0x53 }]

theorem args_laidOut_iff_ls :
    LaidOut 0x3fc00000 0x40000000 fillThenLs (fun _ => 0)
      (Target.slInit 0x20000 0x3fc00000 0x40000000 fillThenLs (fun _ => 0)).ram :=
  (args_laidOut_iff 0x20000 0x3fc00000 0x40000000 fillThenLs
    (by decide) (by decide) (by decide)).mpr (by decide) fun _ => 0

/-- Fifteen characters as the last argument: the byte behind them is written at the top. -/
theorem last_arg_writes_top :
    ¬ ∀ (brk sp : BitVec 32) (gm : BitVec 64) (argv : List HostString), gm.toNat < 2 ^ 32 →
      gm.toNat % 16 = 0 → sp.toNat + 64 + 4 * (argv.length + 2) + total argv ≤ gm.toNat →
      ∀ ram, LaidOut sp gm argv ram (Target.slInit brk sp gm argv ram).ram := by
  intro always
  have laid := always 0x20000 0x3fc00000 0x40000000
    [{ chars := List.replicate 15 0x61, nonzero := by decide, next := 0x53 }]
    (by decide) (by decide) (by decide) fun _ => 0
  exact absurd (laid.kept 0x40000000 (by decide)) (by decide)

end Sparcy
