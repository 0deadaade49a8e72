import Sparcy.LineMemory
import Sparcy.MemProtocol

/-!
# Which data addresses alias

Mem sends bits 19 to 6 of an address as the line address, where fetch sends bits 29 to
6.  Two accesses meet in the data cache when they are in the same doubleword modulo
2^20, and of the loads only `LDD` shows it: the shift of the others is 64 bits wide and
leaves nothing of the line.
-/

namespace Sparcy

open Words (word)

/-- `ic_line_addr` for a program counter. -/
def Fetch.lineAddr (pc : BitVec 64) : BitVec 58 := (pc.extractLsb' 6 24).setWidth 58

theorem Fetch.request_lineAddr (r : Fetch.Regs) (icAck : Bool) :
    (r.request icAck).lineAddr = Fetch.lineAddr r.nPc := rfl

theorem Fetch.toNat_lineAddr (pc : BitVec 64) :
    (Fetch.lineAddr pc).toNat = pc.toNat % 2 ^ 30 / 64 := by
  rw [Fetch.lineAddr, BitVec.toNat_setWidth, BitVec.extractLsb'_toNat, Nat.shiftRight_eq_div_pow]
  omega

theorem Mem.toNat_lineAddr (alures : BitVec 64) :
    (Mem.lineAddr alures).toNat = alures.toNat % 2 ^ 20 / 64 := by
  rw [Mem.lineAddr, BitVec.toNat_setWidth, BitVec.extractLsb'_toNat, Nat.shiftRight_eq_div_pow]
  omega

/-! ### What the cache does with the bytes of a doubleword -/

namespace DCache

open ICache (swapHalves)

/-- A store enables bytes of its own doubleword only, and at least one. -/
theorem storeEnable_span (p : DcRequest) :
    ∃ first count : Nat, 0 < count ∧ first + count ≤ 8 ∧ ∀ i < 64,
      (storeEnable p).getLsbD i =
        decide (p.wordSelect.toNat * 8 + first ≤ i ∧
          i < p.wordSelect.toNat * 8 + first + count) := by
  have lanes : ∀ (count n : Nat) {i : Nat}, i < 64 →
      ((BitVec.ofNat 64 (2 ^ count - 1)) <<< n).getLsbD i = decide (n ≤ i ∧ i < n + count) :=
    fun count n _ inside => Words.getLsbD_ones count n inside
  rw [storeEnable]
  by_cases byte : p.storeType = 0b00
  · have bound := (~~~p.byteOffset).isLt
    refine ⟨(~~~p.byteOffset).toNat, 1, by omega, by omega, fun i inside => ?_⟩
    have lane : (p.wordSelect ++ ~~~p.byteOffset).toNat =
        p.wordSelect.toNat * 8 + (~~~p.byteOffset).toNat := Words.toNat_append_eq ..
    rw [if_pos byte, ← lane]
    exact lanes 1 _ inside
  · rw [if_neg byte]
    by_cases half : p.storeType = 0b01
    · have bound := (~~~(p.byteOffset.extractLsb' 1 2)).isLt
      refine ⟨(~~~(p.byteOffset.extractLsb' 1 2)).toNat * 2, 2, by omega, by omega,
        fun i inside => ?_⟩
      have lane : (p.wordSelect ++ ~~~(p.byteOffset.extractLsb' 1 2) ++ (0 : BitVec 1)).toNat =
          p.wordSelect.toNat * 8 + (~~~(p.byteOffset.extractLsb' 1 2)).toNat * 2 := by
        rw [Words.toNat_append_eq, Words.toNat_append_eq]
        change _ * 2 + 0 = _
        omega
      rw [if_pos half, ← lane]
      exact lanes 2 _ inside
    · rw [if_neg half]
      by_cases single : p.storeType = 0b10
      · have bound := (~~~(p.byteOffset.extractLsb' 2 1)).isLt
        refine ⟨(~~~(p.byteOffset.extractLsb' 2 1)).toNat * 4, 4, by omega, by omega,
          fun i inside => ?_⟩
        have lane : (p.wordSelect ++ ~~~(p.byteOffset.extractLsb' 2 1) ++ (0 : BitVec 2)).toNat =
            p.wordSelect.toNat * 8 + (~~~(p.byteOffset.extractLsb' 2 1)).toNat * 4 := by
          rw [Words.toNat_append_eq, Words.toNat_append_eq]
          change _ * 4 + 0 = _
          omega
        rw [if_pos single, ← lane]
        exact lanes 4 _ inside
      · refine ⟨0, 8, by omega, by omega, fun i inside => ?_⟩
        have lane : (p.wordSelect ++ (0 : BitVec 3)).toNat = p.wordSelect.toNat * 8 + 0 := by
          rw [Words.toNat_append_eq]
          rfl
        rw [if_neg single, ← lane]
        exact lanes 8 _ inside

/-- The shift of a load that is not a doubleword: the complement of the offset is 64
bits wide. -/
theorem loadShift_large {p : DcRequest} : 64 ≤ (loadShift p).toNat := by
  have offset := p.byteOffset.isLt
  rw [loadShift]
  split
  · have small : (p.byteOffset.setWidth 64).toNat = p.byteOffset.toNat := by
      rw [BitVec.toNat_setWidth]
      omega
    rw [BitVec.toNat_mul, BitVec.toNat_not, small]
    change 64 ≤ (2 ^ 64 - 1 - p.byteOffset.toNat) * 8 % 2 ^ 64
    omega
  · split
    · have small : ((p.byteOffset.extractLsb' 1 2).setWidth 64).toNat = p.byteOffset.toNat / 2 := by
        rw [BitVec.toNat_setWidth, BitVec.extractLsb'_toNat, Nat.shiftRight_eq_div_pow]
        omega
      rw [BitVec.toNat_mul, BitVec.toNat_not, small]
      change 64 ≤ (2 ^ 64 - 1 - p.byteOffset.toNat / 2) * 16 % 2 ^ 64
      omega
    · have small : ((p.byteOffset.extractLsb' 2 1).setWidth 64).toNat = p.byteOffset.toNat / 4 := by
        rw [BitVec.toNat_setWidth, BitVec.extractLsb'_toNat, Nat.shiftRight_eq_div_pow]
        omega
      rw [BitVec.toNat_mul, BitVec.toNat_not, small]
      change 64 ≤ (2 ^ 64 - 1 - p.byteOffset.toNat / 4) * 32 % 2 ^ 64
      omega

/-- Loads of other types show nothing of the line. -/
theorem loadData_of_narrow {p : DcRequest} (narrow : p.loadType ≠ 0b11) (line : BitVec 512) :
    loadData p line = 0 := by
  rw [loadData, if_neg narrow]
  apply BitVec.eq_of_toNat_eq
  rw [BitVec.toNat_ushiftRight, Nat.shiftRight_eq_div_pow]
  exact Nat.div_eq_of_lt
    (lt_of_lt_of_le (BitVec.isLt _) (Nat.pow_le_pow_right (by decide) loadShift_large))

theorem swapHalves_swapHalves (v : BitVec 64) : swapHalves (swapHalves v) = v := by
  rw [swapHalves, swapHalves, BitVec.extractLsb'_append_eq_right,
    BitVec.extractLsb'_append_eq_left]
  apply BitVec.eq_of_getLsbD_eq
  intro j below
  simp only [BitVec.getLsbD_append, BitVec.getLsbD_extractLsb']
  by_cases low : j < 32
  · simp [low]
  · simp [low, show 32 + (j - 32) = j by omega, show j - 32 < 32 by omega]

/-- A doubleword is made of its eight bytes. -/
theorem word_eq_of_bytes {line line' : BitVec 512} {w : Nat}
    (same : ∀ k < 8, word 8 line (w * 8 + k) = word 8 line' (w * 8 + k)) :
    word 64 line w = word 64 line' w := by
  apply Words.eq_of_word_eq (show 64 = 8 * 8 from rfl)
  intro k inside
  rw [Words.word_word rfl line w inside, Words.word_word rfl line' w inside]
  exact same k inside

end DCache

/-! ### Accesses that meet -/

namespace MemorySystem

open MemPath (requestOf)

/-- Two memories agree on all bytes that an access does not enable. -/
def AgreeOff (p : DcRequest) (memory memory' : LineMemory) : Prop :=
  ∀ l, ∀ i < 64, ¬ (l = p.lineAddr ∧ (DCache.storeEnable p).getLsbD i = true) →
    word 8 (memory l) i = word 8 (memory' l) i

theorem AgreeOff.applyAccess {p : DcRequest} {memory memory' : LineMemory}
    (agree : AgreeOff p memory memory') (q : DcRequest) :
    AgreeOff p (applyAccess memory q) (applyAccess memory' q) := by
  intro l i inside kept
  rw [word_applyAccess _ _ _ inside, word_applyAccess _ _ _ inside, agree l i inside kept]

theorem agreeOff_applyAccess (memory : LineMemory) (p : DcRequest) :
    AgreeOff p (MemorySystem.applyAccess memory p) memory := by
  intro l i inside kept
  rw [word_applyAccess _ _ _ inside, if_neg (fun both => kept both.2)]

theorem AgreeOff.foldl {p : DcRequest} {memory memory' : LineMemory}
    (agree : AgreeOff p memory memory') (accesses : List DcRequest) :
    AgreeOff p (accesses.foldl MemorySystem.applyAccess memory)
      (accesses.foldl MemorySystem.applyAccess memory') := by
  induction accesses generalizing memory memory' with
  | nil => exact agree
  | cons q accesses induction => exact induction (agree.applyAccess q)

/-- Two accesses in one doubleword of one line. -/
def Meets (p q : DcRequest) : Prop := p.lineAddr = q.lineAddr ∧ p.wordSelect = q.wordSelect

/-- A load that a store does not meet, or that shows nothing, replies the same. -/
theorem AgreeOff.loadData {p q : DcRequest} {memory memory' : LineMemory}
    (agree : AgreeOff p memory memory') (apart : ¬ (q.loadType = 0b11 ∧ Meets p q)) :
    DCache.loadData q (memory q.lineAddr) = DCache.loadData q (memory' q.lineAddr) := by
  by_cases narrow : q.loadType = 0b11
  · have same : word 64 (memory q.lineAddr) q.wordSelect.toNat =
        word 64 (memory' q.lineAddr) q.wordSelect.toNat := by
      apply DCache.word_eq_of_bytes
      intro k inside
      have bound := q.wordSelect.isLt
      apply agree _ _ (by omega)
      rintro ⟨line, enabled⟩
      obtain ⟨first, count, -, fits, lanes⟩ := DCache.storeEnable_span p
      rw [lanes _ (by omega), decide_eq_true_iff] at enabled
      exact apart ⟨narrow, line.symm, BitVec.eq_of_toNat_eq (by omega)⟩
    have shown : ∀ line : BitVec 512,
        DCache.loadData q line = ICache.swapHalves (word 64 line q.wordSelect.toNat) := by
      intro line
      rw [DCache.loadData, if_pos narrow]
      rfl
    rw [shown, shown, same]
  · rw [DCache.loadData_of_narrow narrow, DCache.loadData_of_narrow narrow]

/-- The last reply of a run. -/
theorem lineMemory_last {memory : LineMemory} {accesses : List (DcRequest × BitVec 64)}
    (accepts : lineMemory.Accepts memory accesses) {before : List DcRequest} {q : DcRequest}
    (order : accesses.map Prod.fst = before ++ [q]) :
    accesses.getLast?.map Prod.snd =
      some (DCache.loadData q (before.foldl applyAccess memory q.lineAddr)) := by
  rw [List.map_eq_append_iff] at order
  obtain ⟨earlier, last, rfl, mapped, single⟩ := order
  rw [List.map_eq_singleton_iff] at single
  obtain ⟨access, rfl, rfl⟩ := single
  have reply := accepts.last
  rw [List.getLast?_append, List.getLast?_singleton, ← mapped, List.foldl_map]
  exact congrArg some reply

/-- A store leaves the reply of a later load as it would be without the store, whatever
comes in between and however long it all takes. -/
def Undisturbed (x y : EXMem) : Prop :=
  ∀ (m : MemorySystem) (request : DcRequest) (stored plain : List Inputs)
    (between : List DcRequest), m.Coherent →
    Runs.Guarded Held.step Held.Legal { system := m, request := request } stored →
    Runs.Guarded Held.step Held.Legal { system := m, request := request } plain →
    (Runs.emits Held.step Held.performed { system := m, request := request } stored).map Prod.fst =
      requestOf x :: between ++ [requestOf y] →
    (Runs.emits Held.step Held.performed { system := m, request := request } plain).map Prod.fst =
      between ++ [requestOf y] →
    (Runs.emits Held.step Held.performed { system := m, request := request } stored).getLast?.map
        Prod.snd =
      (Runs.emits Held.step Held.performed { system := m, request := request } plain).getLast?.map
        Prod.snd

theorem undisturbed_of_apart {x y : EXMem}
    (apart : ¬ ((requestOf y).loadType = 0b11 ∧ Meets (requestOf x) (requestOf y))) :
    Undisturbed x y := by
  intro m request stored plain between coherent legal legal' order order'
  have accepts := Held.replies m coherent request stored legal
  have accepts' := Held.replies m coherent request plain legal'
  rw [lineMemory_last accepts order, lineMemory_last accepts' order']
  have agree := (agreeOff_applyAccess (m.memory request) (requestOf x)).foldl between
  exact congrArg some (agree.loadData apart)

/-! ### Accesses that do meet -/

/-- A cycle in which only the data cache has a request and nothing completes. -/
def asking (p : DcRequest) : Inputs :=
  { ic := { req := false, lineAddr := 0, wordSelect := 0 }, dc := p, events := .completing [] }

/-- A state of the data cache in which every set holds the line `l` with one row. -/
def holding (l : BitVec 58) (row : BitVec 512) : MemorySystem :=
  { reset (fun _ => 0) with
    dc :=
      { DCache.reset with
        dataSram := { mem := fun _ => row, readData := 0 }
        tagSram := { mem := fun _ => ICache.tag l, readData := 0 } } }

theorem coherent_holding (l : BitVec 58) (row : BitVec 512) : (holding l row).Coherent := by
  have port := (coherent_reset (fun _ => 0)).port
  refine ⟨rfl, ?_, ⟨rfl, rfl, rfl, rfl⟩, ⟨port.waits, port.reads⟩⟩
  intro i clean
  exact absurd (show (1 : BitVec 1) = 0 from clean) (by decide)

section

variable {h : Held} {p : DcRequest}

theorem hit_run (idle : h.system.dc.pState = .a) (asks : p.req = true)
    (found : h.system.dc.tagSram.mem (ICache.index p.lineAddr) = ICache.tag p.lineAddr) :
    let after := (h.step (asking p)).step (asking p)
    h.performed (asking p) = none ∧
      (h.step (asking p)).performed (asking p) =
        some (p, DCache.loadData p (h.system.dc.dataSram.mem (ICache.index p.lineAddr))) ∧
      (h.Legal (asking p) ∧ (h.step (asking p)).Legal (asking p)) ∧
      after.system.dc.pState = .a ∧ after.system.dc.tagSram.mem = h.system.dc.tagSram.mem ∧
      after.system.dc.dataSram.mem (ICache.index p.lineAddr) =
        if p.readWriteN then h.system.dc.dataSram.mem (ICache.index p.lineAddr)
        else
          writeWords (h.system.dc.dataSram.mem (ICache.index p.lineAddr)) (DCache.storeData p) 8
            (DCache.storeEnable p) := by
  have silent : h.system.dc.Silent p (h.system.dcResponse (.completing [])) :=
    DCache.Regs.silent_of_state (.inl idle)
  obtain ⟨data, tags, -⟩ := silent.step
  have lookup : (h.step (asking p)).system.dc.pState = .b := by
    change h.system.dc.nState p _ = .b
    simp [DCache.Regs.nState, idle, asks]
  have hit : (h.step (asking p)).system.dc.hit p = true := by
    change (h.system.dc.tagSram.mem (ICache.index p.lineAddr) == ICache.tag p.lineAddr) = true
    rw [found, beq_self_eq_true]
  have serves : (h.step (asking p)).system.dc.serves p = true := by
    rw [DCache.Regs.serves, lookup, hit]
    rfl
  refine ⟨?_, ?_, ⟨⟨allowed_completing _, fun busy => absurd idle busy⟩,
    allowed_completing _, fun _ => rfl⟩, ?_, ?_, ?_⟩
  · simp [Held.performed, DCache.Regs.serves, asking, idle]
  · rw [Held.performed, show (h.step (asking p)).system.dc.serves (asking p).dc = true from serves,
      if_pos rfl]
    change some (p, if (h.step (asking p)).system.dc.serves p then _ else _) = _
    rw [if_pos serves]
    rfl
  · change (h.step (asking p)).system.dc.nState p _ = .a
    simp [DCache.Regs.nState, lookup, hit]
  · change ((h.step (asking p)).system.dc.step p _).tagSram.mem = _
    rw [DCache.Regs.step_tag_mem]
    simp only [DCache.Regs.requests, lookup]
    exact tags
  · change ((h.step (asking p)).system.dc.step p _).dataSram.mem _ = _
    have row : (h.step (asking p)).system.dc.dataSram.mem (ICache.index p.lineAddr) =
        h.system.dc.dataSram.mem (ICache.index p.lineAddr) := congrFun data _
    rw [DCache.Regs.step_data_mem, Function.update_self, row]
    cases load : p.readWriteN with
    | true =>
        have none : ∀ bus, (h.step (asking p)).system.dc.dataWrite p bus = 0 := by
          intro bus
          simp [DCache.Regs.dataWrite, DCache.Regs.stores, DCache.Regs.consumes, lookup, load]
        rw [none, writeWords_zero]
        rfl
    | false =>
        have store : (h.step (asking p)).system.dc.stores p = true := by
          simp [DCache.Regs.stores, serves, load]
        simp only [DCache.Regs.writeData, DCache.Regs.dataWrite, store, if_true]
        rfl

end

/-- A doubleword load sees a store into its doubleword. -/
theorem not_undisturbed {x y : EXMem} (store : Mem.storeOp x.op x.op3 = true)
    (doubleword : (requestOf y).loadType = 0b11)
    (meets : Meets (requestOf x) (requestOf y)) : ¬ Undisturbed x y := by
  intro undisturbed
  obtain ⟨line, select⟩ := meets
  have stores : (requestOf x).readWriteN = false := by simp [requestOf, Mem.readWriteN, store]
  -- every enabled byte of the row differs from what is stored there
  let row := ~~~ DCache.storeData (requestOf x)
  let start : Held :=
    { system := holding (requestOf x).lineAddr row, request := requestOf x }
  obtain ⟨quiet, performed, legal, idle, tags, rows⟩ :=
    hit_run (h := start) (p := requestOf x) rfl rfl rfl
  obtain ⟨quiet', performed', legal', -, -, -⟩ :=
    hit_run (h := start) (p := requestOf y) rfl rfl (congrArg ICache.tag line)
  obtain ⟨quiet'', performed'', legal'', -, -, -⟩ :=
    hit_run (p := requestOf y) idle rfl (by rw [tags]; exact congrArg ICache.tag line)
  have replies := undisturbed start.system start.request
    [asking (requestOf x), asking (requestOf x), asking (requestOf y), asking (requestOf y)]
    [asking (requestOf y), asking (requestOf y)] [] (coherent_holding _ _)
    ⟨legal.1, legal.2, legal''.1, legal''.2, trivial⟩ ⟨legal'.1, legal'.2, trivial⟩
    (by simp [Runs.emits_cons, start, quiet, performed, quiet'', performed''])
    (by simp [Runs.emits_cons, start, quiet', performed'])
  have same : DCache.loadData (requestOf y)
        (writeWords row (DCache.storeData (requestOf x)) 8 (DCache.storeEnable (requestOf x))) =
      DCache.loadData (requestOf y) row := by
    rw [← line, rows, stores] at performed''
    simp [Runs.emits_cons, start, quiet, performed, quiet'', performed'', quiet', performed']
      at replies
    exact replies
  obtain ⟨first, count, positive, fits, lanes⟩ := DCache.storeEnable_span (requestOf x)
  have bound := (requestOf x).wordSelect.isLt
  have enabled : (DCache.storeEnable (requestOf x)).getLsbD
      ((requestOf x).wordSelect.toNat * 8 + first) = true := by
    rw [lanes _ (by omega), decide_eq_true_iff]
    omega
  rw [DCache.loadData, DCache.loadData, if_pos doubleword, if_pos doubleword, ← select] at same
  have words := congrArg (fun v => word 8 (ICache.swapHalves v) first) same
  simp only [DCache.swapHalves_swapHalves] at words
  have bytes : word 8 (writeWords row (DCache.storeData (requestOf x)) 8
        (DCache.storeEnable (requestOf x))) ((requestOf x).wordSelect.toNat * 8 + first) =
      word 8 row ((requestOf x).wordSelect.toNat * 8 + first) := by
    have inside : first < 8 := by omega
    have split := fun line : BitVec 512 =>
      Words.word_word (show 64 = 8 * 8 from rfl) line (requestOf x).wordSelect.toNat inside
    rw [← split, ← split]
    exact words
  rw [word_writeWords (by decide) _ _ _ (by omega), if_pos enabled] at bytes
  have bit := congrArg (fun byte => byte.getLsbD 0) bytes
  have inside : ((requestOf x).wordSelect.toNat * 8 + first) * 8 < 512 := by omega
  simp only [Words.getLsbD_word, row, BitVec.getLsbD_not, Nat.add_zero] at bit
  simp [inside] at bit

theorem undisturbed_iff {x y : EXMem} (store : Mem.storeOp x.op x.op3 = true) :
    Undisturbed x y ↔
      ¬ ((requestOf y).loadType = 0b11 ∧ Meets (requestOf x) (requestOf y)) :=
  ⟨fun undisturbed both => not_undisturbed store both.1 both.2 undisturbed,
    undisturbed_of_apart⟩

/-! ### Addresses of the program -/

/-- `RAM_SIZE` of `main.cpp`. -/
def ramSize : Nat := 2 ^ 30

/-- The data address that Execute has computed. -/
def address (x : EXMem) : Nat := (x.alures.setWidth 32).toNat

/-- The bytes of a store and of a load. -/
def Stores (x : EXMem) (b : Nat) : Prop :=
  address x ≤ b ∧ b < address x + 2 ^ (Mem.storeT x.op3).toNat

def Loads (y : EXMem) (b : Nat) : Prop :=
  address y ≤ b ∧ b < address y + 2 ^ (Mem.loadT y.op3).toNat

/-- No byte is both stored and loaded. -/
def Disjoint (x y : EXMem) : Prop := ∀ b, ¬ (Stores x b ∧ Loads y b)

/-- The line of an address is asked for on the bus, for data and for an instruction. -/
def OneLine (x : EXMem) : Prop :=
  ∀ bus : BusResponse,
    (∀ dc : DCache.Regs, dc.requests bus = true →
      (dc.step (requestOf x) bus).bus.req =
        Ram.lineAddress (BitVec.ofNat 58 (address x / 64))) ∧
    ∀ (ic : ICache.Regs) (fetch : Fetch.Regs) (icAck : Bool), ic.requests bus = true →
      fetch.nPc.toNat = address x →
        (ic.step (fetch.request icAck) bus).bus.req =
          Ram.lineAddress (BitVec.ofNat 58 (address x / 64))

/-- What the addresses of a store and a load have to guarantee. -/
def NeverAlias (x y : EXMem) : Prop :=
  (Disjoint x y → Undisturbed x y) ∧ OneLine x ∧ OneLine y

theorem toNat_requestOf_lineAddr (x : EXMem) :
    (requestOf x).lineAddr.toNat = address x % 2 ^ 20 / 64 := by
  have line := Mem.toNat_lineAddr x.alures
  rw [address, BitVec.toNat_setWidth]
  change (Mem.lineAddr x.alures).toNat = _
  omega

theorem toNat_requestOf_wordSelect (x : EXMem) :
    (requestOf x).wordSelect.toNat = address x / 8 % 8 := by
  rw [address, BitVec.toNat_setWidth]
  change (x.alures.extractLsb' 3 3).toNat = _
  rw [BitVec.extractLsb'_toNat, Nat.shiftRight_eq_div_pow]
  omega

/-- Accesses meet in one doubleword modulo 2^20. -/
theorem meets_iff (x y : EXMem) :
    Meets (requestOf x) (requestOf y) ↔ address x % 2 ^ 20 / 8 = address y % 2 ^ 20 / 8 := by
  rw [Meets, ← BitVec.toNat_inj, ← BitVec.toNat_inj, toNat_requestOf_lineAddr,
    toNat_requestOf_lineAddr, toNat_requestOf_wordSelect, toNat_requestOf_wordSelect]
  omega

theorem loadType_requestOf (y : EXMem) :
    (requestOf y).loadType = 0b11 ↔ y.op3 = Op3.LDD := by
  change Mem.loadT y.op3 = 0b11 ↔ _
  rw [Mem.loadT]
  constructor
  · intro doubleword
    by_contra other
    rw [if_neg other] at doubleword
    split at doubleword
    · exact absurd doubleword (by decide)
    · split at doubleword
      · exact absurd doubleword (by decide)
      · split at doubleword <;> exact absurd doubleword (by decide)
  · intro doubleword
    rw [doubleword]
    decide

/-- The address bits that Mem drops are the ones that count. -/
theorem oneLine_iff {x : EXMem} (inside : address x < ramSize) :
    OneLine x ↔ address x < 2 ^ 20 := by
  have bound : address x / 64 < 2 ^ 58 := by
    have := show address x < 2 ^ 30 from inside
    omega
  constructor
  · intro one
    have asked := (one { reqack := false, respcyc := false, resp := 0, resptag := 0 }).1
      { DCache.reset with pState := .d } rfl
    have line : (requestOf x).lineAddr = BitVec.ofNat 58 (address x / 64) :=
      Ram.lineAddress_injective asked
    have value := congrArg BitVec.toNat line
    rw [toNat_requestOf_lineAddr, BitVec.toNat_ofNat, Nat.mod_eq_of_lt bound] at value
    omega
  · intro low bus
    refine ⟨fun dc asks => ?_, fun ic fetch icAck asks target => ?_⟩
    · have line : (requestOf x).lineAddr = BitVec.ofNat 58 (address x / 64) := by
        apply BitVec.eq_of_toNat_eq
        rw [toNat_requestOf_lineAddr, BitVec.toNat_ofNat, Nat.mod_eq_of_lt bound]
        omega
      have state : dc.pState = .d := by
        simp [DCache.Regs.requests] at asks
        exact asks.1
      change (dc.nBus (requestOf x) bus).req = _
      rw [DCache.Regs.nBus, if_neg (by rw [state]; decide), if_pos asks, ← line]
      rfl
    · have line : Fetch.lineAddr fetch.nPc = BitVec.ofNat 58 (address x / 64) := by
        apply BitVec.eq_of_toNat_eq
        rw [Fetch.toNat_lineAddr, target, BitVec.toNat_ofNat, Nat.mod_eq_of_lt bound]
        omega
      change (if ic.requests bus then _ else _) = _
      rw [if_pos asks, ← line]
      rfl

/-- An access at an address, in `EXMemReg`. -/
def accessAt (op3 : BitVec 6) (addr : BitVec 64) : EXMem :=
  { target := 0, muxSel := false, regD := 8, alures := addr, valD := 0x0123456789abcdef
    op := 0b11, op2 := 0b100, op3 := op3
    regWrite := false, regWriteDouble := false, icc := 0, iccWrite := false, y := 0
    yWrite := false }

/-- Data addresses do not alias exactly when they lie below 2^20 and an `LDD` does not
share its doubleword with a store before its first or behind its last byte. -/
theorem neverAlias_iff (x y : EXMem) (store : Mem.storeOp x.op x.op3 = true)
    (insideX : address x < ramSize) (insideY : address y < ramSize) :
    NeverAlias x y ↔
      address x < 2 ^ 20 ∧ address y < 2 ^ 20 ∧
        (y.op3 = Op3.LDD → Disjoint x y → address x / 8 ≠ address y / 8) := by
  rw [NeverAlias, oneLine_iff insideX, oneLine_iff insideY, undisturbed_iff store,
    loadType_requestOf, meets_iff]
  constructor
  · rintro ⟨apart, lowX, lowY⟩
    refine ⟨lowX, lowY, fun doubleword disjoint same => apart disjoint ⟨doubleword, ?_⟩⟩
    rw [Nat.mod_eq_of_lt lowX, Nat.mod_eq_of_lt lowY, same]
  · rintro ⟨lowX, lowY, apart⟩
    refine ⟨fun disjoint both => apart both.1 disjoint ?_, lowX, lowY⟩
    rw [← Nat.mod_eq_of_lt lowX, ← Nat.mod_eq_of_lt lowY, both.2]

/-- A store into the last word of the first 2^20 bytes and a load from the word before. -/
theorem neverAlias_last_words :
    NeverAlias (accessAt Op3.ST 0x000ffffc) (accessAt Op3.LD 0x000ffff8) :=
  (neverAlias_iff _ _ (by decide) (by decide) (by decide)).mpr
    ⟨by decide, by decide, fun doubleword => absurd doubleword (by decide)⟩

/-- A doubleword store at 2^20 changes what a doubleword load at 0 returns. -/
theorem not_neverAlias_far :
    ¬ ∀ x y : EXMem, Mem.storeOp x.op x.op3 = true → Mem.loadOp y.op y.op3 = true →
      address x < ramSize → address y < ramSize → NeverAlias x y := by
  intro never
  have disjoint : Disjoint (accessAt Op3.STD 0x00100000) (accessAt Op3.LDD 0) := by
    rintro b ⟨⟨above, -⟩, -, below⟩
    have high : 2 ^ 20 ≤ b := above
    have low : b < 8 := below
    omega
  exact not_undisturbed (by decide) (by decide) ⟨by decide, by decide⟩
    ((never (accessAt Op3.STD 0x00100000) (accessAt Op3.LDD 0) (by decide) (by decide) (by decide)
      (by decide)).1 disjoint)

end MemorySystem

end Sparcy
