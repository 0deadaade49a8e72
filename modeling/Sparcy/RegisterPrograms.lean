import Sparcy.MemoryLatency
import Sparcy.StoredProgram

/-!
# Programs without loads and stores

Such a program leaves Mem and Execute ready for good, so a word that waits in decode waits
for at most three cycles.  Together with the time that the instruction cache takes this
bounds the time of a word, and of a whole program until all of it is in the registers.
-/

namespace Sparcy

/-! ### What retires behind a word in decode -/

instance (x : IDEX) : Decidable x.Quiet :=
  decidable_of_iff
    (Execute.idle x = true ∧ x.fields.regWrite = false ∧ x.fields.regWriteDouble = false ∧
      x.fields.iccWrite = false ∧ x.fields.yWrite = false)
    ⟨fun ⟨idle, reg, double, icc, y⟩ => ⟨idle, reg, double, icc, y⟩,
      fun quiet => ⟨quiet.idle, quiet.regWrite, quiet.regWriteDouble, quiet.iccWrite,
        quiet.yWrite⟩⟩

instance (x : EXMem) : Decidable x.Quiet :=
  decidable_of_iff
    (Mem.accesses x = false ∧ x.regWrite = false ∧ x.regWriteDouble = false ∧
      x.iccWrite = false ∧ x.yWrite = false)
    ⟨fun ⟨accesses, reg, double, icc, y⟩ => ⟨accesses, reg, double, icc, y⟩,
      fun quiet => ⟨quiet.accesses, quiet.regWrite, quiet.regWriteDouble, quiet.iccWrite,
        quiet.yWrite⟩⟩

/-- Nothing in write-back. -/
structure MemWB.Quiet (x : MemWB) : Prop where
  regWrite : x.regWrite = false
  regWriteDouble : x.regWriteDouble = false
  iccWrite : x.iccWrite = false
  yWrite : x.yWrite = false

instance (x : MemWB) : Decidable x.Quiet :=
  decidable_of_iff
    (x.regWrite = false ∧ x.regWriteDouble = false ∧ x.iccWrite = false ∧ x.yWrite = false)
    ⟨fun ⟨reg, double, icc, y⟩ => ⟨reg, double, icc, y⟩,
      fun quiet => ⟨quiet.regWrite, quiet.regWriteDouble, quiet.iccWrite, quiet.yWrite⟩⟩

theorem MemWB.Quiet.out {x : MemWB} (quiet : x.Quiet) :
    (WB.out x).regEn = false ∧ (WB.out x).iccEn = false ∧ (WB.out x).yEn = false := by
  rw [WB.out]
  split
  · exact ⟨rfl, rfl, rfl⟩
  · exact ⟨quiet.regWrite, quiet.iccWrite, quiet.yWrite⟩

namespace Core

/-- No instruction in the pipeline loads or stores, and no stage holds one back for Mem. -/
structure Unstalled (s : Core) : Prop where
  ifid : s.ifid.inst.op ≠ 0b11
  held : s.decode.pState ≠ .a → s.decode.pInst.op ≠ 0b11
  idex : s.idex.fields.op ≠ 0b11
  exmem : s.exmem.op ≠ 0b11
  kept : s.execute.annulIn = false
  execute : s.execute.pState = .a
  mem : s.mem.pState = .a

/-- The cycles until Mem and write-back are empty, if nothing comes after. -/
def retiring (s : Core) : Nat :=
  if s.exmem.Quiet then (if s.memwb.Quiet then 0 else 1) else 2

/-- The cycles until decode is free. -/
def stall (s : Core) : Nat := if s.Decoding then 1 + s.retiring else 0

/-- The cycles until the pipeline is empty. -/
def occupancy (s : Core) : Nat :=
  if s.Decoding then 4 + s.retiring else if s.idex.Quiet then s.retiring else 3

theorem retiring_le (s : Core) : s.retiring ≤ 2 := by
  rw [retiring]
  split
  · split <;> omega
  · omega

theorem stall_le (s : Core) : s.stall ≤ 3 := by
  have retiring := s.retiring_le
  rw [stall]
  split <;> omega

theorem occupancy_le (s : Core) : s.occupancy ≤ 6 := by
  have retiring := s.retiring_le
  rw [occupancy]
  split
  · omega
  · split <;> omega

section

variable {s : Core} {syscall : Syscall} {events : DramEvents}

namespace Unstalled

theorem exReady (unstalled : s.Unstalled) : s.exReady = true := by
  rw [Core.exReady, Execute.Regs.exReady, unstalled.kept, unstalled.execute]
  rfl

theorem memReady (unstalled : s.Unstalled) : s.memReady = true := by
  rw [Core.memReady, Mem.Regs.memReady, unstalled.mem]
  rfl

theorem exOut (unstalled : s.Unstalled) : s.exOut = Execute.live s.idex s.syscallResult := by
  simp [Core.exOut, Execute.Regs.out, unstalled.kept, unstalled.execute]

theorem decoding (unstalled : s.Unstalled) : s.decoding.op ≠ 0b11 := by
  unfold Core.decoding Decode.Regs.nInst
  cases state : s.decode.pState with
  | a => exact unstalled.ifid
  | b => exact unstalled.held (by simp [state])
  | s => exact unstalled.held (by simp [state])

theorem decodeOut (unstalled : s.Unstalled) (copied : s.DecodeCopied) :
    s.decodeOut.fields.op ≠ 0b11 := by
  change (s.decode.outFields s.ifid s.hazards).op ≠ 0b11
  rw [Decode.Regs.outFields]
  split
  · exact unstalled.ifid
  · split
    · decide
    · rw [copied]
      exact unstalled.decoding

theorem accesses (unstalled : s.Unstalled) : Mem.accesses s.exmem = false :=
  Sequential.accesses_of_op unstalled.exmem

theorem step (unstalled : s.Unstalled) (copied : s.DecodeCopied)
    (word : s.fetch.out.inst.op ≠ 0b11)
    (kept : (s.step syscall events).execute.annulIn = false) :
    (s.step syscall events).Unstalled where
  ifid := by
    rw [step_ifid, IFID.step]
    split
    · exact word
    · exact unstalled.ifid
  held _ := unstalled.decoding
  idex := by
    rw [step_idex, unstalled.exReady]
    exact unstalled.decodeOut copied
  exmem := by
    rw [step_exmem, unstalled.memReady, unstalled.exOut]
    exact unstalled.idex
  kept := kept
  execute := by
    rw [step_execute, Execute.Regs.step_pState, Execute.Regs.nState, unstalled.execute,
      unstalled.memReady, Bool.or_true]
    rfl
  mem := by
    change s.mem.nState s.exmem s.dcAck = .a
    rw [Mem.Regs.nState, unstalled.mem, unstalled.accesses]
    rfl

end Unstalled

/-- `EXMemReg` moves on to write-back. -/
theorem Unstalled.memwb_step (unstalled : s.Unstalled) (quiet : s.exmem.Quiet) :
    (s.step syscall events).memwb.Quiet := by
  have passes : s.mem.passes s.exmem s.dcAck = true := by
    rw [Mem.Regs.passes, unstalled.mem, unstalled.accesses]
    rfl
  rw [step_memwb, memOut, Mem.Regs.out, passes, unstalled.mem]
  exact ⟨quiet.regWrite, quiet.regWriteDouble, quiet.iccWrite, quiet.yWrite⟩

/-- With nothing in Execute one stage after the other becomes empty. -/
theorem Unstalled.retiring_step (unstalled : s.Unstalled) (quiet : s.idex.Quiet) :
    (s.step syscall events).retiring ≤ s.retiring - 1 := by
  have handed : (s.step syscall events).exmem.Quiet := by
    rw [step_exmem, unstalled.memReady, unstalled.exOut]
    exact live_quiet quiet s.syscallResult
  rw [retiring, retiring, if_pos handed]
  by_cases empty : s.exmem.Quiet
  · rw [if_pos (unstalled.memwb_step empty)]
    exact Nat.zero_le _
  · rw [if_neg empty]
    split <;> omega

/-- Without a writer in front of it a word does not wait. -/
theorem Unstalled.not_stalls (unstalled : s.Unstalled) (quiet : s.idex.Quiet)
    (none : s.retiring = 0) (inst : Inst) : Decode.stalls inst s.hazards = false := by
  have empty : s.exmem.Quiet ∧ s.memwb.Quiet := by
    rw [retiring] at none
    split at none
    · split at none
      · exact ⟨‹_›, ‹_›⟩
      · omega
    · omega
  have ex : s.hazards.ex.Silent := by
    change (s.execute.hazard s.idex).Silent
    rw [Execute.Regs.hazard, unstalled.kept, unstalled.execute]
    exact ⟨quiet.regWrite, quiet.regWriteDouble, quiet.iccWrite, quiet.yWrite⟩
  have mem : s.hazards.mem.Silent := by
    change (s.mem.hazard s.exmem).Silent
    rw [Mem.Regs.hazard, unstalled.mem]
    exact ⟨empty.1.regWrite, empty.1.regWriteDouble, empty.1.iccWrite, empty.1.yWrite⟩
  have wb : s.hazards.wb.Silent := by
    obtain ⟨reg, icc, -⟩ := empty.2.out
    exact ⟨reg, empty.2.regWriteDouble, icc, rfl⟩
  rw [Decode.stalls_eq_conflicts, Decode.conflicts_of_silent inst ex,
    Decode.conflicts_of_silent inst mem, Decode.conflicts_of_silent inst wb]
  rfl

/-- While a word is under decode none arrives. -/
theorem FrontSpaced.ifid_step (front : s.FrontSpaced) (decoding : s.Decoding) :
    (s.step syscall events).ifid.inst = Inst.nop := by
  by_contra word
  obtain ⟨free, shown, other⟩ := front.arrives word
  rcases decoding with busy | present
  · exact busy free
  · exact present (front.fetched shown other).2

theorem Unstalled.decoding_step (unstalled : s.Unstalled) (spaced : s.Spaced)
    (decoding : s.Decoding) (still : (s.step syscall events).Decoding) : 0 < s.retiring := by
  by_contra none
  have quiet := spaced.back.behindDecode decoding
  have free := unstalled.not_stalls quiet (Nat.eq_zero_of_not_pos none)
  have leaves : (s.step syscall events).decode.pState = .a := by
    have waits : s.decode.waits s.ifid s.hazards = false := by
      unfold Decode.Regs.waits
      cases s.decode.pState with
      | a => simp [free]
      | b => rfl
      | s => simp [free]
    change s.decode.nState s.ifid s.hazards s.exReady = .a
    rw [Decode.Regs.nState, waits, unstalled.exReady]
    split <;> rfl
  rcases still with busy | present
  · exact busy leaves
  · exact present (spaced.front.ifid_step decoding)

/-- Nothing comes under decode unless fetch shows it. -/
theorem not_decoding_step (free : ¬ s.Decoding) (shown : s.fetch.out.inst = Inst.nop) :
    ¬ (s.step syscall events).Decoding := by
  simp only [Decoding, not_or, not_not] at free ⊢
  refine ⟨decode_free_of_nop free.1 free.2 syscall events, ?_⟩
  rw [step_ifid, IFID.step]
  split
  · exact shown
  · exact free.2

theorem Unstalled.stall_step (unstalled : s.Unstalled) (spaced : s.Spaced)
    (shown : s.fetch.out.inst = Inst.nop) :
    (s.step syscall events).stall ≤ s.stall - 1 := by
  by_cases decoding : s.Decoding
  · have nearer : (s.step syscall events).retiring ≤ s.retiring - 1 :=
      unstalled.retiring_step (spaced.back.behindDecode decoding)
    rw [stall, stall, if_pos decoding]
    by_cases still : (s.step syscall events).Decoding
    · have more := unstalled.decoding_step spaced decoding still
      rw [if_pos still]
      omega
    · rw [if_neg still]
      exact Nat.zero_le _
  · have free : ¬ (s.step syscall events).Decoding := not_decoding_step decoding shown
    rw [stall, if_neg free]
    exact Nat.zero_le _

theorem Unstalled.occupancy_step (unstalled : s.Unstalled) (spaced : s.Spaced)
    (shown : s.fetch.out.inst = Inst.nop) :
    (s.step syscall events).occupancy ≤ s.occupancy - 1 := by
  have later : (s.step syscall events).retiring ≤ 2 := retiring_le _
  by_cases decoding : s.Decoding
  · have nearer : (s.step syscall events).retiring ≤ s.retiring - 1 :=
      unstalled.retiring_step (spaced.back.behindDecode decoding)
    rw [occupancy, occupancy, if_pos decoding]
    by_cases still : (s.step syscall events).Decoding
    · have more := unstalled.decoding_step spaced decoding still
      rw [if_pos still]
      omega
    · rw [if_neg still]
      split <;> omega
  · have free : ¬ (s.step syscall events).Decoding := not_decoding_step decoding shown
    have quiet : (s.step syscall events).idex.Quiet :=
      spaced.back.quiet_step decoding syscall events
    rw [occupancy, occupancy, if_neg decoding, if_neg free, if_pos quiet]
    by_cases empty : s.idex.Quiet
    · rw [if_pos empty]
      exact unstalled.retiring_step empty
    · rw [if_neg empty]
      omega

theorem Unstalled.drained (unstalled : s.Unstalled) (none : s.occupancy = 0) : s.Drained := by
  rw [occupancy] at none
  split at none
  · omega
  · rename_i free
    simp only [Decoding, not_or, not_not] at free
    split at none
    · rename_i quiet
      rw [retiring] at none
      split at none
      · rename_i empty
        split at none
        · rename_i written
          refine ⟨free.1, by rw [free.2]; decide, ?_, empty, unstalled.mem, written.out⟩
          rw [inExecute, unstalled.execute]
          exact live_quiet quiet s.syscallResult
        · omega
      · omega
    · omega

end

end Core

/-! ### The instruction cache alone -/

namespace CacheReads

open MemorySystem (Inputs)

/-- While the data cache is idle only the reads of the instruction cache are pending, so none
of them is lost. -/
theorem Live.free {t : CacheReads} {inputs : Inputs} (live : t.Live)
    (idle : t.ports.system.dc.pState = .a) : t.ports.contended inputs = false := by
  have off : (t.ports.step inputs).system.dc.pReqcyc = false := DCache.Regs.step_off (.inl idle)
  have none : t.ports.system.sys.readsFor DCache.readTag = [] := by
    have waits := live.accounts.dc
    rw [MemorySystem.dcPhase, if_neg (by simp [idle]), if_neg (by simp [idle])] at waits
    exact waits.2
  have own : ∀ {addr : BitVec 64} {tag : BitVec 13},
      t.ports.system.sys.findTag addr = some tag → tag = ICache.readTag := by
    intro addr tag found
    have pending := System.mem_readsFor_of_findTag found
    obtain ⟨entry, member, -⟩ := List.mem_map.mp pending
    obtain ⟨listed, same⟩ := List.mem_filter.mp member
    rcases live.known.reads entry listed with ic | dc
    · rw [← ic]
      exact (eq_of_beq same).symm
    · rw [eq_of_beq same] at dc
      rw [dc, none] at pending
      cases pending
  rw [CachePorts.contended]
  rcases CachePorts.bus_cases (t.ports.step inputs).system with silent | ⟨-, on, word⟩ | ⟨-, on, -⟩
  · simp [silent]
  · have port := ICache.Regs.port_step t.ports.system.ic inputs.ic
      (t.ports.system.icResponse inputs.events)
    have tag : (t.ports.step inputs).system.bus.reqtag = ICache.readTag := by
      rw [word]
      exact congrArg BusRequest.reqtag (port on).2
    have same : (t.ports.system.sys.findTag (t.ports.step inputs).system.bus.req).any
        (fun other => other != (t.ports.step inputs).system.bus.reqtag) = false := by
      cases found : t.ports.system.sys.findTag (t.ports.step inputs).system.bus.req with
      | none => rfl
      | some other => simp [own found, tag]
    simp [same]
  · rw [off] at on
    cases on

end CacheReads

/-! ### The time of a word -/

/-- No word of the program loads or stores. -/
def StoredProgram.Register (p : StoredProgram) : Prop := ∀ k < p.count, (p.word k).op ≠ 0b11

instance (p : StoredProgram) : Decidable p.Register :=
  inferInstanceAs (Decidable (∀ k < p.count, (p.word k).op ≠ 0b11))

namespace StoredProgram

/-- The word before is not in the same line. -/
def newLine (p : StoredProgram) (k : Nat) : Bool := k == 0 || p.line k != p.line (k - 1)

/-- The cycles of a word: three in fetch, three behind the writers of its operands and one
or, with a new line, 32 in the cache. -/
def wordCycles (p : StoredProgram) (k : Nat) : Nat := 6 + if p.newLine k then 32 else 1

/-- The cycles of the first words. -/
def cycles (p : StoredProgram) : Nat → Nat
  | 0 => 0
  | k + 1 => p.cycles k + p.wordCycles k

theorem cycles_mono (p : StoredProgram) {k n : Nat} (before : k ≤ n) : p.cycles k ≤ p.cycles n := by
  induction n, before using Nat.le_induction with
  | base => exact Nat.le_refl _
  | succ n before induction => exact induction.trans (Nat.le_add_right _ _)

end StoredProgram

namespace Core

/-- Fetch is in the program, and no key is pressed. -/
def Undisturbed (p : StoredProgram) (s : Core) (events : DramEvents) : Prop :=
  s.StaysIn p events ∧ events.key = false

instance (p : StoredProgram) (s : Core) (events : DramEvents) :
    Decidable (s.Undisturbed p events) := inferInstanceAs (Decidable (_ ∧ _))

/-- The memory refuses the fetch in this cycle, or has not completed it. -/
def kept (s : Core) (events : DramEvents) : Bool := s.memory.icKept events

end Core

namespace CodeRun

/-- The cycles until the instruction cache answers fetch. -/
def cacheLeft (r : CodeRun) : Nat :=
  if r.core.icAck then 0
  else if r.core.memory.ic.pState = .a then 33 else r.core.memory.icLeft r.ic

/-- The cycles until fetch shows its word, without those in which the memory keeps it
waiting. -/
def left (r : CodeRun) : Nat :=
  match r.core.fetch.pState with
  | .a => 1
  | .b => 3 + r.core.stall + r.cacheLeft
  | .c => 2 + r.core.stall
  | .s => 0

/-- The invariant of a program without loads and stores.  Once fetch has its word, the
instruction cache has the line of it. -/
structure Direct (p : StoredProgram) (regFile : RegFile) (r : CodeRun) : Prop where
  sound : r.Sound p regFile
  unstalled : r.core.Unstalled
  live : ∃ t : CacheReads, t.ports = r.path.ports ∧ t.Live
  warm : (r.core.fetch.pState = .b → r.core.icAck = true) →
    r.core.memory.ic.tagSram.mem (ICache.index (p.line r.count)) = ICache.tag (p.line r.count)

section

variable {p : StoredProgram} {regFile : RegFile} {r : CodeRun} {syscall : Syscall}
  {events : DramEvents}

theorem shows_nop (other : r.core.fetch.pState ≠ .a) : r.core.fetch.out.inst = Inst.nop := by
  cases state : r.core.fetch.pState with
  | a => exact absurd state other
  | b => simp only [Fetch.Regs.out, state]
  | c => simp only [Fetch.Regs.out, state]
  | s => simp only [Fetch.Regs.out, state]

theorem Sound.shows_word (sound : r.Sound p regFile) (state : r.core.fetch.pState = .a) :
    r.core.fetch.out.inst = p.word r.count := by
  simp only [Fetch.Regs.out, state]
  exact sound.fetch.word (by simp [state])

/-- What the caches receive. -/
def cacheInputs (r : CodeRun) (events : DramEvents) : MemorySystem.Inputs :=
  { ic := r.core.icRequest, dc := r.core.dcRequest, events := events }

theorem Direct.keyless (direct : r.Direct p regFile) (runnable : p.Runnable regFile)
    (calm : r.core.Undisturbed p events) {t : CacheReads} (ports : t.ports = r.path.ports)
    (live : t.Live) : t.Keyless (r.cacheInputs events) := by
  obtain ⟨outstanding, tracks⟩ := direct.sound.path
  have idle : t.ports.system.dc.pState = .a := by
    rw [ports]
    exact (direct.sound.journal.cleared.spaced.mem.cacheIdle direct.unstalled.mem).1
  refine ⟨⟨?_, live.free idle⟩, calm.2⟩
  rw [ports]
  exact FetchPath.ports_legal tracks.link (direct.sound.legal runnable calm.1)

/-- The request of fetch stays until it is acknowledged. -/
theorem Direct.held (direct : r.Direct p regFile) (runnable : p.Runnable regFile)
    (calm : r.core.Undisturbed p events) (busy : r.core.memory.ic.pState ≠ .a) :
    r.core.icRequest = r.ic := by
  obtain ⟨t, ports, live⟩ := direct.live
  have same := (direct.keyless runnable calm ports live).legal.ports.icHeld
  rw [ports] at same
  exact same busy

/-- Outside a refill the tags of the instruction cache stay as they are. -/
theorem tags_step (still : r.core.memory.ic.pState = .a ∨ r.core.memory.ic.pState = .b) :
    (r.step syscall events).core.memory.ic.tagSram.mem = r.core.memory.ic.tagSram.mem := by
  change (r.core.memory.ic.step r.core.icRequest (r.core.memory.icResponse events)).tagSram.mem = _
  have none : r.core.memory.ic.requests (r.core.memory.icResponse events) = false := by
    rcases still with state | state <;> simp [ICache.Regs.requests, state]
  rw [ICache.Regs.step_tag_mem, none]
  rfl

theorem Direct.warm_step (direct : r.Direct p regFile) (runnable : p.Runnable regFile)
    (calm : r.core.Undisturbed p events)
    (answered : (r.step syscall events).core.fetch.pState = .b →
      (r.step syscall events).core.icAck = true) :
    (r.step syscall events).core.memory.ic.tagSram.mem
        (ICache.index (p.line (r.step syscall events).count)) =
      ICache.tag (p.line (r.step syscall events).count) := by
  have front := direct.sound.journal.cleared.spaced.front
  have acked : (r.step syscall events).core.icAck = r.core.memory.ic.nAck r.core.icRequest := rfl
  have count : (r.step syscall events).count =
    if r.core.fetch.pState = .a then r.count + 1 else r.count := rfl
  have next : (r.step syscall events).core.fetch.pState =
      r.core.fetch.nState r.core.icAck r.core.idReady := rfl
  by_cases fresh : r.core.fetch.pState = .b ∧ r.core.icAck = false
  · -- the cache has just found the line
    have waits : (r.step syscall events).core.fetch.pState = .b := by
      rw [next]
      simp [Fetch.Regs.nState, fresh.1, fresh.2]
    have hit := acked.symm.trans (answered waits)
    simp only [ICache.Regs.nAck, ICache.Regs.hit, Bool.and_eq_true, beq_iff_eq] at hit
    obtain ⟨outstanding, tracks⟩ := direct.sound.path
    have loaded := tracks.serving.holds.lookup hit.1
    have held := direct.held runnable calm (by simp [hit.1])
    have line : r.core.icRequest.lineAddr = _ := direct.sound.fetch.request r.core.icAck
    rw [fresh.1, if_neg (by decide)] at line
    rw [tags_step (.inr hit.1), count, fresh.1, if_neg (by decide), ← line, ← hit.2, held]
    exact loaded.tag.symm
  · have idle : r.core.memory.ic.pState = .a := by
      by_cases state : r.core.fetch.pState = .b
      · exact front.cacheAck (by
          by_contra silent
          exact fresh ⟨state, eq_false_of_ne_true silent⟩)
      · exact (front.cacheIdle state).1
    have other : r.core.fetch.pState ≠ .a := by
      intro state
      have waits : (r.step syscall events).core.fetch.pState = .b := by
        rw [next]
        simp [Fetch.Regs.nState, state, direct.sound.fetch.not_repeats state]
      have hit := acked.symm.trans (answered waits)
      simp [ICache.Regs.nAck, idle] at hit
    rw [tags_step (.inl idle), count, if_neg other]
    refine direct.warm fun state => ?_
    by_contra silent
    exact fresh ⟨state, eq_false_of_ne_true silent⟩

theorem Direct.step (direct : r.Direct p regFile) (runnable : p.Runnable regFile)
    (register : p.Register) (calm : r.core.Undisturbed p events) :
    (r.step syscall events).Direct p regFile := by
  have sound : (r.step syscall events).Sound p regFile := direct.sound.step runnable calm.1
  refine ⟨sound, ?_, ?_, direct.warm_step runnable calm⟩
  · refine direct.unstalled.step direct.sound.journal.cleared.spaced.decoded ?_
      sound.journal.calm.kept
    by_cases state : r.core.fetch.pState = .a
    · rw [direct.sound.shows_word state]
      exact register _ direct.sound.fetch.inside
    · rw [shows_nop state]
      decide
  · obtain ⟨t, ports, live⟩ := direct.live
    refine ⟨t.step (r.cacheInputs events), ?_, live.step (direct.keyless runnable calm ports live)⟩
    have later : (r.step syscall events).path = r.path.step (r.input events) :=
      direct.sound.path_step
    rw [later]
    exact congrArg (fun ports : CachePorts => ports.step (r.cacheInputs events)) ports

theorem Direct.cacheLeft_le (direct : r.Direct p regFile) : r.cacheLeft ≤ 33 := by
  obtain ⟨t, ports, live⟩ := direct.live
  have bound := CacheReads.icLeft_le live
  rw [ports] at bound
  change r.core.memory.icLeft r.ic ≤ 32 at bound
  rw [cacheLeft]
  split
  · omega
  · split <;> omega

theorem Direct.left_le (direct : r.Direct p regFile) : r.left ≤ 39 := by
  have stall := r.core.stall_le
  have cache := direct.cacheLeft_le
  rw [left]
  split <;> omega

theorem left_of_a (state : r.core.fetch.pState = .a) : r.left = 1 := by rw [left, state]

theorem left_of_b (state : r.core.fetch.pState = .b) :
    r.left = 3 + r.core.stall + r.cacheLeft := by rw [left, state]

theorem left_of_c (state : r.core.fetch.pState = .c) : r.left = 2 + r.core.stall := by
  rw [left, state]

/-- With its word fetch goes on when decode is ready, and waits for it in `STATEC`. -/
theorem left_of_taken (next : (r.step syscall events).core.fetch.pState =
    if r.core.idReady then .a else .c) :
    (r.step syscall events).left ≤
      if r.core.idReady then 1 else 2 + (r.step syscall events).core.stall := by
  cases ready : r.core.idReady with
  | true =>
      rw [ready, if_pos rfl] at next
      rw [left_of_a next, if_pos rfl]
  | false =>
      rw [ready, if_neg (by decide)] at next
      rw [left_of_c next, if_neg (by decide)]

theorem stall_pos (waits : r.core.idReady = false) : 0 < r.core.stall := by
  have decoding : r.core.Decoding := by
    left
    intro free
    simp [Core.idReady, Decode.Regs.idReady, free] at waits
  rw [Core.stall, if_pos decoding]
  omega

variable (syscall) in
/-- While fetch waits for the cache, it is the cache that comes nearer. -/
theorem Direct.cache_step (direct : r.Direct p regFile) (runnable : p.Runnable regFile)
    (register : p.Register) (calm : r.core.Undisturbed p events)
    (state : r.core.fetch.pState = .b) (silent : r.core.icAck = false) :
    (r.step syscall events).cacheLeft + 1 ≤ r.cacheLeft + (r.core.kept events).toNat := by
  have next : (r.step syscall events).Direct p regFile := direct.step runnable register calm
  have before : r.cacheLeft =
      if r.core.memory.ic.pState = .a then 33 else r.core.memory.icLeft r.ic := by
    rw [cacheLeft, silent, if_neg (by decide)]
  have stepped : (r.step syscall events).core.memory.ic =
      r.core.memory.ic.step r.core.icRequest (r.core.memory.icResponse events) := rfl
  by_cases idle : r.core.memory.ic.pState = .a
  · -- the cache sees the request for the first time
    have asks : r.core.icRequest.req = true := by
      obtain ⟨outstanding, tracks⟩ := direct.sound.path
      have waits := FetchPath.req_of_waiting (s := r.path) state silent
      cases tracks.link with
      | free ready => exact absurd state ready
      | raised _ _ _ on => exact waits.trans on
      | waiting _ busy => exact absurd idle busy
      | answered _ _ acknowledged => exact absurd (silent.symm.trans acknowledged) (by decide)
    have busy : (r.step syscall events).core.memory.ic.pState = .b := by
      rw [stepped]
      change r.core.memory.ic.nState _ _ = .b
      simp [ICache.Regs.nState, idle, asks]
    have quiet : (r.step syscall events).core.icAck = false := by
      change (r.step syscall events).core.memory.ic.pAck = false
      rw [stepped]
      change r.core.memory.ic.nAck _ = false
      simp [ICache.Regs.nAck, idle]
    obtain ⟨t, ports, live⟩ := next.live
    have bound := CacheReads.icLeft_le live
    rw [ports] at bound
    change (r.step syscall events).core.memory.icLeft (r.step syscall events).ic ≤ 32 at bound
    rw [before, if_pos idle, cacheLeft, quiet, if_neg (by decide), if_neg (by simp [busy])]
    omega
  · rw [before, if_neg idle]
    obtain ⟨t, ports, live⟩ := direct.live
    have keyless := direct.keyless runnable calm ports live
    have held := direct.held runnable calm idle
    cases answered : (r.step syscall events).core.icAck with
    | true =>
        have hit : r.core.memory.ic.nAck r.core.icRequest = true := answered
        simp only [ICache.Regs.nAck, Bool.and_eq_true, beq_iff_eq] at hit
        have one : r.core.memory.icLeft r.ic = 1 := by
          rw [MemorySystem.icLeft, hit.1, ← held, if_pos hit.2]
        rw [cacheLeft, answered, if_pos rfl, one]
        omega
    | false =>
        have busy : (r.step syscall events).core.memory.ic.pState ≠ .a := by
          intro done
          have both := (FetchPath.ic_idle_iff idle r.core.icRequest
            (r.core.memory.icResponse events)).1.mp done
          exact absurd (answered.symm.trans both) (by decide)
        have nearer := live.icLeft_step keyless (by rw [ports]; exact idle) (by
          change (t.ports.step _).system.ic.pState ≠ .a
          rw [ports]
          exact busy)
        rw [cacheLeft, answered, if_neg (by decide), if_neg busy]
        change (t.ports.step (r.cacheInputs events)).system.icLeft _ + 1 ≤ _ at nearer
        have later : (r.step syscall events).path = r.path.step (r.input events) :=
          direct.sound.path_step
        rw [ports] at nearer
        change (r.step syscall events).path.ports.system.icLeft
          (r.step syscall events).path.ports.ic + 1 ≤ _
        rw [later]
        exact nearer

/-- Unless the memory keeps it waiting, each cycle brings fetch nearer to its word. -/
theorem Direct.left_step (direct : r.Direct p regFile) (runnable : p.Runnable regFile)
    (register : p.Register) (calm : r.core.Undisturbed p events)
    (busy : r.core.fetch.pState ≠ .a) :
    (r.step syscall events).left + 1 ≤ r.left + (r.core.kept events).toNat := by
  have stall : (r.step syscall events).core.stall ≤ r.core.stall - 1 :=
    direct.unstalled.stall_step direct.sound.journal.cleared.spaced (shows_nop busy)
  have still := direct.sound.fetch.transfer.1
  cases state : r.core.fetch.pState with
  | a => exact absurd state busy
  | s => exact absurd state direct.sound.fetch.running
  | c =>
      have taken : (r.step syscall events).left ≤ _ := left_of_taken (by
        change r.core.fetch.nState r.core.icAck r.core.idReady = _
        simp [Fetch.Regs.nState, state, still])
      rw [left_of_c state]
      cases ready : r.core.idReady with
      | true =>
          rw [ready, if_pos rfl] at taken
          omega
      | false =>
          have waits := stall_pos ready
          rw [ready, if_neg (by decide)] at taken
          omega
  | b =>
      rw [left_of_b state]
      cases ack : r.core.icAck with
      | true =>
          have taken : (r.step syscall events).left ≤ _ := left_of_taken (by
            change r.core.fetch.nState r.core.icAck r.core.idReady = _
            simp [Fetch.Regs.nState, state, still, ack])
          cases ready : r.core.idReady with
          | true =>
              rw [ready, if_pos rfl] at taken
              omega
          | false =>
              rw [ready, if_neg (by decide)] at taken
              omega
      | false =>
          have next : (r.step syscall events).core.fetch.pState = .b := by
            change r.core.fetch.nState r.core.icAck r.core.idReady = .b
            simp [Fetch.Regs.nState, state, ack]
          have cache := direct.cache_step syscall runnable register calm state ack
          rw [left_of_b next]
          omega

/-! ### Runs -/

theorem direct_start (syscall : Syscall) {p : StoredProgram} {regFile : RegFile}
    (runnable : p.Runnable regFile) : (start syscall p regFile).Direct p regFile where
  sound := sound_start syscall runnable
  unstalled := by
    refine ⟨?_, fun busy => absurd ?_ busy, ?_, ?_, rfl, rfl, rfl⟩
    · change Inst.nop.op ≠ 0b11
      decide
    · exact Core.start_decode syscall p.entry regFile p.ram
    · rw [show (start syscall p regFile).core.idex.fields = _ from
        Core.start_idex syscall p.entry regFile p.ram]
      decide
    · change (0 : BitVec 2) ≠ 0b11
      decide
  live := by
    let inputs : MemorySystem.Inputs :=
      { ic := { (FetchPath.reset p.entry p.ram).icRequest with req := false }
        dc := Mem.reset.request EXMem.reset false, events := .completing [] }
    have live := CacheReads.live_start p.ram
    have keyless : (CacheReads.start p.ram).Keyless inputs := by
      refine ⟨⟨⟨MemorySystem.allowed_completing _, fun busy => absurd rfl busy,
        fun busy => absurd rfl busy⟩, live.free rfl⟩, rfl⟩
    refine ⟨(CacheReads.start p.ram).step inputs, ?_, live.step keyless⟩
    rw [show (start syscall p regFile).path = FetchPath.start p.entry p.ram from
      FetchPath.ofCore_start syscall p.entry regFile p.ram]
    rfl
  warm answered := by
    have waits := Core.start_fetching syscall p.entry regFile p.ram
    have silent : (start syscall p regFile).core.icAck = false := rfl
    exact absurd (silent.symm.trans (answered waits)) (by decide)

theorem count_core (marks : Core → DramEvents → Bool) (r : CodeRun) (inputs : List DramEvents) :
    Runs.count (step syscall) (fun r events => marks r.core events) r inputs =
      Runs.count (Core.step syscall) marks r.core inputs := by
  induction inputs generalizing r with
  | nil => rfl
  | cons events inputs induction => exact congrArg _ (induction (r.step syscall events))

/-- The cycles that are not counted, over a run from the start. -/
theorem count_start (syscall : Syscall) (p : StoredProgram) (regFile : RegFile)
    (inputs : List DramEvents) :
    Runs.count (step syscall) (fun r events => r.core.kept events) (start syscall p regFile)
        inputs =
      Runs.count (Core.step syscall) Core.kept (Core.start syscall p.entry regFile p.ram)
        inputs :=
  count_core Core.kept _ inputs

theorem count_le_step (r : CodeRun) : r.count ≤ (r.step syscall events).count := by
  change r.count ≤ if r.core.fetch.pState = .a then r.count + 1 else r.count
  split <;> omega

/-- When fetch shows its word the cache has the next one, unless a new line begins. -/
theorem Direct.next_left (direct : r.Direct p regFile) (state : r.core.fetch.pState = .a) :
    (r.step syscall events).left ≤ p.wordCycles (r.count + 1) := by
  have stall := (r.step syscall events).core.stall_le
  have next : (r.step syscall events).core.fetch.pState = .b := by
    change r.core.fetch.nState r.core.icAck r.core.idReady = .b
    simp [Fetch.Regs.nState, state, direct.sound.fetch.not_repeats state]
  have idle := (direct.sound.journal.cleared.spaced.front.cacheIdle (by
    change r.core.fetch.pState ≠ .b
    simp [state])).1
  have line : r.core.icRequest.lineAddr = _ := direct.sound.fetch.request r.core.icAck
  rw [state, if_pos rfl] at line
  have silent : (r.step syscall events).core.icAck = false := by
    change r.core.memory.ic.nAck r.core.icRequest = false
    rw [ICache.Regs.nAck, show r.core.memory.ic.pState = .a from idle]
    rfl
  have looks : (r.step syscall events).core.memory.ic.pState = .b := by
    have asks : r.core.icRequest.req = true := by
      have quiet : r.core.icAck = false :=
        (direct.sound.journal.cleared.spaced.front.cacheIdle (by
          change r.core.fetch.pState ≠ .b
          simp [state])).2
      simp [Core.icRequest, Fetch.Regs.request, Fetch.Regs.icReq, Fetch.Regs.nIcReq, quiet, state,
        direct.sound.fetch.not_repeats state]
    change r.core.memory.ic.nState r.core.icRequest _ = .b
    rw [ICache.Regs.nState, show r.core.memory.ic.pState = .a from idle, asks]
    rfl
  have cache : (r.step syscall events).cacheLeft =
      if (r.step syscall events).core.memory.ic.hit r.core.icRequest then 1 else 32 := by
    rw [cacheLeft, silent, if_neg (by decide), if_neg (by simp [looks]), MemorySystem.icLeft, looks]
    rfl
  rw [left_of_b next, cache, StoredProgram.wordCycles]
  cases fresh : p.newLine (r.count + 1) with
  | true =>
      rw [if_pos rfl]
      split <;> omega
  | false =>
      have same : p.line (r.count + 1) = p.line r.count := by
        simpa [StoredProgram.newLine] using fresh
      have warm := direct.warm fun waits => by
        rw [state] at waits
        cases waits
      have found : (r.step syscall events).core.memory.ic.hit r.core.icRequest = true := by
        rw [← same, ← line] at warm
        exact beq_iff_eq.mpr warm
      rw [found, if_pos rfl, if_neg (by decide)]
      omega

/-- The cycles until `n` words have been handed over. -/
def wordsLeft (p : StoredProgram) (n : Nat) (r : CodeRun) : Nat :=
  if r.count < n then p.cycles n - p.cycles (r.count + 1) + r.left else 0

variable (syscall events) in
theorem Direct.wordsLeft_step {n : Nat} (direct : r.Direct p regFile)
    (runnable : p.Runnable regFile) (register : p.Register)
    (calm : r.core.Undisturbed p events) (before : r.count < n) :
    (r.step syscall events).wordsLeft p n + 1 ≤ r.wordsLeft p n + (r.core.kept events).toNat := by
  have count : (r.step syscall events).count =
    if r.core.fetch.pState = .a then r.count + 1 else r.count := rfl
  rw [wordsLeft, wordsLeft, count, if_pos before]
  by_cases state : r.core.fetch.pState = .a
  · rw [if_pos state, left_of_a state]
    by_cases more : r.count + 1 < n
    · have word : (r.step syscall events).left ≤ _ := direct.next_left state
      have later : p.cycles (r.count + 1 + 1) ≤ p.cycles n := p.cycles_mono more
      have unfolded : p.cycles (r.count + 1 + 1) =
          p.cycles (r.count + 1) + p.wordCycles (r.count + 1) := rfl
      rw [if_pos more]
      omega
    · rw [if_neg more]
      omega
  · have nearer : (r.step syscall events).left + 1 ≤ _ :=
      direct.left_step runnable register calm state
    rw [if_neg state, if_pos before]
    omega

/-- At the start all words are to come. -/
theorem wordsLeft_start (syscall : Syscall) (runnable : p.Runnable regFile) (n : Nat) :
    (start syscall p regFile).wordsLeft p n ≤ p.cycles n + 1 := by
  have left := (direct_start syscall runnable).left_le
  have zero : (start syscall p regFile).count = 0 := rfl
  rw [wordsLeft, zero]
  split
  · rename_i some
    have first : p.cycles (0 + 1) ≤ p.cycles n := p.cycles_mono some
    have unfolded : p.cycles (0 + 1) = 38 := rfl
    omega
  · exact Nat.zero_le _

/-! ### A program to its end -/

/-- The first words have been handed over, and nothing is in the pipeline. -/
def Finished (n : Nat) (r : CodeRun) : Prop := n ≤ r.count ∧ r.core.occupancy = 0

/-- The cycles until the first words are finished, if only no-ops follow. -/
def programLeft (p : StoredProgram) (n : Nat) (r : CodeRun) : Nat :=
  r.wordsLeft p n + if r.count < n then 6 else r.core.occupancy

/-- Behind the program fetch shows no-ops. -/
theorem Sound.shows_nop_behind {n : Nat} (sound : r.Sound p regFile)
    (trailing : ∀ k, n ≤ k → k < p.count → p.word k = Inst.nop) (behind : n ≤ r.count) :
    r.core.fetch.out.inst = Inst.nop := by
  by_cases state : r.core.fetch.pState = .a
  · rw [sound.shows_word state]
    exact trailing _ behind sound.fetch.inside
  · exact shows_nop state

variable (syscall events) in
theorem Direct.empties {n : Nat} (direct : r.Direct p regFile)
    (trailing : ∀ k, n ≤ k → k < p.count → p.word k = Inst.nop) (behind : n ≤ r.count) :
    n ≤ (r.step syscall events).count ∧
      (r.step syscall events).core.occupancy ≤ r.core.occupancy - 1 :=
  ⟨behind.trans r.count_le_step, direct.unstalled.occupancy_step
    direct.sound.journal.cleared.spaced (direct.sound.shows_nop_behind trailing behind)⟩

theorem Direct.finished_step {n : Nat} (direct : r.Direct p regFile)
    (trailing : ∀ k, n ≤ k → k < p.count → p.word k = Inst.nop) (finished : r.Finished n) :
    (r.step syscall events).Finished n := by
  obtain ⟨behind, nearer⟩ := direct.empties syscall events trailing finished.1
  refine ⟨behind, ?_⟩
  rw [finished.2] at nearer
  exact Nat.le_zero.mp nearer

theorem Direct.programLeft_step {n : Nat} (direct : r.Direct p regFile)
    (runnable : p.Runnable regFile) (register : p.Register)
    (trailing : ∀ k, n ≤ k → k < p.count → p.word k = Inst.nop)
    (calm : r.core.Undisturbed p events) (busy : ¬ r.Finished n) :
    (r.step syscall events).programLeft p n + 1 ≤
      r.programLeft p n + (r.core.kept events).toNat := by
  rw [programLeft, programLeft]
  by_cases before : r.count < n
  · have nearer := direct.wordsLeft_step syscall events runnable register calm before
    have last := (r.step syscall events).core.occupancy_le
    rw [if_pos before]
    split <;> omega
  · have behind := Nat.le_of_not_lt before
    obtain ⟨behind', nearer⟩ := direct.empties syscall events trailing behind
    have full : r.core.occupancy ≠ 0 := fun none => busy ⟨behind, none⟩
    have words : (r.step syscall events).wordsLeft p n = 0 := if_neg (Nat.not_lt.mpr behind')
    rw [if_neg before, if_neg (Nat.not_lt.mpr behind'), words]
    omega

end

end CodeRun

namespace StoredProgram

/-- No-ops change nothing. -/
theorem executed_of_trailing {p : StoredProgram} {n k : Nat} (regFile : RegFile)
    (trailing : ∀ k, n ≤ k → k < p.count → p.word k = Inst.nop) (behind : n ≤ k)
    (within : k ≤ p.count) : p.executed regFile k = p.executed regFile n := by
  induction k, behind using Nat.le_induction with
  | base => rfl
  | succ k behind induction =>
      have nop : Decode.isNop (p.word k) = true := by
        rw [trailing k behind (by omega)]
        decide
      exact (Sequential.execute_of_isNop nop _).trans (induction (by omega))

/-- Without loads and stores no word takes longer than its cycles, apart from those in which
the memory keeps its fetch waiting. -/
theorem words_in_time (p : StoredProgram) (syscall : Syscall) (regFile : RegFile)
    (runnable : p.Runnable regFile) (register : p.Register) (events : List DramEvents)
    (calm : Runs.Guarded (Core.step syscall) (Core.Undisturbed p)
      (Core.start syscall p.entry regFile p.ram) events) :
    events.length ≤
      p.cycles ((Runs.emits (Core.step syscall) Core.handsOver
          (Core.start syscall p.entry regFile p.ram) events).length + 1) + 1 +
        Runs.count (Core.step syscall) Core.kept (Core.start syscall p.entry regFile p.ram)
          events := by
  let first := CodeRun.start syscall p regFile
  let last := Runs.run (CodeRun.step syscall) first events
  have guarded := CodeRun.guarded_of_core (r := first) calm
  have words : (Runs.emits (Core.step syscall) Core.handsOver
      (Core.start syscall p.entry regFile p.ram) events).length = last.count := by
    rw [CodeRun.emits_handsOver runnable (calm.mono fun _ _ calm => calm.1), CodeRun.handed,
      List.length_map, List.length_range]
  have preserved : ∀ (r : CodeRun) (events : DramEvents), r.Direct p regFile →
      r.core.Undisturbed p events → (r.step syscall events).Direct p regFile :=
    fun _ _ direct calm => direct.step runnable register calm
  have stays : ∀ (r : CodeRun) (events : DramEvents), r.Direct p regFile →
      r.core.Undisturbed p events → ¬ r.count < last.count + 1 →
      ¬ (r.step syscall events).count < last.count + 1 :=
    fun r _ _ _ behind before => behind (Nat.lt_of_le_of_lt r.count_le_step before)
  have descends : ∀ (r : CodeRun) (events : DramEvents), r.Direct p regFile →
      r.core.Undisturbed p events → r.count < last.count + 1 →
      (r.step syscall events).wordsLeft p (last.count + 1) + 1 ≤
        r.wordsLeft p (last.count + 1) + (r.core.kept events).toNat :=
    fun _ events direct calm before =>
      direct.wordsLeft_step syscall events runnable register calm before
  have bound : first.wordsLeft p (last.count + 1) ≤ p.cycles (last.count + 1) + 1 :=
    CodeRun.wordsLeft_start syscall runnable _
  have waits : Runs.count (CodeRun.step syscall) (fun r events => r.core.kept events) first
      events = Runs.count (Core.step syscall) Core.kept
        (Core.start syscall p.entry regFile p.ram) events := CodeRun.count_start syscall p regFile
          events
  rw [words]
  by_contra long
  have paid : first.wordsLeft p (last.count + 1) +
      Runs.count (CodeRun.step syscall) (fun r events => r.core.kept events) first events <
        events.length := by
    rw [waits]
    omega
  exact guarded.settles preserved stays descends (CodeRun.direct_start syscall runnable) paid
    (Nat.lt_succ_self _)

/-- Two additions and the no-ops behind them. -/
theorem words_in_time_add :
    (DramEvents.firstFetch ++ List.replicate 10 (DramEvents.completing [])).length ≤
      addTwice.cycles ((Runs.emits (Core.step fun _ ram => (0, ram)) Core.handsOver
          (Core.start (fun _ ram => (0, ram)) addTwice.entry RegFile.reset addTwice.ram)
          (DramEvents.firstFetch ++ List.replicate 10 (DramEvents.completing []))).length + 1) + 1 +
        Runs.count (Core.step fun _ ram => (0, ram)) Core.kept
          (Core.start (fun _ ram => (0, ram)) addTwice.entry RegFile.reset addTwice.ram)
          (DramEvents.firstFetch ++ List.replicate 10 (DramEvents.completing [])) :=
  words_in_time addTwice (fun _ ram => (0, ram)) RegFile.reset (by decide +kernel)
    (by decide +kernel) _ (by decide +kernel)

/-- A program without loads and stores comes to its end: when no-ops follow its `n` words,
the pipeline is empty after the cycles of these and seven more, apart from those in which the
memory keeps a fetch waiting, and has done what the sequential machine does with the words. -/
theorem program_completes (p : StoredProgram) (n : Nat) (syscall : Syscall) (regFile : RegFile)
    (runnable : p.Runnable regFile) (register : p.Register)
    (trailing : ∀ k, n ≤ k → k < p.count → p.word k = Inst.nop) (events : List DramEvents)
    (calm : Runs.Guarded (Core.step syscall) (Core.Undisturbed p)
      (Core.start syscall p.entry regFile p.ram) events)
    (long : p.cycles n + 7 +
      Runs.count (Core.step syscall) Core.kept (Core.start syscall p.entry regFile p.ram)
        events < events.length) :
    (Runs.run (Core.step syscall) (Core.start syscall p.entry regFile p.ram) events).Drained ∧
      { regs := (Runs.run (Core.step syscall)
          (Core.start syscall p.entry regFile p.ram) events).regFile
        memory := (Runs.run (Core.step syscall)
          (Core.start syscall p.entry regFile p.ram) events).memory.memory
            (Runs.run (Core.step syscall) (Core.start syscall p.entry regFile p.ram)
              events).dcRequest
        effects := (Core.start syscall p.entry regFile p.ram).changes syscall events } =
          p.executed regFile n := by
  let s := Core.start syscall p.entry regFile p.ram
  let first := CodeRun.start syscall p regFile
  let last := Runs.run (CodeRun.step syscall) first events
  have guarded := CodeRun.guarded_of_core (r := first) calm
  have initial : first.Direct p regFile := CodeRun.direct_start syscall runnable
  have preserved : ∀ (r : CodeRun) (events : DramEvents), r.Direct p regFile →
      r.core.Undisturbed p events → (r.step syscall events).Direct p regFile :=
    fun _ _ direct calm => direct.step runnable register calm
  have direct : last.Direct p regFile := (guarded.always preserved initial).last
  have finished : last.Finished n := by
    have stays : ∀ (r : CodeRun) (events : DramEvents), r.Direct p regFile →
        r.core.Undisturbed p events → ¬ ¬ r.Finished n → ¬ ¬ (r.step syscall events).Finished n :=
      fun _ _ direct _ finished => not_not_intro
        (direct.finished_step trailing (not_not.mp finished))
    have descends : ∀ (r : CodeRun) (events : DramEvents), r.Direct p regFile →
        r.core.Undisturbed p events → ¬ r.Finished n →
        (r.step syscall events).programLeft p n + 1 ≤
          r.programLeft p n + (r.core.kept events).toNat :=
      fun _ _ direct calm busy => direct.programLeft_step runnable register trailing calm busy
    have bound : first.programLeft p n ≤ p.cycles n + 7 := by
      have words : first.wordsLeft p n ≤ p.cycles n + 1 :=
        CodeRun.wordsLeft_start syscall runnable n
      have last := first.core.occupancy_le
      rw [CodeRun.programLeft]
      split <;> omega
    have waits : Runs.count (CodeRun.step syscall) (fun r events => r.core.kept events) first
        events = Runs.count (Core.step syscall) Core.kept
          (Core.start syscall p.entry regFile p.ram) events :=
      CodeRun.count_start syscall p regFile events
    have paid : first.programLeft p n + Runs.count (CodeRun.step syscall)
        (fun r events => r.core.kept events) first events < events.length := by
      rw [waits]
      omega
    exact not_not.mp (guarded.settles preserved stays descends initial paid)
  have drained : last.core.Drained := direct.unstalled.drained finished.2
  have core : last.core = Runs.run (Core.step syscall) s events := CodeRun.run_core first events
  have effects : last.journal.effects = s.changes syscall events := by
    rw [CodeRun.run_journal]
    exact Journal.run_effects events
  rw [← core, ← effects]
  refine ⟨drained, (direct.sound.written_of_drained drained).trans ?_⟩
  exact executed_of_trailing regFile trailing finished.1 (Nat.le_of_lt direct.sound.fetch.inside)

/-- Two additions to their end. -/
theorem program_completes_add :
    (Runs.run (Core.step fun _ ram => (0, ram))
        (Core.start (fun _ ram => (0, ram)) addTwice.entry RegFile.reset addTwice.ram)
        (DramEvents.firstFetch ++ List.replicate 38 (DramEvents.completing []))).Drained ∧
      { regs := (Runs.run (Core.step fun _ ram => (0, ram))
          (Core.start (fun _ ram => (0, ram)) addTwice.entry RegFile.reset addTwice.ram)
          (DramEvents.firstFetch ++ List.replicate 38 (DramEvents.completing []))).regFile
        memory := (Runs.run (Core.step fun _ ram => (0, ram))
          (Core.start (fun _ ram => (0, ram)) addTwice.entry RegFile.reset addTwice.ram)
          (DramEvents.firstFetch ++ List.replicate 38 (DramEvents.completing []))).memory.memory
            (Runs.run (Core.step fun _ ram => (0, ram))
              (Core.start (fun _ ram => (0, ram)) addTwice.entry RegFile.reset addTwice.ram)
              (DramEvents.firstFetch ++
                List.replicate 38 (DramEvents.completing []))).dcRequest
        effects := (Core.start (fun _ ram => (0, ram)) addTwice.entry RegFile.reset
          addTwice.ram).changes (fun _ ram => (0, ram))
            (DramEvents.firstFetch ++ List.replicate 38 (DramEvents.completing [])) } =
          addTwice.executed RegFile.reset 2 :=
  program_completes addTwice 2 (fun _ ram => (0, ram)) RegFile.reset (by decide +kernel)
    (by decide +kernel)
    (fun k behind inside => by
      have nops : ∀ k : Fin 64, 2 ≤ k.val → addTwice.word k = Inst.nop := by decide +kernel
      exact nops ⟨k, inside⟩ behind)
    _ (by decide +kernel) (by decide +kernel)

end StoredProgram

end Sparcy
