import Sparcy.CodeLines
import Sparcy.DelayedTransfers
import Sparcy.FetchPath
import Sparcy.FetchSequence
import Sparcy.PipelineRefinement

/-!
# Programs in memory

The words of a program without transfers, one after the other from its entry point on, and
the processor that fetches them through the instruction cache while its own stores go
through the data cache.  What it executes is the program, as long as no store of the program
goes to a line of the program.
-/

namespace Sparcy

open Sparcy.Sequential (Plain)

/-- A change that is no store into a line. -/
def Effect.Misses (l : BitVec 58) : Effect → Prop
  | .store line _ _ => line ≠ l
  | _ => True

instance (l : BitVec 58) : DecidablePred (Effect.Misses l)
  | .store _ _ _ => inferInstanceAs (Decidable (_ ≠ _))
  | .register _ _ => .isTrue trivial
  | .icc _ => .isTrue trivial

/-- The words from an entry point on. -/
structure StoredProgram where
  ram : Ram
  entry : BitVec 32
  count : Nat

namespace StoredProgram

section

variable (p : StoredProgram)

/-- The address of a word, and the line that it is in. -/
def address (k : Nat) : BitVec 32 := p.entry + BitVec.ofNat 32 (4 * k)

def line (k : Nat) : BitVec 58 :=
  (((p.address k).setWidth 64 : BitVec 64).extractLsb' 6 24).setWidth 58

def word (k : Nat) : Inst := p.ram.word32 (Fetch.wordAddress ((p.address k).setWidth 64))

/-- The sequential machine after the first words. -/
def executed (regFile : RegFile) : Nat → Sequential
  | 0 => Sequential.start regFile p.ram
  | k + 1 => (executed regFile k).execute (p.word k)

end

/-- The program fits below 2^30 and has plain words; its lines are not those that the data
cache holds after a reset, and the sequential machine stores into none of them. -/
structure Runnable (p : StoredProgram) (regFile : RegFile) : Prop where
  first : 0 < p.count
  low : p.entry.toNat + 4 * p.count ≤ 2 ^ 30
  plain : ∀ k < p.count, Plain (p.word k)
  genuine : ∀ k < p.count, ICache.tag (p.line k) ≠ 0xf
  constant : ∀ e ∈ (p.executed regFile p.count).effects, ∀ k < p.count, e.Misses (p.line k)

theorem runnable_iff {p : StoredProgram} {regFile : RegFile} :
    p.Runnable regFile ↔ 0 < p.count ∧ p.entry.toNat + 4 * p.count ≤ 2 ^ 30 ∧
      (∀ k < p.count, Plain (p.word k)) ∧ (∀ k < p.count, ICache.tag (p.line k) ≠ 0xf) ∧
      ∀ e ∈ (p.executed regFile p.count).effects, ∀ k < p.count, e.Misses (p.line k) :=
  ⟨fun runnable => ⟨runnable.first, runnable.low, runnable.plain, runnable.genuine,
      runnable.constant⟩,
    fun ⟨first, low, plain, genuine, constant⟩ => ⟨first, low, plain, genuine, constant⟩⟩

instance (p : StoredProgram) (regFile : RegFile) : Decidable (p.Runnable regFile) :=
  decidable_of_iff _ runnable_iff.symm

section

variable {p : StoredProgram} {regFile : RegFile}

theorem toNat_address {k : Nat} (low : p.entry.toNat + 4 * k < 2 ^ 32) :
    (p.address k).toNat = p.entry.toNat + 4 * k := by
  rw [address, BitVec.toNat_add, BitVec.toNat_ofNat]
  omega

theorem address_succ (k : Nat) : p.address (k + 1) = p.address k + 4 := by
  rw [address, address, BitVec.add_assoc, Nat.mul_succ, BitVec.ofNat_add]
  rfl

theorem effects_prefix_executed {k n : Nat} (before : k ≤ n) :
    (p.executed regFile k).effects <+: (p.executed regFile n).effects := by
  induction n with
  | zero =>
      obtain rfl := Nat.le_zero.mp before
      exact List.prefix_rfl
  | succ n induction =>
      rcases Nat.lt_or_eq_of_le before with below | rfl
      · exact (induction (Nat.le_of_lt_succ below)).trans
          (Sequential.effects_prefix_perform _ _)
      · exact List.prefix_rfl

/-- No prefix of the program stores into it. -/
theorem Runnable.misses (runnable : p.Runnable regFile) {n k : Nat} (within : n ≤ p.count)
    (inside : k < p.count) {e : Effect} (member : e ∈ (p.executed regFile n).effects) :
    e.Misses (p.line k) :=
  runnable.constant e ((effects_prefix_executed within).subset member) k inside

end

end StoredProgram

/-! ### Words without a transfer -/

namespace Sequential

theorem not_isTransfer {inst : Inst} (plain : Plain inst) : Fetch.isTransfer inst = false := by
  rcases plain with nop | ⟨call, branch, control, -⟩
  · simp only [Decode.isNop, Bool.or_eq_true, beq_iff_eq] at nop
    rcases nop with rfl | rfl <;> decide
  · rw [Fetch.isTransfer, decide_eq_false_iff_not]
    rintro (bicc | isCall | jmpl)
    · exact branch bicc
    · exact call isCall
    · exact control ⟨jmpl.1, .inl jmpl.2⟩

/-- A no-op changes nothing. -/
theorem execute_of_isNop {inst : Inst} (nop : Decode.isNop inst = true) (σ : Sequential) :
    σ.execute inst = σ :=
  perform_of_isNop nop (if_pos nop)

end Sequential

/-- The pipeline holds no transfer. -/
structure Core.Straight (s : Core) : Prop where
  idex : s.idex.Straight
  execute : s.execute.pMuxSel = false

namespace Core

variable {s : Core} {syscall : Syscall} {events : DramEvents}

theorem Straight.muxSel (straight : s.Straight) : s.exOut.muxSel = false := by
  rw [exOut, Execute.Regs.out]
  split
  · rfl
  · split
    · exact straight.idex.muxSel s.syscallResult
    · exact straight.execute

end Core

namespace Journal

variable {j : Journal} {syscall : Syscall} {events : DramEvents}

/-- What decode hands on is a plain word or a bubble. -/
theorem Sound.decodeOut_straight (sound : j.Sound) : j.core.decodeOut.Straight := by
  cases passes : j.core.decode.passesNop j.core.ifid with
  | true =>
      have fields : j.core.decodeOut.fields = Decode.bubbleFields j.core.ifid.inst := if_pos passes
      rw [IDEX.Straight, fields]
      simp only [Decode.Regs.passesNop, Decode.isNop, Bool.and_eq_true, Bool.or_eq_true,
        beq_iff_eq] at passes
      rcases passes.2 with nop | nop <;> rw [nop] <;> decide
  | false =>
      cases waits : j.core.decode.waits j.core.ifid j.core.hazards with
      | true =>
          have fields : j.core.decodeOut.fields = Decode.stallFields := by
            simp [Core.decodeOut, Decode.Regs.outFields, passes, waits]
          rw [IDEX.Straight, fields]
          decide
      | false =>
          have fields : j.core.decodeOut.fields = Decode.decodeFields j.core.decoding := by
            rw [← sound.cleared.spaced.decoded]
            simp [Core.decodeOut, Decode.Regs.outFields, passes, waits]
          have other := sound.not_isNop passes
          rcases sound.decoding with nop | ⟨call, branch, control, -⟩
          · rw [other] at nop
            cases nop
          · rw [IDEX.Straight, fields]
            exact ⟨call, branch, fun jmpl => control ⟨jmpl.1, .inl jmpl.2⟩⟩

theorem Sound.straight_step (sound : j.Sound) (straight : j.core.Straight) :
    (j.core.step syscall events).Straight where
  idex := by
    rw [Core.step_idex, IDEX.step]
    split
    · exact sound.decodeOut_straight
    · exact straight.idex
  execute := by
    change (j.core.execute.copy j.core.idex j.core.syscallResult).pMuxSel = false
    rw [Execute.Regs.copy]
    split
    · exact straight.idex.muxSel j.core.syscallResult
    · exact straight.execute

end Journal

/-! ### The processor at a word -/

/-- The processor with its journal, the requests of the last cycle, and how many words fetch
has handed over. -/
structure CodeRun where
  journal : Journal
  ic : IcRequest
  dc : DcRequest
  count : Nat

namespace CodeRun

/-- The processor. -/
def core (r : CodeRun) : Core := r.journal.core

/-- Fetch and the caches, with the requests of the last cycle. -/
def path (r : CodeRun) : FetchPath := FetchPath.ofCore r.core r.ic r.dc

def step (syscall : Syscall) (r : CodeRun) (events : DramEvents) : CodeRun :=
  { journal := r.journal.step syscall events
    ic := r.core.icRequest
    dc := r.core.dcRequest
    count := if r.core.fetch.pState = .a then r.count + 1 else r.count }

def start (syscall : Syscall) (p : StoredProgram) (regFile : RegFile) : CodeRun :=
  { journal := Journal.start (Core.start syscall p.entry regFile p.ram)
    ic := { (FetchPath.reset p.entry p.ram).icRequest with req := false }
    dc := Mem.reset.request EXMem.reset false
    count := 0 }

end CodeRun

namespace Core

/-- The word that fetch hands to `IFIDReg`. -/
def handsOver (s : Core) (_ : DramEvents) : Option Inst :=
  if s.fetch.pState = .a then some s.fetch.pInst else none

/-- The events are those of `System::tick`, and fetch is at a word of the program. -/
def StaysIn (p : StoredProgram) (s : Core) (events : DramEvents) : Prop :=
  s.memory.Allowed events ∧ s.fetch.nPc.toNat < p.entry.toNat + 4 * p.count

instance (p : StoredProgram) (s : Core) (events : DramEvents) :
    Decidable (s.StaysIn p events) := inferInstanceAs (Decidable (_ ∧ _))

end Core

/-- Fetch is at a word of the program, and has it once the cache has answered. -/
structure Fetch.Regs.AtWord (p : StoredProgram) (k : Nat) (r : Fetch.Regs) : Prop where
  inside : k < p.count
  address : r.pPc = (p.address k).setWidth 64
  counter : r.nPcOut = p.address (k + 1)
  running : r.pState ≠ .s
  transfer : r.pB = false ∧ isTransfer r.pInst = false
  word : r.pState ≠ .b → r.pInst = p.word k

namespace Fetch.Regs

variable {p : StoredProgram} {regFile : RegFile} {k : Nat} {r : Fetch.Regs}

theorem AtWord.not_repeats (here : r.AtWord p k) (state : r.pState = .a) :
    r.repeats = false := by
  have moved : r.pcOut = (p.address (k + 1)).setWidth 64 := by
    simp [pcOut, ifReady, state, here.counter]
  rw [repeats, decide_eq_false_iff_not]
  rintro ⟨same, -⟩
  rw [moved, here.address] at same
  have narrow := congrArg (BitVec.setWidth 32) same
  rw [BitVec.setWidth_setWidth_of_le _ (by decide), BitVec.setWidth_setWidth_of_le _ (by decide),
    BitVec.setWidth_eq, BitVec.setWidth_eq, p.address_succ] at narrow
  exact Tagged.add_four_ne _ narrow

theorem AtWord.nPc (here : r.AtWord p k) :
    r.nPc = (p.address (if r.pState = .a then k + 1 else k)).setWidth 64 := by
  cases state : r.pState with
  | a => simp [Regs.nPc, pcOut, ifReady, state, here.counter]
  | b => simp [Regs.nPc, state, here.address]
  | c => simp [Regs.nPc, state, here.address]
  | s => exact absurd state here.running

/-- The word at which fetch is in the next cycle. -/
theorem AtWord.inside_next (here : r.AtWord p k) (runnable : p.Runnable regFile)
    (stays : r.nPc.toNat < p.entry.toNat + 4 * p.count) :
    (if r.pState = .a then k + 1 else k) < p.count := by
  have low := runnable.low
  have inside := here.inside
  split
  · rename_i state
    rw [here.nPc, if_pos state, BitVec.toNat_setWidth,
      StoredProgram.toNat_address (by omega)] at stays
    omega
  · exact inside

/-- The line and the address that fetch asks for. -/
theorem AtWord.request (here : r.AtWord p k) (icAck : Bool) :
    (r.request icAck).lineAddr = p.line (if r.pState = .a then k + 1 else k) := by
  change (r.nPc.extractLsb' 6 24).setWidth 58 = _
  rw [here.nPc]
  rfl

theorem AtWord.plain (here : r.AtWord p k) (runnable : p.Runnable regFile) :
    Plain r.out.inst := by
  have word := here.word
  have nop : Plain Inst.nop := by decide
  cases state : r.pState with
  | a =>
      have shown : r.out.inst = p.word k := by
        simp only [out, state]
        exact word (by simp [state])
      rw [shown]
      exact runnable.plain k here.inside
  | b => simpa only [out, state] using nop
  | c => simpa only [out, state] using nop
  | s => simpa only [out, state] using nop

/-- One cycle of fetch without a redirection: behind `STATEA` it is at the next word. -/
theorem AtWord.step (here : r.AtWord p k) (runnable : p.Runnable regFile)
    (stays : r.nPc.toNat < p.entry.toNat + 4 * p.count) {icAck idReady : Bool}
    {icData : BitVec 32} {target : BitVec 64}
    (answer : r.pState = .b → icAck = true → icData = p.word k) :
    (r.step icAck icData idReady false target).AtWord p
      (if r.pState = .a then k + 1 else k) := by
  have next := here.inside_next runnable stays
  have held : isTransfer (p.word k) = false :=
    Sequential.not_isTransfer (runnable.plain k here.inside)
  have counter : (r.step icAck icData idReady false target).nPcOut =
      if r.pState = .a then r.nPcOut + 4 else r.nPcOut := by
    change (r.nextNPc false target).setWidth 32 = _
    cases state : r.pState <;> simp [nextNPc, ifReady, state, nPcOut, BitVec.setWidth_add]
  obtain ⟨still, former⟩ := here.transfer
  cases state : r.pState with
  | a =>
      have fresh := here.not_repeats state
      rw [state, if_pos rfl] at counter
      rw [if_pos rfl]
      refine ⟨by simpa [state] using next, ?_, ?_, ?_, ?_, ?_⟩
      · have moved := here.nPc
        rwa [state, if_pos rfl] at moved
      · rw [counter, here.counter, ← p.address_succ]
      · simp [Regs.step, nState, state, fresh]
      · simpa [Regs.step, nB, nInst, state, fresh] using here.transfer
      · simp [Regs.step, nState, state, fresh]
  | b =>
      have same : r.nPc = (p.address k).setWidth 64 := by simp [Regs.nPc, state, here.address]
      rw [state, if_neg (by decide)] at counter
      rw [if_neg (by decide)]
      refine ⟨here.inside, same, counter.trans here.counter, ?_, ?_, ?_⟩
      · simp only [Regs.step, nState, state, still]
        split
        · split <;> simp
        · simp
      · constructor
        · simp [Regs.step, nB, state, still, former]
        · cases icAck with
          | true => simpa [Regs.step, nInst, state, answer state rfl] using held
          | false => simpa [Regs.step, nInst, state] using former
      · intro left
        cases icAck with
        | true => simp [Regs.step, nInst, state, answer state rfl]
        | false => simp [Regs.step, nState, state] at left
  | c =>
      have kept := here.word (by simp [state])
      have same : r.nPc = (p.address k).setWidth 64 := by simp [Regs.nPc, state, here.address]
      rw [state, if_neg (by decide)] at counter
      rw [if_neg (by decide)]
      refine ⟨here.inside, same, counter.trans here.counter, ?_, ?_, ?_⟩
      · simp only [Regs.step, nState, state, still]
        split <;> simp
      · simp [Regs.step, nB, nInst, state, still, former]
      · intro _
        simpa [Regs.step, nInst, state] using kept
  | s => exact absurd state here.running

end Fetch.Regs

/-- A store that the data cache serves is among the changes of its cycle. -/
theorem Core.store_mem_effects {s : Core} (serves : s.memory.dc.serves s.dcRequest = true)
    (stores : s.dcRequest.readWriteN = false) :
    Effect.store s.dcRequest.lineAddr (DCache.storeEnable s.dcRequest)
      (writeWords 0 (DCache.storeData s.dcRequest) 8 (DCache.storeEnable s.dcRequest)) ∈
        s.effects := by
  rw [effects, if_pos serves, Effect.ofAccess, if_neg (by simp [stores])]
  exact List.mem_append_right _ (List.mem_singleton_self _)

/-! ### The invariant -/

/-- A line of the program is the same in the RAM and in what the data cache shows. -/
structure MemorySystem.KeepsLine (m : MemorySystem) (program : Ram) (q : DcRequest)
    (l : BitVec 58) : Prop where
  ram : m.sys.ram.line l = program.line l
  memory : m.memory q l = program.line l

theorem Fetch.not_repeats_reset (entry : BitVec 32) : (Fetch.reset entry).repeats = false := by
  simp only [Fetch.Regs.repeats, decide_eq_false_iff_not, not_and_not_right]
  exact fun zero => zero

theorem Core.start_fetch (syscall : Syscall) (entry : BitVec 32) (regFile : RegFile) (ram : Ram) :
    (Core.start syscall entry regFile ram).fetch =
      (Fetch.reset entry).step false 0 true false 0 :=
  congrArg FetchPath.fetch (FetchPath.ofCore_start syscall entry regFile ram)

/-- In the first cycle fetch waits for the word at the entry point. -/
theorem Core.start_fetching (syscall : Syscall) (entry : BitVec 32) (regFile : RegFile)
    (ram : Ram) : (Core.start syscall entry regFile ram).fetch.pState = .b := by
  rw [Core.start_fetch]
  change (Fetch.reset entry).nState false true = .b
  rw [Fetch.Regs.nState]
  exact if_neg (by simp [Fetch.not_repeats_reset])

theorem Core.start_keepsLine (syscall : Syscall) (entry : BitVec 32) (regFile : RegFile)
    (ram : Ram) {l : BitVec 58} (genuine : ICache.tag l ≠ 0xf) :
    (Core.start syscall entry regFile ram).memory.KeepsLine ram
      (Core.start syscall entry regFile ram).dcRequest l := by
  let q := (Core.start syscall entry regFile ram).dcRequest
  let q' := Mem.reset.request EXMem.reset false
  have stepped : (Core.start syscall entry regFile ram).memory =
      (MemorySystem.reset ram).step
        { (FetchPath.reset entry ram).icRequest with req := false } q' (.completing []) :=
    congrArg (fun path => path.ports.system) (FetchPath.ofCore_start syscall entry regFile ram)
  have idle : (Core.start syscall entry regFile ram).memory.dc.pState = .a := rfl
  constructor
  · rw [stepped, MemorySystem.ram_step_of_first _ rfl]
    rfl
  · have coherent := MemorySystem.coherent_reset ram
    have present : (MemorySystem.reset ram).dc.pState = .a := rfl
    rw [MemorySystem.memory_switch idle _ q', stepped,
      (coherent.tracked q').memory_step_eq (MemorySystem.allowed_completing _) _]
    change (MemorySystem.reset ram).memory q' l = _
    rw [MemorySystem.memory_of_present (by simp [present])]
    exact if_neg fun named => genuine named.symm

namespace Journal

variable {j : Journal} {syscall : Syscall} {events : DramEvents}

/-- A line stays as it is in a cycle without a store into it. -/
theorem Carried.keepsLine_step {program : Ram} {l : BitVec 58} (carried : j.Carried)
    (silent : ¬ j.core.calls) (window : j.core.cwpInc = false ∧ j.core.cwpDec = false)
    (allowed : j.core.memory.Allowed events)
    (keeps : j.core.memory.KeepsLine program j.core.dcRequest l)
    (misses : ∀ e ∈ j.core.effects, e.Misses l) :
    (j.step syscall events).core.memory.KeepsLine program (j.step syscall events).core.dcRequest
      l := by
  obtain ⟨ram, memory⟩ := keeps
  constructor
  · change (j.core.step syscall events).memory.sys.ram.line _ = _
    rw [step_memory silent]
    exact (carried.memory.line_step allowed _ (ram.trans memory.symm)).trans memory
  · have written : (j.step syscall events).written = _ :=
      carried.written_step silent window allowed
    change (j.step syscall events).written.memory l = _
    rw [written]
    cases serves : j.core.memory.dc.serves j.core.dcRequest with
    | false => exact memory
    | true =>
        rw [if_pos rfl]
        change MemorySystem.applyAccess (j.core.memory.memory j.core.dcRequest)
          j.core.dcRequest l = _
        cases load : j.core.dcRequest.readWriteN with
        | true =>
            rw [MemorySystem.applyAccess, if_pos load]
            exact memory
        | false =>
            have apart : j.core.dcRequest.lineAddr ≠ l :=
              misses _ (Core.store_mem_effects serves load)
            rw [MemorySystem.applyAccess, if_neg (by simp [load]),
              Function.update_of_ne (Ne.symm apart)]
            exact memory

end Journal

namespace CodeRun

/-- What holds between two cycles: the pipeline executes the words that were handed over,
and fetch is at the next one, in the memory as it was. -/
structure Sound (p : StoredProgram) (regFile : RegFile) (r : CodeRun) : Prop where
  journal : r.journal.Sound
  path : r.path.Sound p.ram
  held : r.core.memory.dc.pState ≠ .a → r.core.dcRequest = r.dc
  straight : r.core.Straight
  fetch : r.core.fetch.AtWord p r.count
  executed : r.core.underDecode.foldl Sequential.execute r.journal.drain =
    p.executed regFile r.count
  kept : ∀ k < p.count, r.core.memory.KeepsLine p.ram r.core.dcRequest (p.line k)

section

variable {p : StoredProgram} {regFile : RegFile} {r : CodeRun} {syscall : Syscall}
  {events : DramEvents}

theorem Sound.fetchesPlain (sound : r.Sound p regFile) (runnable : p.Runnable regFile)
    (stays : r.core.StaysIn p events) : r.core.FetchesPlain events :=
  ⟨stays.1, sound.fetch.plain runnable⟩

/-- What the other stages do to fetch and the caches. -/
def input (r : CodeRun) (events : DramEvents) : FetchPath.Input :=
  { idReady := r.core.idReady, muxEn := r.core.exOut.muxSel, target := r.core.exOut.target
    dc := r.core.dcRequest, events := events }

theorem Sound.path_step (sound : r.Sound p regFile) :
    (r.step syscall events).path = r.path.step (r.input events) := by
  refine FetchPath.ofCore_step syscall r.core events r.ic r.dc ?_
  exact Core.ramAfter_of_quiet sound.journal.not_calls

theorem Sound.legal (sound : r.Sound p regFile) (runnable : p.Runnable regFile)
    (stays : r.core.StaysIn p events) : r.path.Legal p.ram (r.input events) where
  allowed := stays.1
  dcHeld := sound.held
  address _ := Nat.lt_of_lt_of_le stays.2 runnable.low
  constant _ := by
    have line : r.path.icRequest.lineAddr = _ := sound.fetch.request r.core.icAck
    rw [line]
    exact (sound.kept _ (sound.fetch.inside_next runnable stays.2)).ram

/-- The word that the cache answers with is that of the program. -/
theorem Sound.answer (sound : r.Sound p regFile) (waits : r.core.fetch.pState = .b)
    (acknowledged : r.core.icAck = true) :
    r.core.memory.ic.pProcDataOut = p.word r.count := by
  obtain ⟨outstanding, tracks⟩ := sound.path
  cases tracks.link with
  | free ready => exact absurd waits ready
  | raised _ _ silent => exact absurd (silent.symm.trans acknowledged) (by decide)
  | waiting _ _ _ silent => exact absurd (silent.symm.trans acknowledged) (by decide)
  | answered _ _ _ word =>
      have address : r.path.fetch.pPc = _ := sound.fetch.address
      rw [address] at word
      exact word

theorem Sound.fetch_step (sound : r.Sound p regFile) (runnable : p.Runnable regFile)
    (stays : r.core.StaysIn p events) :
    (r.step syscall events).core.fetch.AtWord p (r.step syscall events).count := by
  change (r.core.fetch.step _ _ _ r.core.exOut.muxSel _).AtWord p _
  rw [sound.straight.muxSel]
  exact sound.fetch.step runnable stays.2 sound.answer

/-- The word of `STATEA` is handed over, unless it is a no-op. -/
theorem Sound.execute_fetched (sound : r.Sound p regFile) (σ : Sequential) :
    (r.core.fetched events).toList.foldl Sequential.execute σ =
      if r.core.fetch.pState = .a then σ.execute (p.word r.count) else σ := by
  have nop : Decode.isNop Inst.nop = true := by decide
  by_cases state : r.core.fetch.pState = .a
  · have word := sound.fetch.word (by simp [state])
    have shown : r.core.fetch.out.inst = p.word r.count := by
      simp only [Fetch.Regs.out, state]
      exact word
    rw [if_pos state, Core.fetched, shown]
    cases skipped : Decode.isNop (p.word r.count) with
    | true =>
        rw [Bool.not_true, Bool.and_false, if_neg (by decide)]
        exact (Sequential.execute_of_isNop skipped σ).symm
    | false =>
        have ready : r.core.idReady = true := by
          have other : r.core.fetch.pInst ≠ Inst.nop := by
            intro same
            rw [← word, same, nop] at skipped
            cases skipped
          have free : r.core.decode.pState = .a :=
            (sound.journal.cleared.spaced.front.fetched state other).1
          simp [Core.idReady, Decode.Regs.idReady, free]
        rw [ready]
        rfl
  · have shown : r.core.fetch.out.inst = Inst.nop := by
      cases other : r.core.fetch.pState with
      | a => exact absurd other state
      | b => simp only [Fetch.Regs.out, other]
      | c => simp only [Fetch.Regs.out, other]
      | s => simp only [Fetch.Regs.out, other]
    rw [if_neg state, Core.fetched, shown, nop, Bool.not_true, Bool.and_false,
      if_neg (by decide)]
    rfl

theorem Sound.executed_step (sound : r.Sound p regFile) (runnable : p.Runnable regFile)
    (stays : r.core.StaysIn p events) :
    (r.step syscall events).core.underDecode.foldl Sequential.execute
        (r.step syscall events).journal.drain =
      p.executed regFile (r.step syscall events).count := by
  have drained : (r.step syscall events).journal.drain =
      (r.core.released events).toList.foldl Sequential.execute r.journal.drain := by
    have folds : ∀ (word : Option Inst) (σ : Sequential),
        word.elim σ σ.execute = word.toList.foldl Sequential.execute σ := by
      intro word σ
      cases word <;> rfl
    exact (sound.journal.drain_step (sound.fetchesPlain runnable stays)).trans (folds _ _)
  have words : (r.core.released events).toList ++ (r.step syscall events).core.underDecode =
      r.core.underDecode ++ (r.core.fetched events).toList :=
    sound.journal.cleared.spaced.front.words_step
  rw [drained, ← List.foldl_append, words, List.foldl_append, sound.executed,
    sound.execute_fetched]
  change _ = p.executed regFile (if r.core.fetch.pState = .a then _ else _)
  split <;> rfl

/-- All that has been changed, was changed by the words that were handed over. -/
theorem effects_prefix (executed : r.core.underDecode.foldl Sequential.execute r.journal.drain =
    p.executed regFile r.count) : r.journal.effects <+: (p.executed regFile r.count).effects := by
  rw [← executed]
  exact r.journal.effects_prefix_drain.trans
    (Sequential.effects_prefix_foldl (fun σ inst => σ.effects_prefix_perform _) _ _)

/-- In an empty pipeline the registers and the memory are those of the sequential machine. -/
theorem Sound.written_of_drained (sound : r.Sound p regFile) (drained : r.core.Drained) :
    r.journal.written = p.executed regFile r.count := by
  have empty : r.core.underDecode = [] := by
    simp [Core.underDecode, BackEnd.heldWord, BackEnd.ofCore, Decode.Regs.idReady, drained.decode,
      drained.ifid]
  rw [← sound.executed, empty]
  exact (sound.journal.drain_of_drained drained).symm

theorem Sound.kept_step (sound : r.Sound p regFile) (runnable : p.Runnable regFile)
    (stays : r.core.StaysIn p events) {k : Nat} (inside : k < p.count) :
    (r.step syscall events).core.memory.KeepsLine p.ram (r.step syscall events).core.dcRequest
      (p.line k) := by
  apply sound.journal.carried.keepsLine_step sound.journal.not_calls sound.journal.window stays.1
    (sound.kept k inside)
  -- the changes of the cycle are among those of the program
  have within : (r.step syscall events).count ≤ p.count :=
    Nat.le_of_lt (sound.fetch_step runnable stays).inside
  have changes : (r.step syscall events).journal.effects <+: _ :=
    effects_prefix (sound.executed_step runnable stays)
  intro e member
  exact runnable.misses within inside
    (changes.subset (List.mem_append_right r.journal.effects member))

theorem Sound.step (sound : r.Sound p regFile) (runnable : p.Runnable regFile)
    (stays : r.core.StaysIn p events) : (r.step syscall events).Sound p regFile where
  journal := sound.journal.step (sound.fetchesPlain runnable stays)
  path := by
    rw [sound.path_step]
    exact sound.path.step (sound.legal runnable stays)
  held := by
    intro busy
    rcases MemPath.Phase.request_step sound.journal.path (r.journal.input events) with idle | same
    · exact absurd idle busy
    · exact same
  straight := sound.journal.straight_step sound.straight
  fetch := sound.fetch_step runnable stays
  executed := sound.executed_step runnable stays
  kept _ inside := sound.kept_step runnable stays inside

end

/-! ### The first cycle -/

theorem start_atWord (syscall : Syscall) (p : StoredProgram) (regFile : RegFile)
    (first : 0 < p.count) : (start syscall p regFile).core.fetch.AtWord p 0 := by
  have state : (start syscall p regFile).core.fetch.pState = .b :=
    Core.start_fetching syscall p.entry regFile p.ram
  rw [show (start syscall p regFile).core.fetch = _ from
    Core.start_fetch syscall p.entry regFile p.ram] at state ⊢
  have inst : ((Fetch.reset p.entry).step false 0 true false 0).pInst = Inst.nop := by
    change (Fetch.reset p.entry).nInst false 0 = Inst.nop
    rw [Fetch.Regs.nInst]
    exact if_neg (by simp [Fetch.not_repeats_reset])
  have zero : p.address 0 = p.entry := BitVec.add_zero _
  refine ⟨first, ?_, ?_, ?_, ?_, ?_⟩
  · rw [zero]
    simp [Fetch.Regs.step, Fetch.Regs.nPc, Fetch.Regs.pcOut, Fetch.Regs.ifReady, Fetch.Regs.nPcOut,
      Fetch.reset]
  · rw [p.address_succ, zero]
    simp [Fetch.Regs.step, Fetch.Regs.nextNPc, Fetch.Regs.ifReady, Fetch.Regs.nPcOut, Fetch.reset,
      BitVec.setWidth_add]
  · rw [state]
    decide
  · refine ⟨rfl, ?_⟩
    rw [inst]
    decide
  · exact fun left => absurd state left

theorem sound_start (syscall : Syscall) {p : StoredProgram} {regFile : RegFile}
    (runnable : p.Runnable regFile) : (start syscall p regFile).Sound p regFile where
  journal := Core.sound_start syscall p.entry regFile p.ram
  path := by
    rw [show (start syscall p regFile).path = FetchPath.start p.entry p.ram from
      FetchPath.ofCore_start syscall p.entry regFile p.ram]
    exact ⟨none, FetchPath.tracks_start p.entry p.ram p.ram⟩
  held busy := absurd rfl busy
  straight := by
    constructor
    · rw [IDEX.Straight, show (start syscall p regFile).core.idex.fields = _ from
        Core.start_idex syscall p.entry regFile p.ram]
      decide
    · rfl
  fetch := start_atWord syscall p regFile runnable.first
  executed := by
    have none : (start syscall p regFile).core.underDecode = [] := by
      have free : (start syscall p regFile).core.decode.pState = .a :=
        Core.start_decode syscall p.entry regFile p.ram
      have empty : (start syscall p regFile).core.ifid.inst = Inst.nop := rfl
      simp [Core.underDecode, BackEnd.heldWord, BackEnd.ofCore, Decode.Regs.idReady, Decode.isNop,
        free, empty]
    have journal : (start syscall p regFile).journal =
        Journal.start (Core.start syscall p.entry regFile p.ram) := rfl
    rw [none, List.foldl_nil, journal, Core.drain_start]
    rfl
  kept k inside := Core.start_keepsLine syscall p.entry regFile p.ram (runnable.genuine k inside)

/-! ### Runs -/

section

variable {p : StoredProgram} {regFile : RegFile} {syscall : Syscall}

/-- The words that fetch has handed over. -/
def handed (p : StoredProgram) (r : CodeRun) : List Inst := (List.range r.count).map p.word

theorem Sound.handed_step {r : CodeRun} {events : DramEvents} (sound : r.Sound p regFile) :
    (r.step syscall events).handed p =
      (r.core.handsOver events).elim (r.handed p) fun word => r.handed p ++ [word] := by
  change (List.range (if r.core.fetch.pState = .a then _ else _)).map p.word = _
  rw [Core.handsOver]
  by_cases state : r.core.fetch.pState = .a
  · rw [if_pos state, if_pos state, List.range_succ, List.map_append,
      sound.fetch.word (by simp [state])]
    rfl
  · rw [if_neg state, if_neg state]
    rfl

theorem run_core (r : CodeRun) (inputs : List DramEvents) :
    (Runs.run (step syscall) r inputs).core = Runs.run (Core.step syscall) r.core inputs :=
  Runs.run_view (fun _ _ => rfl) r inputs

theorem run_journal (r : CodeRun) (inputs : List DramEvents) :
    (Runs.run (step syscall) r inputs).journal =
      Runs.run (Journal.step syscall) r.journal inputs :=
  Runs.run_view (fun _ _ => rfl) r inputs

theorem emits_core {Event : Type*} (event : Core → DramEvents → Option Event) (r : CodeRun)
    (inputs : List DramEvents) :
    Runs.emits (step syscall) (fun r events => event r.core events) r inputs =
      Runs.emits (Core.step syscall) event r.core inputs :=
  Runs.emits_view (fun _ _ => rfl) r inputs

theorem guarded_of_core {good : Core → DramEvents → Prop} {r : CodeRun}
    {inputs : List DramEvents} (guarded : Runs.Guarded (Core.step syscall) good r.core inputs) :
    Runs.Guarded (step syscall) (fun r events => good r.core events) r inputs :=
  (Runs.guarded_view (fun _ _ => rfl) r inputs).mpr guarded

/-- The words that fetch hands over are the first ones of the program. -/
theorem emits_handsOver (runnable : p.Runnable regFile) {events : List DramEvents}
    (stays : Runs.Guarded (Core.step syscall) (Core.StaysIn p)
      (Core.start syscall p.entry regFile p.ram) events) :
    Runs.emits (Core.step syscall) Core.handsOver (Core.start syscall p.entry regFile p.ram)
        events =
      (Runs.run (step syscall) (start syscall p regFile) events).handed p := by
  have guarded := guarded_of_core (r := start syscall p regFile) stays
  have collected : (Runs.run (step syscall) (start syscall p regFile) events).handed p =
      (Runs.emits (step syscall) (fun r events => r.core.handsOver events)
        (start syscall p regFile) events).foldl (fun list word => list ++ [word])
          ((start syscall p regFile).handed p) :=
    guarded.simulates (fun _ _ sound stays => Sound.step sound runnable stays)
      (fun _ _ sound _ => Sound.handed_step sound) (sound_start syscall runnable)
  rw [List.foldl_append_eq_append, emits_core, ← List.flatMap_def,
    List.flatMap_singleton'] at collected
  exact collected.symm

end

end CodeRun

namespace StoredProgram

/-- The processor after a run has fetched the first words and executes these. -/
structure Executes (p : StoredProgram) (syscall : Syscall) (regFile : RegFile)
    (events : List DramEvents) (n : Nat) : Prop where
  /-- Fetch has handed over the words of the program, one after the other. -/
  words : Runs.emits (Core.step syscall) Core.handsOver
    (Core.start syscall p.entry regFile p.ram) events = (List.range n).map p.word
  /-- The changes are those of the sequential machine, in its order. -/
  inOrder : (Core.start syscall p.entry regFile p.ram).changes syscall events <+:
    (p.executed regFile n).effects
  /-- When the pipeline is empty, its registers and its memory are those of the sequential
  machine. -/
  drained : (Runs.run (Core.step syscall) (Core.start syscall p.entry regFile p.ram)
      events).Drained →
    { regs := (Runs.run (Core.step syscall)
        (Core.start syscall p.entry regFile p.ram) events).regFile
      memory := (Runs.run (Core.step syscall)
        (Core.start syscall p.entry regFile p.ram) events).memory.memory
          (Runs.run (Core.step syscall) (Core.start syscall p.entry regFile p.ram)
            events).dcRequest
      effects := (Core.start syscall p.entry regFile p.ram).changes syscall events } =
        p.executed regFile n
  /-- The RAM still has the program. -/
  kept : ∀ k < p.count, (Runs.run (Core.step syscall)
    (Core.start syscall p.entry regFile p.ram) events).memory.sys.ram.line (p.line k) =
      p.ram.line (p.line k)

/-- A program in memory is executed as it stands there, by a processor that fetches it
through one cache and loads and stores through the other, whatever the memory is doing. -/
theorem executes_stored_program (p : StoredProgram) (syscall : Syscall) (regFile : RegFile)
    (runnable : p.Runnable regFile) (events : List DramEvents)
    (stays : Runs.Guarded (Core.step syscall) (Core.StaysIn p)
      (Core.start syscall p.entry regFile p.ram) events) :
    ∃ n, p.Executes syscall regFile events n := by
  let s := Core.start syscall p.entry regFile p.ram
  let first := CodeRun.start syscall p regFile
  let last := Runs.run (CodeRun.step syscall) first events
  have guarded := CodeRun.guarded_of_core (r := first) stays
  have preserved : ∀ (r : CodeRun) (events : DramEvents), r.Sound p regFile →
      r.core.StaysIn p events → (r.step syscall events).Sound p regFile :=
    fun _ _ sound stays => sound.step runnable stays
  have initial := CodeRun.sound_start syscall runnable
  have sound : last.Sound p regFile := (guarded.always preserved initial).last
  have core : last.core = Runs.run (Core.step syscall) s events := CodeRun.run_core first events
  have effects : last.journal.effects = s.changes syscall events := by
    rw [CodeRun.run_journal]
    exact Journal.run_effects events
  refine ⟨last.count, ?_, ?_, ?_, ?_⟩
  · exact CodeRun.emits_handsOver runnable stays
  · rw [← effects]
    exact CodeRun.effects_prefix sound.executed
  · rw [← core, ← effects]
    exact sound.written_of_drained
  · intro k inside
    rw [← core]
    exact (sound.kept k inside).ram

/-- `add %g0, 5, %g1` and `add %g1, %g1, %g2`, which waits for the first one, with no-ops
behind them. -/
def addTwice : StoredProgram :=
  { ram := Ram.ofWords ([0x82002005, 0x84004001] ++ List.replicate 62 Inst.nop)
    entry := 0
    count := 64 }

theorem executes_stored_program_add :
    ∃ n, addTwice.Executes (fun _ ram => (0, ram)) RegFile.reset
      (DramEvents.firstFetch ++ List.replicate 10 (.completing [])) n :=
  executes_stored_program _ _ _ (by decide +kernel) _ (by decide +kernel)

end StoredProgram

end Sparcy
