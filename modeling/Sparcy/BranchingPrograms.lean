import Sparcy.StoredProgram
import Sparcy.TransferPipeline

/-!
# Programs with transfers

A program in memory that branches, calls and jumps.  The machine with two program counters
runs through it word by word; the processor fetches ahead, learns of a transfer several cycles
later, and annuls a word that is already on its way.  It hands over and executes the words of
the machine, in its order.
-/

namespace Sparcy

structure Program where
  ram : Ram
  entry : BitVec 32

namespace Program

/-- The line of an address. -/
def line (pc : BitVec 32) : BitVec 58 :=
  ((pc.setWidth 64 : BitVec 64).extractLsb' 6 24).setWidth 58

section

variable (p : Program) (regFile : RegFile)

def word (pc : BitVec 32) : Inst := p.ram.word32 (Fetch.wordAddress (pc.setWidth 64))

/-- The machine after the first words. -/
def machine : Nat → Machine
  | 0 =>
      { state := Sequential.start regFile p.ram, pc := p.entry, nPc := p.entry + 4
        annul := false, access := false }
  | k + 1 => (machine k).next (p.word (machine k).pc)

/-- The first words of the machine, with their addresses. -/
def first (n : Nat) : List (BitVec 32 × Inst) :=
  (List.range n).map fun k =>
    ((p.machine regFile k).pc, p.word (p.machine regFile k).pc)

/-- What the machine does for so many steps: it executes regular words, from lines below 2^30
that the data cache does not hold after a reset and that no step stores into. -/
structure Runnable (steps : Nat) : Prop where
  regular : ∀ k < steps, (p.machine regFile k).Regular (p.word (p.machine regFile k).pc)
  low : ∀ k < steps, (p.machine regFile k).pc.toNat < 2 ^ 30
  genuine : ∀ k < steps, ICache.tag (line (p.machine regFile k).pc) ≠ 0xf
  constant : ∀ e ∈ (p.machine regFile steps).state.effects, ∀ k < steps,
    e.Misses (line (p.machine regFile k).pc)

end

section

variable {p : Program} {regFile : RegFile} {steps : Nat}

theorem runnable_iff :
    p.Runnable regFile steps ↔
      (∀ k < steps, (p.machine regFile k).Regular (p.word (p.machine regFile k).pc)) ∧
      (∀ k < steps, (p.machine regFile k).pc.toNat < 2 ^ 30) ∧
      (∀ k < steps, ICache.tag (line (p.machine regFile k).pc) ≠ 0xf) ∧
      ∀ e ∈ (p.machine regFile steps).state.effects, ∀ k < steps,
        e.Misses (line (p.machine regFile k).pc) :=
  ⟨fun runnable => ⟨runnable.regular, runnable.low, runnable.genuine, runnable.constant⟩,
    fun ⟨regular, low, genuine, constant⟩ => ⟨regular, low, genuine, constant⟩⟩

instance (p : Program) (regFile : RegFile) (steps : Nat) :
    Decidable (p.Runnable regFile steps) := decidable_of_iff _ runnable_iff.symm

theorem machine_succ (k : Nat) :
    p.machine regFile (k + 1) =
      (p.machine regFile k).next (p.word (p.machine regFile k).pc) := rfl

theorem machine_succ_pc (k : Nat) :
    (p.machine regFile (k + 1)).pc = (p.machine regFile k).nPc := Machine.next_pc _ _

theorem effects_prefix_machine {k n : Nat} (before : k ≤ n) :
    (p.machine regFile k).state.effects <+: (p.machine regFile n).state.effects := by
  induction n with
  | zero =>
      obtain rfl := Nat.le_zero.mp before
      exact List.prefix_rfl
  | succ n induction =>
      rcases Nat.lt_or_eq_of_le before with below | rfl
      · exact (induction (Nat.le_of_lt_succ below)).trans (Machine.effects_prefix_next _ _)
      · exact List.prefix_rfl

end

end Program

/-! ### The processor in a program -/

/-- The processor with the marks of fetch, the phase of Mem and the changes so far, the program
counters, the requests of the last cycle, and how many words fetch has handed over. -/
structure ProgramRun where
  tagged : Tagged Unit
  phase : MemPath.Phase
  effects : List Effect
  counters : ProgramCounters
  ic : IcRequest
  dc : DcRequest
  count : Nat

namespace ProgramRun

def core (r : ProgramRun) : Core := r.tagged.core

def journal (r : ProgramRun) : Journal :=
  { core := r.tagged.core, phase := r.phase, effects := r.effects }

/-- Fetch and the caches, with the requests of the last cycle. -/
def path (r : ProgramRun) : FetchPath := FetchPath.ofCore r.core r.ic r.dc

def step (syscall : Syscall) (r : ProgramRun) (events : DramEvents) : ProgramRun :=
  { tagged := r.tagged.step (fun _ => ()) syscall events
    phase := (r.journal.step syscall events).phase
    effects := (r.journal.step syscall events).effects
    counters := r.tagged.advance r.counters
    ic := r.core.icRequest
    dc := r.core.dcRequest
    count := if r.tagged.delivers then r.count + 1 else r.count }

def start (syscall : Syscall) (p : Program) (regFile : RegFile) : ProgramRun :=
  { tagged := Tagged.start (Core.start syscall p.entry regFile p.ram)
    phase := .idle
    effects := []
    counters := { last := none, pc := p.entry, nPc := p.entry + 4 }
    ic := { (FetchPath.reset p.entry p.ram).icRequest with req := false }
    dc := Mem.reset.request EXMem.reset false
    count := 0 }

/-- How many words have left decode. -/
def entered (r : ProgramRun) : Nat := if r.core.Decoding then r.count - 1 else r.count

/-- The machine after these words. -/
def machine (r : ProgramRun) (p : Program) (regFile : RegFile) : Machine :=
  p.machine regFile r.entered

/-- A word under decode is the next one, and fetch is at the word behind it. -/
structure Behind (p : Program) (regFile : RegFile) (r : ProgramRun) : Prop where
  handed : 0 < r.count
  word : r.core.decoding = p.word (r.machine p regFile).pc
  address : r.core.decode.nPc r.core.ifid = (r.machine p regFile).pc.setWidth 64
  pc : r.counters.pc = (r.machine p regFile).nPc
  nPc : r.counters.nPc = (r.machine p regFile).nPc + 4

/-- Otherwise fetch is at the next word, and behind it at that of the machine unless a transfer
is being resolved. -/
structure Ahead (p : Program) (regFile : RegFile) (r : ProgramRun) : Prop where
  pc : r.counters.pc = (r.machine p regFile).pc
  nPc : r.core.resolves = false → r.counters.nPc = (r.machine p regFile).nPc

/-- Where the machine is. -/
structure Placed (p : Program) (regFile : RegFile) (r : ProgramRun) : Prop where
  follows : r.journal.Follows (r.machine p regFile)
  behind : r.core.Decoding → r.Behind p regFile
  ahead : ¬ r.core.Decoding → r.Ahead p regFile

/-- Fetch has the word that it has been waiting for. -/
def holdsWord (r : ProgramRun) : Bool :=
  match r.core.fetch.pState with
  | .a => r.tagged.fetched
  | .b => false
  | _ => true

/-- What holds between two cycles. -/
structure Sound (p : Program) (regFile : RegFile) (steps : Nat) (r : ProgramRun) : Prop where
  supplied : r.journal.Supplied
  tracks : Tagged.FetchTracks r.tagged r.counters
  path : r.path.Sound p.ram
  held : r.core.memory.dc.pState ≠ .a → r.core.dcRequest = r.dc
  placed : r.Placed p regFile
  fetched : r.holdsWord = true → r.core.fetch.pInst = p.word r.core.fetch.lastAddress
  kept : ∀ k < steps, r.core.memory.KeepsLine p.ram r.core.dcRequest
    (Program.line (p.machine regFile k).pc)

section

variable {p : Program} {regFile : RegFile} {steps : Nat} {r : ProgramRun} {syscall : Syscall}
  {events : DramEvents}

theorem entered_of_decoding (decoding : r.core.Decoding) : r.entered = r.count - 1 :=
  if_pos decoding

theorem entered_of_free (free : ¬ r.core.Decoding) : r.entered = r.count := if_neg free

theorem entered_le (r : ProgramRun) : r.entered ≤ r.count := by
  unfold entered
  split <;> omega

/-- The machine after the words that fetch has handed over. -/
theorem Sound.machine_count (sound : r.Sound p regFile steps) :
    p.machine regFile r.count =
      if r.core.Decoding then (r.machine p regFile).next r.core.decoding
      else r.machine p regFile := by
  split
  · rename_i decoding
    have behind := sound.placed.behind decoding
    have handed := behind.handed
    have count : r.count = r.entered + 1 := by
      rw [entered_of_decoding decoding]
      omega
    rw [behind.word, count]
    rfl
  · rename_i free
    rw [machine, entered_of_free free]

/-- Fetch is at its program counter. -/
theorem Sound.pc (sound : r.Sound p regFile steps) :
    (p.machine regFile r.count).pc = r.counters.pc := by
  rw [sound.machine_count]
  split
  · rename_i decoding
    rw [Machine.next_pc, (sound.placed.behind decoding).pc]
  · rename_i free
    exact (sound.placed.ahead free).pc.symm

/-- When fetch shows a word, no transfer is on its way. -/
theorem Sound.nPc_of_delivers (sound : r.Sound p regFile steps)
    (delivers : r.tagged.delivers = true) :
    ¬ r.core.Decoding ∧ r.core.resolves = false ∧
      (p.machine regFile r.count).nPc = r.counters.nPc := by
  obtain ⟨idle, shown⟩ := sound.tracks.delivers_iff.mp delivers
  have free : ¬ r.core.Decoding := (sound.tracks.fresh idle shown).1
  have untaken : r.core.resolves = false :=
    Core.not_resolves_of_quiet (sound.tracks.fresh idle shown).2
  refine ⟨free, untaken, ?_⟩
  rw [sound.machine_count, if_neg free]
  exact ((sound.placed.ahead free).nPc untaken).symm

/-! ### Fetch -/

variable (syscall events) in
/-- The address that fetch asks the cache for is that of a word of the machine. -/
theorem Sound.asked (sound : r.Sound p regFile steps) (asks : r.path.icRequest.req = true) :
    ∃ k ≤ (r.step syscall events).count,
      r.core.fetch.address = (p.machine regFile k).pc := by
  have here : r.core.fetch.address = r.counters.pc → ∃ k ≤ (r.step syscall events).count,
      r.core.fetch.address = (p.machine regFile k).pc := by
    intro address
    refine ⟨r.count, ?_, address.trans sound.pc.symm⟩
    change r.count ≤ if r.tagged.delivers then r.count + 1 else r.count
    split <;> omega
  rcases sound.tracks.position with fetching | spinning
  · by_cases idle : r.core.fetch.pState = .a
    · have address : r.core.fetch.address = r.core.fetch.nPcOut := by
        rw [Fetch.Regs.address_eq, if_pos idle]
      rcases fetching.counter with ⟨counter, -⟩ | ⟨counter, -⟩
      · have delivers := sound.tracks.delivers_iff.mpr ⟨idle, fetching.busy idle⟩
        refine ⟨r.count + 1, ?_, ?_⟩
        · change _ ≤ if r.tagged.delivers then r.count + 1 else r.count
          rw [if_pos delivers]
        · rw [Program.machine_succ_pc, (sound.nPc_of_delivers delivers).2.2]
          exact address.trans counter
      · exact here (address.trans counter)
    · apply here
      rw [Fetch.Regs.address_eq, if_neg idle]
      exact fetching.address
  · have idle : r.core.fetch.pState = .a := spinning.idle
    have address : r.core.fetch.address = r.core.fetch.nPcOut := by
      rw [Fetch.Regs.address_eq, if_pos idle]
    rcases spinning.counter with ⟨counter, nonzero, -⟩ | ⟨counter, -⟩
    · have repeats : r.core.fetch.repeats = true := by
        apply (Fetch.Regs.repeats_iff idle sound.tracks.wide).mpr
        exact ⟨counter, counter ▸ nonzero⟩
      change r.core.fetch.icReq r.core.icAck = true at asks
      simp [Fetch.Regs.icReq, Fetch.Regs.nIcReq, idle, repeats] at asks
    · exact here (address.trans counter)

/-- What the other stages do to fetch and the caches. -/
def input (r : ProgramRun) (events : DramEvents) : FetchPath.Input :=
  { idReady := r.core.idReady, muxEn := r.core.exOut.muxSel, target := r.core.exOut.target
    dc := r.core.dcRequest, events := events }

theorem Sound.path_step (sound : r.Sound p regFile steps) :
    (r.step syscall events).path = r.path.step (r.input events) := by
  refine FetchPath.ofCore_step syscall r.core events r.ic r.dc ?_
  exact Core.ramAfter_of_quiet sound.supplied.not_calls

theorem Sound.legal (sound : r.Sound p regFile steps) (runnable : p.Runnable regFile steps)
    (allowed : r.core.memory.Allowed events) (within : (r.step syscall events).count < steps) :
    r.path.Legal p.ram (r.input events) := by
  have wide : (r.core.step syscall events).fetch.pPc = _ := Core.wide_step sound.tracks.wide
  change r.core.fetch.nPc = r.core.fetch.address.setWidth 64 at wide
  have line : r.path.icRequest.lineAddr = Program.line r.core.fetch.address := by
    change (r.core.fetch.nPc.extractLsb' 6 24).setWidth 58 = _
    rw [wide]
    rfl
  constructor
  case allowed => exact allowed
  case dcHeld => exact sound.held
  case address =>
    intro asks
    obtain ⟨k, before, address⟩ := sound.asked syscall events asks
    change r.core.fetch.nPc.toNat < 2 ^ 30
    have low := runnable.low k (Nat.lt_of_le_of_lt before within)
    rw [← address] at low
    rw [wide, BitVec.toNat_setWidth]
    omega
  case constant =>
    intro asks
    obtain ⟨k, before, address⟩ := sound.asked syscall events asks
    rw [line, address]
    exact (sound.kept k (Nat.lt_of_le_of_lt before within)).ram

/-- The word that the cache answers with. -/
theorem Sound.answer (sound : r.Sound p regFile steps) (waits : r.core.fetch.pState = .b)
    (acknowledged : r.core.icAck = true) :
    r.core.memory.ic.pProcDataOut = p.word r.core.fetch.lastAddress := by
  obtain ⟨outstanding, tracks⟩ := sound.path
  cases tracks.link with
  | free ready => exact absurd waits ready
  | raised _ _ silent => exact absurd (silent.symm.trans acknowledged) (by decide)
  | waiting _ _ _ silent => exact absurd (silent.symm.trans acknowledged) (by decide)
  | answered _ _ _ word =>
      have address : r.path.fetch.pPc = _ := sound.tracks.wide
      rw [address] at word
      exact word

theorem Sound.fetched_step (sound : r.Sound p regFile steps)
    (holds : (r.step syscall events).holdsWord = true) :
    (r.step syscall events).core.fetch.pInst =
      p.word (r.step syscall events).core.fetch.lastAddress := by
  have address : (r.step syscall events).core.fetch.lastAddress = r.core.fetch.address := rfl
  have inst : (r.step syscall events).core.fetch.pInst =
      r.core.fetch.nInst r.core.icAck r.core.memory.ic.pProcDataOut := rfl
  have state : (r.step syscall events).core.fetch.pState =
      r.core.fetch.nState r.core.icAck r.core.idReady := rfl
  have fetched : (r.step syscall events).tagged.fetched = (r.core.fetch.pState != .a) := rfl
  rw [holdsWord, state, fetched] at holds
  rw [inst, address, Fetch.Regs.address_eq]
  cases former : r.core.fetch.pState with
  | a =>
      rw [Fetch.Regs.nState, former] at holds
      cases repeats : r.core.fetch.repeats <;> simp [repeats] at holds
  | b =>
      cases acknowledged : r.core.icAck with
      | false => simp [Fetch.Regs.nState, former, acknowledged] at holds
      | true =>
          rw [if_neg (by decide), Fetch.Regs.nInst, former, ← sound.answer former acknowledged]
          rfl
  | c =>
      rw [if_neg (by decide), Fetch.Regs.nInst, former]
      exact sound.fetched (by rw [holdsWord, former])
  | s =>
      rw [if_neg (by decide), Fetch.Regs.nInst, former]
      exact sound.fetched (by rw [holdsWord, former])

/-- The machine never comes to the cases that fetch does not get right. -/
theorem Sound.fetchSafe (sound : r.Sound p regFile steps) : Tagged.FetchSafe r.core := by
  refine ⟨?_, ?_, ?_⟩
  · intro taken same
    exfalso
    obtain ⟨target, apart, -⟩ := sound.placed.follows.moves taken
    have free : ¬ r.core.Decoding := by
      intro decoding
      have quiet := sound.tracks.spaced.back.behindDecode decoding
      exact absurd ((Core.not_resolves_of_quiet quiet).symm.trans taken) (by decide)
    have pc := (sound.placed.ahead free).pc
    have here : r.core.fetch.address = r.counters.pc := by
      rw [Fetch.Regs.address_eq]
      rcases sound.tracks.position with fetching | spinning
      · split
        · rename_i idle
          have quiet := (sound.tracks.fresh idle (fetching.busy idle)).2
          exact absurd ((Core.not_resolves_of_quiet quiet).symm.trans taken) (by decide)
        · exact fetching.address
      · rw [if_pos (show r.core.fetch.pState = .a from spinning.idle)]
        rcases spinning.counter with ⟨-, -, quiet, -⟩ | ⟨counter, -⟩
        · exact absurd ((Core.not_resolves_of_quiet quiet).symm.trans taken) (by decide)
        · exact counter
    apply apart
    rw [← target, ← pc, ← here]
    exact same
  · intro repeated _
    exact sound.placed.follows.holds repeated
  · intro annulled _
    exact (sound.placed.follows.annulled annulled).1.ready

/-- The word that fetch hands over is the next one of the machine. -/
theorem Sound.word_of_delivers (sound : r.Sound p regFile steps)
    (delivers : r.tagged.delivers = true) :
    r.core.fetch.lastAddress = (p.machine regFile r.count).pc ∧
      r.core.fetch.pInst = p.word (p.machine regFile r.count).pc := by
  obtain ⟨idle, shown⟩ := sound.tracks.delivers_iff.mp delivers
  have address : r.core.fetch.lastAddress = (p.machine regFile r.count).pc := by
    rw [sound.pc]
    rcases sound.tracks.position with fetching | spinning
    · exact fetching.address
    · rw [spinning.shown] at shown
      cases shown
  have holds : r.holdsWord = true := by
    rw [holdsWord, show r.core.fetch.pState = .a from idle]
    exact shown
  exact ⟨address, by rw [sound.fetched holds, address]⟩

theorem Sound.ordinary_out (sound : r.Sound p regFile steps) (runnable : p.Runnable regFile steps)
    (before : r.count < steps) : Machine.Ordinary r.core.fetch.out.inst := by
  have nop : Machine.Ordinary Inst.nop := by decide
  cases state : r.core.fetch.pState with
  | a =>
      have shows : r.core.fetch.out.inst = r.core.fetch.pInst := by
        simp only [Fetch.Regs.out, state]
      rw [shows]
      cases shown : r.tagged.fetched with
      | true =>
          have delivers := sound.tracks.delivers_iff.mpr ⟨state, shown⟩
          rw [(sound.word_of_delivers delivers).2]
          exact (runnable.regular r.count before).ordinary
      | false =>
          have stale : r.core.fetch.pInst = Inst.nop := sound.tracks.stale state shown
          rw [stale]
          exact nop
  | b => simpa only [Fetch.Regs.out, state] using nop
  | c => simpa only [Fetch.Regs.out, state] using nop
  | s => simpa only [Fetch.Regs.out, state] using nop

/-! ### The machine in a cycle -/

theorem Sound.regular (sound : r.Sound p regFile steps) (runnable : p.Runnable regFile steps)
    (before : r.count < steps) (decoding : r.core.Decoding) :
    (r.machine p regFile).Regular r.core.decoding := by
  rw [(sound.placed.behind decoding).word]
  exact runnable.regular r.entered (Nat.lt_of_le_of_lt r.entered_le before)

variable (syscall) in
theorem Sound.follows_step (sound : r.Sound p regFile steps) (runnable : p.Runnable regFile steps)
    (allowed : r.core.memory.Allowed events) (before : r.count < steps) :
    (r.step syscall events).journal.Follows
      (if r.core.leaves then (r.machine p regFile).next r.core.decoding
        else r.machine p regFile) := by
  apply sound.placed.follows.step sound.supplied allowed
  · exact fun leaving => sound.regular runnable before (Core.decoding_of_leaves leaving)
  · exact fun leaving => (sound.placed.behind (Core.decoding_of_leaves leaving)).address

variable (syscall events) in
/-- Without a word under decode nothing leaves it, and Execute resolves no transfer next. -/
theorem Sound.rests (sound : r.Sound p regFile steps) (free : ¬ r.core.Decoding) :
    r.core.leaves = false ∧ (r.step syscall events).core.resolves = false := by
  constructor
  · by_contra leaving
    rw [Bool.not_eq_false] at leaving
    exact free (Core.decoding_of_leaves leaving)
  · exact Core.not_resolves_of_quiet (sound.tracks.spaced.back.quiet_step free syscall events)

theorem placed_of_decoding (decoding : r.core.Decoding) (behind : r.Behind p regFile)
    (follows : r.journal.Follows (r.machine p regFile)) : r.Placed p regFile :=
  ⟨follows, fun _ => behind, fun free => absurd decoding free⟩

theorem placed_of_free (free : ¬ r.core.Decoding) (ahead : r.Ahead p regFile)
    (follows : r.journal.Follows (r.machine p regFile)) : r.Placed p regFile :=
  ⟨follows, fun decoding => absurd decoding free, fun _ => ahead⟩

/-- A word comes to decode, unless it is a no-op, which is executed by that. -/
theorem Sound.placed_of_delivers (sound : r.Sound p regFile steps)
    (runnable : p.Runnable regFile steps) (allowed : r.core.memory.Allowed events)
    (before : r.count < steps) (delivers : r.tagged.delivers = true) :
    (r.step syscall events).Placed p regFile := by
  obtain ⟨idle, shown⟩ := sound.tracks.delivers_iff.mp delivers
  obtain ⟨free, -, nPc⟩ := sound.nPc_of_delivers delivers
  obtain ⟨address, word⟩ := sound.word_of_delivers delivers
  obtain ⟨kept, untaken⟩ := sound.rests syscall events free
  have follows := sound.follows_step syscall runnable allowed before
  rw [kept, if_neg (by decide)] at follows
  have here : r.machine p regFile = p.machine regFile r.count := by
    rw [machine, entered_of_free free]
  have count : (r.step syscall events).count = r.count + 1 := if_pos delivers
  have counters : (r.step syscall events).counters =
      { last := some r.core.fetch.lastAddress, pc := r.counters.nPc
        nPc := r.counters.nPc + 4 } := (sound.tracks.advance_of_delivers idle shown).2
  simp only [Core.Decoding, not_or, not_not] at free
  have nextFree : (r.step syscall events).core.decode.pState = .a :=
    Core.decode_free_of_nop free.1 free.2 syscall events
  have loaded : (r.step syscall events).core.ifid =
      { pcPlus4 := r.core.fetch.pPc, inst := r.core.fetch.pInst } := by
    change r.core.ifid.step r.core.fetch.out r.core.idReady = _
    have state : r.core.fetch.pState = .a := idle
    simp [IFID.step, Core.idReady, Decode.Regs.idReady, free.1, Fetch.Regs.out, state]
  by_cases nop : r.core.fetch.pInst = Inst.nop
  · have nextEmpty : ¬ (r.step syscall events).core.Decoding := by
      simp only [Core.Decoding, nextFree, loaded, nop]
      decide
    have skipped : Decode.isNop (p.word (p.machine regFile r.count).pc) = true := by
      rw [← word, nop]
      decide
    have unannulled : (p.machine regFile r.count).annul = false := by
      by_contra owed
      have other := ((runnable.regular r.count before).annulled (by simpa using owed)).1
      exact absurd (skipped.symm.trans other) (by decide)
    have moved : (r.step syscall events).machine p regFile =
        { p.machine regFile r.count with
          pc := (p.machine regFile r.count).nPc
          nPc := (p.machine regFile r.count).nPc + 4
          annul := false } := by
      rw [machine, entered_of_free nextEmpty, count, Program.machine_succ,
        Machine.next_of_isNop skipped unannulled]
    apply placed_of_free nextEmpty
    · constructor
      · rw [counters, moved, nPc]
      · intro _
        rw [counters, moved, nPc]
    · rw [moved, ← here]
      rw [← here] at unannulled
      exact follows.elsewhere untaken rfl unannulled.symm rfl
  · have decoding : (r.step syscall events).core.Decoding := by
      right
      rw [loaded]
      exact nop
    have same : (r.step syscall events).machine p regFile = p.machine regFile r.count := by
      rw [machine, entered_of_decoding decoding, count, Nat.add_sub_cancel]
    apply placed_of_decoding decoding
    · constructor
      · rw [count]
        exact Nat.succ_pos _
      · rw [same, ← word]
        simp only [Core.decoding, Decode.Regs.nInst, nextFree, loaded]
      · rw [same, ← address]
        simp only [Decode.Regs.nPc, nextFree, loaded]
        exact sound.tracks.wide
      · rw [counters, same, nPc]
      · rw [counters, same, nPc]
    · rw [same, ← here]
      exact follows

/-- Behind the word that leaves decode the machine is at the next one, and at a target if
Execute resolves a transfer now. -/
theorem Sound.placed_of_leaves (sound : r.Sound p regFile steps)
    (runnable : p.Runnable regFile steps) (allowed : r.core.memory.Allowed events)
    (before : r.count < steps) (leaving : r.core.leaves = true) :
    (r.step syscall events).Placed p regFile := by
  have decoding := Core.decoding_of_leaves leaving
  have behind := sound.placed.behind decoding
  have regular := sound.regular runnable before decoding
  have follows := sound.follows_step syscall runnable allowed before
  rw [leaving, if_pos rfl] at follows
  have nextEmpty : ¬ (r.step syscall events).core.Decoding :=
    sound.tracks.spaced.front.empty_of_leaves leaving
  have silent : r.tagged.delivers = false := by
    by_contra delivers
    exact (sound.nPc_of_delivers (by simpa using delivers)).1 decoding
  have count : (r.step syscall events).count = r.count := if_neg (by simp [silent])
  have counters : (r.step syscall events).counters = r.counters :=
    sound.tracks.advance_of_decoding decoding
  have moved : (r.step syscall events).machine p regFile =
      (r.machine p regFile).next r.core.decoding := by
    rw [machine, entered_of_free nextEmpty, count, sound.machine_count, if_pos decoding]
  apply placed_of_free nextEmpty
  · constructor
    · rw [counters, moved, Machine.next_pc, behind.pc]
    · intro untaken
      rw [counters, moved, behind.nPc]
      cases owed : (r.machine p regFile).annul with
      | true => rw [Machine.next_of_annul owed]
      | false =>
          have straight : (r.machine p regFile).transfers r.core.decoding = false := by
            by_contra transfers
            rw [Bool.not_eq_false] at transfers
            have taken := sound.placed.follows.resolves_of_transfers syscall events sound.supplied
              leaving regular behind.address owed transfers
            exact absurd (untaken.symm.trans taken) (by decide)
          rw [Machine.next_of_kept owed, straight]
          rfl
  · rw [moved]
    exact follows

theorem Sound.placed_of_held (sound : r.Sound p regFile steps)
    (runnable : p.Runnable regFile steps) (allowed : r.core.memory.Allowed events)
    (before : r.count < steps) (decoding : r.core.Decoding) (kept : r.core.leaves = false) :
    (r.step syscall events).Placed p regFile := by
  have behind := sound.placed.behind decoding
  have follows := sound.follows_step syscall runnable allowed before
  rw [kept, if_neg (by decide)] at follows
  have held : (r.step syscall events).core.decode.pState ≠ .a :=
    Core.held_of_not_leaves decoding kept
  have nextDecoding : (r.step syscall events).core.Decoding := .inl held
  obtain ⟨word, address⟩ := Core.decoding_step_of_held held
  have silent : r.tagged.delivers = false := by
    by_contra delivers
    exact (sound.nPc_of_delivers (by simpa using delivers)).1 decoding
  have count : (r.step syscall events).count = r.count := if_neg (by simp [silent])
  have counters : (r.step syscall events).counters = r.counters :=
    sound.tracks.advance_of_decoding decoding
  have same : (r.step syscall events).machine p regFile = r.machine p regFile := by
    rw [machine, machine, entered_of_decoding nextDecoding, entered_of_decoding decoding, count]
  apply placed_of_decoding nextDecoding
  · constructor
    · rw [count]
      exact behind.handed
    · rw [same, ← behind.word]
      exact word
    · rw [same, ← behind.address]
      exact address
    · rw [counters, same, behind.pc]
    · rw [counters, same, behind.nPc]
  · rw [same]
    exact follows

/-- While fetch waits, a transfer may be resolved. -/
theorem Sound.placed_of_silent (sound : r.Sound p regFile steps)
    (runnable : p.Runnable regFile steps) (allowed : r.core.memory.Allowed events)
    (before : r.count < steps) (free : ¬ r.core.Decoding) (silent : r.tagged.delivers = false) :
    (r.step syscall events).Placed p regFile := by
  have ahead := sound.placed.ahead free
  have follows := sound.follows_step syscall runnable allowed before
  rw [(sound.rests syscall events free).1, if_neg (by decide)] at follows
  have apart : ¬ (r.tagged.core.fetch.pState = .a ∧ r.tagged.fetched = true) := by
    rw [← sound.tracks.delivers_iff, silent]
    decide
  have nextEmpty : ¬ (r.step syscall events).core.Decoding := by
    simp only [Core.Decoding, not_or, not_not] at free
    have nextFree : (r.step syscall events).core.decode.pState = .a :=
      Core.decode_free_of_nop free.1 free.2 syscall events
    rintro (held | word)
    · exact held nextFree
    · obtain ⟨-, idle, shown⟩ := sound.tracks.spaced.front.arrives word
      cases fetched : r.tagged.fetched with
      | true => exact apart ⟨idle, fetched⟩
      | false => exact shown (sound.tracks.stale idle fetched)
  have count : (r.step syscall events).count = r.count := if_neg (by simp [silent])
  have same : (r.step syscall events).machine p regFile = r.machine p regFile := by
    rw [machine, machine, entered_of_free nextEmpty, entered_of_free free, count]
  apply placed_of_free nextEmpty
  · cases taken : r.core.resolves with
    | true =>
        have counters : (r.step syscall events).counters =
            { r.counters with last := none, nPc := r.core.target } :=
          (sound.tracks.advance_of_resolves taken).2.2
        constructor
        · rw [counters, same, ← ahead.pc]
        · intro _
          rw [counters, same]
          exact (sound.placed.follows.moves taken).1
    | false =>
        have counters : (r.step syscall events).counters = r.counters :=
          (sound.tracks.advance_of_silent apart taken).2
        constructor
        · rw [counters, same, ahead.pc]
        · intro _
          rw [counters, same, ahead.nPc taken]
  · rw [same]
    exact follows

theorem Sound.placed_step (sound : r.Sound p regFile steps) (runnable : p.Runnable regFile steps)
    (allowed : r.core.memory.Allowed events) (before : r.count < steps) :
    (r.step syscall events).Placed p regFile := by
  by_cases decoding : r.core.Decoding
  · cases leaving : r.core.leaves with
    | true => exact sound.placed_of_leaves runnable allowed before leaving
    | false => exact sound.placed_of_held runnable allowed before decoding leaving
  · cases delivers : r.tagged.delivers with
    | true => exact sound.placed_of_delivers runnable allowed before delivers
    | false => exact sound.placed_of_silent runnable allowed before decoding delivers

/-! ### One cycle -/

theorem count_step (r : ProgramRun) : r.count ≤ (r.step syscall events).count := by
  change r.count ≤ if r.tagged.delivers then r.count + 1 else r.count
  split <;> omega

theorem Placed.effects_prefix (placed : r.Placed p regFile) :
    r.effects <+: (p.machine regFile r.count).state.effects := by
  have finished : r.effects <+: r.journal.finished.effects :=
    Journal.effects_prefix_finished r.journal
  rw [placed.follows.state] at finished
  exact finished.trans (Program.effects_prefix_machine r.entered_le)

/-- The changes of a cycle miss the lines that the machine fetches. -/
theorem Sound.kept_step (sound : r.Sound p regFile steps) (runnable : p.Runnable regFile steps)
    (allowed : r.core.memory.Allowed events) (within : (r.step syscall events).count < steps)
    {k : Nat} (inside : k < steps) :
    (r.step syscall events).core.memory.KeepsLine p.ram (r.step syscall events).core.dcRequest
      (Program.line (p.machine regFile k).pc) := by
  apply sound.supplied.carried.keepsLine_step sound.supplied.not_calls sound.supplied.window
    allowed (sound.kept k inside)
  have before : r.count < steps := Nat.lt_of_le_of_lt r.count_step within
  have placed : (r.step syscall events).Placed p regFile :=
    sound.placed_step runnable allowed before
  intro e member
  apply runnable.constant e _ k inside
  apply (Program.effects_prefix_machine (Nat.le_of_lt within)).subset
  exact placed.effects_prefix.subset (List.mem_append_right r.effects member)

theorem Sound.step (sound : r.Sound p regFile steps) (runnable : p.Runnable regFile steps)
    (allowed : r.core.memory.Allowed events) (within : (r.step syscall events).count < steps) :
    (r.step syscall events).Sound p regFile steps := by
  have before : r.count < steps := Nat.lt_of_le_of_lt r.count_step within
  constructor
  case supplied => exact sound.supplied.step allowed (sound.ordinary_out runnable before)
  case tracks => exact sound.tracks.step syscall events sound.fetchSafe
  case path =>
    rw [sound.path_step]
    exact sound.path.step (sound.legal runnable allowed within)
  case held =>
    intro busy
    rcases MemPath.Phase.request_step sound.supplied.carried.path (r.journal.input events) with
      idle | same
    · exact absurd idle busy
    · exact same
  case placed => exact sound.placed_step runnable allowed before
  case fetched => exact sound.fetched_step
  case kept =>
    intro k inside
    exact sound.kept_step runnable allowed within inside

end

/-! ### The first cycle -/

theorem start_free (syscall : Syscall) (p : Program) (regFile : RegFile) :
    ¬ (start syscall p regFile).core.Decoding := by
  rintro (held | word)
  · exact held (Core.start_decode syscall p.entry regFile p.ram)
  · exact word rfl

theorem sound_start (syscall : Syscall) {p : Program} {regFile : RegFile} {steps : Nat}
    (runnable : p.Runnable regFile steps) :
    (start syscall p regFile).Sound p regFile steps where
  supplied := by
    refine ⟨(Core.sound_start syscall p.entry regFile p.ram).carried, ?_, ?_⟩
    · change Machine.Ordinary Inst.nop
      decide
    · exact fun busy => absurd (Core.start_decode syscall p.entry regFile p.ram) busy
  tracks := Tagged.fetchTracks_start syscall p.entry regFile p.ram
  path := by
    rw [show (start syscall p regFile).path = FetchPath.start p.entry p.ram from
      FetchPath.ofCore_start syscall p.entry regFile p.ram]
    exact ⟨none, FetchPath.tracks_start p.entry p.ram p.ram⟩
  held busy := absurd rfl busy
  placed := by
    have free := start_free syscall p regFile
    have first : (start syscall p regFile).machine p regFile = p.machine regFile 0 := by
      rw [machine, entered_of_free free]
      rfl
    apply placed_of_free free
    · constructor
      · rw [first]
        rfl
      · intro _
        rw [first]
        rfl
    · rw [first]
      exact Journal.follows_start syscall p.entry regFile p.ram
  fetched := by
    intro holds
    have state : (start syscall p regFile).core.fetch.pState = .b :=
      Core.start_fetching syscall p.entry regFile p.ram
    rw [holdsWord, state] at holds
    cases holds
  kept k inside := Core.start_keepsLine syscall p.entry regFile p.ram (runnable.genuine k inside)

/-! ### Runs -/

section

variable {p : Program} {regFile : RegFile} {steps : Nat} {r : ProgramRun} {syscall : Syscall}
  {events : DramEvents}

/-- The word that fetch hands over, with its address. -/
def handsOver (t : Tagged Unit) (_ : DramEvents) : Option (BitVec 32 × Inst) :=
  if t.delivers then some (t.core.fetch.lastAddress, t.core.fetch.pInst) else none

/-- The words of the machine that fetch has handed over. -/
def handed (p : Program) (regFile : RegFile) (r : ProgramRun) : List (BitVec 32 × Inst) :=
  p.first regFile r.count

theorem Sound.handed_step (sound : r.Sound p regFile steps) :
    (r.step syscall events).handed p regFile =
      (handsOver r.tagged events).elim (r.handed p regFile)
        fun word => r.handed p regFile ++ [word] := by
  change p.first regFile (if r.tagged.delivers then r.count + 1 else r.count) = _
  rw [handsOver]
  cases delivers : r.tagged.delivers with
  | true =>
      obtain ⟨address, word⟩ := sound.word_of_delivers delivers
      change p.first regFile (r.count + 1) =
        p.first regFile r.count ++ [(r.core.fetch.lastAddress, r.core.fetch.pInst)]
      rw [Program.first, List.range_succ, List.map_append, address, word]
      rfl
  | false => rfl

theorem run_journal (r : ProgramRun) (inputs : List DramEvents) :
    (Runs.run (step syscall) r inputs).journal =
      Runs.run (Journal.step syscall) r.journal inputs :=
  Runs.run_view (fun _ _ => rfl) r inputs

theorem guarded_of_core {good : Core → DramEvents → Prop} {r : ProgramRun}
    {inputs : List DramEvents} (guarded : Runs.Guarded (Core.step syscall) good r.core inputs) :
    Runs.Guarded (step syscall) (fun r events => good r.core events) r inputs :=
  (Runs.guarded_view (fun _ _ => rfl) r inputs).mpr guarded

theorem emits_tagged {Event : Type*} (event : Tagged Unit → DramEvents → Option Event)
    (r : ProgramRun) (inputs : List DramEvents) :
    Runs.emits (step syscall) (fun r events => event r.tagged events) r inputs =
      Runs.emits (Tagged.step (fun _ => ()) syscall) event r.tagged inputs :=
  Runs.emits_view (fun _ _ => rfl) r inputs

theorem run_count (r : ProgramRun) (inputs : List DramEvents) :
    (Runs.run (step syscall) r inputs).count =
      r.count +
        (Runs.emits (Tagged.step (fun _ => ()) syscall) handsOver r.tagged inputs).length := by
  rw [← emits_tagged]
  apply Runs.length_emits
  intro r events
  change (if r.tagged.delivers then r.count + 1 else r.count) = _
  rw [handsOver]
  cases r.tagged.delivers <;> rfl

/-- The words that fetch hands over are the first ones of the machine. -/
theorem emits_handsOver (runnable : p.Runnable regFile steps) {events : List DramEvents}
    (guarded : Runs.Guarded (step syscall)
      (fun r events => r.core.memory.Allowed events ∧ (r.step syscall events).count < steps)
      (start syscall p regFile) events) :
    Runs.emits (Tagged.step (fun _ => ()) syscall) handsOver
        (Tagged.start (Core.start syscall p.entry regFile p.ram)) events =
      (Runs.run (step syscall) (start syscall p regFile) events).handed p regFile := by
  have collected : (Runs.run (step syscall) (start syscall p regFile) events).handed p regFile =
      (Runs.emits (step syscall) (fun r events => handsOver r.tagged events)
        (start syscall p regFile) events).foldl (fun list word => list ++ [word])
          ((start syscall p regFile).handed p regFile) :=
    guarded.simulates (fun _ _ sound good => Sound.step sound runnable good.1 good.2)
      (fun _ _ sound _ => Sound.handed_step sound) (sound_start syscall runnable)
  rw [List.foldl_append_eq_append, emits_tagged, ← List.flatMap_def,
    List.flatMap_singleton'] at collected
  exact collected.symm

end

end ProgramRun

namespace Program

/-- The words that fetch hands over in a run, with their addresses. -/
def handed (p : Program) (syscall : Syscall) (regFile : RegFile) (events : List DramEvents) :
    List (BitVec 32 × Inst) :=
  Runs.emits (Tagged.step (fun _ => ()) syscall) ProgramRun.handsOver
    (Tagged.start (Core.start syscall p.entry regFile p.ram)) events

/-- The processor after a run has been through the first words of the machine. -/
structure Executes (p : Program) (syscall : Syscall) (regFile : RegFile)
    (events : List DramEvents) (n : Nat) : Prop where
  /-- Fetch has handed over the words of the machine, one after the other. -/
  words : p.handed syscall regFile events = p.first regFile n
  /-- The changes are those of the machine, in its order. -/
  inOrder : (Core.start syscall p.entry regFile p.ram).changes syscall events <+:
    (p.machine regFile n).state.effects
  /-- When the pipeline is empty, its registers and its memory are those of the machine. -/
  drained : (Runs.run (Core.step syscall) (Core.start syscall p.entry regFile p.ram)
      events).Drained →
    { regs := (Runs.run (Core.step syscall)
        (Core.start syscall p.entry regFile p.ram) events).regFile
      memory := (Runs.run (Core.step syscall)
        (Core.start syscall p.entry regFile p.ram) events).memory.memory
          (Runs.run (Core.step syscall) (Core.start syscall p.entry regFile p.ram)
            events).dcRequest
      effects := (Core.start syscall p.entry regFile p.ram).changes syscall events } =
        (p.machine regFile n).state

end Program

namespace ProgramRun

section

variable {p : Program} {regFile : RegFile} {steps : Nat} {r : ProgramRun}

/-- A word that is still under decode in an empty pipeline is a no-op. -/
theorem Sound.written_of_drained (sound : r.Sound p regFile steps)
    (runnable : p.Runnable regFile steps) (before : r.count < steps) (drained : r.core.Drained) :
    r.journal.written = (p.machine regFile r.count).state := by
  have here : r.journal.written = (r.machine p regFile).state := by
    rw [← sound.placed.follows.state]
    exact (sound.supplied.finished_of_drained drained).symm
  rw [here, sound.machine_count]
  split
  · rename_i decoding
    have regular := sound.regular runnable before decoding
    have nop : Decode.isNop r.core.decoding = true := by
      rw [Core.decoding, Decode.Regs.nInst, drained.decode]
      exact drained.ifid
    have kept : (r.machine p regFile).annul = false := by
      by_contra owed
      have other := (regular.annulled (by simpa using owed)).1
      exact absurd (nop.symm.trans other) (by decide)
    rw [Machine.next_of_isNop nop kept]
  · rfl

end

end ProgramRun

namespace Program

/-- A program with branches, loops, calls and jumps is executed as the machine with two
program counters does, in every run in which the events are those of `System::tick`. -/
theorem executes_program (p : Program) (syscall : Syscall) (regFile : RegFile) (steps : Nat)
    (runnable : p.Runnable regFile steps) (events : List DramEvents)
    (allowed : Runs.Guarded (Core.step syscall) (fun s events => s.memory.Allowed events)
      (Core.start syscall p.entry regFile p.ram) events)
    (few : (p.handed syscall regFile events).length < steps) :
    p.Executes syscall regFile events (p.handed syscall regFile events).length := by
  let s := Core.start syscall p.entry regFile p.ram
  let first : ProgramRun := ProgramRun.start syscall p regFile
  let last : ProgramRun := Runs.run (ProgramRun.step syscall) first events
  have count : last.count = (p.handed syscall regFile events).length :=
    (ProgramRun.run_count first events).trans (Nat.zero_add _)
  have guarded := (ProgramRun.guarded_of_core (r := first) allowed).below
    (fun r _ => r.count_step) (show last.count < steps from count ▸ few)
  have sound : last.Sound p regFile steps :=
    (guarded.always (fun _ _ sound good => ProgramRun.Sound.step sound runnable good.1 good.2)
      (ProgramRun.sound_start syscall runnable)).last
  have core : last.core = Runs.run (Core.step syscall) s events :=
    Runs.run_view (fun _ _ => rfl) first events
  have effects : last.effects = s.changes syscall events := by
    have journal : last.journal = _ := ProgramRun.run_journal first events
    change last.journal.effects = _
    rw [journal]
    exact Journal.run_effects events
  rw [← count]
  refine ⟨?_, ?_, ?_⟩
  · exact ProgramRun.emits_handsOver runnable guarded
  · rw [← effects]
    exact sound.placed.effects_prefix
  · rw [← core, ← effects]
    exact sound.written_of_drained runnable (count ▸ few)

/-- `%g1` counts down from 2 in a loop whose delay slot adds it to `%g2`. -/
def countdown : Program :=
  { ram := Ram.ofWords
      ([0x82102002, 0x82a06001, 0x12bfffff, 0x84008001] ++ List.replicate 12 Inst.nop)
    entry := 0 }

/-- Fetch goes back to the `subcc` behind the delay slot. -/
theorem executes_program_countdown :
    countdown.Executes (fun _ ram => (0, ram)) RegFile.reset
      (DramEvents.firstFetch ++ List.replicate 16 (.completing [])) 5 := by
  have five : (countdown.handed (fun _ ram => (0, ram)) RegFile.reset
      (DramEvents.firstFetch ++ List.replicate 16 (.completing []))).length = 5 := by
    decide +kernel
  have executes := executes_program countdown (fun _ ram => (0, ram)) RegFile.reset 8
    (by decide +kernel) (DramEvents.firstFetch ++ List.replicate 16 (.completing []))
    (by decide +kernel) (by rw [five]; decide)
  rwa [five] at executes

end Program

end Sparcy
