import Sparcy.DataAliasing

/-!
# The memory of a system call

`syscall_cse502` works on the RAM, behind the data cache and ahead of Mem.  A trace
keeps for every byte what was written last.  When nothing is held back from the RAM a call
finds that there, and every load is served from a line that has it.
-/

namespace Sparcy

open Words (word)

/-! ### Bytes of lines -/

namespace Ram

/-- The line of a byte, and its place in a row that holds the line. -/
def lineOf (b : BitVec 64) : BitVec 58 := b.extractLsb' 6 58

def laneOf (b : BitVec 64) : Nat := (b.extractLsb' 3 3).toNat * 8 + (7 - (b.extractLsb' 0 3).toNat)

theorem laneOf_lt (b : BitVec 64) : laneOf b < 64 := by
  have select := (b.extractLsb' 3 3).isLt
  unfold laneOf
  omega

def byteOf (row : BitVec 512) (b : BitVec 64) : BitVec 8 := word 8 row (laneOf b)

/-- The bytes of a memory that is given by its lines. -/
def ofLines (lines : BitVec 58 → BitVec 512) : Ram := fun b => byteOf (lines (lineOf b)) b

theorem beatAddr_add (b : BitVec 64) :
    System.beatAddr (lineAddress (lineOf b)) (b.extractLsb' 3 3).toNat +
      BitVec.ofNat 64 (b.extractLsb' 0 3).toNat = b := by
  have beat := toNat_beatAddr (lineOf b) (b.extractLsb' 3 3).isLt
  have low := (b.extractLsb' 0 3).isLt
  have bound := b.isLt
  apply BitVec.eq_of_toNat_eq
  rw [BitVec.toNat_add, beat, BitVec.toNat_ofNat]
  simp only [lineOf, BitVec.extractLsb'_toNat, Nat.shiftRight_eq_div_pow] at low ⊢
  omega

theorem byteOf_line (ram : Ram) (b : BitVec 64) : byteOf (ram.line (lineOf b)) b = ram b := by
  have select := (b.extractLsb' 3 3).isLt
  have low := (b.extractLsb' 0 3).isLt
  have split := Words.word_word (show 64 = 8 * 8 from rfl) (ram.line (lineOf b))
    (b.extractLsb' 3 3).toNat (show 7 - (b.extractLsb' 0 3).toNat < 8 by omega)
  rw [byteOf, laneOf, ← split, word_line _ _ select, doubleword, word_be64toh_load64 _ _ low,
    beatAddr_add]

end Ram

/-! ### The bytes that were written -/

/-- For each address the byte that was written last. -/
abbrev Written := BitVec 64 → Option (BitVec 8)

namespace Written

open Ram (lineOf laneOf byteOf ofLines)
open MemPath (requestOf)

/-- What a store of the data cache leaves behind. -/
def put (w : Written) (p : DcRequest) (line : BitVec 58) : Written := fun b =>
  if lineOf b = line ∧ (DCache.storeEnable p).getLsbD (laneOf b) = true then
    some (byteOf (DCache.storeData p) b)
  else w b

/-- The line of the address that Execute has computed. -/
def programLine (alures : BitVec 64) : BitVec 58 :=
  BitVec.ofNat 58 ((alures.setWidth 32).toNat / 64)

/-- What an instruction of the program leaves behind. -/
def perform (w : Written) (x : EXMem) : Written :=
  if Mem.storeOp x.op x.op3 then w.put (requestOf x) (programLine x.alures) else w

/-- The bytes that differ after a system call are its own. -/
def change (w : Written) (before after : Ram) : Written := fun b =>
  if before b = after b then w b else some (after b)

/-- A memory holds what was written last. -/
def HeldBy (w : Written) (ram : Ram) : Prop := ∀ b v, w b = some v → ram b = v

theorem change_self (w : Written) (ram : Ram) : w.change ram ram = w := by
  funext b
  exact if_pos rfl

theorem perform_of_other {w : Written} {x : EXMem} (other : Mem.storeOp x.op x.op3 = false) :
    w.perform x = w := by
  rw [perform, other]
  rfl

theorem foldl_perform_of_other {pending : List EXMem} (w : Written)
    (others : ∀ x ∈ pending, Mem.storeOp x.op x.op3 = false) : pending.foldl perform w = w := by
  induction pending with
  | nil => rfl
  | cons x pending induction =>
      rw [List.foldl_cons, perform_of_other (others x List.mem_cons_self)]
      exact induction fun y member => others y (List.mem_cons_of_mem _ member)

/-- A store replaces the bytes that it enables in its line. -/
theorem HeldBy.put {w : Written} {lines : BitVec 58 → BitVec 512}
    (held : w.HeldBy (ofLines lines)) (p : DcRequest) (line : BitVec 58) :
    (w.put p line).HeldBy (ofLines fun l =>
      if l = line then
        writeWords (lines l) (DCache.storeData p) 8 (DCache.storeEnable p)
      else lines l) := by
  intro b v known
  have inside := Ram.laneOf_lt b
  unfold Written.put at known
  simp only [ofLines]
  by_cases own : lineOf b = line
  · rw [if_pos own, byteOf, word_writeWords (by decide) _ _ _ (by omega)]
    cases enabled : (DCache.storeEnable p).getLsbD (laneOf b) with
    | true =>
        rw [if_pos ⟨own, enabled⟩] at known
        exact Option.some.inj known
    | false =>
        rw [if_neg (by simp [enabled])] at known
        exact held b v known
  · rw [if_neg (fun both => own both.1)] at known
    rw [if_neg own]
    exact held b v known

/-- Below 2^20 Mem asks for the line of the address. -/
theorem programLine_eq {x : EXMem} (low : MemorySystem.address x < 2 ^ 20) :
    programLine x.alures = (requestOf x).lineAddr := by
  have asked := MemorySystem.toNat_requestOf_lineAddr x
  have same : (programLine x.alures).toNat = MemorySystem.address x / 64 % 2 ^ 58 :=
    BitVec.toNat_ofNat ..
  apply BitVec.eq_of_toNat_eq
  omega

end Written

/-! ### A RAM that changes behind the data cache -/

theorem Ram.doubleword_of_line {ram ram' : Ram} {l : BitVec 58} (same : ram'.line l = ram.line l)
    {k : Nat} (inside : k < 8) : ram'.doubleword l k = ram.doubleword l k := by
  rw [← Ram.word_line _ _ inside, same, Ram.word_line _ _ inside]

/-- Beats that are queued keep the line that they were read from. -/
theorem System.Answers.withRam {s : System} {tag : BitVec 13} {l : BitVec 58} {c : Nat} {ram : Ram}
    (answers : s.Answers tag l c) (same : s.beatsFor tag ≠ [] → ram.line l = s.ram.line l) :
    System.Answers { s with ram := ram } tag l c := by
  rcases answers with nothing | ⟨reads, beats⟩
  · exact .inl nothing
  · refine .inr ⟨reads, Eq.trans beats ?_⟩
    by_cases none : (List.range 8).drop c = []
    · simp only [none, List.map_nil]
    · have queued : s.beatsFor tag ≠ [] := by
        rw [beats]
        exact fun empty => none (List.map_eq_nil_iff.mp empty)
      apply List.map_congr_left
      intro k member
      have inside := List.mem_range.mp (List.mem_of_mem_drop member)
      exact (Ram.doubleword_of_line (same queued) inside).symm

namespace MemorySystem

open DCache (readTag)
open DCache.Regs (set)
open ICache (index tag)
open Ram (lineOf byteOf ofLines)

/-- The RAM is another one. -/
def withRam (m : MemorySystem) (ram : Ram) : MemorySystem :=
  { m with sys := { m.sys with ram := ram } }

/-- The lines in the data cache are the same in both RAMs.  A line that is being fetched
counts from its first beat on. -/
def Apart (m : MemorySystem) (p : DcRequest) (ram : Ram) : Prop :=
  ∀ i, (m.dc.Replaces p i →
      m.dc.pState = .e ∧ (m.dc.pCounter ≠ 0 ∨ m.sys.beatsFor readTag ≠ [])) →
    ram.line (m.dc.lineAt i) = m.sys.ram.line (m.dc.lineAt i)

instance (m : MemorySystem) (p : DcRequest) (ram : Ram) : Decidable (m.Apart p ram) :=
  inferInstanceAs (Decidable (∀ _, _))

section

variable {m : MemorySystem} {p : DcRequest} {ram : Ram}

theorem apart_self (m : MemorySystem) (p : DcRequest) : m.Apart p m.sys.ram := fun _ _ => rfl

theorem Burst.withRam {i : BitVec 4} (burst : m.Burst i)
    (same : ram.line (m.dc.lineAt i) = m.sys.ram.line (m.dc.lineAt i)) :
    (m.withRam ram).Burst i := by
  have sent : ∀ n, n ≤ 8 → m.Sent i n → (m.withRam ram).Sent i n := by
    intro n bound sent k below
    have word : ram.doubleword (m.dc.lineAt i) k = m.sys.ram.doubleword (m.dc.lineAt i) k :=
      Ram.doubleword_of_line same (by omega)
    exact word.trans (sent k below)
  cases burst with
  | start counter off count => exact .start counter off count
  | waiting counter on req tag count elsewhere =>
      exact .waiting counter on req tag count elsewhere
  | sending n counter more on tag count xfer granted stored =>
      exact .sending n counter more on tag count xfer granted (sent n (by omega) stored)
  | sent counter on tag granted stored =>
      exact .sent counter on tag granted (sent 8 le_rfl stored)

theorem Phase.withRam (phase : m.Phase p) (apart : m.Apart p ram) : (m.withRam ram).Phase p := by
  cases phase with
  | idle state free => exact .idle state ⟨free.off, free.count, free.quiet⟩
  | lookup state free loaded => exact .lookup state ⟨free.off, free.count, free.quiet⟩ loaded
  | evict state loaded dirty quiet burst =>
      have kept : ¬ m.dc.Replaces p (set p) := by
        rintro ⟨other | other, -⟩ <;> rw [state] at other <;> cases other
      exact .evict state loaded dirty quiet
        (burst.withRam (apart _ fun replaced => absurd replaced kept))
  | ask state count line asked granted => exact .ask state count line asked granted
  | refill state off count claimed low filled answers =>
      have named : m.dc.lineAt (set p) = p.lineAddr := by
        rw [DCache.Regs.lineAt, claimed.tag, tag_index]
      -- with the first beat the line is fixed
      have same : m.dc.pCounter ≠ 0 ∨ m.sys.beatsFor readTag ≠ [] →
          ram.line p.lineAddr = m.sys.ram.line p.lineAddr := by
        intro begun
        rw [← named]
        exact apart _ fun _ => ⟨state, begun⟩
      have answers' : (m.withRam ram).sys.Answers readTag p.lineAddr m.dc.pCounter.toNat :=
        answers.withRam fun queued => same (.inr queued)
      refine .refill state off count claimed low ?_ answers'
      intro k (below : k < m.dc.pCounter.toNat)
      have begun : m.dc.pCounter ≠ 0 := by
        intro zero
        rw [zero] at below
        exact absurd below (Nat.not_lt_zero k)
      have word : ram.doubleword p.lineAddr k = m.sys.ram.doubleword p.lineAddr k :=
        Ram.doubleword_of_line (same (.inl begun)) (by omega)
      exact word.trans (filled k below)

theorem memory_withRam (l : BitVec 58) :
    (m.withRam ram).memory p l =
      if m.dc.tagSram.mem (index l) = tag l ∧ ¬ m.dc.Replaces p (index l) then
        m.dc.dataSram.mem (index l)
      else ram.line l := rfl

/-- Between two ticks the RAM may change where no line is cached. -/
theorem Tracked.withRam (tracked : m.Tracked p) (apart : m.Apart p ram) :
    (m.withRam ram).Tracked p := by
  refine ⟨⟨tracked.port.waits, tracked.port.reads⟩, ?_, tracked.phase.withRam apart⟩
  intro i clean kept
  have same : ram.line (m.dc.lineAt i) = m.sys.ram.line (m.dc.lineAt i) :=
    apart i fun replaced => absurd replaced kept
  exact (tracked.clean i clean kept).trans same.symm

theorem Allowed.withRam {events : DramEvents} (allowed : m.Allowed events) :
    (m.withRam ram).Allowed events :=
  ⟨allowed.burst, allowed.nodup, allowed.pending, allowed.refused⟩

/-- The changed bytes are in lines that are not cached. -/
theorem held_withRam {w : Written} (held : w.HeldBy (ofLines (m.memory p)))
    (apart : m.Apart p ram) :
    (w.change m.sys.ram ram).HeldBy (ofLines ((m.withRam ram).memory p)) := by
  intro b v known
  have earlier := held b v
  unfold Written.change at known
  simp only [ofLines, memory_withRam] at earlier ⊢
  by_cases present : m.dc.tagSram.mem (index (lineOf b)) = tag (lineOf b) ∧
      ¬ m.dc.Replaces p (index (lineOf b))
  · have line : ram.line (lineOf b) = m.sys.ram.line (lineOf b) := by
      rw [eq_lineAt present.1]
      exact apart _ fun replaced => absurd replaced present.2
    have same : m.sys.ram b = ram b := by
      rw [← m.sys.ram.byteOf_line, ← line, ram.byteOf_line]
    rw [if_pos same] at known
    have cached := earlier known
    rw [memory, if_pos present] at cached
    rw [if_pos present]
    exact cached
  · rw [memory, if_neg present, Ram.byteOf_line] at earlier
    rw [if_neg present, Ram.byteOf_line]
    split at known
    · rename_i same
      rw [← same]
      exact earlier known
    · exact Option.some.inj known

end

end MemorySystem

/-! ### Calls in a run -/

namespace Core

/-- The ALU block settles on a taken trap. -/
def calls (s : Core) : Prop :=
  (Execute.aluIn (s.idex.step s.decodeOut s.exReady)).syscalls ≠ 0

instance (s : Core) : Decidable s.calls := inferInstanceAs (Decidable (_ ≠ _))

/-- The RAM that the system calls of a step leave behind. -/
def ramAfter (syscall : Syscall) (s : Core) : Ram :=
  (runSyscalls syscall (s.idex.step s.decodeOut s.exReady) s.syscallResult s.memory.sys.ram).2

theorem ramAfter_of_quiet {syscall : Syscall} {s : Core} (quiet : ¬ s.calls) :
    s.ramAfter syscall = s.memory.sys.ram := by
  rw [ramAfter, runSyscalls, not_not.mp quiet]
  rfl

theorem step_memory (syscall : Syscall) (s : Core) (events : DramEvents) :
    (s.step syscall events).memory =
      (s.memory.withRam (s.ramAfter syscall)).step s.icRequest s.dcRequest events := rfl

end Core

/-- The processor with what was written last: by the stores that have entered `EXMemReg`
and by those that the data cache has performed, each with the system calls. -/
structure CallTrace where
  core : Core
  known : Written
  current : Written

namespace CallTrace

open Ram (lineOf byteOf ofLines)
open MemPath (requestOf)

def step (syscall : Syscall) (t : CallTrace) (events : DramEvents) : CallTrace :=
  { core := t.core.step syscall events
    known := (if t.core.memReady then t.known.perform t.core.exOut else t.known).change
      t.core.memory.sys.ram (t.core.ramAfter syscall)
    current := (if t.core.memory.dc.stores t.core.dcRequest then
        t.current.put t.core.dcRequest t.core.dcRequest.lineAddr
      else t.current).change t.core.memory.sys.ram (t.core.ramAfter syscall) }

def start (syscall : Syscall) (entry : BitVec 32) (regFile : RegFile) (ram : Ram) : CallTrace :=
  { core := Core.start syscall entry regFile ram, known := fun _ => none
    current := fun _ => none }

end CallTrace

/-! ### What is still to be performed -/

namespace MemPath

variable {s : MemPath} {input : Input} {x : EXMem} {data : BitVec 64}

/-- The instructions that have entered `EXMemReg` and that the data cache has not served. -/
def Phase.pending (exmem : EXMem) : Phase → List EXMem
  | .waiting x => [x, exmem]
  | _ => [exmem]

theorem request_of_waiting (tracks : (Phase.waiting x).Tracks s) : s.request = requestOf x := by
  obtain ⟨holds, latch, -, silent⟩ := tracks
  rw [holds.request_eq, silent, latch]
  rfl

theorem waiting_of_serves {phase : Phase} (tracks : phase.Tracks s)
    (serves : s.dc.serves s.request = true) : ∃ x, phase = .waiting x := by
  have busy : s.dc.pState = .b := by
    rw [DCache.Regs.serves, Bool.and_eq_true, beq_iff_eq] at serves
    exact serves.1
  cases phase with
  | idle =>
      rw [tracks.2.1] at busy
      cases busy
  | waiting x => exact ⟨x, rfl⟩
  | answered x data =>
      rw [tracks.2.1] at busy
      cases busy

theorem Holds.readWriteN (holds : Holds s.mem x) : s.mem.pDcReadWriteN = Mem.readWriteN x := by
  have request := congrArg DcRequest.readWriteN (holds.request s.exmem false)
  rw [Mem.Regs.request, holds.state] at request
  exact request

theorem Holds.fields (holds : Holds s.mem x) :
    s.mem.pOp = x.op ∧ s.mem.pOp3 = x.op3 ∧ s.mem.pAlures = x.alures := by
  have entry := holds.entry s.exmem 0
  have passes : s.mem.passes s.exmem true = true := by rw [Mem.Regs.passes, holds.state]
  rw [Mem.Regs.out, passes, holds.state] at entry
  exact ⟨congrArg MemWB.op entry, congrArg MemWB.op3 entry, congrArg MemWB.alures entry⟩

/-- An instruction waits because it was waiting or because it has just been taken. -/
theorem Phase.next_waiting {phase : Phase} {o : Observation}
    (next : phase.next o = .waiting x) :
    phase = .waiting x ∨ phase = .idle ∧ Mem.accesses o.exmem = true ∧ x = o.exmem := by
  cases phase with
  | idle =>
      rw [Phase.next] at next
      split at next
      · rename_i access
        rw [Phase.waiting.injEq] at next
        exact .inr ⟨rfl, access, next.symm⟩
      · cases next
  | waiting y =>
      rw [Phase.next] at next
      split at next
      · exact .inl next
      · cases next
  | answered y data => cases next

/-- The request stays unless the cache becomes idle. -/
theorem Phase.request_step {phase : Phase} (tracks : phase.Tracks s) (input : Input) :
    (s.step input).dc.pState = .a ∨ (s.step input).request = s.request := by
  have later := (Phase.step tracks input).2
  cases next : phase.next (s.observe input) with
  | idle =>
      rw [next] at later
      exact .inl later.2.1
  | answered x data =>
      rw [next] at later
      exact .inl later.2.1
  | waiting x =>
      rw [next] at later
      refine .inr ((request_of_waiting later).trans ?_)
      rcases Phase.next_waiting next with rfl | ⟨rfl, access, rfl⟩
      · exact (request_of_waiting tracks).symm
      · exact (request_of_accepts tracks.1 access).symm

/-- The instructions that leave in a cycle: passed on without an access, or served. -/
def Phase.leaving (s : MemPath) : Phase → List EXMem
  | .idle => if Mem.accesses s.exmem then [] else [s.exmem]
  | .waiting x => if s.dc.serves s.request then [x] else []
  | .answered _ _ => []

theorem Phase.mem_pending_of_leaving {phase : Phase} (leaves : x ∈ phase.leaving s) :
    x ∈ phase.pending s.exmem := by
  cases phase with
  | idle =>
      rw [Phase.leaving] at leaves
      split at leaves
      · cases leaves
      · exact leaves
  | waiting y =>
      rw [Phase.leaving] at leaves
      split at leaves
      · exact List.mem_cons.mpr (.inl (List.mem_singleton.mp leaves))
      · cases leaves
  | answered y data => cases leaves

theorem pending_step {phase : Phase} (tracks : phase.Tracks s) (input : Input) :
    phase.pending s.exmem ++ (if s.mem.memReady then [input.next] else []) =
      phase.leaving s ++ (phase.next (s.observe input)).pending (s.step input).exmem := by
  cases phase with
  | idle =>
      have ready : s.mem.memReady = true := by simp [Mem.Regs.memReady, tracks.1]
      have loads : (s.step input).exmem = input.next := by simp [step, EXMem.step, ready]
      have next : Phase.idle.next (s.observe input) =
          if Mem.accesses s.exmem then .waiting s.exmem else .idle := rfl
      rw [loads, ready, next, Phase.leaving]
      cases Mem.accesses s.exmem <;> rfl
  | waiting x =>
      have ready : s.mem.memReady = false := by simp [Mem.Regs.memReady, tracks.1.state]
      have kept : (s.step input).exmem = s.exmem := by simp [step, EXMem.step, ready]
      rw [kept, ready, Phase.leaving, Phase.next]
      cases serves : s.dc.serves s.request with
      | false => simp [observe, serves, Phase.pending]
      | true => simp [observe, serves, Phase.pending]
  | answered x data =>
      have ready : s.mem.memReady = false := by simp [Mem.Regs.memReady, tracks.1.state]
      have kept : (s.step input).exmem = s.exmem := by simp [step, EXMem.step, ready]
      rw [kept, ready]
      rfl

/-- A store is performed when it leaves. -/
theorem perform_leaving {phase : Phase} (tracks : phase.Tracks s)
    (low : ∀ y ∈ phase.pending s.exmem, Mem.accesses y = true →
      MemorySystem.address y < 2 ^ 20)
    (w : Written) :
    (phase.leaving s).foldl Written.perform w =
      if s.dc.stores s.request then w.put s.request s.request.lineAddr else w := by
  have still : s.dc.serves s.request = false → s.dc.stores s.request = false := by
    intro none
    rw [DCache.Regs.stores, none]
    rfl
  cases phase with
  | idle =>
      have quiet : s.dc.serves s.request = false := by simp [DCache.Regs.serves, tracks.2.1]
      rw [still quiet, Phase.leaving]
      cases access : Mem.accesses s.exmem with
      | true => rfl
      | false =>
          have other : Mem.storeOp s.exmem.op s.exmem.op3 = false := by
            rw [Mem.accesses, Bool.or_eq_false_iff] at access
            exact access.2
          exact Written.perform_of_other other
  | waiting x =>
      cases serves : s.dc.serves s.request with
      | false =>
          rw [still serves, Phase.leaving, serves]
          rfl
      | true =>
          have request : s.request = requestOf x := request_of_waiting tracks
          have stores : s.dc.stores s.request = Mem.storeOp x.op x.op3 := by
            rw [DCache.Regs.stores, serves, request]
            simp [requestOf, Mem.readWriteN]
          rw [stores, Phase.leaving, serves, request]
          change w.perform x = _
          rw [Written.perform]
          cases store : Mem.storeOp x.op x.op3 with
          | false => rfl
          | true =>
              have access : Mem.accesses x = true := by rw [Mem.accesses, store, Bool.or_true]
              rw [Written.programLine_eq (low x List.mem_cons_self access)]
  | answered x data =>
      have quiet : s.dc.serves s.request = false := by simp [DCache.Regs.serves, tracks.2.1]
      rw [still quiet]
      rfl

end MemPath

namespace CallTrace

open Ram (lineOf byteOf ofLines)
open MemPath (requestOf)

/-! ### The invariant -/

/-- The data cache keeps its memory, which has all that was performed, and the rest is
pending in order. -/
structure Tracks (t : CallTrace) (phase : MemPath.Phase) : Prop where
  path : phase.Tracks (MemPath.ofCore t.core)
  memory : t.core.memory.Tracked t.core.dcRequest
  current : t.current.HeldBy (ofLines (t.core.memory.memory t.core.dcRequest))
  known : t.known = (phase.pending t.core.exmem).foldl Written.perform t.current
  accesses : ∀ x, phase = MemPath.Phase.waiting x → Mem.accesses x = true
  low : ∀ x ∈ phase.pending t.core.exmem, Mem.accesses x = true →
    MemorySystem.address x < 2 ^ 20

/-- The data cache and Mem hold back nothing from the RAM, and the system call changes
nothing that is cached. -/
structure Flushed (syscall : Syscall) (t : CallTrace) (phase : MemPath.Phase) : Prop where
  /-- No store is in Execute, in `EXMemReg` or in Mem. -/
  stores : ∀ x ∈ phase.pending t.core.exmem ++ [t.core.exOut], Mem.storeOp x.op x.op3 = false
  /-- Nothing was stored into the line of a dirty set. -/
  saved : ∀ i, t.core.memory.dc.dirtySram.mem i = 1 →
    ¬ t.core.memory.dc.Replaces t.core.dcRequest i →
      ∀ offset : BitVec 6, t.known (t.core.memory.dc.lineAt i ++ offset) = none
  apart : t.core.memory.Apart t.core.dcRequest (t.core.ramAfter syscall)

/-- The events are those of `System::tick`, addresses are below 2^20, and a system call
finds everything flushed. -/
structure Keeps (syscall : Syscall) (t : CallTrace) (phase : MemPath.Phase)
    (events : DramEvents) : Prop where
  allowed : t.core.memory.Allowed events
  low : t.core.memReady = true → Mem.accesses t.core.exOut = true →
    MemorySystem.address t.core.exOut < 2 ^ 20
  flushed : t.core.calls → t.Flushed syscall phase

section

variable {syscall : Syscall} {t : CallTrace} {phase : MemPath.Phase} {events : DramEvents}

theorem Tracks.known_of_flushed (tracks : t.Tracks phase) (flushed : t.Flushed syscall phase) :
    t.known = t.current ∧ t.known.perform t.core.exOut = t.current := by
  have others := flushed.stores
  have same : t.known = t.current := by
    rw [tracks.known]
    exact Written.foldl_perform_of_other _ fun x member => others x (List.mem_append_left _ member)
  refine ⟨same, ?_⟩
  rw [Written.perform_of_other (others _ (List.mem_append_right _ (List.mem_singleton_self _))),
    same]

/-- What is known after a step, before the system calls. -/
theorem Tracks.known_step (tracks : t.Tracks phase) (syscall : Syscall) (events : DramEvents) :
    let input : MemPath.Input :=
      { next := t.core.exOut, bus := t.core.memory.dcResponse events }
    (if t.core.memReady then t.known.perform t.core.exOut else t.known) =
      ((phase.next ((MemPath.ofCore t.core).observe input)).pending
        (t.core.step syscall events).exmem).foldl Written.perform
        (if t.core.memory.dc.stores t.core.dcRequest then
          t.current.put t.core.dcRequest t.core.dcRequest.lineAddr
        else t.current) := by
  intro input
  have moves := MemPath.pending_step tracks.path input
  have served := MemPath.perform_leaving tracks.path tracks.low t.current
  have entered : (if t.core.memReady then t.known.perform t.core.exOut else t.known) =
      (phase.pending t.core.exmem ++ if t.core.memReady then [t.core.exOut] else []).foldl
        Written.perform t.current := by
    rw [List.foldl_append, ← tracks.known]
    cases t.core.memReady <;> rfl
  rw [entered]
  refine (congrArg (List.foldl Written.perform t.current) moves).trans ?_
  rw [List.foldl_append, served]
  rfl

variable (events) in
/-- What the data cache holds after a step. -/
theorem Tracks.current_step (tracks : t.Tracks phase)
    (allowed : t.core.memory.Allowed events)
    (apart : t.core.memory.Apart t.core.dcRequest (t.core.ramAfter syscall)) :
    (t.core.step syscall events).memory.Tracked t.core.dcRequest ∧
      (if t.core.memory.dc.stores t.core.dcRequest then
          (t.current.change t.core.memory.sys.ram (t.core.ramAfter syscall)).put t.core.dcRequest
            t.core.dcRequest.lineAddr
        else t.current.change t.core.memory.sys.ram (t.core.ramAfter syscall)).HeldBy
          (ofLines ((t.core.step syscall events).memory.memory t.core.dcRequest)) := by
  have changed := tracks.memory.withRam apart
  have held := MemorySystem.held_withRam tracks.current apart
  rw [Core.step_memory]
  refine ⟨changed.step allowed.withRam, ?_⟩
  have stepped : ((t.core.memory.withRam (t.core.ramAfter syscall)).step t.core.icRequest
      t.core.dcRequest events).memory t.core.dcRequest = _ :=
    funext fun l => changed.memory_step allowed.withRam l
  rw [stepped]
  have stores : (t.core.memory.withRam (t.core.ramAfter syscall)).dc.stores t.core.dcRequest =
      t.core.memory.dc.stores t.core.dcRequest := rfl
  cases store : t.core.memory.dc.stores t.core.dcRequest with
  | true =>
      simp only [stores, store, true_and, if_true]
      exact held.put t.core.dcRequest t.core.dcRequest.lineAddr
  | false =>
      simp only [stores, store, Bool.false_eq_true, false_and, if_false]
      exact held

/-- The data cache performs no store while everything is flushed. -/
theorem Flushed.perform_now (flushed : t.Flushed syscall phase) (tracks : t.Tracks phase)
    (w : Written) :
    (if t.core.memory.dc.stores t.core.dcRequest then
      w.put t.core.dcRequest t.core.dcRequest.lineAddr else w) = w := by
  have others := flushed.stores
  have served := MemPath.perform_leaving tracks.path tracks.low w
  refine served.symm.trans (Written.foldl_perform_of_other w fun x leaves => others x ?_)
  exact List.mem_append_left _ (MemPath.Phase.mem_pending_of_leaving leaves)

variable (events) in
/-- The phase of the next cycle. -/
abbrev nextPhase (t : CallTrace) (phase : MemPath.Phase) : MemPath.Phase :=
  phase.next ((MemPath.ofCore t.core).observe
    { next := t.core.exOut, bus := t.core.memory.dcResponse events })

/-- What is on its way to the data cache was on its way before, or comes from Execute. -/
theorem Tracks.mem_pending_step (tracks : t.Tracks phase) {x : EXMem}
    (member : x ∈ (t.nextPhase events phase).pending (t.core.step syscall events).exmem) :
    x ∈ phase.pending t.core.exmem ∨ t.core.memReady = true ∧ x = t.core.exOut := by
  have moves := MemPath.pending_step tracks.path
    { next := t.core.exOut, bus := t.core.memory.dcResponse events }
  have both := List.mem_append_right (phase.leaving (MemPath.ofCore t.core)) member
  have split : x ∈ phase.pending t.core.exmem ++
      (if t.core.memReady then [t.core.exOut] else []) := moves ▸ both
  rw [List.mem_append] at split
  refine split.imp_right fun arriving => ?_
  split at arriving
  · rename_i ready
    exact ⟨ready, List.mem_singleton.mp arriving⟩
  · cases arriving

/-- A system call finds no store on its way, so the order of its changes does not matter. -/
theorem Tracks.current_performed (tracks : t.Tracks phase)
    (flushed : t.core.calls → t.Flushed syscall phase) :
    (t.step syscall events).current =
      if t.core.memory.dc.stores t.core.dcRequest then
        (t.current.change t.core.memory.sys.ram (t.core.ramAfter syscall)).put t.core.dcRequest
          t.core.dcRequest.lineAddr
      else t.current.change t.core.memory.sys.ram (t.core.ramAfter syscall) := by
  by_cases calls : t.core.calls
  · rw [(flushed calls).perform_now tracks]
    change Written.change (if _ then _ else _) _ _ = _
    rw [(flushed calls).perform_now tracks]
  · change Written.change (if _ then _ else _) _ _ = _
    rw [Core.ramAfter_of_quiet calls, Written.change_self, Written.change_self]

/-- What is known is what has been performed, with the stores on their way. -/
theorem Tracks.known_performed (tracks : t.Tracks phase)
    (flushed : t.core.calls → t.Flushed syscall phase) :
    (t.step syscall events).known =
      ((t.nextPhase events phase).pending (t.core.step syscall events).exmem).foldl
        Written.perform (t.step syscall events).current := by
  have known := tracks.known_step syscall events
  by_cases calls : t.core.calls
  · have others := (flushed calls).stores
    have none : ∀ x ∈ (t.nextPhase events phase).pending (t.core.step syscall events).exmem,
        Mem.storeOp x.op x.op3 = false := by
      intro x member
      rcases tracks.mem_pending_step member with earlier | ⟨-, rfl⟩
      · exact others x (List.mem_append_left _ earlier)
      · exact others _ (List.mem_append_right _ (List.mem_singleton_self _))
    refine Eq.trans ?_ (Written.foldl_perform_of_other _ none).symm
    change Written.change _ _ _ = Written.change _ _ _
    rw [known, Written.foldl_perform_of_other _ none]
  · change Written.change _ _ _ = List.foldl _ (Written.change _ _ _) _
    rw [Core.ramAfter_of_quiet calls, Written.change_self, Written.change_self]
    exact known

/-- What is tracked after a step. -/
theorem Tracks.step (tracks : t.Tracks phase) (keeps : t.Keeps syscall phase events) :
    (t.step syscall events).Tracks (t.nextPhase events phase) := by
  obtain ⟨allowed, lowNext, flushed⟩ := keeps
  let input : MemPath.Input := { next := t.core.exOut, bus := t.core.memory.dcResponse events }
  have apart : t.core.memory.Apart t.core.dcRequest (t.core.ramAfter syscall) := by
    by_cases calls : t.core.calls
    · exact (flushed calls).apart
    · rw [Core.ramAfter_of_quiet calls]
      exact MemorySystem.apart_self _ _
  obtain ⟨memory, held⟩ := tracks.current_step events allowed apart
  constructor
  case path => exact (MemPath.Phase.step tracks.path input).2
  case memory =>
    rcases MemPath.Phase.request_step tracks.path input with idle | same
    · exact memory.switch idle _
    · exact (show (t.core.step syscall events).dcRequest = t.core.dcRequest from same) ▸ memory
  case current =>
    rw [tracks.current_performed flushed]
    rcases MemPath.Phase.request_step tracks.path input with idle | same
    · rw [show (t.step syscall events).core.memory.memory _ = _ from
        MemorySystem.memory_switch idle _ t.core.dcRequest]
      exact held
    · rw [show (t.step syscall events).core.dcRequest = t.core.dcRequest from same]
      exact held
  case known => exact tracks.known_performed flushed
  case accesses =>
    intro x next
    rcases MemPath.Phase.next_waiting next with before | ⟨-, access, rfl⟩
    · exact tracks.accesses x before
    · exact access
  case low =>
    intro x member access
    rcases tracks.mem_pending_step member with earlier | ⟨ready, rfl⟩
    · exact tracks.low x earlier access
    · exact lowNext ready access

/-- What is not in a dirty set is in the RAM. -/
theorem Flushed.held (flushed : t.Flushed syscall phase) (tracks : t.Tracks phase) :
    t.known.HeldBy t.core.memory.sys.ram := by
  intro b v known
  have current : t.current b = some v := by
    rw [← (tracks.known_of_flushed flushed).1]
    exact known
  have held := tracks.current b v current
  simp only [ofLines, MemorySystem.memory] at held
  split at held
  · rename_i present
    have line := MemorySystem.eq_lineAt present.1
    by_cases dirty : t.core.memory.dc.dirtySram.mem (ICache.index (lineOf b)) = 1
    · have none := flushed.saved _ dirty present.2 (b.extractLsb' 0 6)
      have whole : lineOf b ++ b.extractLsb' 0 6 = b := by
        apply BitVec.eq_of_getLsbD_eq
        intro j inside
        simp only [lineOf, BitVec.getLsbD_append, BitVec.getLsbD_extractLsb']
        by_cases low : j < 6
        · simp [low]
        · simp [low, show 6 + (j - 6) = j by omega, show j - 6 < 58 by omega]
      rw [← line, whole, known] at none
      cases none
    · have clean : t.core.memory.dc.dirtySram.mem (ICache.index (lineOf b)) = 0 := by
        have bits : ∀ bit : BitVec 1, bit ≠ 1 → bit = 0 := by decide
        exact bits _ dirty
      rw [tracks.memory.clean _ clean present.2, ← line, Ram.byteOf_line] at held
      exact held
  · rw [Ram.byteOf_line] at held
    exact held

/-- A system call finds in the RAM what the older stores and calls have written. -/
theorem Flushed.call (flushed : t.Flushed syscall phase) (tracks : t.Tracks phase) :
    (t.known.perform t.core.exOut).HeldBy t.core.memory.sys.ram := by
  rw [(tracks.known_of_flushed flushed).2, ← (tracks.known_of_flushed flushed).1]
  exact flushed.held tracks

/-- The line that an access is served from is up to date. -/
theorem Tracks.line (tracks : t.Tracks phase)
    (serves : t.core.memory.dc.serves t.core.dcRequest = true) {b : BitVec 64} {v : BitVec 8}
    (line : lineOf b = Written.programLine t.core.mem.pAlures) (known : t.current b = some v) :
    byteOf t.core.memory.dc.dataSram.readData b = v := by
  obtain ⟨x, rfl⟩ := MemPath.waiting_of_serves tracks.path serves
  have request : t.core.dcRequest = requestOf x := MemPath.request_of_waiting tracks.path
  have alures : t.core.mem.pAlures = x.alures := tracks.path.1.fields.2.2
  have low := tracks.low x List.mem_cons_self (tracks.accesses x rfl)
  rw [alures, Written.programLine_eq low, ← congrArg DcRequest.lineAddr request] at line
  rw [tracks.memory.served_line serves, ← line]
  exact tracks.current b v known

end

/-- After the reset nothing is written yet. -/
theorem tracks_start (syscall : Syscall) (entry : BitVec 32) (regFile : RegFile) (ram : Ram) :
    (start syscall entry regFile ram).Tracks .idle := by
  have idle := MemPath.ofCore_start syscall entry regFile ram
  have other : Mem.accesses (start syscall entry regFile ram).core.exmem = false := rfl
  refine ⟨idle, ?_, ?_, ?_, ?_, ?_⟩
  · have reset := (MemorySystem.coherent_reset
      ((Core.reset entry regFile ram).ramAfter syscall)).tracked
        (Core.reset entry regFile ram).dcRequest
    exact (reset.step (MemorySystem.allowed_completing _)).switch idle.2.1 _
  · intro b v known
    cases known
  · rw [Mem.accesses, Bool.or_eq_false_iff] at other
    exact (Written.perform_of_other other.2).symm
  · intro x next
    cases next
  · intro x member access
    rw [List.mem_singleton.mp member] at access
    exact absurd (access.symm.trans other) (by decide)

end CallTrace

end Sparcy
