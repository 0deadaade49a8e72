import Sparcy.Library.Residents
import Sparcy.LineBytes

/-!
# System calls between loads and stores

When a system call finds the program's memory in the RAM, in terms of the loads and stores
that the program has made.  Every store must be followed by an access to another line of its
set, which evicts it, and the emulation must leave alone the line that each set was accessed
for last.  The loads behind the call then return what was written last, by the program or by
the emulation.
-/

namespace Sparcy

open MemPath (requestOf)
open Ram (lineOf byteOf)
open Residents (Access Resident resident Evicted)

/-! ### Lines that the data cache has reached -/

namespace DCache.Regs

open ICache (index tag)

/-- The data cache has the line that it is asked for, or has made room for it. -/
def begins (r : DCache.Regs) (p : DcRequest) : Bool :=
  match r.pState with
  | .b => r.tagSram.mem (set p) == tag p.lineAddr
  | .d | .e => true
  | _ => false

variable {r : Regs} {p : DcRequest} {i : BitVec 4}

theorem state_of_serves (serves : r.serves p = true) : r.pState = .b ∧ r.hit p = true := by
  rw [Regs.serves, Bool.and_eq_true, beq_iff_eq] at serves
  exact serves

theorem busy_of_begins (reached : r.begins p = true) : r.pState ≠ .a := by
  intro state
  rw [begins, state] at reached
  cases reached

/-- The tag of a set changes while the set is claimed. -/
theorem step_lineAt (bus : BusResponse) (elsewhere : r.pState ≠ .d ∨ i ≠ set p) :
    (r.step p bus).lineAt i = r.lineAt i := by
  rcases elsewhere with other | other
  · have none : r.requests bus = false := by simp [requests, other]
    rw [lineAt, step_tag_mem, none]
    rfl
  · rw [lineAt, (step_rows other).2.1]
    rfl

/-- A set becomes dirty with a store. -/
theorem dirty_of_step {bus : BusResponse} (modified : (r.step p bus).dirtySram.mem i = 1)
    (apart : ¬ (r.stores p = true ∧ i = set p)) : r.dirtySram.mem i = 1 := by
  rw [step_dirty_mem] at modified
  split at modified
  · by_cases here : i = set p
    · have none : r.stores p = false := by
        by_contra stores
        exact apart ⟨by simpa using stores, here⟩
      rw [here, Function.update_self, none] at modified
      exact absurd modified (by decide)
    · rwa [Function.update_of_ne here] at modified
  · exact modified

theorem not_replaces_of_idle (idle : r.pState = .a) : ¬ r.Replaces p i := by
  rintro ⟨other | other, -⟩
  · exact absurd (idle.symm.trans other) (by decide)
  · exact absurd (idle.symm.trans other) (by decide)

/-- The data cache looks a line up when it is asked for one, and when it has fetched it. -/
theorem idle_of_lookup {bus : BusResponse} (lookup : (r.step p bus).pState = .b)
    (before : r.begins p = false) : r.pState = .a := by
  have next : r.nState p bus = .b := lookup
  cases state : r.pState with
  | a => rfl
  | b =>
      rw [nState, state] at next
      dsimp only at next
      repeat' split at next
      all_goals cases next
  | c =>
      rw [nState, state] at next
      dsimp only at next
      split at next
      all_goals cases next
  | d =>
      rw [begins, state] at before
      cases before
  | e =>
      rw [begins, state] at before
      cases before

end DCache.Regs

namespace MemorySystem

open DCache.Regs (set)
open ICache (index tag)

variable {m : MemorySystem} {p : DcRequest}

theorem Phase.claimed (phase : m.Phase p) (state : m.dc.pState = .e) : m.dc.Claimed p := by
  cases phase with
  | idle other => exact absurd (state.symm.trans other) (by decide)
  | lookup other => exact absurd (state.symm.trans other) (by decide)
  | evict other => exact absurd (state.symm.trans other) (by decide)
  | ask other => exact absurd (state.symm.trans other) (by decide)
  | refill _ _ _ claimed => exact claimed

theorem Phase.loaded (phase : m.Phase p) (state : m.dc.pState = .b) : m.dc.Loaded p := by
  cases phase with
  | idle other => exact absurd (state.symm.trans other) (by decide)
  | lookup _ _ loaded => exact loaded
  | evict other => exact absurd (state.symm.trans other) (by decide)
  | ask other => exact absurd (state.symm.trans other) (by decide)
  | refill other => exact absurd (state.symm.trans other) (by decide)

/-- The data cache serves a line that it has. -/
theorem Phase.begins_of_serves (phase : m.Phase p)
    (serves : m.dc.serves p = true) : m.dc.begins p = true := by
  obtain ⟨state, hit⟩ := DCache.Regs.state_of_serves serves
  have loaded := phase.loaded state
  rw [DCache.Regs.begins, state]
  dsimp only
  rw [← loaded.tag]
  exact hit

/-- A line that it has got to and not served is being fetched. -/
theorem Phase.fetching_of_begins (phase : m.Phase p) (reached : m.dc.begins p = true)
    (waits : m.dc.serves p = false) : m.dc.pState = .d ∨ m.dc.pState = .e := by
  cases state : m.dc.pState with
  | a =>
      rw [DCache.Regs.begins, state] at reached
      cases reached
  | b =>
      have loaded := phase.loaded state
      rw [DCache.Regs.begins, state] at reached
      dsimp only at reached
      rw [← loaded.tag] at reached
      have hit : m.dc.hit p = true := reached
      rw [DCache.Regs.serves, state, hit] at waits
      cases waits
  | c =>
      rw [DCache.Regs.begins, state] at reached
      cases reached
  | d => exact .inl rfl
  | e => exact .inr rfl

/-- It keeps the line, or fetches it, until it is served. -/
theorem Phase.begins_step (phase : m.Phase p) (bus : BusResponse)
    (reached : m.dc.begins p = true) (waits : m.dc.serves p = false) :
    (m.dc.step p bus).begins p = true := by
  have next : (m.dc.step p bus).pState = m.dc.nState p bus := rfl
  rcases phase.fetching_of_begins reached waits with state | state
  · have both : (m.dc.step p bus).pState = .d ∨ (m.dc.step p bus).pState = .e := by
      rw [next, DCache.Regs.nState, state]
      dsimp only
      split
      · exact .inr rfl
      · exact .inl rfl
    rcases both with asking | reading
    · rw [DCache.Regs.begins, asking]
    · rw [DCache.Regs.begins, reading]
  · have claimed := phase.claimed state
    have line : (m.dc.step p bus).lineAt (set p) = m.dc.lineAt (set p) :=
      DCache.Regs.step_lineAt bus (.inl (by rw [state]; decide))
    have both : (m.dc.step p bus).pState = .b ∨ (m.dc.step p bus).pState = .e := by
      rw [next, DCache.Regs.nState, state]
      dsimp only
      repeat' split
      all_goals simp
    rcases both with lookup | reading
    · rw [DCache.Regs.begins, lookup]
      dsimp only
      rw [← tag_lineAt, line, tag_lineAt, claimed.tag]
      exact beq_self_eq_true _
    · rw [DCache.Regs.begins, reading]

end MemorySystem

namespace MemPath

/-- The access that is under way, when the data cache is busy. -/
theorem exists_waiting_of_busy {s : MemPath} {phase : MemPath.Phase} (tracks : phase.Tracks s)
    (busy : s.dc.pState ≠ .a) : ∃ x, phase = .waiting x := by
  cases phase with
  | idle => exact absurd tracks.2.1 busy
  | waiting x => exact ⟨x, rfl⟩
  | answered x data => exact absurd tracks.2.1 busy

end MemPath

/-! ### The condition and the result -/

/-- A trace with the lines that the instructions of the program access, in program order,
and how many of them the data cache has answered. -/
structure AccessTrace where
  trace : CallTrace
  issued : List (Access (BitVec 58))
  answered : Nat

namespace AccessTrace

open DCache.Regs (set)
open ICache (index tag)

abbrev core (t : AccessTrace) : Core := t.trace.core

/-- The access that an instruction makes. -/
def accessesOf (x : EXMem) : List (Access (BitVec 58)) :=
  if Mem.accesses x then
    [{ line := Written.programLine x.alures, store := Mem.storeOp x.op x.op3 }]
  else []

def step (syscall : Syscall) (t : AccessTrace) (events : DramEvents) : AccessTrace :=
  { trace := t.trace.step syscall events
    issued := if t.core.memReady then t.issued ++ accessesOf t.core.exOut else t.issued
    answered :=
      if t.core.memory.dc.serves t.core.dcRequest then t.answered + 1 else t.answered }

def start (syscall : Syscall) (entry : BitVec 32) (regFile : RegFile) (ram : Ram) : AccessTrace :=
  { trace := CallTrace.start syscall entry regFile ram, issued := [], answered := 0 }

/-- The accesses in front of a system call, with that of the instruction in Execute. -/
def older (t : AccessTrace) : List (Access (BitVec 58)) := t.issued ++ accessesOf t.core.exOut

/-- The accesses whose lines have been brought in. -/
def reached (t : AccessTrace) : List (Access (BitVec 58)) :=
  t.issued.take (t.answered + (t.core.memory.dc.begins t.core.dcRequest).toNat)

/-- The lines that the reset leaves in the tag memory. -/
def first (i : BitVec 4) : BitVec 58 := (0xf : BitVec 54) ++ i

/-- The line for which a set was accessed last. -/
def last (t : AccessTrace) (i : BitVec 4) : Resident (BitVec 58) :=
  resident index first t.reached i

/-- The line of the set is being fetched, and nothing of it has been read. -/
def Unread (t : AccessTrace) (i : BitVec 4) : Prop :=
  i = set t.core.dcRequest ∧
    (t.core.memory.dc.pState = .d ∨
      t.core.memory.dc.pState = .e ∧ t.core.memory.dc.pCounter = 0 ∧
        t.core.memory.sys.beatsFor DCache.readTag = [])

instance (t : AccessTrace) (i : BitVec 4) : Decidable (t.Unread i) :=
  inferInstanceAs (Decidable (_ ∧ _))

/-- The emulation leaves the lines alone for which the sets were last accessed. -/
def Untouched (syscall : Syscall) (t : AccessTrace) : Prop :=
  ∀ i, ¬ t.Unread i →
    (t.core.ramAfter syscall).line (t.last i).line = t.core.memory.sys.ram.line (t.last i).line

instance (syscall : Syscall) (t : AccessTrace) : Decidable (t.Untouched syscall) :=
  inferInstanceAs (Decidable (∀ _, _))

/-- The data cache serves a load, from an aligned address. -/
def Loads (t : AccessTrace) (k : LoadOp) : Prop :=
  t.core.memory.dc.serves t.core.dcRequest = true ∧ t.core.mem.pOp = 0b11 ∧
    t.core.mem.pOp3 = k.op3 ∧ t.core.mem.pAlures.toNat % k.size = 0

instance (t : AccessTrace) (k : LoadOp) : Decidable (t.Loads k) :=
  inferInstanceAs (Decidable (_ ∧ _))

/-- The address of the access in Mem. -/
def address (t : AccessTrace) : BitVec 64 := (t.core.mem.pAlures.setWidth 32).setWidth 64

/-- The condition on a step.  The events are those of `System::tick`.  The instructions with
`op` 3 are loads and stores that Mem knows, below 2^20.  A system call comes behind stores
that have been evicted, and its emulation leaves the cached lines alone.  A load narrower
than `LDD` is of bytes that are zero. -/
def Safe (syscall : Syscall) (t : AccessTrace) (events : DramEvents) : Prop :=
  t.core.memory.Allowed events ∧
    (t.core.memReady = true → t.core.exOut.op = 0b11 →
      Mem.accesses t.core.exOut = true ∧ MemorySystem.address t.core.exOut < 2 ^ 20) ∧
    (t.core.calls → Evicted index t.older t.reached ∧ t.Untouched syscall) ∧
    ∀ k : LoadOp, k ≠ .ldd → t.Loads k → ∀ j < k.size,
      byteOf t.core.memory.dc.dataSram.readData
        (t.core.mem.pAlures + BitVec.ofNat 64 j) = 0

instance (syscall : Syscall) (t : AccessTrace) (events : DramEvents) :
    Decidable (t.Safe syscall events) := inferInstanceAs (Decidable (_ ∧ _))

/-- What is asked of a step. -/
structure Faithful (syscall : Syscall) (t : AccessTrace) (events : DramEvents) : Prop where
  /-- A system call finds in the RAM what the older stores and calls have written. -/
  call : t.core.calls →
    (t.trace.known.perform t.core.exOut).HeldBy t.core.memory.sys.ram
  /-- The line that a load or store is served from is up to date. -/
  line : t.core.memory.dc.serves t.core.dcRequest = true → ∀ b v,
    lineOf b = Written.programLine t.core.mem.pAlures → t.trace.current b = some v →
      byteOf t.core.memory.dc.dataSram.readData b = v
  /-- A load of bytes that were written returns them as they were written last. -/
  load : ∀ k, t.Loads k → ∀ row : BitVec 512,
    (∀ j < k.size, t.trace.current (t.address + BitVec.ofNat 64 j) =
      some (byteOf row (t.address + BitVec.ofNat 64 j))) →
    ∀ later, k.Right row t.address
      (WB.out ((t.core.step syscall events).step syscall later).memwb).data

/-! ### The accesses of a run -/

/-- The accesses that the data cache has answered, and those that are pending; the lines of
the sets, which are dirty only with a store; and the lines of the reset, which nothing else
has written. -/
structure Visits (t : AccessTrace) (phase : MemPath.Phase) : Prop where
  tracks : t.trace.Tracks phase
  count : t.answered ≤ t.issued.length
  pending : t.issued.drop t.answered = (phase.pending t.core.exmem).flatMap accessesOf
  kept : ∀ i, ¬ t.core.memory.dc.Replaces t.core.dcRequest i →
    t.core.memory.dc.lineAt i = (t.last i).line ∧
      (t.core.memory.dc.dirtySram.mem i = 1 →
        (t.last i).stored = true ∨ (t.last i).fetched = false)
  fetching : t.core.memory.dc.pState = .d ∨ t.core.memory.dc.pState = .e →
    (t.last (set t.core.dcRequest)).line = t.core.dcRequest.lineAddr ∧
      (t.last (set t.core.dcRequest)).fetched = true
  missed : t.core.memory.dc.pState = .c →
    t.core.memory.dc.lineAt (set t.core.dcRequest) ≠ t.core.dcRequest.lineAddr
  known : ∀ b, t.trace.known b ≠ none →
    (t.last (index (lineOf b))).fetched = false →
      lineOf b = first (index (lineOf b)) → ∃ a ∈ t.issued, a.store = true ∧ a.line = lineOf b

/-- The invariant, in whatever phase Mem is. -/
def Sound (t : AccessTrace) : Prop := ∃ phase, t.Visits phase

section

variable {syscall : Syscall} {t : AccessTrace} {phase : MemPath.Phase} {events : DramEvents}
variable {x : EXMem}

theorem accessesOf_of_accesses (access : Mem.accesses x = true) :
    accessesOf x = [{ line := Written.programLine x.alures, store := Mem.storeOp x.op x.op3 }] :=
  if_pos access

theorem step_core (syscall : Syscall) (t : AccessTrace) (events : DramEvents) :
    (t.step syscall events).core = t.core.step syscall events := rfl

theorem step_dc (syscall : Syscall) (t : AccessTrace) (events : DramEvents) :
    (t.core.step syscall events).memory.dc =
      t.core.memory.dc.step t.core.dcRequest (t.core.memory.dcResponse events) := rfl

/-- The accesses in the order of the program: answered, pending and not yet in `EXMemReg`. -/
theorem Visits.issued (visits : t.Visits phase) :
    t.issued = t.issued.take t.answered ++ (phase.pending t.core.exmem).flatMap accessesOf := by
  rw [← visits.pending, List.take_append_drop]

theorem reached_length_le (t : AccessTrace) : t.reached.length ≤ t.answered + 1 := by
  have one := (t.core.memory.dc.begins t.core.dcRequest).toNat_le
  have short := List.length_take_le
    (t.answered + (t.core.memory.dc.begins t.core.dcRequest).toNat) t.issued
  rw [reached]
  omega

theorem reached_prefix (t : AccessTrace) : t.reached <+: t.older :=
  (List.take_prefix _ _).trans (List.prefix_append _ _)

/-! ### A system call between evicted stores -/

/-- The pending instructions are behind all that the data cache has reached but one. -/
theorem Visits.not_store (visits : t.Visits phase) (evicted : Evicted index t.older t.reached)
    (x : EXMem) (member : x ∈ phase.pending t.core.exmem ++ [t.core.exOut]) :
    Mem.storeOp x.op x.op3 = false := by
  by_contra store
  have access : Mem.accesses x = true := by
    rw [Mem.accesses, Bool.not_eq_false] at *
    rw [store, Bool.or_true]
  obtain ⟨before, after, split⟩ := List.append_of_mem member
  have order : t.older = (t.issued.take t.answered ++ before.flatMap accessesOf) ++
      { line := Written.programLine x.alures, store := Mem.storeOp x.op x.op3 } ::
        after.flatMap accessesOf := by
    have rest : (phase.pending t.core.exmem).flatMap accessesOf ++ accessesOf t.core.exOut =
        (phase.pending t.core.exmem ++ [t.core.exOut]).flatMap accessesOf := by simp
    rw [older]
    nth_rewrite 1 [visits.issued]
    rw [List.append_assoc, rest, split, List.flatMap_append, List.flatMap_cons,
      accessesOf_of_accesses access]
    simp
  have late : t.reached.length ≤
      (t.issued.take t.answered ++ before.flatMap accessesOf).length + 1 := by
    have length := t.reached_length_le
    have count := visits.count
    rw [List.length_append, List.length_take]
    omega
  exact store (evicted.not_store order late)

/-- A line of the reset has been stored into by the program, or by nobody. -/
theorem Visits.saved (visits : t.Visits phase) (evicted : Evicted index t.older t.reached)
    {i : BitVec 4} (dirty : t.core.memory.dc.dirtySram.mem i = 1)
    (present : ¬ t.core.memory.dc.Replaces t.core.dcRequest i) (offset : BitVec 6) :
    t.trace.known (t.core.memory.dc.lineAt i ++ offset) = none := by
  obtain ⟨line, modified⟩ := visits.kept i present
  have unfetched : (t.last i).fetched = false := by
    rcases modified dirty with stored | unfetched
    · have unstored : (t.last i).stored = false := evicted.not_stored t.reached_prefix i
      exact absurd (stored.symm.trans unstored) (by decide)
    · exact unfetched
  have same : lineOf (t.core.memory.dc.lineAt i ++ offset) = t.core.memory.dc.lineAt i :=
    BitVec.extractLsb'_append_eq_left
  have place : index (lineOf (t.core.memory.dc.lineAt i ++ offset)) = i := by
    rw [same]
    exact MemorySystem.index_lineAt _ _
  have reset : t.core.memory.dc.lineAt i = first i :=
    line.trans (Residents.lines_of_not_fetched unfetched).1
  by_contra written
  obtain ⟨a, member, store, here⟩ := visits.known _ written (by rw [place]; exact unfetched)
    (by rw [place, same]; exact reset)
  have unstored := evicted.not_store_of_not_fetched unfetched
    (List.mem_append_left _ member) (by rw [here]; exact place) (by rw [here, same]; exact reset)
  exact absurd (store.symm.trans unstored) (by decide)

/-- The line of a set is the one that it was last accessed for, once it has been read. -/
theorem Visits.lineAt_of_read (visits : t.Visits phase) {i : BitVec 4}
    (read : t.core.memory.dc.Replaces t.core.dcRequest i → t.core.memory.dc.pState = .e) :
    t.core.memory.dc.lineAt i = (t.last i).line := by
  by_cases replaced : t.core.memory.dc.Replaces t.core.dcRequest i
  · have state := read replaced
    have line := (visits.fetching (.inr state)).1
    have claimed := visits.tracks.memory.phase.claimed state
    rw [replaced.2, line, DCache.Regs.lineAt, claimed.tag]
    exact tag_index _
  · exact (visits.kept i replaced).1

theorem Visits.flushed (visits : t.Visits phase) (evicted : Evicted index t.older t.reached)
    (untouched : t.Untouched syscall) : t.trace.Flushed syscall phase where
  stores := visits.not_store evicted
  saved _ dirty present offset := visits.saved evicted dirty present offset
  apart := by
    intro i begun
    rw [visits.lineAt_of_read fun replaced => (begun replaced).1]
    apply untouched i
    rintro ⟨here, asking | ⟨reading, counter, queue⟩⟩
    · have state := (begun ⟨.inl asking, here⟩).1
      exact absurd (asking.symm.trans state) (by decide)
    · rcases (begun ⟨.inr reading, here⟩).2 with counted | queued
      · exact counted counter
      · exact queued queue

/-! ### One cycle of the accesses -/

/-- An access leaves the pending ones when the data cache serves it. -/
theorem Visits.length_leaving (visits : t.Visits phase) :
    ((phase.leaving (MemPath.ofCore t.core)).flatMap accessesOf).length =
      (t.core.memory.dc.serves t.core.dcRequest).toNat := by
  have path := visits.tracks.path
  cases phase with
  | idle =>
      have state : t.core.memory.dc.pState = .a := path.2.1
      have quiet : t.core.memory.dc.serves t.core.dcRequest = false := by
        simp [DCache.Regs.serves, state]
      have none : (MemPath.Phase.idle.leaving (MemPath.ofCore t.core)).flatMap accessesOf = [] := by
        rw [MemPath.Phase.leaving]
        split
        · rfl
        · rename_i silent
          rw [List.flatMap_singleton]
          exact if_neg silent
      rw [none, quiet]
      rfl
  | waiting x =>
      have access := visits.tracks.accesses x rfl
      change ((if t.core.memory.dc.serves t.core.dcRequest then [x] else []).flatMap
        accessesOf).length = _
      cases t.core.memory.dc.serves t.core.dcRequest with
      | false => rfl
      | true => simp [accessesOf_of_accesses access]
  | answered x data =>
      have state : t.core.memory.dc.pState = .a := path.2.1
      have quiet : t.core.memory.dc.serves t.core.dcRequest = false := by
        simp [DCache.Regs.serves, state]
      rw [quiet]
      rfl

theorem step_answered (syscall : Syscall) (t : AccessTrace) (events : DramEvents) :
    (t.step syscall events).answered =
      t.answered + (t.core.memory.dc.serves t.core.dcRequest).toNat := by
  change (if t.core.memory.dc.serves t.core.dcRequest then _ else _) = _
  cases t.core.memory.dc.serves t.core.dcRequest <;> rfl

theorem step_issued (syscall : Syscall) (t : AccessTrace) (events : DramEvents) :
    (t.step syscall events).issued =
      t.issued ++ (if t.core.memReady then [t.core.exOut] else []).flatMap accessesOf := by
  change (if t.core.memReady then _ else _) = _
  cases t.core.memReady <;> simp

variable (syscall events) in
theorem Visits.pending_step (visits : t.Visits phase) :
    (t.step syscall events).answered ≤ (t.step syscall events).issued.length ∧
      (t.step syscall events).issued.drop (t.step syscall events).answered =
        ((t.trace.nextPhase events phase).pending (t.core.step syscall events).exmem).flatMap
          accessesOf := by
  have served := visits.length_leaving
  have count := visits.count
  have rest : (t.step syscall events).issued.drop t.answered =
      (phase.leaving (MemPath.ofCore t.core)).flatMap accessesOf ++
        ((t.trace.nextPhase events phase).pending (t.core.step syscall events).exmem).flatMap
          accessesOf := by
    rw [step_issued, List.drop_append_of_le_length count, visits.pending,
      ← List.flatMap_append, ← List.flatMap_append]
    exact congrArg (List.flatMap accessesOf) (MemPath.pending_step visits.tracks.path
      { next := t.core.exOut, bus := t.core.memory.dcResponse events })
  rw [step_answered, ← served]
  constructor
  · have length := congrArg List.length rest
    rw [List.length_drop, List.length_append] at length
    have longer : t.issued.length ≤ (t.step syscall events).issued.length := by
      rw [step_issued, List.length_append]
      exact Nat.le_add_right _ _
    omega
  · rw [← List.drop_drop, rest, List.drop_left]

variable (syscall events) in
/-- A request stays at the data cache while it is busy. -/
theorem Visits.request_step (visits : t.Visits phase)
    (busy : (t.core.step syscall events).memory.dc.pState ≠ .a) :
    (t.core.step syscall events).dcRequest = t.core.dcRequest := by
  rcases MemPath.Phase.request_step visits.tracks.path
    { next := t.core.exOut, bus := t.core.memory.dcResponse events } with idle | same
  · exact absurd idle busy
  · exact same

/-- What the data cache has reached is in `EXMemReg` or behind it. -/
theorem Visits.reaches (visits : t.Visits phase) :
    t.answered + (t.core.memory.dc.begins t.core.dcRequest).toNat ≤ t.issued.length := by
  have count := visits.count
  cases reached : t.core.memory.dc.begins t.core.dcRequest with
  | false => exact count
  | true =>
      obtain ⟨x, rfl⟩ := MemPath.exists_waiting_of_busy visits.tracks.path
        (DCache.Regs.busy_of_begins reached)
      have length := congrArg List.length visits.pending
      rw [MemPath.Phase.pending, List.flatMap_cons,
        accessesOf_of_accesses (visits.tracks.accesses x rfl), List.length_drop] at length
      simp only [List.length_append, List.length_cons, List.length_nil] at length
      change t.answered + 1 ≤ _
      omega

/-- Nothing new is reached while the number of the accesses stays. -/
theorem Visits.reached_of_count (visits : t.Visits phase)
    (count : (t.step syscall events).answered +
        ((t.core.step syscall events).memory.dc.begins
          (t.core.step syscall events).dcRequest).toNat =
      t.answered + (t.core.memory.dc.begins t.core.dcRequest).toNat) :
    (t.step syscall events).reached = t.reached := by
  rw [reached, step_core, count, step_issued, List.take_append_of_le_length visits.reaches]
  rfl

variable (syscall events) in
/-- After an acknowledgement the data cache is idle. -/
theorem begins_step_of_serves (serves : t.core.memory.dc.serves t.core.dcRequest = true) :
    (t.core.step syscall events).memory.dc.begins (t.core.step syscall events).dcRequest =
      false := by
  obtain ⟨state, hit⟩ := DCache.Regs.state_of_serves serves
  have idle : (t.core.step syscall events).memory.dc.pState = .a := by
    change t.core.memory.dc.nState t.core.dcRequest _ = .a
    rw [DCache.Regs.nState, state]
    exact if_pos hit
  rw [DCache.Regs.begins, idle]

variable (syscall events) in
theorem Visits.begins_step (visits : t.Visits phase)
    (before : t.core.memory.dc.begins t.core.dcRequest = true)
    (waits : t.core.memory.dc.serves t.core.dcRequest = false) :
    (t.core.step syscall events).memory.dc.begins (t.core.step syscall events).dcRequest =
      true := by
  have busy : (t.core.step syscall events).memory.dc.pState ≠ .a := by
    intro idle
    have acked := (DCache.Regs.step_idle_iff (DCache.Regs.busy_of_begins before)
      t.core.dcRequest (t.core.memory.dcResponse events)).mp idle
    exact absurd (waits.symm.trans acked) (by decide)
  rw [visits.request_step syscall events busy]
  exact visits.tracks.memory.phase.begins_step _ before waits

/-- The access that is reached is the first one that is pending. -/
theorem Visits.reached_of_begins (visits : t.Visits phase)
    (later : (t.trace.nextPhase events phase).Tracks (MemPath.ofCore (t.core.step syscall events)))
    (accesses : ∀ x, t.trace.nextPhase events phase = .waiting x → Mem.accesses x = true)
    (waits : t.core.memory.dc.serves t.core.dcRequest = false)
    (before : t.core.memory.dc.begins t.core.dcRequest = false)
    (after : (t.core.step syscall events).memory.dc.begins
      (t.core.step syscall events).dcRequest = true) :
    ∃ x, t.trace.nextPhase events phase = .waiting x ∧
      (t.step syscall events).reached = t.reached ++
        [{ line := Written.programLine x.alures, store := Mem.storeOp x.op x.op3 }] := by
  obtain ⟨x, waiting⟩ := MemPath.exists_waiting_of_busy later (DCache.Regs.busy_of_begins after)
  refine ⟨x, waiting, ?_⟩
  have answered : (t.step syscall events).answered = t.answered := by
    rw [step_answered, waits]
    rfl
  have rest := (visits.pending_step syscall events).2
  rw [answered, waiting, MemPath.Phase.pending, List.flatMap_cons,
    accessesOf_of_accesses (accesses x waiting)] at rest
  have old : (t.step syscall events).issued.take t.answered = t.issued.take t.answered := by
    rw [step_issued, List.take_append_of_le_length visits.count]
  rw [reached, reached, answered, step_core, after, before, Bool.toNat_false, Nat.add_zero, ← old,
    Bool.toNat_true, List.take_add, rest]
  rfl

/-- In a cycle the data cache reaches nothing new, or the access that is under way. -/
theorem Visits.reached_step (visits : t.Visits phase)
    (later : (t.trace.nextPhase events phase).Tracks (MemPath.ofCore (t.core.step syscall events)))
    (accesses : ∀ x, t.trace.nextPhase events phase = .waiting x → Mem.accesses x = true) :
    ((t.step syscall events).reached = t.reached ∧
      ((t.core.step syscall events).memory.dc.begins (t.core.step syscall events).dcRequest =
          true →
        t.core.memory.dc.begins t.core.dcRequest = true ∧
          t.core.memory.dc.serves t.core.dcRequest = false)) ∨
    (t.core.memory.dc.begins t.core.dcRequest = false ∧
      (t.core.step syscall events).memory.dc.begins (t.core.step syscall events).dcRequest =
        true ∧
      ∃ x, t.trace.nextPhase events phase = .waiting x ∧
        (t.step syscall events).reached = t.reached ++
          [{ line := Written.programLine x.alures, store := Mem.storeOp x.op x.op3 }]) := by
  cases serves : t.core.memory.dc.serves t.core.dcRequest with
  | true =>
      left
      have before := visits.tracks.memory.phase.begins_of_serves serves
      have after := begins_step_of_serves syscall events serves
      refine ⟨visits.reached_of_count ?_, fun begun => absurd (begun.symm.trans after) (by decide)⟩
      rw [step_answered, serves, before, after]
      rfl
  | false =>
      have answered : (t.step syscall events).answered = t.answered := by
        rw [step_answered, serves]
        rfl
      cases before : t.core.memory.dc.begins t.core.dcRequest with
      | true =>
          left
          have after := visits.begins_step syscall events before serves
          refine ⟨visits.reached_of_count ?_, fun _ => ⟨rfl, rfl⟩⟩
          rw [answered, after, before]
      | false =>
          cases after : (t.core.step syscall events).memory.dc.begins
              (t.core.step syscall events).dcRequest with
          | false =>
              left
              refine ⟨visits.reached_of_count ?_, fun begun => absurd begun (by decide)⟩
              rw [answered, after, before]
          | true =>
              right
              exact ⟨rfl, rfl, visits.reached_of_begins later accesses serves before after⟩

theorem last_of_grown {t' : AccessTrace} {a : Access (BitVec 58)}
    (grown : t'.reached = t.reached ++ [a]) :
    t'.last (index a.line) = (t.last (index a.line)).visit a := by
  rw [last, last, grown]
  exact Residents.resident_append_of_place rfl

theorem last_of_other {t' : AccessTrace} {a : Access (BitVec 58)} {i : BitVec 4}
    (grown : t'.reached = t.reached ++ [a]) (other : i ≠ index a.line) :
    t'.last i = t.last i := by
  rw [last, last, grown]
  exact Residents.resident_append_of_other other.symm

/-- A store that is served is the last access of its set. -/
theorem Visits.stored_of_stores (visits : t.Visits phase)
    (stores : t.core.memory.dc.stores t.core.dcRequest = true) :
    (t.last (set t.core.dcRequest)).stored = true := by
  rw [DCache.Regs.stores, Bool.and_eq_true, Bool.not_eq_true'] at stores
  obtain ⟨serves, write⟩ := stores
  obtain ⟨x, rfl⟩ := MemPath.waiting_of_serves visits.tracks.path serves
  have request : t.core.dcRequest = requestOf x := MemPath.request_of_waiting visits.tracks.path
  have access := visits.tracks.accesses x rfl
  have store : Mem.storeOp x.op x.op3 = true := by
    rw [request] at write
    simpa [requestOf, Mem.readWriteN] using write
  have line : Written.programLine x.alures = t.core.dcRequest.lineAddr := by
    rw [request]
    exact Written.programLine_eq (visits.tracks.low x List.mem_cons_self access)
  have rest := visits.pending
  rw [MemPath.Phase.pending, List.flatMap_cons, accessesOf_of_accesses access] at rest
  have grown : t.reached = t.issued.take t.answered ++
      [{ line := Written.programLine x.alures, store := Mem.storeOp x.op x.op3 }] := by
    rw [reached, visits.tracks.memory.phase.begins_of_serves serves]
    change List.take (t.answered + 1) _ = _
    rw [List.take_add, rest]
    rfl
  rw [last, grown, Residents.resident_append_of_place (by rw [line])]
  exact Resident.visit_stored_of_store _ store

/-- The access that the data cache reaches is the one it is asked for. -/
theorem line_of_waiting {t : CallTrace} {x : EXMem} (tracks : t.Tracks (.waiting x)) :
    Written.programLine x.alures = t.core.dcRequest.lineAddr := by
  have request : t.core.dcRequest = requestOf x := MemPath.request_of_waiting tracks.path
  rw [request]
  exact Written.programLine_eq (tracks.low x List.mem_cons_self (tracks.accesses x rfl))

/-- With the last beat the set has the line, and is clean. -/
theorem Visits.kept_of_refilled (visits : t.Visits phase) {i : BitVec 4}
    (replaced : t.core.memory.dc.Replaces t.core.dcRequest i)
    (present : ¬ (t.core.step syscall events).memory.dc.Replaces
      (t.core.step syscall events).dcRequest i) :
    (t.core.step syscall events).memory.dc.lineAt i = (t.last i).line ∧
      (t.core.step syscall events).memory.dc.dirtySram.mem i ≠ 1 := by
  obtain ⟨state, here⟩ := replaced
  have busy : (t.core.step syscall events).memory.dc.pState ≠ .a := by
    intro idle
    have acked : t.core.memory.dc.serves t.core.dcRequest = true :=
      (DCache.Regs.step_idle_iff (by rcases state with s | s <;> rw [s] <;> decide)
        t.core.dcRequest (t.core.memory.dcResponse events)).mp idle
    rcases state with other | other
    · exact absurd (other.symm.trans (DCache.Regs.state_of_serves acked).1) (by decide)
    · exact absurd (other.symm.trans (DCache.Regs.state_of_serves acked).1) (by decide)
  have request := visits.request_step syscall events busy
  have reading : t.core.memory.dc.pState = .e := by
    rcases state with asking | reading
    · exfalso
      apply present
      refine ⟨?_, by rw [request]; exact here⟩
      change t.core.memory.dc.nState t.core.dcRequest _ = .d ∨
        t.core.memory.dc.nState t.core.dcRequest _ = .e
      rw [DCache.Regs.nState, asking]
      dsimp only
      split
      · exact .inr rfl
      · exact .inl rfl
    · exact reading
  have claimed := visits.tracks.memory.phase.claimed reading
  have unstored : t.core.memory.dc.stores t.core.dcRequest = false := by
    simp [DCache.Regs.stores, DCache.Regs.serves, reading]
  constructor
  · rw [step_dc, DCache.Regs.step_lineAt _ (.inl (by rw [reading]; decide)), here,
      (visits.fetching state).1, DCache.Regs.lineAt, claimed.tag]
    exact tag_index _
  · intro modified
    have earlier := DCache.Regs.dirty_of_step modified
      fun both => absurd (both.1.symm.trans unstored) (by decide)
    rw [here, claimed.clean] at earlier
    exact absurd earlier (by decide)

/-- A line that is found in its set is the line of the last access there. -/
theorem Visits.hit_of_lookup (visits : t.Visits phase)
    (before : t.core.memory.dc.begins t.core.dcRequest = false)
    (after : (t.core.step syscall events).memory.dc.begins
      (t.core.step syscall events).dcRequest = true)
    (present : ¬ (t.core.step syscall events).memory.dc.Replaces
      (t.core.step syscall events).dcRequest (set (t.core.step syscall events).dcRequest)) :
    t.core.memory.dc.pState = .a ∧
      (t.last (set (t.core.step syscall events).dcRequest)).line =
        (t.core.step syscall events).dcRequest.lineAddr := by
  have lookup : (t.core.step syscall events).memory.dc.pState = .b ∧
      (t.core.step syscall events).memory.dc.lineAt
          (set (t.core.step syscall events).dcRequest) =
        (t.core.step syscall events).dcRequest.lineAddr := by
    unfold DCache.Regs.begins at after
    split at after
    · rename_i state
      rw [DCache.Regs.lineAt, beq_iff_eq.mp after]
      exact ⟨state, tag_index _⟩
    · rename_i state
      exact absurd ⟨.inl state, rfl⟩ present
    · rename_i state
      exact absurd ⟨.inr state, rfl⟩ present
    · cases after
  have idle := DCache.Regs.idle_of_lookup lookup.1 before
  have kept := visits.kept (set (t.core.step syscall events).dcRequest)
    (DCache.Regs.not_replaces_of_idle idle)
  refine ⟨idle, ?_⟩
  rw [← kept.1, ← lookup.2, step_dc, DCache.Regs.step_lineAt _ (.inl (by rw [idle]; decide))]

theorem Visits.kept_step (visits : t.Visits phase)
    (later : (t.trace.step syscall events).Tracks (t.trace.nextPhase events phase)) (i : BitVec 4)
    (present : ¬ (t.core.step syscall events).memory.dc.Replaces
      (t.core.step syscall events).dcRequest i) :
    (t.core.step syscall events).memory.dc.lineAt i = ((t.step syscall events).last i).line ∧
      ((t.core.step syscall events).memory.dc.dirtySram.mem i = 1 →
        ((t.step syscall events).last i).stored = true ∨
          ((t.step syscall events).last i).fetched = false) := by
  rcases visits.reached_step later.path later.accesses with
    ⟨same, -⟩ | ⟨before, after, x, waiting, grown⟩
  · have unchanged : (t.step syscall events).last i = t.last i := by rw [last, last, same]
    rw [unchanged]
    by_cases replaced : t.core.memory.dc.Replaces t.core.dcRequest i
    · obtain ⟨line, clean⟩ := visits.kept_of_refilled replaced present
      exact ⟨line, fun modified => absurd modified clean⟩
    · obtain ⟨line, modified⟩ := visits.kept i replaced
      have elsewhere : t.core.memory.dc.pState ≠ .d ∨ i ≠ set t.core.dcRequest := by
        by_contra both
        rw [not_or, not_not, not_not] at both
        exact replaced ⟨.inl both.1, both.2⟩
      refine ⟨(DCache.Regs.step_lineAt _ elsewhere).trans line, fun later => ?_⟩
      by_cases stores : t.core.memory.dc.stores t.core.dcRequest = true ∧ i = set t.core.dcRequest
      · rw [stores.2]
        exact .inl (visits.stored_of_stores stores.1)
      · exact modified (DCache.Regs.dirty_of_step later stores)
  · have request := visits.request_step syscall events (DCache.Regs.busy_of_begins after)
    rw [waiting] at later
    have line : Written.programLine x.alures = (t.core.step syscall events).dcRequest.lineAddr :=
      line_of_waiting later
    have unstored : ¬ (t.core.memory.dc.stores t.core.dcRequest = true ∧
        i = DCache.Regs.set t.core.dcRequest) := by
      rintro ⟨stores, -⟩
      rw [DCache.Regs.stores, Bool.and_eq_true] at stores
      rw [visits.tracks.memory.phase.begins_of_serves stores.1] at before
      cases before
    by_cases here : i = set (t.core.step syscall events).dcRequest
    · subst here
      obtain ⟨idle, hit⟩ := visits.hit_of_lookup before after present
      obtain ⟨kept, modified⟩ := visits.kept (set (t.core.step syscall events).dcRequest)
        (DCache.Regs.not_replaces_of_idle idle)
      have place : index (Written.programLine x.alures) =
          DCache.Regs.set (t.core.step syscall events).dcRequest := by
        rw [line]
      have visited := last_of_grown grown
      rw [place, Resident.visit_of_hit (line.trans hit.symm)] at visited
      rw [visited]
      refine ⟨(DCache.Regs.step_lineAt _ (.inl (by rw [idle]; decide))).trans kept,
        fun later => ?_⟩
      rcases modified (DCache.Regs.dirty_of_step later unstored) with stored | unfetched
      · exact .inl (Bool.or_eq_true_iff.mpr (.inl stored))
      · exact .inr unfetched
    · have other : i ≠ set t.core.dcRequest := by
        rw [← request]
        exact here
      rw [last_of_other grown (by rw [line]; exact here)]
      obtain ⟨kept, modified⟩ := visits.kept i fun replaced => other replaced.2
      exact ⟨(DCache.Regs.step_lineAt _ (.inr other)).trans kept,
        fun later => modified (DCache.Regs.dirty_of_step later unstored)⟩

/-- A set is claimed when it has another line. -/
theorem Visits.missed_of_fetches (visits : t.Visits phase)
    (before : t.core.memory.dc.begins t.core.dcRequest = false)
    (state : (t.core.step syscall events).memory.dc.pState = .d ∨
      (t.core.step syscall events).memory.dc.pState = .e) :
    t.core.memory.dc.lineAt (set t.core.dcRequest) ≠ t.core.dcRequest.lineAddr ∧
      ¬ t.core.memory.dc.Replaces t.core.dcRequest (set t.core.dcRequest) := by
  unfold DCache.Regs.begins at before
  cases here : t.core.memory.dc.pState with
  | a =>
      exfalso
      change t.core.memory.dc.nState t.core.dcRequest (t.core.memory.dcResponse events) = .d ∨
        t.core.memory.dc.nState t.core.dcRequest (t.core.memory.dcResponse events) = .e at state
      rw [DCache.Regs.nState, here] at state
      dsimp only at state
      split at state <;> rcases state with other | other <;> cases other
  | b =>
      rw [here] at before
      refine ⟨fun found => ?_, by simp [DCache.Regs.Replaces, here]⟩
      have found := congrArg tag found
      rw [MemorySystem.tag_lineAt] at found
      rw [found, beq_self_eq_true] at before
      cases before
  | c => exact ⟨visits.missed here, by simp [DCache.Regs.Replaces, here]⟩
  | d =>
      rw [here] at before
      cases before
  | e =>
      rw [here] at before
      cases before

variable (syscall events) in
/-- A set that is claimed was asked for another line. -/
theorem Visits.fetching_step (visits : t.Visits phase)
    (later : (t.trace.step syscall events).Tracks (t.trace.nextPhase events phase))
    (state : (t.core.step syscall events).memory.dc.pState = .d ∨
      (t.core.step syscall events).memory.dc.pState = .e) :
    ((t.step syscall events).last (set (t.core.step syscall events).dcRequest)).line =
        (t.core.step syscall events).dcRequest.lineAddr ∧
      ((t.step syscall events).last (set (t.core.step syscall events).dcRequest)).fetched =
        true := by
  have begun : (t.core.step syscall events).memory.dc.begins
      (t.core.step syscall events).dcRequest = true := by
    rcases state with asking | reading
    · rw [DCache.Regs.begins, asking]
    · rw [DCache.Regs.begins, reading]
  have request := visits.request_step syscall events (DCache.Regs.busy_of_begins begun)
  rcases visits.reached_step later.path later.accesses with
    ⟨same, earlier⟩ | ⟨before, -, x, waiting, grown⟩
  · obtain ⟨before, waits⟩ := earlier begun
    have unchanged : (t.step syscall events).last (set t.core.dcRequest) =
        t.last (set t.core.dcRequest) := by rw [last, last, same]
    rw [request, unchanged]
    exact visits.fetching (visits.tracks.memory.phase.fetching_of_begins before waits)
  · rw [waiting] at later
    have line : Written.programLine x.alures = (t.core.step syscall events).dcRequest.lineAddr :=
      line_of_waiting later
    have missed := visits.missed_of_fetches before state
    have kept := (visits.kept _ missed.2).1
    have place : index (Written.programLine x.alures) = set t.core.dcRequest := by
      rw [line, request]
    have visited := last_of_grown grown
    rw [place, Resident.visit_of_miss (by
      rw [line, request, ← kept]
      exact missed.1.symm)] at visited
    rw [request, visited]
    exact ⟨line.trans (congrArg DcRequest.lineAddr request), rfl⟩

variable (syscall events) in
/-- A line is written back when another one is asked for. -/
theorem Visits.missed_step (visits : t.Visits phase)
    (state : (t.core.step syscall events).memory.dc.pState = .c) :
    (t.core.step syscall events).memory.dc.lineAt
        (set (t.core.step syscall events).dcRequest) ≠
      (t.core.step syscall events).dcRequest.lineAddr := by
  have request := visits.request_step syscall events (by rw [state]; decide)
  have next : t.core.memory.dc.nState t.core.dcRequest (t.core.memory.dcResponse events) = .c :=
    state
  rw [request]
  cases here : t.core.memory.dc.pState with
  | a =>
      rw [DCache.Regs.nState, here] at next
      dsimp only at next
      split at next <;> cases next
  | b =>
      rw [step_dc, DCache.Regs.step_lineAt _ (.inl (by rw [here]; decide))]
      intro found
      have found := congrArg tag found
      rw [MemorySystem.tag_lineAt,
        ← (visits.tracks.memory.phase.loaded here).tag] at found
      have hit : t.core.memory.dc.hit t.core.dcRequest = true := beq_iff_eq.mpr found
      rw [DCache.Regs.nState, here] at next
      dsimp only at next
      rw [if_pos hit] at next
      cases next
  | c =>
      rw [step_dc, DCache.Regs.step_lineAt _ (.inl (by rw [here]; decide))]
      exact visits.missed here
  | d =>
      rw [DCache.Regs.nState, here] at next
      dsimp only at next
      split at next <;> cases next
  | e =>
      rw [DCache.Regs.nState, here] at next
      dsimp only at next
      repeat' split at next
      all_goals cases next

/-- A set that still has the line of the reset had it before. -/
theorem Visits.unfetched_before (visits : t.Visits phase)
    (later : (t.trace.step syscall events).Tracks (t.trace.nextPhase events phase)) {i : BitVec 4}
    (unfetched : ((t.step syscall events).last i).fetched = false) :
    (t.last i).fetched = false := by
  rcases visits.reached_step later.path later.accesses with ⟨same, -⟩ | ⟨-, -, x, -, grown⟩
  · rwa [last, same] at unfetched
  · by_cases here : i = index (Written.programLine x.alures)
    · rw [here, last_of_grown grown, Resident.visit] at unfetched
      rw [here]
      split at unfetched
      · exact unfetched
      · cases unfetched
    · rwa [last_of_other grown here] at unfetched

theorem Visits.known_step (visits : t.Visits phase)
    (later : (t.trace.step syscall events).Tracks (t.trace.nextPhase events phase))
    (untouched : t.core.calls → t.Untouched syscall) (b : BitVec 64)
    (written : (t.trace.step syscall events).known b ≠ none)
    (unfetched : ((t.step syscall events).last (index (lineOf b))).fetched = false)
    (reset : lineOf b = first (index (lineOf b))) :
    ∃ a ∈ (t.step syscall events).issued, a.store = true ∧ a.line = lineOf b := by
  have before := visits.unfetched_before later unfetched
  have unchanged : t.core.memory.sys.ram b = t.core.ramAfter syscall b := by
    by_cases calls : t.core.calls
    · have read : ¬ t.Unread (index (lineOf b)) := by
        rintro ⟨here, state⟩
        have fetched := (visits.fetching (state.imp_right And.left)).2
        rw [← here] at fetched
        exact absurd (before.symm.trans fetched) (by decide)
      have kept := untouched calls _ read
      rw [show (t.last (index (lineOf b))).line = lineOf b from
        (Residents.lines_of_not_fetched before).1.trans reset.symm] at kept
      rw [← Ram.byteOf_line t.core.memory.sys.ram b, ← kept, Ram.byteOf_line]
    · rw [Core.ramAfter_of_quiet calls]
  have earlier : t.trace.known b ≠ none →
      ∃ a ∈ (t.step syscall events).issued, a.store = true ∧ a.line = lineOf b := by
    intro known
    obtain ⟨a, member, found⟩ := visits.known b known before reset
    rw [step_issued]
    exact ⟨a, List.mem_append_left _ member, found⟩
  change Written.change (if t.core.memReady then t.trace.known.perform t.core.exOut
    else t.trace.known) t.core.memory.sys.ram (t.core.ramAfter syscall) b ≠ none at written
  rw [Written.change, if_pos unchanged] at written
  cases ready : t.core.memReady with
  | false =>
      rw [ready] at written
      exact earlier written
  | true =>
      rw [ready, if_pos rfl, Written.perform] at written
      cases store : Mem.storeOp t.core.exOut.op t.core.exOut.op3 with
      | false =>
          rw [store] at written
          exact earlier written
      | true =>
          rw [store, if_pos rfl, Written.put] at written
          split at written
          · rename_i own
            have access : Mem.accesses t.core.exOut = true := by
              rw [Mem.accesses, store, Bool.or_true]
            refine ⟨{ line := Written.programLine t.core.exOut.alures
                      store := Mem.storeOp t.core.exOut.op t.core.exOut.op3 }, ?_, store,
              own.1.symm⟩
            rw [step_issued, ready, if_pos rfl, List.flatMap_singleton,
              accessesOf_of_accesses access]
            exact List.mem_append_right _ List.mem_cons_self
          · exact earlier written

/-- The condition on accesses is one on what the data cache and Mem hold back. -/
theorem Visits.keeps (visits : t.Visits phase) (safe : t.Safe syscall events) :
    t.trace.Keeps syscall phase events where
  allowed := safe.1
  low ready access := by
    have op : t.core.exOut.op = 0b11 := by
      simp only [Mem.accesses, Mem.loadOp, Mem.storeOp, Bool.or_eq_true,
        decide_eq_true_eq] at access
      rcases access with load | store
      · exact load.1
      · exact store.1
    exact (safe.2.1 ready op).2
  flushed calls := by
    obtain ⟨evicted, untouched⟩ := safe.2.2.1 calls
    exact visits.flushed evicted untouched

theorem Visits.step (visits : t.Visits phase) (safe : t.Safe syscall events) :
    (t.step syscall events).Visits (t.trace.nextPhase events phase) := by
  have later := visits.tracks.step (visits.keeps safe)
  have pending := visits.pending_step syscall events
  constructor
  case tracks => exact later
  case count => exact pending.1
  case pending => exact pending.2
  case kept => exact visits.kept_step later
  case fetching => exact visits.fetching_step syscall events later
  case missed => exact visits.missed_step syscall events
  case known => exact visits.known_step later fun calls => (safe.2.2.1 calls).2

/-! ### The loads -/

/-- A load returns the bytes of the line: of a narrow one they are zero. -/
theorem Visits.right_of_loads (visits : t.Visits phase) (safe : t.Safe syscall events)
    {k : LoadOp} (loads : t.Loads k) (later : DramEvents) :
    k.Right t.core.memory.dc.dataSram.readData t.core.mem.pAlures
      (WB.out ((t.core.step syscall events).step syscall later).memwb).data := by
  obtain ⟨serves, op, op3, aligned⟩ := loads
  obtain ⟨x, rfl⟩ := MemPath.waiting_of_serves visits.tracks.path serves
  obtain ⟨sameOp, sameOp3, alures⟩ := visits.tracks.path.1.fields
  have opX : x.op = 0b11 := sameOp.symm.trans op
  have op3X : x.op3 = k.op3 := sameOp3.symm.trans op3
  have alures : t.core.mem.pAlures = x.alures := alures
  have data : (WB.out ((t.core.step syscall events).step syscall later).memwb).data =
      WB.data (MemPath.entry x
        (DCache.loadData (requestOf x) t.core.memory.dc.dataSram.readData)) :=
    MemPath.data_of_served opX visits.tracks.path serves
      { next := t.core.exOut, bus := t.core.memory.dcResponse events }
      { next := (t.core.step syscall events).exOut
        bus := (t.core.step syscall events).memory.dcResponse later }
  rw [data]
  by_cases doubleword : k = .ldd
  · subst doubleword
    rw [alures] at aligned ⊢
    exact MemPath.right_of_ldd opX op3X aligned _
  · have zero := (k.value_eq_zero_iff doubleword _ _).mpr
      (safe.2.2.2 k doubleword ⟨serves, op, op3, aligned⟩)
    rw [MemPath.data_of_narrow k doubleword opX op3X]
    exact ⟨zero.symm, fun same => absurd same doubleword⟩

/-- The bytes that a load addresses, in the line that Mem asks for. -/
theorem loads_bytes {k : LoadOp} (loads : t.Loads k) {j : Nat} (inside : j < k.size) :
    lineOf (t.address + BitVec.ofNat 64 j) = Written.programLine t.core.mem.pAlures ∧
      ∀ row, byteOf row (t.core.mem.pAlures + BitVec.ofNat 64 j) =
        byteOf row (t.address + BitVec.ofNat 64 j) := by
  have aligned := loads.2.2.2
  have narrow : k.size = 1 ∨ k.size = 2 ∨ k.size = 4 ∨ k.size = 8 := by
    cases k <;> simp [LoadOp.size]
  have below : t.core.mem.pAlures.toNat % 64 + j < 64 := by
    rcases narrow with size | size | size | size
    all_goals
      rw [size] at aligned inside
      omega
  have bound := t.core.mem.pAlures.isLt
  have low : t.address.toNat = t.core.mem.pAlures.toNat % 2 ^ 32 := by
    rw [address, BitVec.toNat_setWidth, BitVec.toNat_setWidth]
    omega
  have line : (Written.programLine t.core.mem.pAlures).toNat = t.address.toNat / 64 := by
    rw [Written.programLine, BitVec.toNat_ofNat, BitVec.toNat_setWidth, low]
    omega
  have here : (t.address + BitVec.ofNat 64 j).toNat = t.address.toNat + j := by
    rw [BitVec.toNat_add, BitVec.toNat_ofNat]
    omega
  have there : (t.core.mem.pAlures + BitVec.ofNat 64 j).toNat = t.core.mem.pAlures.toNat + j := by
    rw [BitVec.toNat_add, BitVec.toNat_ofNat]
    omega
  constructor
  · apply BitVec.eq_of_toNat_eq
    rw [line, lineOf, BitVec.extractLsb'_toNat, Nat.shiftRight_eq_div_pow, here]
    omega
  · intro row
    rw [byteOf, byteOf, Ram.laneOf_eq, Ram.laneOf_eq, here, there, low]
    congr 1
    omega

theorem Visits.faithful (visits : t.Visits phase) (safe : t.Safe syscall events) :
    t.Faithful syscall events where
  call calls := by
    obtain ⟨evicted, untouched⟩ := safe.2.2.1 calls
    exact (visits.flushed evicted untouched).call visits.tracks
  line serves b v := visits.tracks.line serves
  load k loads row written later := by
    refine (k.right_congr ?_ _).mp (visits.right_of_loads safe loads later)
    intro j inside
    obtain ⟨line, lanes⟩ := loads_bytes loads inside
    rw [lanes]
    exact visits.tracks.line loads.1 line (written j inside)

end

/-- After the reset nothing has been accessed, and every set has its line of the reset. -/
theorem visits_start (syscall : Syscall) (entry : BitVec 32) (regFile : RegFile) (ram : Ram) :
    (start syscall entry regFile ram).Visits .idle := by
  have tracks := CallTrace.tracks_start syscall entry regFile ram
  have idle : (start syscall entry regFile ram).core.memory.dc.pState = .a := tracks.path.2.1
  have tags (i : BitVec 4) : (start syscall entry regFile ram).core.memory.dc.lineAt i =
      first i := by
    have state : (Core.reset entry regFile ram).memory.dc.pState = .a := rfl
    exact DCache.Regs.step_lineAt _ (.inl (by rw [state]; decide))
  constructor
  case tracks => exact tracks
  case count => exact le_rfl
  case pending => rfl
  case kept =>
    intro i _
    refine ⟨(tags i).trans ?_, fun _ => .inr ?_⟩
    · rfl
    · rfl
  case fetching =>
    rintro (other | other)
    · exact absurd (idle.symm.trans other) (by decide)
    · exact absurd (idle.symm.trans other) (by decide)
  case missed => exact fun other => absurd (idle.symm.trans other) (by decide)
  case known => exact fun b written => absurd rfl written

/-- System calls see the program's memory, and the loads what the calls have written, in
every run in which the stores have been evicted before a call and the call leaves the cached
lines alone, whatever the emulation is. -/
theorem syscalls_see_memory (syscall : Syscall) (entry : BitVec 32) (regFile : RegFile)
    (ram : Ram) (events : List DramEvents)
    (safe : Runs.Guarded (step syscall) (Safe syscall) (start syscall entry regFile ram) events) :
    Runs.Guarded (step syscall) (Faithful syscall) (start syscall entry regFile ram) events := by
  have first : (start syscall entry regFile ram).Sound :=
    ⟨_, visits_start syscall entry regFile ram⟩
  have strengthened := safe.strengthen
    (fun t events (sound : t.Sound) safe => sound.elim fun _ visits => ⟨_, visits.step safe⟩) first
  exact strengthened.mono fun _ _ both => both.1.elim fun _ visits => visits.faithful both.2

/-- An emulation that copies the doubleword at `0x3c40` to 1088. -/
def copies : Syscall := fun _ ram => (0, ram.store64 1088 (ram.load64 0x3c40))

/-- `%g1` has the address `0x3c40`. -/
def pointerRegs : RegFile :=
  { RegFile.reset with globalRegister := fun r => if r = 1 then 0x3c40 else 0 }

/-- The events of some cycles and one in which a line is read. -/
def answers (cycles : Nat) (address : BitVec 64) : List DramEvents :=
  List.replicate cycles (.completing []) ++ [.completing [address]]

/-- `st %g1, [%g1]`, `ldd [64], %o0`, `ta 0x10` and `ldd [1088], %g2`: the first load evicts
the stored line, and the second one reads the copy. -/
theorem syscalls_see_memory_copy :
    Runs.Guarded (step copies) (Faithful copies)
      (start copies 0 pointerRegs (Ram.ofWords [0xc2204000, 0xd0182040, 0x91d02010, 0xc4182440]))
      (DramEvents.firstFetch ++ answers 20 64 ++ answers 20 1088 ++
        List.replicate 14 (.completing [])) :=
  syscalls_see_memory _ _ _ _ _ (by decide +kernel)

/-- `st %g0, [%g0 + 64]` and `ta 0x10`: the store is still in Mem at the call. -/
theorem not_syscalls_see_memory :
    ¬ ∀ (syscall : Syscall) (entry : BitVec 32) (regFile : RegFile) (ram : Ram)
        (events : List DramEvents),
      Runs.Guarded (step syscall) (fun t events => t.core.memory.Allowed events)
        (start syscall entry regFile ram) events →
      Runs.Guarded (step syscall) (Faithful syscall) (start syscall entry regFile ram) events := by
  intro all
  have faithful := (all (fun _ ram => (0, ram)) 0 RegFile.reset
    (Ram.ofWords [0xc0202040, 0x91d02010])
    ((DramEvents.firstFetch ++ List.replicate 4 (.completing [])) ++ [.completing []])
    (by decide +kernel)).last
  exact absurd (faithful.call (by decide +kernel) 64 0 (by decide +kernel)) (by decide +kernel)

end AccessTrace

end Sparcy
