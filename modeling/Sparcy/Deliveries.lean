import Sparcy.BusTraffic

/-!
# Reads and their beats

What the memory side owes to the cache that reads under a tag: eight beats for a
pending read, then the rest of the beats in the queue, in the order of the line.  A read
is lost when its line is pending under another tag.
-/

namespace Sparcy

namespace System

variable {s : System} {tag : BitVec 13} {l : BitVec 58} {ram : Ram} {k : Nat}

/-- `addr_to_tag` is a map. -/
def Keyed (s : System) : Prop := (s.addrToTag.map Prod.fst).Nodup

/-- The read of a line is pending. -/
def Pending (s : System) (tag : BitVec 13) (l : BitVec 58) : Prop :=
  s.readsFor tag = [Ram.lineAddress l] ∧ s.beatsFor tag = []

/-- Of the answer to the read of a line `k` beats have been taken.  `ram` is the RAM at
the time the read was completed. -/
def Owes (s : System) (tag : BitVec 13) (l : BitVec 58) (ram : Ram) (k : Nat) : Prop :=
  (k = 0 ∧ s.Pending tag l) ∨
    (s.readsFor tag = [] ∧ s.beatsFor tag = ((List.range 8).drop k).map (ram.doubleword l))

/-- The beats that are still to be taken: eight for a pending read. -/
def undelivered (s : System) (tag : BitVec 13) : Nat :=
  8 * (s.readsFor tag).length + (s.beatsFor tag).length

theorem Owes.undelivered_eq (owes : s.Owes tag l ram k) : s.undelivered tag = 8 - k := by
  rcases owes with ⟨rfl, reads, beats⟩ | ⟨reads, beats⟩
  · simp [undelivered, reads, beats]
  · simp [undelivered, reads, beats]

/-- The queued beats are the last ones of the line. -/
theorem Owes.in_order (owes : s.Owes tag l ram k) :
    s.beatsFor tag =
      ((List.range 8).drop (8 - (s.beatsFor tag).length)).map (ram.doubleword l) := by
  rcases owes with ⟨-, -, beats⟩ | ⟨-, beats⟩
  · rw [beats]
    rfl
  · have length : (s.beatsFor tag).length = 8 - k := by simp [beats]
    by_cases low : k ≤ 8
    · rw [length, show 8 - (8 - k) = k by omega]
      exact beats
    · rw [length, show 8 - (8 - k) = 8 by omega, beats,
        List.drop_eq_nil_of_le (by simp; omega)]
      rfl

theorem quiet_iff_owes (l : BitVec 58) (ram : Ram) : s.Quiet tag ↔ s.Owes tag l ram 8 := by
  constructor
  · exact fun quiet => .inr ⟨quiet.2, quiet.1⟩
  · rintro (⟨impossible, -⟩ | ⟨reads, beats⟩)
    · omega
    · exact ⟨beats, reads⟩

theorem Quiet.undelivered_eq (quiet : s.Quiet tag) : s.undelivered tag = 0 := by
  simp [undelivered, quiet.1, quiet.2]

theorem Owes.congr {s' : System} (owes : s.Owes tag l ram k) (queue : s'.txQueue = s.txQueue)
    (reads : s'.addrToTag = s.addrToTag) : s'.Owes tag l ram k := by
  simpa only [Owes, Pending, beatsFor, readsFor, queue, reads] using owes

/-- The beat at the front is the next one of the line. -/
theorem Owes.front {beat : BitVec 64} {rest : List Beat} (owes : s.Owes tag l ram k)
    (queue : s.txQueue = (beat, tag) :: rest) :
    k < 8 ∧ beat = ram.doubleword l k ∧ s.readsFor tag = [] := by
  have beats : s.beatsFor tag = beat :: (rest.filter fun beat => beat.2 == tag).map Prod.fst := by
    simp [beatsFor, queue]
  rcases owes with ⟨-, -, none⟩ | ⟨reads, all⟩
  · rw [none] at beats
    cases beats
  · rw [all] at beats
    have low : k < 8 := by
      by_contra high
      rw [List.drop_eq_nil_of_le (by simpa using high)] at beats
      cases beats
    rw [List.drop_eq_getElem_cons (by simpa using low), List.map_cons, List.cons.injEq] at beats
    exact ⟨low, by simpa using beats.1.symm, reads⟩

/-! ### The map of pending reads -/

theorem findTag_of_mem_readsFor (keyed : s.Keyed) {addr : BitVec 64}
    (pending : addr ∈ s.readsFor tag) : s.findTag addr = some tag := by
  have entry : (addr, tag) ∈ s.addrToTag := by simpa [readsFor] using pending
  rw [findTag]
  rw [Keyed] at keyed
  generalize s.addrToTag = entries at keyed entry
  induction entries with
  | nil => cases entry
  | cons first entries induction =>
      obtain ⟨key, value⟩ := first
      rw [List.map_cons, List.nodup_cons] at keyed
      rw [List.lookup_cons]
      rcases List.mem_cons.mp entry with same | later
      · obtain ⟨rfl, rfl⟩ := Prod.mk.inj same
        simp
      · have different : addr ≠ key := by
          rintro rfl
          exact keyed.1 (List.mem_map.mpr ⟨_, later, rfl⟩)
        rw [beq_eq_false_iff_ne.mpr different]
        exact induction keyed.2 later

theorem Keyed.complete (keyed : s.Keyed) (addr : BitVec 64) : (s.dramReadComplete addr).Keyed := by
  rw [dramReadComplete]
  cases s.findTag addr with
  | none => exact keyed
  | some _ => exact keyed.sublist ((List.filter_sublist).map _)

theorem Keyed.command {bus : BusRequest} (keyed : s.Keyed)
    (memory : cmd bus.reqtag = MEMORY) : (s.command bus).Keyed := by
  rw [command_memory memory, Keyed]
  dsimp only
  split
  · exact keyed
  · rename_i added
    rw [not_or, Bool.not_eq_true, Option.isSome_eq_false_iff, Option.isNone_iff_eq_none,
      findTag, List.lookup_eq_none_iff] at added
    rw [List.map_cons, List.nodup_cons]
    refine ⟨?_, keyed⟩
    intro present
    obtain ⟨entry, member, same⟩ := List.mem_map.mp present
    have absent := added.1 entry member
    simp [same] at absent

/-! ### Completed reads -/

theorem Owes.complete (owes : s.Owes tag l ram k) (keyed : s.Keyed) (addr : BitVec 64) :
    (s.dramReadComplete addr).Owes tag l (if s.findTag addr = some tag then s.ram else ram) k := by
  by_cases found : s.findTag addr = some tag
  · have pending := mem_readsFor_of_findTag found
    rw [if_pos found]
    rcases owes with ⟨rfl, read, beats⟩ | ⟨none, -⟩
    · right
      rw [read, List.mem_singleton] at pending
      subst pending
      have nothing : (s.txQueue.filter fun beat => beat.2 == tag).map Prod.fst = [] := beats
      rw [dramReadComplete, found]
      constructor
      · exact (readsFor_filter _).trans (by simp [read])
      · rw [beatsFor, List.filter_append, List.map_append, nothing, beatsFor_beats]
        simp
    · rw [none] at pending
      cases pending
  · obtain ⟨beats, reads⟩ := dramReadComplete_of_other addr found
    rw [if_neg found]
    rcases owes with ⟨zero, read, none⟩ | ⟨none, all⟩
    · have apart : Ram.lineAddress l ≠ addr := by
        rintro rfl
        exact found (findTag_of_mem_readsFor keyed (by simp [read]))
      refine .inl ⟨zero, ?_, beats.trans none⟩
      rcases reads with reads | reads <;> simp [reads, read, apart]
    · refine .inr ⟨?_, beats.trans all⟩
      rcases reads with reads | reads <;> simp [reads, none]

/-- The RAM at the last completion of a read under a tag. -/
def snapshot (tag : BitVec 13) : List (BitVec 64) → System → Ram → Ram
  | [], _, ram => ram
  | addr :: addrs, s, ram =>
      snapshot tag addrs (s.dramReadComplete addr) (if s.findTag addr = some tag then s.ram else ram)

def readRam (s : System) (events : DramEvents) (tag : BitVec 13) (ram : Ram) : Ram :=
  snapshot tag events.completed (s.afterKey events) ram

theorem Keyed.update (keyed : s.Keyed) (events : DramEvents) : (s.update events).Keyed := by
  have start : (s.afterKey events).Keyed := by
    rw [Keyed, (afterKey_frame events).1]
    exact keyed
  rw [update_eq]
  generalize s.afterKey events = s' at start
  generalize events.completed = addrs
  induction addrs generalizing s' with
  | nil => exact start
  | cons addr addrs induction => exact induction _ (start.complete addr)

theorem Owes.update (owes : s.Owes tag l ram k) (keyed : s.Keyed) (events : DramEvents)
    (known : tag ≠ IRQ) : (s.update events).Owes tag l (s.readRam events tag ram) k := by
  have frame := (afterKey_frame (s := s) events).1
  have start : (s.afterKey events).Owes tag l ram k := by
    simpa only [Owes, Pending, beatsFor_afterKey events known, readsFor, frame] using owes
  have keyed' : (s.afterKey events).Keyed := by
    rw [Keyed, frame]
    exact keyed
  rw [update_eq, readRam]
  clear owes
  generalize s.afterKey events = s' at start keyed'
  generalize events.completed = addrs
  induction addrs generalizing s' ram with
  | nil => exact start
  | cons addr addrs induction =>
      exact induction _ (start.complete keyed' addr) (keyed'.complete addr)

/-- A snapshot is an earlier RAM; the reads of a tick do not change the RAM. -/
theorem readRam_eq (s : System) (events : DramEvents) (tag : BitVec 13) (ram : Ram) :
    s.readRam events tag ram = ram ∨ s.readRam events tag ram = s.ram := by
  rw [readRam, ← (afterKey_frame (s := s) events).2.1]
  generalize s.afterKey events = s'
  generalize events.completed = addrs
  induction addrs generalizing s' ram with
  | nil => exact .inl rfl
  | cons addr addrs induction =>
      have same := (dramReadComplete_frame (s := s') addr).1
      have later := induction (if s'.findTag addr = some tag then s'.ram else ram)
        (s'.dramReadComplete addr)
      rw [same] at later
      rw [snapshot]
      by_cases found : s'.findTag addr = some tag
      · rw [if_pos found] at later ⊢
        exact .inr (later.elim id id)
      · rw [if_neg found] at later ⊢
        exact later

theorem Pending.update (pending : s.Pending tag l) (keyed : s.Keyed) (events : DramEvents)
    (known : tag ≠ IRQ) (missing : ∀ addr ∈ events.completed, s.findTag addr ≠ some tag) :
    (s.update events).Pending tag l := by
  have asked : (s.update events).Asked tag l :=
    System.Asked.update events ⟨pending.2, .inr pending.1⟩ known missing
  have start : s.Owes tag l s.ram 0 := .inl ⟨rfl, pending⟩
  rcases start.update keyed events known with ⟨-, still⟩ | ⟨-, beats⟩
  · exact still
  · rw [asked.1] at beats
    cases beats

theorem findTag_dramReadComplete_self (s : System) (addr : BitVec 64) :
    (s.dramReadComplete addr).findTag addr = none := by
  rw [dramReadComplete]
  cases found : s.findTag addr with
  | none => exact found
  | some _ => exact (lookup_filter_ne s.addrToTag addr addr).trans (if_pos rfl)

/-- What is pending after the completions was pending and is not completed. -/
theorem findTag_update {events : DramEvents} {addr : BitVec 64}
    (found : (s.update events).findTag addr = some tag) :
    s.findTag addr = some tag ∧ addr ∉ events.completed := by
  have frame : (s.afterKey events).findTag addr = s.findTag addr := by
    rw [findTag, (afterKey_frame events).1, findTag]
  rw [update_eq] at found
  rw [← frame]
  generalize s.afterKey events = s' at found
  generalize events.completed = addrs at found
  clear frame
  induction addrs generalizing s' with
  | nil => exact ⟨found, List.not_mem_nil⟩
  | cons first addrs induction =>
      obtain ⟨later, missing⟩ := induction _ found
      have different : addr ≠ first := by
        rintro rfl
        rw [findTag_dramReadComplete_self] at later
        cases later
      exact ⟨findTag_dramReadComplete later, by simp [different, missing]⟩

/-! ### The queue and the request of a tick -/

theorem Owes.pop_other (owes : s.Owes tag l ram k) {respack : Bool}
    (front : respack = true → ∀ beat rest, s.txQueue ≠ (beat, tag) :: rest) :
    (s.pop respack).Owes tag l ram k := by
  cases respack with
  | false => exact owes
  | true =>
      have beats : (s.pop true).beatsFor tag = s.beatsFor tag := by
        cases queue : s.txQueue with
        | nil => simp [beatsFor, System.pop, queue]
        | cons beat rest =>
            have other : beat.2 ≠ tag := by
              rintro rfl
              exact front rfl beat.1 rest queue
            simp [beatsFor, System.pop, queue, other]
      rw [Owes, Pending, beats]
      exact owes

theorem Owes.pop_taken {beat : BitVec 64} {rest : List Beat} (owes : s.Owes tag l ram k)
    (queue : s.txQueue = (beat, tag) :: rest) : (s.pop true).Owes tag l ram (k + 1) := by
  have beats : (s.pop true).beatsFor tag = (s.beatsFor tag).tail := by
    simp [beatsFor, System.pop, queue]
  rcases owes with ⟨-, -, none⟩ | ⟨reads, all⟩
  · simp [beatsFor, queue] at none
  · refine .inr ⟨reads, ?_⟩
    rw [beats, all, ← List.drop_one, ← List.map_drop, List.drop_drop]

theorem Owes.request_other {bus : BusRequest} (owes : s.Owes tag l ram k)
    (other : bus.reqcyc = true → cmd bus.reqtag = MEMORY ∧ bus.reqtag ≠ tag) :
    (s.request bus).Owes tag l ram k := by
  cases asks : bus.reqcyc with
  | false =>
      rw [request_idle asks]
      exact owes.congr rfl rfl
  | true =>
      obtain ⟨memory, different⟩ := other asks
      by_cases first : s.rxCount = 0
      · have reads := readsFor_command_of_other (s := s) memory (.inl different)
        have queue : (s.command bus).txQueue = s.txQueue := by
          rw [command_memory memory]
        rw [request_command asks first]
        simpa only [Owes, Pending, reads, beatsFor, queue] using owes
      · rw [request_receive asks first]
        exact owes.congr rfl rfl

theorem Quiet.request_own {bus : BusRequest} (quiet : s.Quiet tag)
    (word : bus = { reqcyc := true, req := Ram.lineAddress l, reqtag := tag })
    (memory : cmd tag = MEMORY) (read : isWrite tag = false) (first : s.rxCount = 0)
    (free : s.findTag (Ram.lineAddress l) = none) : (s.request bus).Pending tag l := by
  have asks : bus.reqcyc = true := by rw [word]
  have memory' : cmd bus.reqtag = MEMORY := by rw [word, memory]
  rw [request_command asks first, command_memory memory', word]
  dsimp only
  rw [free, read, if_neg (by decide)]
  refine ⟨?_, quiet.1⟩
  have none := quiet.2
  simp only [readsFor, List.map_eq_nil_iff] at none ⊢
  simp [none]

/-- The read of a line that is pending is ignored. -/
theorem Quiet.request_ignored {bus : BusRequest} {other : BitVec 13} (quiet : s.Quiet tag)
    (word : bus = { reqcyc := true, req := Ram.lineAddress l, reqtag := tag })
    (memory : cmd tag = MEMORY) (first : s.rxCount = 0)
    (found : s.findTag (Ram.lineAddress l) = some other) : (s.request bus).Quiet tag := by
  have asks : bus.reqcyc = true := by rw [word]
  have memory' : cmd bus.reqtag = MEMORY := by rw [word, memory]
  rw [request_command asks first, command_memory memory', word]
  dsimp only
  have ignored : (some other).isSome = true ∨ isWrite tag = true := .inl rfl
  rw [found, if_pos ignored]
  exact quiet

theorem Pending.request_own {bus : BusRequest} (pending : s.Pending tag l) (keyed : s.Keyed)
    (word : bus = { reqcyc := true, req := Ram.lineAddress l, reqtag := tag })
    (memory : cmd tag = MEMORY) (first : s.rxCount = 0) : (s.request bus).Pending tag l := by
  have found : s.findTag (Ram.lineAddress l) = some tag :=
    findTag_of_mem_readsFor keyed (by simp [pending.1])
  have asks : bus.reqcyc = true := by rw [word]
  have memory' : cmd bus.reqtag = MEMORY := by rw [word, memory]
  rw [request_command asks first, command_memory memory', word]
  dsimp only
  have ignored : (some tag).isSome = true ∨ isWrite tag = true := .inl rfl
  rw [found, if_pos ignored]
  exact pending

theorem Keyed.request {bus : BusRequest} (keyed : s.Keyed)
    (memory : bus.reqcyc = true → cmd bus.reqtag = MEMORY) : (s.request bus).Keyed := by
  cases asks : bus.reqcyc with
  | false =>
      rw [request_idle asks]
      exact keyed
  | true =>
      by_cases first : s.rxCount = 0
      · rw [request_command asks first]
        exact keyed.command (memory asks)
      · rw [request_receive asks first]
        exact keyed

theorem Keyed.tick {events : DramEvents} {respack : Bool} {bus : BusRequest} (keyed : s.Keyed)
    (memory : bus.reqcyc = true → cmd bus.reqtag = MEMORY) :
    (s.tick events respack bus).Keyed := by
  apply Keyed.request _ memory
  cases respack with
  | false => exact keyed.update events
  | true => exact keyed.update events

/-! ### A cache that reads under the tag -/

/-- The cache has no read under way; its request is on the bus; it has taken `k` beats. -/
inductive ReadPhase where
  | quiet
  | asked
  | reading (k : Nat)
deriving DecidableEq

/-- What the memory side owes in a phase. -/
def Waits (s : System) (tag : BitVec 13) (l : BitVec 58) (ram : Ram) : ReadPhase → Prop
  | .quiet => s.Quiet tag
  | .asked => s.Pending tag l
  | .reading k => k ≤ 8 ∧ s.Owes tag l ram k

/-- How a cache goes on in a cycle in which it takes a beat or takes none. -/
inductive ReadPhase.Next : (taken : Bool) → ReadPhase → ReadPhase → Prop
  | rest : Next false .quiet .quiet
  | ask : Next false .quiet .asked
  | refused : Next false .asked .asked
  | begins : Next false .asked (.reading 0)
  | take (k : Nat) : Next true (.reading k) (.reading (k + 1))
  | wait (k : Nat) : Next false (.reading k) (.reading k)
  | finish : Next false (.reading 8) .quiet

/-- The same, but a read that was ignored is owed nothing. -/
def MayWait (s : System) (tag : BitVec 13) (l : BitVec 58) (ram : Ram) (phase : ReadPhase) : Prop :=
  s.Waits tag l ram phase ∨ (s.Quiet tag ∧ (phase = .asked ∨ phase = .reading 0))

/-- What a tick has to do with the tag.  A beat is popped when it has been taken; the
read of a refused request is not completed. -/
structure TickFor (s : System) (tag : BitVec 13) (l : BitVec 58) (taken : Bool)
    (phase phase' : ReadPhase) (events : DramEvents) (respack : Bool) (bus : BusRequest) :
    Prop where
  popped : taken = true → respack = true ∧ ∃ beat rest, s.txQueue = (beat, tag) :: rest
  kept : taken = false → respack = true →
    ∃ beat other rest, s.txQueue = (beat, other) :: rest ∧ other ≠ tag
  own : phase' = .asked → bus = { reqcyc := true, req := Ram.lineAddress l, reqtag := tag } ∧
    s.rxCount = 0
  other : phase' ≠ .asked → bus.reqcyc = true → cmd bus.reqtag = MEMORY ∧ bus.reqtag ≠ tag
  refused : phase = .asked → phase' = .asked →
    ∀ addr ∈ events.completed, s.findTag addr ≠ some tag

section

variable {taken : Bool} {phase phase' : ReadPhase} {events : DramEvents} {respack : Bool}
  {bus : BusRequest}

theorem Owes.served (owes : s.Owes tag l ram k) (keyed : s.Keyed) (known : tag ≠ IRQ)
    (tick : s.TickFor tag l false phase phase' events respack bus) :
    ((s.update events).pop respack).Owes tag l (s.readRam events tag ram) k := by
  apply (owes.update keyed events known).pop_other
  intro popped beat rest queue
  obtain ⟨front, other, behind, before, different⟩ := tick.kept rfl popped
  obtain ⟨more, later⟩ := txQueue_update (s := s) events
  rw [later, before, List.cons_append, List.cons.injEq, Prod.mk.injEq] at queue
  exact different queue.1.2

theorem rxCount_served (s : System) (events : DramEvents) (respack : Bool) :
    ((s.update events).pop respack).rxCount = s.rxCount := by
  rw [System.pop]
  split
  · exact (update_frame events).2.1
  · exact (update_frame events).2.1

theorem findTag_pop (s : System) (respack : Bool) (addr : BitVec 64) :
    (s.pop respack).findTag addr = s.findTag addr := by
  cases respack <;> rfl

theorem Quiet.served (quiet : s.Quiet tag) (keyed : s.Keyed) (known : tag ≠ IRQ)
    (tick : s.TickFor tag l false phase phase' events respack bus) :
    ((s.update events).pop respack).Quiet tag :=
  (quiet_iff_owes _ _).mpr (((quiet_iff_owes l s.ram).mp quiet).served keyed known tick)

/-- One tick takes what is owed from phase to phase, unless the line of a read is pending
under another tag. -/
theorem Waits.tick (waits : s.Waits tag l ram phase) (keyed : s.Keyed) (known : tag ≠ IRQ)
    (memory : cmd tag = MEMORY) (read : isWrite tag = false)
    (next : ReadPhase.Next taken phase phase')
    (tick : s.TickFor tag l taken phase phase' events respack bus)
    (free : phase = .quiet → phase' = .asked →
      ((s.update events).pop respack).findTag (Ram.lineAddress l) = none) :
    (s.tick events respack bus).Waits tag l (s.readRam events tag ram) phase' := by
  have count := rxCount_served s events respack
  cases next with
  | rest =>
      have owes := (quiet_iff_owes l ram).mp waits
      have later := (owes.served keyed known tick).request_other (tick.other (by simp))
      exact (quiet_iff_owes _ _).mpr later
  | ask =>
      obtain ⟨word, first⟩ := tick.own rfl
      exact (Quiet.served waits keyed known tick).request_own word memory read (count.trans first)
        (free rfl rfl)
  | refused =>
      obtain ⟨word, first⟩ := tick.own rfl
      have served : ((s.update events).pop respack).Pending tag l := by
        have still := waits.update keyed events known (tick.refused rfl rfl)
        have start : s.Owes tag l ram 0 := .inl ⟨rfl, waits⟩
        rcases start.served keyed known tick with ⟨-, pending⟩ | ⟨reads, -⟩
        · exact pending
        · have none : (s.update events).readsFor tag = [] := by
            cases respack <;> exact reads
          rw [still.1] at none
          cases none
      have keyed' : ((s.update events).pop respack).Keyed := by
        cases respack <;> exact keyed.update events
      exact served.request_own keyed' word memory (count.trans first)
  | begins =>
      have start : s.Owes tag l ram 0 := .inl ⟨rfl, waits⟩
      exact ⟨by omega, (start.served keyed known tick).request_other (tick.other (by simp))⟩
  | take k =>
      obtain ⟨low, owes⟩ := waits
      obtain ⟨popped, beat, rest, queue⟩ := tick.popped rfl
      obtain ⟨more, later⟩ := txQueue_update (s := s) events
      have front : (s.update events).txQueue = (beat, tag) :: (rest ++ more) := by
        rw [later, queue, List.cons_append]
      have below := (owes.front queue).1
      have served := (owes.update keyed events known).pop_taken front
      rw [← popped] at served
      exact ⟨below, served.request_other (tick.other (by simp))⟩
  | wait k =>
      obtain ⟨low, owes⟩ := waits
      exact ⟨low, (owes.served keyed known tick).request_other (tick.other (by simp))⟩
  | finish =>
      have later := (waits.2.served keyed known tick).request_other (tick.other (by simp))
      exact (quiet_iff_owes _ _).mpr later

/-- A line that is not pending after the completions. -/
theorem findTag_served_eq_none (quiet : s.Quiet tag)
    (free : ∀ other, s.findTag (Ram.lineAddress l) = some other → other ≠ tag →
      Ram.lineAddress l ∈ events.completed) :
    ((s.update events).pop respack).findTag (Ram.lineAddress l) = none := by
  rw [findTag_pop]
  by_contra found
  obtain ⟨other, found⟩ := Option.ne_none_iff_exists'.mp found
  obtain ⟨before, missing⟩ := findTag_update found
  by_cases same : other = tag
  · have pending := mem_readsFor_of_findTag (before.trans (congrArg some same))
    rw [quiet.2] at pending
    cases pending
  · exact missing (free other before same)

/-- Without a condition on the other reads a read is placed or ignored. -/
theorem MayWait.tick (waits : s.MayWait tag l ram phase) (keyed : s.Keyed) (known : tag ≠ IRQ)
    (memory : cmd tag = MEMORY) (read : isWrite tag = false)
    (next : ReadPhase.Next taken phase phase')
    (tick : s.TickFor tag l taken phase phase' events respack bus) :
    (s.tick events respack bus).MayWait tag l (s.readRam events tag ram) phase' := by
  have placed : taken = false → s.Quiet tag → phase' = .asked →
      (s.tick events respack bus).MayWait tag l (s.readRam events tag ram) phase' := by
    rintro rfl quiet rfl
    obtain ⟨word, first⟩ := tick.own rfl
    have served := quiet.served keyed known tick
    have first' := (rxCount_served s events respack).trans first
    cases found : ((s.update events).pop respack).findTag (Ram.lineAddress l) with
    | none => exact .inl (served.request_own word memory read first' found)
    | some other => exact .inr ⟨served.request_ignored word memory first' found, .inl rfl⟩
  have waiting : taken = false → s.Quiet tag → phase' = .reading 0 →
      (s.tick events respack bus).MayWait tag l (s.readRam events tag ram) phase' := by
    rintro rfl quiet rfl
    have owes := (quiet_iff_owes l ram).mp quiet
    have later := (owes.served keyed known tick).request_other (tick.other (by simp))
    exact .inr ⟨(quiet_iff_owes _ _).mpr later, .inr rfl⟩
  rcases waits with waits | ⟨quiet, rfl | rfl⟩
  · by_cases asks : phase = .quiet ∧ phase' = .asked
    · obtain ⟨rfl, rfl⟩ := asks
      cases next with
      | ask => exact placed rfl waits rfl
    · exact .inl (waits.tick keyed known memory read next tick
        (fun quiet asked => absurd ⟨quiet, asked⟩ asks))
  · cases next with
    | refused => exact placed rfl quiet rfl
    | begins => exact waiting rfl quiet rfl
  · cases next with
    | take _ =>
        obtain ⟨-, beat, rest, queue⟩ := tick.popped rfl
        have none := quiet.1
        simp [beatsFor, queue] at none
    | wait _ => exact waiting rfl quiet rfl

theorem MayWait.front {beat : BitVec 64} {rest : List Beat}
    (waits : s.MayWait tag l ram (.reading k)) (queue : s.txQueue = (beat, tag) :: rest) :
    k < 8 ∧ beat = ram.doubleword l k := by
  rcases waits with ⟨-, owes⟩ | ⟨quiet, -⟩
  · exact ⟨(owes.front queue).1, (owes.front queue).2.1⟩
  · have none := quiet.1
    simp [beatsFor, queue] at none

theorem MayWait.read {addr : BitVec 64} (waits : s.MayWait tag l ram .asked)
    (found : s.findTag addr = some tag) : addr = Ram.lineAddress l := by
  have pending := mem_readsFor_of_findTag found
  rcases waits with ⟨read, -⟩ | ⟨quiet, -⟩
  · rw [read, List.mem_singleton] at pending
    exact pending
  · rw [quiet.2] at pending
    cases pending

end

end System

end Sparcy
