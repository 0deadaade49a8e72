import Sparcy.RamLines

/-!
# The traffic of one bus tag

What `System::tick` does to the pending reads and the queued beats that carry one
tag.  A cache has at most one read of a line under way and takes its beats in
order.
-/

namespace Sparcy

namespace System

variable {s : System} {tag : BitVec 13} {l : BitVec 58} {c : Nat}

/-- The queued beats with a tag. -/
def beatsFor (s : System) (tag : BitVec 13) : List (BitVec 64) :=
  (s.txQueue.filter fun beat => beat.2 == tag).map Prod.fst

/-- The addresses of the pending reads with a tag. -/
def readsFor (s : System) (tag : BitVec 13) : List (BitVec 64) :=
  (s.addrToTag.filter fun entry => entry.2 == tag).map Prod.fst

/-- Nothing is under way for a tag. -/
def Quiet (s : System) (tag : BitVec 13) : Prop := s.beatsFor tag = [] ∧ s.readsFor tag = []

/-- The read of a line is pending, or was dropped, and nothing has arrived. -/
def Asked (s : System) (tag : BitVec 13) (l : BitVec 58) : Prop :=
  s.beatsFor tag = [] ∧ (s.readsFor tag = [] ∨ s.readsFor tag = [Ram.lineAddress l])

/-- Of the answer to the read of a line `c` beats have been taken. -/
def Answers (s : System) (tag : BitVec 13) (l : BitVec 58) (c : Nat) : Prop :=
  (c = 0 ∧ s.Asked tag l) ∨
    (s.readsFor tag = [] ∧
      s.beatsFor tag = ((List.range 8).drop c).map (s.ram.doubleword l))

theorem Quiet.asked (quiet : s.Quiet tag) : s.Asked tag l := ⟨quiet.1, .inl quiet.2⟩

theorem quiet_iff_answers : s.Quiet tag ↔ s.Answers tag l 8 := by
  constructor
  · exact fun quiet => .inr ⟨quiet.2, quiet.1⟩
  · rintro (⟨impossible, -⟩ | ⟨reads, beats⟩)
    · omega
    · exact ⟨beats, reads⟩

theorem Answers.congr {s' : System} (answers : s.Answers tag l c) (queue : s'.txQueue = s.txQueue)
    (reads : s'.addrToTag = s.addrToTag) (ram : s'.ram = s.ram) : s'.Answers tag l c := by
  simpa only [Answers, Asked, beatsFor, readsFor, queue, reads, ram] using answers

theorem Asked.congr {s' : System} (asked : s.Asked tag l) (queue : s'.txQueue = s.txQueue)
    (reads : s'.addrToTag = s.addrToTag) : s'.Asked tag l := by
  simpa only [Asked, beatsFor, readsFor, queue, reads] using asked

/-- The beat at the front is the next one of the line. -/
theorem Answers.front {beat : BitVec 64} {rest : List Beat} (answers : s.Answers tag l c)
    (queue : s.txQueue = (beat, tag) :: rest) :
    c < 8 ∧ beat = s.ram.doubleword l c ∧ s.readsFor tag = [] := by
  have beats : s.beatsFor tag = beat :: (rest.filter fun beat => beat.2 == tag).map Prod.fst := by
    simp [beatsFor, queue]
  rcases answers with ⟨-, none, -⟩ | ⟨reads, all⟩
  · rw [none] at beats
    cases beats
  · rw [all] at beats
    have low : c < 8 := by
      by_contra high
      rw [List.drop_eq_nil_of_le (by simpa using high)] at beats
      cases beats
    rw [List.drop_eq_getElem_cons (by simpa using low), List.map_cons, List.cons.injEq] at beats
    exact ⟨low, by simpa using beats.1.symm, reads⟩

/-! ### Completed reads -/

theorem readsFor_filter (addr : BitVec 64) :
    ((s.addrToTag.filter fun entry => entry.1 != addr).filter fun entry =>
        entry.2 == tag).map Prod.fst =
      (s.readsFor tag).filter fun read => read != addr := by
  rw [readsFor, List.filter_map, List.filter_filter, List.filter_filter]
  congr 1
  apply List.filter_congr
  intro entry _
  exact Bool.and_comm _ _

theorem mem_readsFor_of_findTag {addr : BitVec 64} (found : s.findTag addr = some tag) :
    addr ∈ s.readsFor tag := by
  rw [findTag, List.lookup_eq_some_iff] at found
  obtain ⟨before, after, split, -⟩ := found
  simp [readsFor, split]

theorem beatsFor_beats (ram : Ram) (l : BitVec 58) (other : BitVec 13) :
    ((beats ram (Ram.lineAddress l) other).filter fun beat => beat.2 == tag).map Prod.fst =
      if other = tag then (List.range 8).map (ram.doubleword l) else [] := by
  by_cases same : other = tag
  · have all : (beats ram (Ram.lineAddress l) other).filter (fun beat => beat.2 == tag) =
        beats ram (Ram.lineAddress l) other := by
      rw [List.filter_eq_self]
      intro beat member
      obtain ⟨i, -, rfl⟩ := List.mem_map.mp member
      exact beq_iff_eq.mpr same
    rw [all, if_pos same, beats, List.map_map]
    rfl
  · simp [beats, same, List.filter_map, Function.comp_def]

theorem beats_of_other (ram : Ram) (addr : BitVec 64) {other : BitVec 13} (different : other ≠ tag) :
    (beats ram addr other).filter (fun beat => beat.2 == tag) = [] := by
  simp [beats, List.filter_map, Function.comp_def, different]

section

variable (addr : BitVec 64)

theorem dramReadComplete_frame :
    (s.dramReadComplete addr).ram = s.ram ∧ (s.dramReadComplete addr).rxCount = s.rxCount ∧
      (s.dramReadComplete addr).xferAddr = s.xferAddr := by
  rw [dramReadComplete]
  cases s.findTag addr <;> exact ⟨rfl, rfl, rfl⟩

theorem dramReadComplete_of_other (different : s.findTag addr ≠ some tag) :
    (s.dramReadComplete addr).beatsFor tag = s.beatsFor tag ∧
      ((s.dramReadComplete addr).readsFor tag = s.readsFor tag ∨
        (s.dramReadComplete addr).readsFor tag =
          (s.readsFor tag).filter fun read => read != addr) := by
  rw [dramReadComplete]
  cases found : s.findTag addr with
  | none => exact ⟨rfl, .inl rfl⟩
  | some other =>
      have apart : other ≠ tag := fun same => different (found.trans (congrArg some same))
      refine ⟨?_, .inr (readsFor_filter addr)⟩
      simp [beatsFor, List.filter_append, beats_of_other _ _ apart]

theorem Asked.complete_other (asked : s.Asked tag l)
    (different : s.findTag addr ≠ some tag) : (s.dramReadComplete addr).Asked tag l := by
  obtain ⟨beats, reads⟩ := dramReadComplete_of_other addr different
  refine ⟨beats.trans asked.1, ?_⟩
  rcases reads with reads | reads
  · rw [reads]
    exact asked.2
  · rw [reads]
    rcases asked.2 with none | pending
    · simp [none]
    · rw [pending]
      by_cases same : Ram.lineAddress l = addr <;> simp [same]

theorem Answers.complete (answers : s.Answers tag l c) :
    (s.dramReadComplete addr).Answers tag l c := by
  have ram := (dramReadComplete_frame (s := s) addr).1
  by_cases found : s.findTag addr = some tag
  · have pending := mem_readsFor_of_findTag found
    rcases answers with ⟨rfl, beats, none | read⟩ | ⟨none, -⟩
    · rw [none] at pending
      cases pending
    · right
      rw [read, List.mem_singleton] at pending
      subst pending
      have completed : s.dramReadComplete (Ram.lineAddress l) =
          { s with
            txQueue := s.txQueue ++ System.beats s.ram (Ram.lineAddress l) tag
            addrToTag := s.addrToTag.filter fun entry => entry.1 != Ram.lineAddress l } := by
        rw [System.dramReadComplete, found]
      rw [completed]
      constructor
      · exact (readsFor_filter _).trans (by simp [read])
      · have nothing : (s.txQueue.filter fun beat => beat.2 == tag).map Prod.fst = [] := beats
        rw [beatsFor, List.filter_append, List.map_append, nothing, beatsFor_beats]
        simp
    · rw [none] at pending
      cases pending
  · rcases answers with ⟨zero, asked⟩ | ⟨none, all⟩
    · exact .inl ⟨zero, asked.complete_other addr found⟩
    · obtain ⟨beats, reads⟩ := dramReadComplete_of_other addr found
      refine .inr ⟨?_, by rw [beats, all, ram]⟩
      rcases reads with reads | reads <;> simp [reads, none]

end

theorem lookup_filter_ne (entries : List (BitVec 64 × BitVec 13)) (addr other : BitVec 64) :
    (entries.filter fun entry => entry.1 != other).lookup addr =
      if addr = other then none else entries.lookup addr := by
  induction entries with
  | nil => simp
  | cons entry entries induction =>
      obtain ⟨key, value⟩ := entry
      by_cases removed : key = other
      · rw [List.filter_cons_of_neg (by simpa using removed), induction, List.lookup_cons]
        by_cases same : addr = other
        · rw [if_pos same, if_pos same]
        · have apart : (addr == key) = false := by simpa [removed] using same
          rw [if_neg same, if_neg same, apart]
      · rw [List.filter_cons_of_pos (by simpa using removed), List.lookup_cons,
          List.lookup_cons, induction]
        cases here : addr == key with
        | false => rfl
        | true =>
            rw [beq_iff_eq] at here
            have apart : addr ≠ other := by rwa [here]
            simp [apart]

theorem findTag_dramReadComplete {addr other : BitVec 64}
    (found : (s.dramReadComplete other).findTag addr = some tag) :
    s.findTag addr = some tag := by
  rw [dramReadComplete] at found
  cases entry : s.findTag other with
  | none =>
      rw [entry] at found
      exact found
  | some _ =>
      rw [entry] at found
      have kept := lookup_filter_ne s.addrToTag addr other
      simp only [findTag] at found ⊢
      rw [kept] at found
      split at found
      · cases found
      · exact found

/-! ### One tick -/

section

variable (events : DramEvents)

/-- A key press reaches no cache. -/
def afterKey (s : System) (events : DramEvents) : System :=
  if events.key then { s with txQueue := s.txQueue ++ [(1, IRQ)] } else s

theorem update_eq : s.update events = events.completed.foldl dramReadComplete (s.afterKey events) :=
  rfl

theorem beatsFor_afterKey (known : tag ≠ IRQ) :
    (s.afterKey events).beatsFor tag = s.beatsFor tag := by
  cases key : events.key with
  | false => simp [afterKey, key]
  | true =>
      simp [afterKey, key, beatsFor, List.filter_append]
      exact known.symm

theorem afterKey_frame :
    (s.afterKey events).addrToTag = s.addrToTag ∧ (s.afterKey events).ram = s.ram ∧
      (s.afterKey events).rxCount = s.rxCount ∧
      (s.afterKey events).xferAddr = s.xferAddr := by
  cases key : events.key <;> simp [afterKey, key]

theorem update_frame :
    (s.update events).ram = s.ram ∧ (s.update events).rxCount = s.rxCount ∧
      (s.update events).xferAddr = s.xferAddr := by
  have completes : ∀ (addrs : List (BitVec 64)) (s : System),
      (addrs.foldl dramReadComplete s).ram = s.ram ∧
        (addrs.foldl dramReadComplete s).rxCount = s.rxCount ∧
        (addrs.foldl dramReadComplete s).xferAddr = s.xferAddr := by
    intro addrs
    induction addrs with
    | nil => exact fun s => ⟨rfl, rfl, rfl⟩
    | cons addr addrs induction =>
        intro s
        obtain ⟨ram, count, xfer⟩ := induction (s.dramReadComplete addr)
        obtain ⟨ram', count', xfer'⟩ := dramReadComplete_frame (s := s) addr
        exact ⟨ram.trans ram', count.trans count', xfer.trans xfer'⟩
  obtain ⟨ram, count, xfer⟩ := completes events.completed (s.afterKey events)
  obtain ⟨-, ram', count', xfer'⟩ := afterKey_frame (s := s) events
  exact ⟨ram.trans ram', count.trans count', xfer.trans xfer'⟩

theorem Answers.update (answers : s.Answers tag l c) (known : tag ≠ IRQ) :
    (s.update events).Answers tag l c := by
  obtain ⟨reads, ram, -, -⟩ := afterKey_frame (s := s) events
  have start : (s.afterKey events).Answers tag l c := by
    simpa only [Answers, Asked, beatsFor_afterKey events known, readsFor, reads, ram] using answers
  rw [update_eq]
  generalize s.afterKey events = s' at start
  generalize events.completed = addrs
  induction addrs generalizing s' with
  | nil => exact start
  | cons addr addrs induction => exact induction _ (start.complete addr)

/-- While its read is not completed nothing arrives for a tag. -/
theorem Asked.update (asked : s.Asked tag l) (known : tag ≠ IRQ)
    (missing : ∀ addr ∈ events.completed, s.findTag addr ≠ some tag) :
    (s.update events).Asked tag l := by
  obtain ⟨reads, -, -, -⟩ := afterKey_frame (s := s) events
  have start : (s.afterKey events).Asked tag l := by
    simpa only [Asked, beatsFor_afterKey events known, readsFor, reads] using asked
  have missing' : ∀ addr ∈ events.completed, (s.afterKey events).findTag addr ≠ some tag := by
    simpa only [findTag, reads] using missing
  rw [update_eq]
  clear missing
  generalize s.afterKey events = s' at start missing'
  generalize events.completed = addrs at missing'
  induction addrs generalizing s' with
  | nil => exact start
  | cons addr addrs induction =>
      apply induction
      · exact start.complete_other addr (missing' addr (by simp))
      · intro other member found
        exact missing' other (by simp [member]) (findTag_dramReadComplete found)

end

theorem txQueue_dramReadComplete (addr : BitVec 64) :
    ∃ more, (s.dramReadComplete addr).txQueue = s.txQueue ++ more := by
  rw [dramReadComplete]
  cases s.findTag addr with
  | none => exact ⟨[], (List.append_nil _).symm⟩
  | some _ => exact ⟨_, rfl⟩

theorem txQueue_update (events : DramEvents) :
    ∃ more, (s.update events).txQueue = s.txQueue ++ more := by
  have completes : ∀ (addrs : List (BitVec 64)) (s : System),
      ∃ more, (addrs.foldl dramReadComplete s).txQueue = s.txQueue ++ more := by
    intro addrs
    induction addrs with
    | nil => exact fun s => ⟨[], (List.append_nil _).symm⟩
    | cons addr addrs induction =>
        intro s
        obtain ⟨more, later⟩ := induction (s.dramReadComplete addr)
        obtain ⟨first, here⟩ := txQueue_dramReadComplete (s := s) addr
        exact ⟨first ++ more, by rw [List.foldl_cons, later, here, List.append_assoc]⟩
  obtain ⟨more, later⟩ := completes events.completed (s.afterKey events)
  rw [update_eq, later]
  cases key : events.key with
  | false => exact ⟨more, by simp [afterKey, key]⟩
  | true => exact ⟨(1, IRQ) :: more, by simp [afterKey, key]⟩

theorem Asked.pop (asked : s.Asked tag l) (respack : Bool) : (s.pop respack).Asked tag l := by
  cases respack with
  | false => exact asked
  | true =>
      refine ⟨?_, asked.2⟩
      have none := asked.1
      simp only [beatsFor, List.map_eq_nil_iff, List.filter_eq_nil_iff] at none ⊢
      exact fun beat member => none beat (List.mem_of_mem_tail member)

theorem Answers.pop_other (answers : s.Answers tag l c) {respack : Bool}
    (front : respack = true → ∀ beat rest, s.txQueue ≠ (beat, tag) :: rest) :
    (s.pop respack).Answers tag l c := by
  cases respack with
  | false => exact answers
  | true =>
      have beats : (s.pop true).beatsFor tag = s.beatsFor tag := by
        cases queue : s.txQueue with
        | nil => simp [beatsFor, System.pop, queue]
        | cons beat rest =>
            have other : beat.2 ≠ tag := by
              rintro rfl
              exact front rfl beat.1 rest queue
            simp [beatsFor, System.pop, queue, other]
      rcases answers with ⟨zero, asked⟩ | ⟨reads, all⟩
      · exact .inl ⟨zero, asked.pop true⟩
      · exact .inr ⟨reads, beats.trans all⟩

theorem Answers.pop_taken {beat : BitVec 64} {rest : List Beat} (answers : s.Answers tag l c)
    (queue : s.txQueue = (beat, tag) :: rest) : (s.pop true).Answers tag l (c + 1) := by
  obtain ⟨-, -, reads⟩ := answers.front queue
  have beats : (s.pop true).beatsFor tag = (s.beatsFor tag).tail := by
    simp [beatsFor, System.pop, queue]
  rcases answers with ⟨-, asked⟩ | ⟨-, all⟩
  · have nothing := asked.1
    simp [beatsFor, queue] at nothing
  · right
    refine ⟨reads, ?_⟩
    rw [beats, all, ← List.drop_one, ← List.map_drop, List.drop_drop]
    rfl

section

variable {bus : BusRequest}

theorem request_idle (idle : bus.reqcyc = false) : s.request bus = { s with rxCount := 0 } := by
  simp [request, idle]

theorem request_command (asks : bus.reqcyc = true) (first : s.rxCount = 0) :
    s.request bus = s.command bus := by
  simp [request, asks, first]

theorem request_receive (asks : bus.reqcyc = true) (later : s.rxCount ≠ 0) :
    s.request bus = s.receive bus := by
  simp [request, asks, later]

theorem command_memory (memory : cmd bus.reqtag = MEMORY) :
    s.command bus =
      { s with
        rxCount := if isWrite bus.reqtag then 8 else 0
        xferAddr := bus.req
        addrToTag :=
          if (s.findTag bus.req).isSome ∨ isWrite bus.reqtag then s.addrToTag
          else (bus.req, bus.reqtag) :: s.addrToTag } := by
  rw [command, if_pos memory]
  by_cases stays : (s.findTag bus.req).isSome = true ∨ isWrite bus.reqtag = true
  · rw [if_pos stays]
    exact if_pos stays
  · rw [if_neg stays]
    exact if_neg stays

theorem readsFor_command_of_other (memory : cmd bus.reqtag = MEMORY)
    (other : bus.reqtag ≠ tag ∨ isWrite bus.reqtag = true) :
    (s.command bus).readsFor tag = s.readsFor tag := by
  rw [command_memory memory]
  simp only [readsFor]
  split
  · rfl
  · rename_i added
    have apart : bus.reqtag ≠ tag := by
      rcases other with apart | write
      · exact apart
      · exact absurd (.inr write) added
    simp [apart]

theorem Answers.command (answers : s.Answers tag l c) (memory : cmd bus.reqtag = MEMORY)
    (other : bus.reqtag ≠ tag ∨ isWrite bus.reqtag = true) :
    (s.command bus).Answers tag l c := by
  have reads := readsFor_command_of_other (s := s) memory other
  have same : (s.command bus).txQueue = s.txQueue ∧ (s.command bus).ram = s.ram := by
    rw [command_memory memory]
    exact ⟨rfl, rfl⟩
  simpa only [Answers, Asked, reads, beatsFor, same.1, same.2] using answers

/-- The line is asked for, perhaps once more. -/
theorem Asked.command (asked : s.Asked tag l) (memory : cmd bus.reqtag = MEMORY)
    (line : bus.req = Ram.lineAddress l) : (s.command bus).Asked tag l := by
  rw [command_memory memory]
  refine ⟨asked.1, ?_⟩
  simp only [readsFor]
  split
  · exact asked.2
  · rename_i added
    rw [not_or, Bool.not_eq_true, Option.isSome_eq_false_iff, Option.isNone_iff_eq_none] at added
    by_cases own : bus.reqtag = tag
    · right
      have missing : s.readsFor tag = [] := by
        rcases asked.2 with none | pending
        · exact none
        · have entry : (Ram.lineAddress l, tag) ∈ s.addrToTag := by
            have member : Ram.lineAddress l ∈ s.readsFor tag := by simp [pending]
            simpa [readsFor] using member
          have absent := added.1
          rw [findTag, List.lookup_eq_none_iff] at absent
          have := absent _ entry
          simp [line] at this
      rw [readsFor, List.map_eq_nil_iff] at missing
      simp [own, missing, line]
    · rw [List.filter_cons_of_neg (by simpa using own)]
      exact asked.2

end

end System

end Sparcy
