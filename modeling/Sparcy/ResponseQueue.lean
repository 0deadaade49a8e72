import Sparcy.CacheReads

/-!
# The response queue

Both caches wait at one queue.  As long as no key is pressed it holds only beats of the two
caches, so the beat at its front is taken in every cycle, and the distance of a cache to
the last of its beats shrinks.
-/

namespace Sparcy

namespace System

/-- The beats of the queue up to the last one of a tag. -/
def reach (tag : BitVec 13) : List Beat → Nat
  | [] => 0
  | beat :: rest => if reach tag rest ≠ 0 ∨ beat.2 = tag then reach tag rest + 1 else 0

section

variable {tag : BitVec 13} {queue more : List Beat}

theorem reach_le_length (tag : BitVec 13) (queue : List Beat) : reach tag queue ≤ queue.length := by
  induction queue with
  | nil => exact Nat.le_refl _
  | cons beat rest induction =>
      rw [reach, List.length_cons]
      split <;> omega

theorem reach_eq_zero_iff : reach tag queue = 0 ↔ ∀ beat ∈ queue, beat.2 ≠ tag := by
  induction queue with
  | nil => simp [reach]
  | cons beat rest induction =>
      rw [reach, List.forall_mem_cons, ← induction]
      by_cases own : beat.2 = tag
      · simp [own]
      · by_cases none : reach tag rest = 0
        · simp [own, none]
        · simp [none]

theorem reach_append_other (other : ∀ beat ∈ more, beat.2 ≠ tag) :
    reach tag (queue ++ more) = reach tag queue := by
  induction queue with
  | nil => exact reach_eq_zero_iff.mpr other
  | cons beat rest induction => rw [List.cons_append, reach, induction, reach]

theorem reach_tail (some : reach tag queue ≠ 0) : reach tag queue.tail + 1 = reach tag queue := by
  cases queue with
  | nil => exact absurd rfl some
  | cons beat rest =>
      rw [reach] at some ⊢
      split at some
      · rw [if_pos ‹_›]
        rfl
      · exact absurd rfl some

end

/-- A queue with beats of two tags. -/
theorem length_le_of_tags {first second : BitVec 13} {queue : List Beat}
    (all : ∀ beat ∈ queue, beat.2 = first ∨ beat.2 = second) :
    queue.length ≤ (queue.filter fun beat => beat.2 == first).length +
      (queue.filter fun beat => beat.2 == second).length := by
  induction queue with
  | nil => exact Nat.zero_le _
  | cons beat rest induction =>
      have shorter := induction fun later member => all later (List.mem_cons_of_mem _ member)
      have own : (beat.2 == first) = true ∨ (beat.2 == second) = true := by
        simpa using all beat List.mem_cons_self
      rw [List.filter_cons, List.filter_cons, List.length_cons]
      rcases own with own | own
      · rw [if_pos own, List.length_cons]
        split
        · rw [List.length_cons]
          omega
        · omega
      · rw [if_pos own, List.length_cons]
        split
        · rw [List.length_cons]
          omega
        · omega

/-- Every beat and every pending read is one of a known tag. -/
structure Known (s : System) (known : BitVec 13 → Prop) : Prop where
  beats : ∀ beat ∈ s.txQueue, known beat.2
  reads : ∀ entry ∈ s.addrToTag, known entry.2

section

variable {s : System} {known : BitVec 13 → Prop} {tag : BitVec 13}

theorem Known.complete (all : s.Known known) (addr : BitVec 64) :
    (s.dramReadComplete addr).Known known := by
  rw [dramReadComplete]
  cases found : s.findTag addr with
  | none => exact all
  | some tag =>
      constructor
      · intro beat member
        rcases List.mem_append.mp member with old | new
        · exact all.beats beat old
        · have pending := mem_readsFor_of_findTag found
          have entry : (addr, tag) ∈ s.addrToTag := by simpa [readsFor] using pending
          obtain ⟨i, -, rfl⟩ := List.mem_map.mp new
          exact all.reads (addr, tag) entry
      · intro entry member
        exact all.reads entry (List.mem_of_mem_filter member)

theorem Known.update (all : s.Known known) {events : DramEvents} (silent : events.key = false) :
    (s.update events).Known known := by
  have start : s.afterKey events = s := by simp [afterKey, silent]
  rw [update_eq, start]
  generalize events.completed = addrs
  induction addrs generalizing s with
  | nil => exact all
  | cons addr addrs induction =>
      exact induction (all.complete addr) (by simp [afterKey, silent])

theorem Known.pop (all : s.Known known) (respack : Bool) : (s.pop respack).Known known := by
  cases respack with
  | false => exact all
  | true => exact ⟨fun beat member => all.beats beat (List.mem_of_mem_tail member), all.reads⟩

theorem Known.request (all : s.Known known) {bus : BusRequest}
    (memory : bus.reqcyc = true → cmd bus.reqtag = MEMORY)
    (read : bus.reqcyc = true → isWrite bus.reqtag = false → known bus.reqtag) :
    (s.request bus).Known known := by
  cases asks : bus.reqcyc with
  | false =>
      rw [request_idle asks]
      exact ⟨all.beats, all.reads⟩
  | true =>
      by_cases first : s.rxCount = 0
      · rw [request_command asks first, command_memory (memory asks)]
        refine ⟨all.beats, ?_⟩
        intro entry member
        dsimp only at member
        split at member
        · exact all.reads entry member
        · rename_i added
          rcases List.mem_cons.mp member with rfl | old
          · apply read asks
            simpa using fun write => added (.inr write)
          · exact all.reads entry old
      · rw [request_receive asks first]
        exact ⟨all.beats, all.reads⟩

/-- A request for memory leaves the queue alone. -/
theorem txQueue_request {bus : BusRequest} (memory : bus.reqcyc = true → cmd bus.reqtag = MEMORY) :
    (s.request bus).txQueue = s.txQueue := by
  cases asks : bus.reqcyc with
  | false => rw [request_idle asks]
  | true =>
      by_cases first : s.rxCount = 0
      · rw [request_command asks first, command_memory (memory asks)]
      · rw [request_receive asks first]
        rfl

/-- Without a pending read no beat of a tag joins the queue. -/
theorem update_of_none (none : s.readsFor tag = []) {events : DramEvents}
    (silent : events.key = false) :
    (s.update events).readsFor tag = [] ∧
      ∃ more, (s.update events).txQueue = s.txQueue ++ more ∧ ∀ beat ∈ more, beat.2 ≠ tag := by
  have start : s.afterKey events = s := by simp [afterKey, silent]
  rw [update_eq, start]
  clear start
  generalize events.completed = addrs
  induction addrs generalizing s with
  | nil => exact ⟨none, [], (List.append_nil _).symm, by simp⟩
  | cons addr addrs induction =>
      cases found : s.findTag addr with
      | none =>
          have same : s.dramReadComplete addr = s := by rw [dramReadComplete, found]
          rw [List.foldl_cons, same]
          exact induction none
      | some other =>
          have different : other ≠ tag := by
            rintro rfl
            have pending := mem_readsFor_of_findTag found
            rw [none] at pending
            cases pending
          have here : (s.dramReadComplete addr).txQueue = s.txQueue ++ beats s.ram addr other := by
            rw [dramReadComplete, found]
          have none' : (s.dramReadComplete addr).readsFor tag = [] := by
            rw [dramReadComplete, found]
            exact (readsFor_filter _).trans (by simp [none])
          obtain ⟨reads, more, later, apart⟩ := induction none'
          refine ⟨reads, beats s.ram addr other ++ more, ?_, ?_⟩
          · rw [List.foldl_cons, later, here, List.append_assoc]
          · intro beat member
            rcases List.mem_append.mp member with own | old
            · obtain ⟨i, -, rfl⟩ := List.mem_map.mp own
              exact different
            · exact apart beat old

theorem readsFor_request_of_other {bus : BusRequest}
    (other : bus.reqcyc = true → cmd bus.reqtag = MEMORY ∧ bus.reqtag ≠ tag) :
    (s.request bus).readsFor tag = s.readsFor tag := by
  cases asks : bus.reqcyc with
  | false => rw [request_idle asks, readsFor, readsFor]
  | true =>
      obtain ⟨memory, different⟩ := other asks
      by_cases first : s.rxCount = 0
      · rw [request_command asks first]
        exact readsFor_command_of_other memory (.inl different)
      · rw [request_receive asks first]
        rfl

/-- The read under a tag is pending and this tick does not complete it. -/
def unanswered (s : System) (tag : BitVec 13) (events : DramEvents) : Bool :=
  (s.readsFor tag).any fun addr => !events.completed.contains addr

theorem readsFor_update_of_answered (keyed : s.Keyed) {events : DramEvents}
    (answered : s.unanswered tag events = false) : (s.update events).readsFor tag = [] := by
  rw [List.eq_nil_iff_forall_not_mem]
  intro addr pending
  obtain ⟨before, missing⟩ := findTag_update (findTag_of_mem_readsFor (keyed.update events) pending)
  rw [unanswered, List.any_eq_false] at answered
  have completed := answered addr (mem_readsFor_of_findTag before)
  exact missing (by simpa using completed)

/-- The cycles that a read under a tag still takes once its request has been accepted: one
for its completion, one for each beat up to its last, and two for the look-up. -/
def remaining (s : System) (tag : BitVec 13) : Nat :=
  if s.readsFor tag = [] then reach tag s.txQueue + 2 else 19

theorem two_le_remaining (s : System) (tag : BitVec 13) : 2 ≤ s.remaining tag := by
  rw [remaining]
  split <;> omega

theorem remaining_le (tag : BitVec 13) (room : s.txQueue.length ≤ 16) : s.remaining tag ≤ 19 := by
  have short := reach_le_length tag s.txQueue
  rw [remaining]
  split <;> omega

/-- A tick that pops the front of the queue brings a read nearer unless the read is still
pending. -/
theorem remaining_tick {events : DramEvents} {respack : Bool} {bus : BusRequest}
    (keyed : s.Keyed) (silent : events.key = false)
    (popped : s.txQueue ≠ [] → respack = true)
    (other : bus.reqcyc = true → cmd bus.reqtag = MEMORY ∧ bus.reqtag ≠ tag)
    (owed : s.readsFor tag = [] → reach tag s.txQueue ≠ 0)
    (room : (s.tick events respack bus).txQueue.length ≤ 16) :
    (s.tick events respack bus).remaining tag + 1 ≤
      s.remaining tag + (s.unanswered tag events).toNat := by
  have reads' : (s.tick events respack bus).readsFor tag = (s.update events).readsFor tag := by
    refine (readsFor_request_of_other other).trans ?_
    cases respack <;> rfl
  have queue' : (s.tick events respack bus).txQueue = ((s.update events).pop respack).txQueue :=
    txQueue_request (fun asks => (other asks).1)
  by_cases none : s.readsFor tag = []
  · obtain ⟨reads, more, later, apart⟩ := update_of_none none silent
    have some := owed none
    have filled : s.txQueue ≠ [] := by
      intro empty
      rw [empty] at some
      exact some rfl
    have tail : (s.tick events respack bus).txQueue = s.txQueue.tail ++ more := by
      rw [queue', popped filled]
      change (s.update events).txQueue.tail = _
      rw [later, List.tail_append_of_ne_nil filled]
    have shrinks := reach_tail some
    rw [remaining, if_pos (reads'.trans reads), tail, reach_append_other apart, remaining, if_pos none]
    omega
  · rw [remaining, remaining, if_neg none, reads']
    split
    · have short := reach_le_length tag (s.tick events respack bus).txQueue
      omega
    · rename_i pending
      cases kept : s.unanswered tag events with
      | true => simp
      | false => exact absurd (readsFor_update_of_answered keyed kept) pending

end

end System

end Sparcy
