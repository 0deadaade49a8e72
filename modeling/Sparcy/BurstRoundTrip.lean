import Sparcy.BusTraffic
import Sparcy.Library.Runs
import Mathlib.Data.List.Rotate

/-!
# Bursts

A write burst and a completed read of the same line, as rising edges of
`System::tick`.  Both start at the critical word and wrap at the end of the line.
-/

namespace Sparcy

namespace System

open Words (word)

/-! ### Stores of a burst -/

/-- The stores of the data cycles from beat `i` on. -/
def storeBeats (a : BitVec 64) : Ram → Nat → List (BitVec 64) → Ram
  | ram, _, [] => ram
  | ram, i, w :: words => storeBeats a (ram.store64 (beatAddr a i) (be64toh w)) (i + 1) words

/-- Two beats of an aligned transfer do not overlap. -/
theorem beatAddr_apart {a : BitVec 64} (aligned : a.toNat % 8 = 0) {i j : Nat} (inside : i < 8)
    (inside' : j < 8) (different : j ≠ i) {k : BitVec 64} (low : k < 8) :
    ¬ beatAddr a j + k - beatAddr a i < 8 := by
  have here := Ram.toNat_beatAddr_wrap a i
  have there := Ram.toNat_beatAddr_wrap a j
  have bound := a.isLt
  have eight : (8 : BitVec 64).toNat = 8 := rfl
  rw [BitVec.lt_def] at low ⊢
  rw [BitVec.toNat_sub, BitVec.toNat_add, here, there]
  omega

theorem load64_storeBeats_of_apart {a : BitVec 64} (aligned : a.toNat % 8 = 0) {j : Nat}
    (inside : j < 8) (ram : Ram) {i : Nat} {words : List (BitVec 64)}
    (fits : i + words.length ≤ 8) (before : j < i) :
    (storeBeats a ram i words).load64 (beatAddr a j) = ram.load64 (beatAddr a j) := by
  induction words generalizing ram i with
  | nil => rfl
  | cons w words induction =>
      rw [List.length_cons] at fits
      rw [storeBeats, induction _ (by omega) (by omega)]
      exact Ram.load64_store64_of_apart _ _ fun k low =>
        beatAddr_apart aligned (by omega) inside (by omega) low

/-- After the burst every beat is where its doubleword is read from. -/
theorem load64_storeBeats {a : BitVec 64} (aligned : a.toNat % 8 = 0) (ram : Ram) {i n : Nat}
    {words : List (BitVec 64)} (fits : i + words.length ≤ 8) {w : BitVec 64}
    (found : words[n]? = some w) :
    (storeBeats a ram i words).load64 (beatAddr a (i + n)) = be64toh w := by
  induction words generalizing ram i n with
  | nil => cases found
  | cons first words induction =>
      rw [List.length_cons] at fits
      cases n with
      | zero =>
          obtain rfl : first = w := Option.some.inj found
          rw [Nat.add_zero, storeBeats,
            load64_storeBeats_of_apart aligned (by omega) _ (by omega) (by omega),
            Ram.load64_store64]
      | succ n =>
          rw [storeBeats, show i + (n + 1) = i + 1 + n by omega]
          exact induction _ (by omega) found

/-- A byte of another line is kept. -/
theorem storeBeats_of_other_line {a : BitVec 64} (aligned : a.toNat % 8 = 0) (ram : Ram)
    {i : Nat} {words : List (BitVec 64)} {b : BitVec 64}
    (other : b.toNat / 64 ≠ a.toNat / 64) : storeBeats a ram i words b = ram b := by
  induction words generalizing ram i with
  | nil => rfl
  | cons w words induction =>
      rw [storeBeats, induction, Ram.store64, if_neg]
      have here := Ram.toNat_beatAddr_wrap a i
      have eight : (8 : BitVec 64).toNat = 8 := rfl
      have bound := a.isLt
      have bound' := b.isLt
      rw [BitVec.lt_def, BitVec.toNat_sub, here]
      omega

/-! ### Cycles -/

/-- What reaches `System::tick` at one rising edge. -/
structure Cycle where
  events : DramEvents
  respack : Bool
  bus : BusRequest

def cycle (s : System) (c : Cycle) : System := s.tick c.events c.respack c.bus

/-- The beat that an acknowledgement takes off the queue. -/
def taken (s : System) (c : Cycle) : Option Beat :=
  if c.respack then (s.update c.events).txQueue.head? else none

/-- What the cache that owns a tag has received in a run, and what is queued for it. -/
def delivered (tag : BitVec 13) (s : System) (cs : List Cycle) : List (BitVec 64) :=
  ((Runs.emits cycle taken s cs ++ (Runs.run cycle s cs).txQueue).filter fun beat =>
    beat.2 == tag).map Prod.fst

/-- The request lines of a transfer: the address and the data words under one tag. -/
def transfer (tag : BitVec 13) (words : List (BitVec 64)) : List BusRequest :=
  words.map fun w => { reqcyc := true, req := w, reqtag := tag }

/-- The fields that neither completions nor the queue touch. -/
theorem pop_update_frame (s : System) (events : DramEvents) (respack : Bool) :
    ((s.update events).pop respack).ram = s.ram ∧
      ((s.update events).pop respack).rxCount = s.rxCount ∧
      ((s.update events).pop respack).xferAddr = s.xferAddr := by
  have frame := @update_frame s events
  cases respack with
  | false => exact frame
  | true => exact frame

/-- The data cycles store their words and end the transfer. -/
theorem run_data_cycles {tag : BitVec 13} (memory : cmd tag = MEMORY) {words : List (BitVec 64)}
    {cs : List Cycle} (data : cs.map Cycle.bus = transfer tag words) {s : System} {i : Nat}
    (count : s.rxCount + i = 8) (left : words.length = s.rxCount) :
    (Runs.run cycle s cs).rxCount = 0 ∧
      (Runs.run cycle s cs).ram = storeBeats s.xferAddr s.ram i words := by
  induction words generalizing cs s i with
  | nil =>
      obtain rfl : cs = [] := List.map_eq_nil_iff.mp data
      exact ⟨left.symm, rfl⟩
  | cons w words induction =>
      cases cs with
      | nil => cases data
      | cons c cs =>
          obtain ⟨bus, rest⟩ := List.cons.inj data
          obtain ⟨ram, rx, xfer⟩ := pop_update_frame s c.events c.respack
          rw [List.length_cons] at left
          have stepped : cycle s c = ((s.update c.events).pop c.respack).receive c.bus := by
            rw [cycle, tick, request_receive (by rw [bus]) (by omega)]
          have stored : (cycle s c).ram =
              s.ram.store64 (beatAddr s.xferAddr i) (be64toh w) := by
            rw [stepped, receive, bus]
            dsimp only
            rw [if_pos memory, ram, rx, xfer, show 8 - s.rxCount = i by omega]
          have counted : (cycle s c).rxCount = s.rxCount - 1 := by
            rw [stepped, receive, rx]
          have address : (cycle s c).xferAddr = s.xferAddr := by
            rw [stepped, receive]
            exact xfer
          obtain ⟨finished, written⟩ := induction rest (s := cycle s c) (i := i + 1)
            (by omega) (by omega)
          rw [Runs.run_cons, written, address, stored]
          exact ⟨finished, rfl⟩

/-- A write burst stores its eight words around its line. -/
theorem run_write_burst {tag : BitVec 13} (memory : cmd tag = MEMORY) (write : isWrite tag = true)
    {a : BitVec 64} {words : List (BitVec 64)} (eight : words.length = 8) {cs : List Cycle}
    (burst : cs.map Cycle.bus = transfer tag (a :: words)) {s : System} (free : s.rxCount = 0) :
    (Runs.run cycle s cs).rxCount = 0 ∧
      (Runs.run cycle s cs).ram = storeBeats a s.ram 0 words := by
  cases cs with
  | nil => cases burst
  | cons c cs =>
      obtain ⟨bus, data⟩ := List.cons.inj burst
      obtain ⟨ram, rx, -⟩ := pop_update_frame s c.events c.respack
      have stepped : cycle s c = ((s.update c.events).pop c.respack).command c.bus := by
        rw [cycle, tick, request_command (by rw [bus]) (rx.trans free)]
      rw [command_memory (by rw [bus]; exact memory)] at stepped
      have count : (cycle s c).rxCount = 8 := by
        rw [stepped, bus]
        exact if_pos write
      have address : (cycle s c).xferAddr = a := by
        rw [stepped, bus]
      have kept : (cycle s c).ram = s.ram := by
        rw [stepped]
        exact ram
      have stored := run_data_cycles memory data (s := cycle s c) (i := 0)
        (by omega) (by omega)
      rw [address, kept] at stored
      exact stored

/-! ### What one tag is owed -/

section

variable {s : System} {tag : BitVec 13} {b : BitVec 64}

/-- A read under the tag is pending, and nothing of it has arrived. -/
structure Outstanding (s : System) (tag : BitVec 13) (b : BitVec 64) : Prop where
  reads : s.readsFor tag = [b]
  found : s.findTag b = some tag

theorem not_found_of_reads (none : s.readsFor tag = []) (addr : BitVec 64) :
    s.findTag addr ≠ some tag := by
  intro found
  have member := mem_readsFor_of_findTag found
  rw [none] at member
  cases member

/-- Completions bring nothing to a tag that has no read. -/
theorem complete_of_no_reads (none : s.readsFor tag = []) (addrs : List (BitVec 64)) :
    (addrs.foldl dramReadComplete s).readsFor tag = [] ∧
      (addrs.foldl dramReadComplete s).beatsFor tag = s.beatsFor tag := by
  induction addrs generalizing s with
  | nil => exact ⟨none, rfl⟩
  | cons addr addrs induction =>
      obtain ⟨beats, reads⟩ := dramReadComplete_of_other addr (not_found_of_reads none addr)
      have still : (s.dramReadComplete addr).readsFor tag = [] := by
        rcases reads with reads | reads
        · rw [reads, none]
        · rw [reads, none]
          rfl
      obtain ⟨none', same⟩ := induction still
      exact ⟨none', same.trans beats⟩

/-- The completion of the pending read. -/
theorem Outstanding.complete_self (waits : s.Outstanding tag b) :
    (s.dramReadComplete b).readsFor tag = [] ∧
      (s.dramReadComplete b).beatsFor tag =
        s.beatsFor tag ++ (beats s.ram b tag).map Prod.fst := by
  have own : (beats s.ram b tag).filter (fun beat => beat.2 == tag) = beats s.ram b tag := by
    rw [List.filter_eq_self]
    intro beat member
    obtain ⟨i, -, rfl⟩ := List.mem_map.mp member
    exact beq_iff_eq.mpr rfl
  rw [dramReadComplete, waits.found]
  constructor
  · refine (readsFor_filter b).trans ?_
    rw [waits.reads]
    simp
  · simp only [beatsFor, List.filter_append, List.map_append, own]

theorem Outstanding.complete_other (waits : s.Outstanding tag b) {addr : BitVec 64}
    (other : addr ≠ b) :
    (s.dramReadComplete addr).Outstanding tag b ∧
      (s.dramReadComplete addr).beatsFor tag = s.beatsFor tag := by
  have different : s.findTag addr ≠ some tag := by
    intro found
    have member := mem_readsFor_of_findTag found
    rw [waits.reads, List.mem_singleton] at member
    exact other member
  obtain ⟨beats, reads⟩ := dramReadComplete_of_other addr different
  refine ⟨{ reads := ?_, found := ?_ }, beats⟩
  · rcases reads with reads | reads
    · rw [reads, waits.reads]
    · rw [reads, waits.reads]
      simp [other.symm]
  · rw [dramReadComplete]
    cases s.findTag addr with
    | none => exact waits.found
    | some _ =>
        refine (lookup_filter_ne s.addrToTag b addr).trans ?_
        exact (if_neg other.symm).trans waits.found

/-- Completions bring the beats of the pending read, or leave it. -/
theorem Outstanding.complete (waits : s.Outstanding tag b) (addrs : List (BitVec 64)) :
    if b ∈ addrs then
      (addrs.foldl dramReadComplete s).readsFor tag = [] ∧
        (addrs.foldl dramReadComplete s).beatsFor tag =
          s.beatsFor tag ++ (beats s.ram b tag).map Prod.fst
    else
      (addrs.foldl dramReadComplete s).Outstanding tag b ∧
        (addrs.foldl dramReadComplete s).beatsFor tag = s.beatsFor tag := by
  induction addrs generalizing s with
  | nil => exact ⟨waits, rfl⟩
  | cons addr addrs induction =>
      rw [List.foldl_cons]
      by_cases own : addr = b
      · obtain ⟨none, arrived⟩ := waits.complete_self
        obtain ⟨none', same⟩ := complete_of_no_reads none addrs
        rw [own, if_pos List.mem_cons_self]
        exact ⟨none', same.trans arrived⟩
      · obtain ⟨still, same⟩ := waits.complete_other own
        have rest := induction still
        have ram := (dramReadComplete_frame (s := s) addr).1
        rw [same, ram] at rest
        have member : b ∈ addr :: addrs ↔ b ∈ addrs := by
          rw [List.mem_cons]
          exact or_iff_right (Ne.symm own)
        simp only [member]
        exact rest

/-! ### Cycles without a request -/

theorem readsFor_afterKey (events : DramEvents) :
    (s.afterKey events).readsFor tag = s.readsFor tag := by
  rw [readsFor, (afterKey_frame events).1, readsFor]

theorem update_of_no_reads (none : s.readsFor tag = []) (known : tag ≠ IRQ)
    (events : DramEvents) :
    (s.update events).readsFor tag = [] ∧ (s.update events).beatsFor tag = s.beatsFor tag := by
  have queued := beatsFor_afterKey (s := s) events known
  rw [← readsFor_afterKey events] at none
  rw [update_eq, ← queued]
  exact complete_of_no_reads none _

theorem Outstanding.update (waits : s.Outstanding tag b) (known : tag ≠ IRQ) (events : DramEvents) :
    if b ∈ events.completed then
      (s.update events).readsFor tag = [] ∧
        (s.update events).beatsFor tag = s.beatsFor tag ++ (beats s.ram b tag).map Prod.fst
    else (s.update events).Outstanding tag b ∧ (s.update events).beatsFor tag = s.beatsFor tag := by
  have queued := beatsFor_afterKey (s := s) events known
  obtain ⟨entries, ram, -, -⟩ := afterKey_frame (s := s) events
  have start : (s.afterKey events).Outstanding tag b := by
    refine { reads := ?_, found := ?_ }
    · rw [readsFor_afterKey]
      exact waits.reads
    · rw [findTag, entries]
      exact waits.found
  rw [update_eq, ← queued, ← ram]
  exact start.complete _

/-- An acknowledged beat leaves the queue, the others stay. -/
theorem taken_append (s : System) {c : Cycle}
    (kept : (cycle s c).txQueue = ((s.update c.events).pop c.respack).txQueue) :
    (taken s c).toList ++ (cycle s c).txQueue = (s.update c.events).txQueue := by
  rw [kept, taken, pop]
  cases c.respack with
  | false => rfl
  | true =>
      change (s.update c.events).txQueue.head?.toList ++ (s.update c.events).txQueue.tail = _
      cases (s.update c.events).txQueue with
      | nil => rfl
      | cons beat rest => rfl

theorem delivered_cons (s : System) (c : Cycle) (cs : List Cycle) :
    delivered tag s (c :: cs) =
      ((taken s c).toList.filter fun beat => beat.2 == tag).map Prod.fst ++
        delivered tag (cycle s c) cs := by
  rw [delivered, delivered, Runs.emits_cons, Runs.run_cons, List.append_assoc, List.filter_append,
    List.map_append]

/-- What a cycle has in its queue is taken or still delivered. -/
theorem delivered_cons_of_kept {c : Cycle} {cs : List Cycle} {later : List (BitVec 64)}
    (kept : (cycle s c).txQueue = ((s.update c.events).pop c.respack).txQueue)
    (rest : delivered tag (cycle s c) cs = (cycle s c).beatsFor tag ++ later) :
    delivered tag s (c :: cs) = (s.update c.events).beatsFor tag ++ later := by
  rw [delivered_cons, rest, ← List.append_assoc]
  simp only [beatsFor, ← taken_append s kept, List.filter_append, List.map_append]

/-- A cycle that asks for no read: no request, or a part of a write burst. -/
def Passive (c : Cycle) : Prop :=
  c.bus.reqcyc = false ∨ cmd c.bus.reqtag = MEMORY ∧ isWrite c.bus.reqtag = true

theorem addrToTag_pop (s : System) (respack : Bool) :
    (s.pop respack).addrToTag = s.addrToTag := by
  cases respack <;> rfl

theorem Passive.stepped {c : Cycle} (passive : Passive c) (s : System) :
    (cycle s c).txQueue = ((s.update c.events).pop c.respack).txQueue ∧
      (cycle s c).addrToTag = (s.update c.events).addrToTag := by
  have entries := addrToTag_pop (s.update c.events) c.respack
  rw [cycle, tick]
  rcases passive with idle | ⟨memory, write⟩
  · rw [request_idle idle]
    exact ⟨rfl, entries⟩
  · rw [request]
    split
    · split
      · exact ⟨rfl, entries⟩
      · rw [command_memory memory]
        exact ⟨rfl, (if_pos (.inr write)).trans entries⟩
    · exact ⟨rfl, entries⟩

/-- Nothing is under way for a tag, and no cache reads an address. -/
structure Fresh (s : System) (tag : BitVec 13) (b : BitVec 64) : Prop where
  reads : s.readsFor tag = []
  queued : s.beatsFor tag = []
  missing : s.findTag b = none

theorem findTag_update_of_missing (missing : s.findTag b = none) (events : DramEvents) :
    (s.update events).findTag b = none := by
  have start : (s.afterKey events).findTag b = none := by
    rw [findTag, (afterKey_frame events).1]
    exact missing
  rw [update_eq]
  generalize s.afterKey events = s' at start
  generalize events.completed = addrs
  induction addrs generalizing s' with
  | nil => exact start
  | cons addr addrs induction =>
      apply induction
      cases found : (s'.dramReadComplete addr).findTag b with
      | none => rfl
      | some tag =>
          rw [findTag_dramReadComplete found] at start
          cases start

/-- A passive cycle keeps a tag fresh and delivers nothing to it. -/
theorem Fresh.stepped (fresh : s.Fresh tag b) (known : tag ≠ IRQ) {c : Cycle}
    (passive : Passive c) :
    (cycle s c).Fresh tag b ∧ ∀ cs, delivered tag s (c :: cs) = delivered tag (cycle s c) cs := by
  obtain ⟨queue, entries⟩ := passive.stepped s
  obtain ⟨none, same⟩ := update_of_no_reads fresh.reads known c.events
  have empty : ((s.update c.events).txQueue.filter fun beat => beat.2 == tag) = [] := by
    rw [← List.map_eq_nil_iff (f := Prod.fst)]
    exact same.trans fresh.queued
  rw [← taken_append s queue, List.filter_append, List.append_eq_nil_iff] at empty
  refine ⟨{ reads := ?_, queued := ?_, missing := ?_ }, fun cs => ?_⟩
  · rw [readsFor, entries]
    exact none
  · rw [beatsFor, empty.2]
    rfl
  · rw [findTag, entries]
    exact findTag_update_of_missing fresh.missing c.events
  · rw [delivered_cons, empty.1]
    rfl

theorem Fresh.run (known : tag ≠ IRQ) {cs : List Cycle} (passive : ∀ c ∈ cs, Passive c)
    (fresh : s.Fresh tag b) :
    (Runs.run cycle s cs).Fresh tag b ∧
      ∀ later, delivered tag s (cs ++ later) = delivered tag (Runs.run cycle s cs) later := by
  induction cs generalizing s with
  | nil => exact ⟨fresh, fun _ => rfl⟩
  | cons c cs induction =>
      obtain ⟨next, here⟩ := fresh.stepped known (passive c List.mem_cons_self)
      obtain ⟨last, rest⟩ := induction (fun c member => passive c (List.mem_cons_of_mem _ member))
        next
      exact ⟨last, fun later => (here (cs ++ later)).trans (rest later)⟩

/-- Without a read nothing more arrives. -/
theorem delivered_of_no_reads (known : tag ≠ IRQ) {cs : List Cycle}
    (idle : ∀ c ∈ cs, c.bus.reqcyc = false) (none : s.readsFor tag = []) :
    delivered tag s cs = s.beatsFor tag := by
  induction cs generalizing s with
  | nil => rfl
  | cons c cs induction =>
      obtain ⟨queue, entries⟩ := Passive.stepped (.inl (idle c List.mem_cons_self)) s
      obtain ⟨none', same⟩ := update_of_no_reads none known c.events
      have none'' : (cycle s c).readsFor tag = [] := by
        rw [readsFor, entries]
        exact none'
      have rest := induction (fun c member => idle c (List.mem_cons_of_mem _ member)) none''
      rw [delivered_cons_of_kept queue (rest.trans (List.append_nil _).symm), List.append_nil,
        same]

theorem ram_cycle_idle {c : Cycle} (idle : c.bus.reqcyc = false) (s : System) :
    (cycle s c).ram = s.ram ∧ (cycle s c).rxCount = 0 := by
  rw [cycle, tick, request_idle idle]
  exact ⟨(pop_update_frame s _ _).1, rfl⟩

theorem ram_run_idle {cs : List Cycle} (idle : ∀ c ∈ cs, c.bus.reqcyc = false) (s : System) :
    (Runs.run cycle s cs).ram = s.ram ∧ (s.rxCount = 0 → (Runs.run cycle s cs).rxCount = 0) := by
  induction cs generalizing s with
  | nil => exact ⟨rfl, id⟩
  | cons c cs induction =>
      obtain ⟨ram, count⟩ := ram_cycle_idle (idle c List.mem_cons_self) s
      obtain ⟨ram', count'⟩ := induction (fun c member => idle c (List.mem_cons_of_mem _ member))
        (cycle s c)
      exact ⟨ram'.trans ram, fun _ => count' count⟩

/-- A pending read is answered once, with what the RAM holds. -/
theorem Outstanding.delivered (waits : s.Outstanding tag b) (known : tag ≠ IRQ) {cs : List Cycle}
    (idle : ∀ c ∈ cs, c.bus.reqcyc = false) (completes : ∃ c ∈ cs, b ∈ c.events.completed) :
    delivered tag s cs = s.beatsFor tag ++ (beats s.ram b tag).map Prod.fst := by
  induction cs generalizing s with
  | nil =>
      obtain ⟨c, member, -⟩ := completes
      cases member
  | cons c cs induction =>
      obtain ⟨queue, entries⟩ := Passive.stepped (.inl (idle c List.mem_cons_self)) s
      have idle' := fun c member => idle c (List.mem_cons_of_mem _ member)
      have updated := waits.update known c.events
      split at updated
      · obtain ⟨none, arrived⟩ := updated
        have none' : (cycle s c).readsFor tag = [] := by
          rw [readsFor, entries]
          exact none
        have rest := delivered_of_no_reads known idle' none'
        rw [delivered_cons_of_kept queue (rest.trans (List.append_nil _).symm), List.append_nil,
          arrived]
      · rename_i missing
        obtain ⟨still, same⟩ := updated
        have still' : (cycle s c).Outstanding tag b := by
          refine { reads := ?_, found := ?_ }
          · rw [readsFor, entries]
            exact still.reads
          · rw [findTag, entries]
            exact still.found
        have later : ∃ c ∈ cs, b ∈ c.events.completed := by
          obtain ⟨c', member, completed⟩ := completes
          rcases List.mem_cons.mp member with rfl | member
          · exact absurd completed missing
          · exact ⟨c', member, completed⟩
        have rest := induction still' idle' later
        rw [(ram_cycle_idle (idle c List.mem_cons_self) s).1] at rest
        rw [delivered_cons_of_kept queue rest, same]

/-- A read of a fresh tag delivers the eight beats of its address. -/
theorem Fresh.delivered_read (fresh : s.Fresh tag b) (free : s.rxCount = 0)
    (memory : cmd tag = MEMORY) (reads : isWrite tag = false) {c : Cycle}
    (asks : c.bus = { reqcyc := true, req := b, reqtag := tag }) {cs : List Cycle}
    (idle : ∀ c ∈ cs, c.bus.reqcyc = false) (completes : ∃ c ∈ cs, b ∈ c.events.completed) :
    delivered tag s (c :: cs) = (beats s.ram b tag).map Prod.fst ∧
      (Runs.run cycle s (c :: cs)).ram = s.ram := by
  have known : tag ≠ IRQ := by
    rintro rfl
    exact absurd memory (by decide)
  obtain ⟨ram, rx, -⟩ := pop_update_frame s c.events c.respack
  have missing := findTag_update_of_missing fresh.missing c.events
  obtain ⟨none, same⟩ := update_of_no_reads fresh.reads known c.events
  have entries := addrToTag_pop (s.update c.events) c.respack
  have stepped : cycle s c = ((s.update c.events).pop c.respack).command c.bus := by
    rw [cycle, tick, request_command (by rw [asks]) (rx.trans free)]
  rw [command_memory (by rw [asks]; exact memory), asks] at stepped
  have absent : ((s.update c.events).pop c.respack).findTag b = Option.none := by
    rw [findTag, entries]
    exact missing
  have added : (cycle s c).addrToTag = (b, tag) :: (s.update c.events).addrToTag := by
    rw [stepped, ← entries]
    exact if_neg (by simp [absent, reads])
  have waits : (cycle s c).Outstanding tag b := by
    refine { reads := ?_, found := ?_ }
    · rw [readsFor, added, List.filter_cons_of_pos (by simp), List.map_cons]
      exact congrArg (b :: ·) none
    · rw [findTag, added, List.lookup_cons_self]
  have queue : (cycle s c).txQueue = ((s.update c.events).pop c.respack).txQueue := by
    rw [stepped]
  have kept : (cycle s c).ram = s.ram := by
    rw [stepped]
    exact ram
  have rest := waits.delivered known idle completes
  rw [kept] at rest
  rw [delivered_cons_of_kept queue rest, same, fresh.queued, Runs.run_cons,
    (ram_run_idle idle (cycle s c)).1, kept]
  exact ⟨rfl, rfl⟩

end

/-! ### The round trip -/

/-- How many beats an address is behind another of its line. -/
def rotation (a b : BitVec 64) : Nat := (b - a).toNat % 64 / 8

/-- The beats of a read start at its address. -/
theorem beatAddr_rotation {a b : BitVec 64} (aligned : a.toNat % 8 = 0)
    (aligned' : b.toNat % 8 = 0) (line : b.toNat / 64 = a.toNat / 64) (i : Nat) :
    beatAddr b i = beatAddr a ((i + rotation a b) % 8) := by
  have bound := a.isLt
  have bound' := b.isLt
  apply BitVec.eq_of_toNat_eq
  rw [Ram.toNat_beatAddr_wrap, Ram.toNat_beatAddr_wrap, rotation, BitVec.toNat_sub, line]
  omega

theorem beats_storeBeats {a b : BitVec 64} (aligned : a.toNat % 8 = 0)
    (aligned' : b.toNat % 8 = 0) (line : b.toNat / 64 = a.toNat / 64) (ram : Ram)
    (tag : BitVec 13) {words : List (BitVec 64)} (eight : words.length = 8) :
    (beats (storeBeats a ram 0 words) b tag).map Prod.fst = words.rotate (rotation a b) := by
  apply List.ext_getElem
  · rw [List.length_rotate, eight]
    simp [beats]
  · intro i inside inside'
    rw [List.getElem_rotate]
    have within : (i + rotation a b) % words.length < words.length := Nat.mod_lt _ (by omega)
    have stored := load64_storeBeats aligned ram (i := 0) (by omega)
      (List.getElem?_eq_getElem within)
    have index : beatAddr b i = beatAddr a (0 + (i + rotation a b) % words.length) := by
      rw [Nat.zero_add, eight]
      exact beatAddr_rotation aligned aligned' line i
    simp only [beats, List.getElem_map, List.getElem_range]
    rw [index, stored, be64toh_be64toh]

/-- A write burst and a completed read of its line: the words come back, rotated to the
address of the read, the bytes of other lines are as before, and each byte of the line is at
its big-endian place. -/
theorem burst_round_trip (s : System) (wtag rtag : BitVec 13) (a b : BitVec 64)
    (words : List (BitVec 64)) (write idle : List Cycle) (read : Cycle) (waits : List Cycle)
    (free : s.rxCount = 0) (fresh : s.Fresh rtag b)
    (aligned : a.toNat % 8 = 0) (aligned' : b.toNat % 8 = 0) (line : b.toNat / 64 = a.toNat / 64)
    (writes : cmd wtag = MEMORY ∧ isWrite wtag = true)
    (reads : cmd rtag = MEMORY ∧ isWrite rtag = false) (eight : words.length = 8)
    (burst : write.map Cycle.bus = transfer wtag (a :: words))
    (between : ∀ c ∈ idle, c.bus.reqcyc = false)
    (asks : read.bus = { reqcyc := true, req := b, reqtag := rtag })
    (after : ∀ c ∈ waits, c.bus.reqcyc = false)
    (completes : ∃ c ∈ waits, b ∈ c.events.completed) :
    delivered rtag s (write ++ idle ++ read :: waits) = words.rotate (rotation a b) ∧
      (b = a → delivered rtag s (write ++ idle ++ read :: waits) = words) ∧
      (∀ x : BitVec 64, x.toNat / 64 ≠ a.toNat / 64 →
        (Runs.run cycle s (write ++ idle ++ read :: waits)).ram x = s.ram x) ∧
      ∀ i < 8, ∀ k < 8,
        ∃ w, (delivered rtag s (write ++ idle ++ read :: waits))[i]? = some w ∧
          word 8 w (7 - k) = (Runs.run cycle s (write ++ idle ++ read :: waits)).ram
            (beatAddr b i + BitVec.ofNat 64 k) := by
  have known : rtag ≠ IRQ := by
    rintro rfl
    exact absurd reads.1 (by decide)
  have passive : ∀ c ∈ write ++ idle, Passive c := by
    intro c member
    rcases List.mem_append.mp member with member | member
    · have bus := List.mem_map_of_mem (f := Cycle.bus) member
      rw [burst] at bus
      obtain ⟨w, -, same⟩ := List.mem_map.mp bus
      right
      rw [← same]
      exact writes
    · exact .inl (between c member)
  obtain ⟨count, stored⟩ := run_write_burst writes.1 writes.2 eight burst free
  obtain ⟨ram, still⟩ := ram_run_idle between (Runs.run cycle s write)
  obtain ⟨fresh', before⟩ := fresh.run known passive
  rw [Runs.run_append] at fresh' before
  obtain ⟨answer, last⟩ := fresh'.delivered_read (still count) reads.1 reads.2 asks after completes
  rw [ram, stored] at answer last
  have final : (Runs.run cycle s (write ++ idle ++ read :: waits)).ram =
      storeBeats a s.ram 0 words := by
    rw [Runs.run_append, Runs.run_append, last]
  have rotated := beats_storeBeats aligned aligned' line s.ram rtag eight
  rw [before, final, answer]
  refine ⟨rotated, ?_, fun x other => storeBeats_of_other_line aligned s.ram other, ?_⟩
  · rintro rfl
    rw [rotated, rotation, BitVec.sub_self]
    exact List.rotate_zero _
  · intro i inside k byte
    refine ⟨be64toh ((storeBeats a s.ram 0 words).load64 (beatAddr b i)), ?_, ?_⟩
    · simp [beats, inside]
    · exact Ram.word_be64toh_load64 _ _ byte

/-- The second doubleword of a line is written first and its third one read first. -/
theorem burst_round_trip_third :
    delivered 0x1100 (reset fun _ => 0)
      (((transfer 0x100 [0x1008, 1, 2, 3, 4, 5, 6, 7, 8]).map fun bus =>
          { events := .completing [], respack := false, bus := bus }) ++ [] ++
        { events := .completing [], respack := false
          bus := { reqcyc := true, req := 0x1010, reqtag := 0x1100 } } ::
        [{ events := .completing [0x1010], respack := false
           bus := { reqcyc := false, req := 0, reqtag := 0 } }]) =
      [1, 2, 3, 4, 5, 6, 7, 8].rotate (rotation 0x1008 0x1010) :=
  (burst_round_trip (reset fun _ => 0) 0x100 0x1100 0x1008 0x1010 [1, 2, 3, 4, 5, 6, 7, 8] _ [] _ _
    rfl { reads := rfl, queued := rfl, missing := rfl } (by decide) (by decide) (by decide)
    (by decide) (by decide) rfl rfl (by simp) rfl (by simp) (by simp [DramEvents.completing])).1

end System

end Sparcy
