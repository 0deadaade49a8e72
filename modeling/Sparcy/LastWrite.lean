import Sparcy.BenchLines
import Sparcy.DataCacheSets
import Sparcy.Library.Runs

/-!
# Reads of the hw2 cache

Each cycle is one operation of the write-back cache, so that an acknowledged read returns
the last word written, unless its look-up misses the beat that came last.
-/

namespace Sparcy

open Words (word)

namespace TestBench

open DirectMap (readTag writeTag rowOf ProcRequest storeData storeEnable)
open ICache (index tag)
open WriteBack (Lines)

/-- The read that waits does not need the beat that arrives last, or the set already has
its word. -/
def Settled (s : TestBench) (accepts : Bool) : Prop :=
  s.cache.consumes (s.response accepts) = true → s.cache.pCounter = 7 →
    s.proc.readWriteN = true → 14 ≤ s.proc.wordSelect.toNat →
      word 32 (s.cache.dataSram.mem (rowOf s.proc)) s.proc.wordSelect.toNat =
        word 32 (s.response accepts).resp (s.proc.wordSelect.toNat - 14)

instance (s : TestBench) (accepts : Bool) : Decidable (s.Settled accepts) :=
  inferInstanceAs (Decidable (_ → _ → _ → _ → _))

section

variable {s : TestBench} {accepts : Bool} {completed : List (BitVec 64)}

/-! ### The lines in a cycle -/

theorem lines_of_silent (silent : s.cache.Silent s.proc (s.response accepts))
    (ram : (s.posedge accepts completed).sys.ram = s.sys.ram) :
    (s.posedge accepts completed).lines =
      { s.lines with claimed := (s.posedge accepts completed).lines.claimed } := by
  obtain ⟨data, tags, dirty⟩ := silent.step
  have data' : (s.posedge accepts completed).cache.dataSram.mem = s.cache.dataSram.mem := data
  have tags' : (s.posedge accepts completed).cache.tagSram.mem = s.cache.tagSram.mem := tags
  have dirty' : (s.posedge accepts completed).cache.dirtySram.mem = s.cache.dirtySram.mem := dirty
  simp only [lines, data', tags', dirty', ram]

theorem claimed_of_present (present : s.cache.pState ≠ .d ∧ s.cache.pState ≠ .e) :
    s.lines.claimed = none := by
  simp [lines, present]

theorem claimed_of_replaced (replaced : s.cache.pState = .d ∨ s.cache.pState = .e) :
    s.lines.claimed = some (rowOf s.proc) := if_pos replaced

theorem lines_eq_of_silent (silent : s.cache.Silent s.proc (s.response accepts))
    (ram : (s.posedge accepts completed).sys.ram = s.sys.ram)
    (present : s.cache.pState ≠ .d ∧ s.cache.pState ≠ .e)
    (next : (s.posedge accepts completed).cache.pState ≠ .d ∧
      (s.posedge accepts completed).cache.pState ≠ .e) :
    (s.posedge accepts completed).lines = s.lines := by
  rw [lines_of_silent silent ram, claimed_of_present next, ← claimed_of_present present]

/-- What a cycle leaves behind. -/
structure Keeps (s s' : TestBench) : Prop where
  sound : s'.lines.Sound
  phase : s'.Phase
  memory : ∀ i t, s'.lines.memory i t =
    if s.cache.stores s.proc = true ∧ i = rowOf s.proc ∧ t = tag s.proc.lineAddr then
      writeWords (s.lines.memory i t) (storeData s.proc) 32 (storeEnable s.proc)
    else s.lines.memory i t

theorem Keeps.of_memory {s' : TestBench} (store : s.cache.stores s.proc = false)
    (sound : s'.lines.Sound) (phase : s'.Phase)
    (memory : ∀ i t, s'.lines.memory i t = s.lines.memory i t) : Keeps s s' :=
  ⟨sound, phase, fun i t => by simp [store, memory i t]⟩

variable (accepts completed) in
theorem posedge_free (quiet : s.sys.Quiet readTag)
    (kept : s.cache.consumes (s.response accepts) = false)
    (off : (s.posedge accepts completed).cache.pReqcyc = false) :
    (s.posedge accepts completed).BusFree ∧
      (s.posedge accepts completed).sys.ram = s.sys.ram := by
  obtain ⟨ram, count, answers⟩ := posedge_sys_off (l := 0) (c := 8) off
  refine ⟨⟨off, count, ?_⟩, ram⟩
  rw [System.quiet_iff_answers (l := 0)]
  exact answers (System.quiet_iff_answers.mp (served_quiet kept quiet))

theorem posedge_of_idle (tracked : s.Tracked) (state : s.cache.pState = .a) (free : s.BusFree) :
    Keeps s (s.posedge accepts completed) := by
  have silent : s.cache.Silent s.proc (s.response accepts) :=
    DirectMap.Regs.silent_of_state (.inl state)
  have off : (s.posedge accepts completed).cache.pReqcyc = false := by
    change (s.cache.nBus s.proc _).reqcyc = false
    simp [DirectMap.Regs.nBus, state]
  obtain ⟨after, ram⟩ := posedge_free accepts completed free.quiet silent.2.2 off
  have next : (s.posedge accepts completed).cache.pState = if s.proc.req then .b else .a := by
    change s.cache.nState s.proc _ = _
    rw [DirectMap.Regs.nState, state]
  have apart : (s.posedge accepts completed).cache.pState ≠ .d ∧
      (s.posedge accepts completed).cache.pState ≠ .e := by
    rw [next]
    cases s.proc.req <;> simp
  have same := lines_eq_of_silent silent ram (by simp [state]) apart
  have loaded : (s.posedge accepts completed).cache.Loaded s.proc := silent.loaded
  refine .of_memory silent.1 (by rw [same]; exact tracked.sound) ?_ (fun i t => by rw [same])
  cases asks : s.proc.req with
  | false => exact .idle (by rw [next, asks]; rfl) after
  | true =>
      exact .lookup (by rw [next, asks]; rfl) after loaded.tag loaded.dirty
        fun _ => by rw [loaded.data]; rfl

theorem posedge_of_hit (tracked : s.Tracked) (state : s.cache.pState = .b) (free : s.BusFree)
    (loaded : s.cache.tagSram.readData = s.cache.tagSram.mem (rowOf s.proc))
    (hit : s.cache.hit s.proc = true) : Keeps s (s.posedge accepts completed) := by
  have request : s.cache.requests (s.response accepts) = false := by
    simp [DirectMap.Regs.requests, state]
  have consume : s.cache.consumes (s.response accepts) = false := by
    simp [DirectMap.Regs.consumes, state]
  have off : (s.posedge accepts completed).cache.pReqcyc = false := by
    change (s.cache.nBus s.proc _).reqcyc = false
    simp [DirectMap.Regs.nBus, state]
  obtain ⟨after, ram⟩ := posedge_free accepts completed free.quiet consume off
  have next : (s.posedge accepts completed).cache.pState = .a := by
    change s.cache.nState s.proc _ = _
    simp [DirectMap.Regs.nState, state, hit]
  have before : s.cache.pState ≠ .d ∧ s.cache.pState ≠ .e := by simp [state]
  have present := claimed_of_present before
  have phase : (s.posedge accepts completed).Phase := .idle next after
  cases store : s.cache.stores s.proc with
  | false =>
      have same := lines_eq_of_silent ⟨store, request, consume⟩ ram before (by simp [next])
      exact .of_memory store (by rw [same]; exact tracked.sound) phase (fun i t => by rw [same])
  | true =>
      have found : s.cache.tagSram.mem (rowOf s.proc) = tag s.proc.lineAddr := by
        rw [← loaded]
        simpa [DirectMap.Regs.hit] using hit
      have data : (s.posedge accepts completed).cache.dataSram.mem =
          Function.update s.cache.dataSram.mem (rowOf s.proc)
            (writeWords (s.cache.dataSram.mem (rowOf s.proc)) (storeData s.proc) 32
              (storeEnable s.proc)) := by
        change (s.cache.step s.proc _).dataSram.mem = _
        rw [DirectMap.Regs.step_data_mem]
        simp [DirectMap.Regs.writeData, DirectMap.Regs.dataWrite, store, storeData, storeEnable]
      have tags : (s.posedge accepts completed).cache.tagSram.mem = s.cache.tagSram.mem := by
        change (s.cache.step s.proc _).tagSram.mem = _
        rw [DirectMap.Regs.step_tag_mem, request]
        rfl
      have dirty : (s.posedge accepts completed).cache.dirtySram.mem =
          Function.update s.cache.dirtySram.mem (rowOf s.proc) 1 := by
        change (s.cache.step s.proc _).dirtySram.mem = _
        rw [DirectMap.Regs.step_dirty_mem, store]
        rfl
      have stored : (s.posedge accepts completed).lines =
          s.lines.store (rowOf s.proc) (writeWords (s.cache.dataSram.mem (rowOf s.proc))
            (storeData s.proc) 32 (storeEnable s.proc)) := by
        have free' := claimed_of_present (s := s.posedge accepts completed) (by simp [next])
        refine Lines.ext data tags ?_ ?_ (free'.trans present.symm)
        · simp only [lines, dirty, Function.comp_update, Lines.store]
          rfl
        · simp only [lines, ram, Lines.store]
      refine ⟨?_, phase, fun i t => ?_⟩
      · rw [stored]
        exact tracked.sound.store _
      · rw [stored, Lines.memory_store (by simp [present])]
        have named : s.lines.tags (rowOf s.proc) = tag s.proc.lineAddr := found
        by_cases own : i = rowOf s.proc ∧ t = tag s.proc.lineAddr
        · obtain ⟨rfl, rfl⟩ := own
          have row : s.lines.memory (rowOf s.proc) (tag s.proc.lineAddr) =
              s.cache.dataSram.mem (rowOf s.proc) := by
            rw [← named]
            exact Lines.memory_of_found (by simp [present])
          rw [if_pos ⟨rfl, named.symm⟩, if_pos ⟨store, rfl, rfl⟩, row]
        · rw [named, if_neg own, if_neg (fun both => own both.2)]

/-- A miss gives the set up if it is clean and writes it back otherwise. -/
theorem posedge_of_miss (tracked : s.Tracked) (state : s.cache.pState = .b) (free : s.BusFree)
    (dirty : s.cache.dirtySram.readData = s.cache.dirtySram.mem (rowOf s.proc))
    (miss : s.cache.hit s.proc = false) : Keeps s (s.posedge accepts completed) := by
  have silent : s.cache.Silent s.proc (s.response accepts) := by
    simp [DirectMap.Regs.Silent, DirectMap.Regs.stores, DirectMap.Regs.nAck,
      DirectMap.Regs.requests, DirectMap.Regs.consumes, state, miss]
  have off : (s.posedge accepts completed).cache.pReqcyc = false := by
    change (s.cache.nBus s.proc _).reqcyc = false
    simp [DirectMap.Regs.nBus, state]
  obtain ⟨after, ram⟩ := posedge_free accepts completed free.quiet silent.2.2 off
  have before : s.cache.pState ≠ .d ∧ s.cache.pState ≠ .e := by simp [state]
  have next : (s.posedge accepts completed).cache.pState =
      if s.cache.dirtySram.mem (rowOf s.proc) = 1 then .c else .d := by
    change s.cache.nState s.proc _ = _
    simp [DirectMap.Regs.nState, state, miss, dirty]
  have loaded : (s.posedge accepts completed).cache.Loaded s.proc := silent.loaded
  by_cases modified : s.cache.dirtySram.mem (rowOf s.proc) = 1
  · rw [if_pos modified] at next
    have counter : (s.posedge accepts completed).cache.pCounter = 0 := by
      change s.cache.nCounter _ = 0
      simp [DirectMap.Regs.nCounter, state]
    have same := lines_eq_of_silent silent ram before (by simp [next])
    have still : (s.posedge accepts completed).cache.dirtySram.mem (rowOf s.proc) = 1 :=
      (congrFun silent.step.2.2 _).trans modified
    refine .of_memory silent.1 (by rw [same]; exact tracked.sound) ?_ (fun i t => by rw [same])
    exact .evict next loaded still after.quiet (.start counter after.off after.count)
  · rw [if_neg modified] at next
    have clean : s.lines.Clean (rowOf s.proc) :=
      tracked.sound _ (decide_eq_false modified) (by simp [claimed_of_present before])
    have given : (s.posedge accepts completed).lines = s.lines.claim (rowOf s.proc) := by
      rw [lines_of_silent silent ram, claimed_of_replaced (.inl next)]
      rfl
    refine .of_memory silent.1 ?_ ?_ fun i t => ?_
    · rw [given]
      exact tracked.sound.claim (claimed_of_present before)
    · refine .ask next after.count ?_ after.quiet.asked (.inl after.quiet)
      intro on
      rw [after.off] at on
      cases on
    · rw [given, Lines.memory_claim clean (claimed_of_present before)]

/-! ### The write-back -/

theorem keeps_of_burst (tracked : s.Tracked) (state : s.cache.pState = .c)
    (dirty : s.cache.dirtySram.mem (rowOf s.proc) = 1)
    (next : (s.posedge accepts completed).cache.pState = .c)
    (others : ∀ l, l ≠ s.cache.lineAt (rowOf s.proc) →
      (s.posedge accepts completed).sys.ram.line l = s.sys.ram.line l)
    (quiet : (s.posedge accepts completed).sys.Quiet readTag)
    (burst : (s.posedge accepts completed).Burst (rowOf s.proc)) :
    Keeps s (s.posedge accepts completed) := by
  have silent : s.cache.Silent s.proc (s.response accepts) :=
    DirectMap.Regs.silent_of_state (.inr state)
  obtain ⟨data, tags, dirty'⟩ := silent.step
  have present := claimed_of_present (s := s) (by simp [state])
  have present' := claimed_of_present (s := s.posedge accepts completed) (by simp [next])
  have saved : (s.posedge accepts completed).lines = s.lines.save (rowOf s.proc)
      ((s.posedge accepts completed).sys.ram.line (s.cache.lineAt (rowOf s.proc))) := by
    refine Lines.ext data tags ?_ ?_ (present'.trans present.symm)
    · exact congrArg (fun mem => (fun bit : BitVec 1 => decide (bit = 1)) ∘ mem) dirty'
    · funext i t
      simp only [lines, Lines.save]
      by_cases here : i = rowOf s.proc
      · subst here
        rw [Function.update_self]
        by_cases named : t = s.cache.tagSram.mem (rowOf s.proc)
        · rw [named, Function.update_self]
          rfl
        · rw [Function.update_of_ne named]
          apply others
          intro same
          exact named (BitVec.append_left_inj _ |>.mp same)
      · rw [Function.update_of_ne here]
        apply others
        intro same
        have low := congrArg index same
        simp only [index, DirectMap.Regs.lineAt, BitVec.extractLsb'_append_eq_right] at low
        exact here low
  refine .of_memory silent.1 ?_ ?_ fun i t => ?_
  · rw [saved]
    exact tracked.sound.save (decide_eq_true dirty) _
  · exact .evict next silent.loaded ((congrFun dirty' _).trans dirty) quiet burst
  · rw [saved, Lines.memory_save (by simp [present])]

theorem posedge_of_address (tracked : s.Tracked) (state : s.cache.pState = .c)
    (loaded : s.cache.Loaded s.proc) (dirty : s.cache.dirtySram.mem (rowOf s.proc) = 1)
    (quiet : s.sys.Quiet readTag) (counter : s.cache.pCounter = 0) (count : s.sys.rxCount = 0) :
    Keeps s (s.posedge accepts completed) := by
  have silent : s.cache.Silent s.proc (s.response accepts) :=
    DirectMap.Regs.silent_of_state (.inr state)
  have bus : (s.posedge accepts completed).cache.bus =
      { reqcyc := true, req := Ram.lineAddress (s.cache.lineAt (rowOf s.proc))
        reqtag := writeTag } := by
    change s.cache.nBus s.proc _ = _
    simp only [DirectMap.Regs.nBus, state, counter, if_true, loaded.tag]
    rfl
  have next : (s.posedge accepts completed).cache.pState = .c := by
    change s.cache.nState s.proc _ = _
    simp [DirectMap.Regs.nState, state, counter]
  have counter' : (s.posedge accepts completed).cache.pCounter = 1 := by
    change s.cache.nCounter _ = 1
    simp [DirectMap.Regs.nCounter, state, counter]
  have tags : (s.posedge accepts completed).cache.tagSram.mem = s.cache.tagSram.mem := silent.step.2.1
  obtain ⟨ram, eight, xfer, quiet'⟩ := posedge_sys_address completed
    (congrArg BusRequest.reqcyc bus) count (congrArg BusRequest.reqtag bus)
  apply keeps_of_burst tracked state dirty next (fun l _ => by rw [ram])
    (quiet' (served_quiet silent.2.2 quiet))
  refine .sending 0 (by rw [counter']; rfl) (by decide) (congrArg BusRequest.reqcyc bus)
    (congrArg BusRequest.reqtag bus) eight ?_ ?_
  · rw [xfer, DirectMap.Regs.lineAt, tags]
    exact congrArg BusRequest.req bus
  · intro k impossible
    omega

theorem posedge_of_word (tracked : s.Tracked) (burst : s.sys.rxCount ≠ 0 → accepts = true)
    (state : s.cache.pState = .c) (loaded : s.cache.Loaded s.proc)
    (dirty : s.cache.dirtySram.mem (rowOf s.proc) = 1) (quiet : s.sys.Quiet readTag) {n : Nat}
    (counter : s.cache.pCounter.toNat = n + 1) (more : n < 8) (on : s.cache.pReqcyc = true)
    (reqtag : s.cache.pReqtag = writeTag) (count : s.sys.rxCount = 8 - n)
    (xfer : s.sys.xferAddr = Ram.lineAddress (s.cache.lineAt (rowOf s.proc)))
    (sent : s.Sent (rowOf s.proc) n) : Keeps s (s.posedge accepts completed) := by
  have silent : s.cache.Silent s.proc (s.response accepts) :=
    DirectMap.Regs.silent_of_state (.inr state)
  obtain ⟨data, tags, -⟩ := silent.step
  have data' : (s.posedge accepts completed).cache.dataSram.mem = s.cache.dataSram.mem := data
  have line : (s.posedge accepts completed).cache.lineAt = s.cache.lineAt := by
    funext i
    exact congrArg (fun mem : BitVec 4 → BitVec 54 => mem i ++ i) tags
  have started : s.sys.rxCount ≠ 0 := by omega
  have ack : (s.response accepts).reqack = true := by
    rw [response_reqack, on, burst started]
    rfl
  have positive : s.cache.pCounter ≠ 0 := by
    intro zero
    rw [zero] at counter
    simp at counter
  have low : s.cache.pCounter < 9 := by
    rw [BitVec.lt_def, counter]
    exact Nat.succ_lt_succ more
  have next : (s.posedge accepts completed).cache.pState = .c := by
    change s.cache.nState s.proc _ = _
    simp only [DirectMap.Regs.nState, state, if_neg positive, ack, if_true, if_pos low]
  have bus : (s.posedge accepts completed).cache.bus =
      { reqcyc := true, req := word 64 (s.cache.dataSram.mem (rowOf s.proc)) n
        reqtag := writeTag } := by
    change s.cache.nBus s.proc _ = _
    simp only [DirectMap.Regs.nBus, state, if_neg positive, ack, if_true, if_pos low, reqtag,
      loaded.data, counter]
    rfl
  have counter' : (s.posedge accepts completed).cache.pCounter.toNat = n + 2 := by
    change (s.cache.nCounter _).toNat = _
    simp only [DirectMap.Regs.nCounter, state, if_neg positive, ack, if_true, if_pos low]
    rw [BitVec.toNat_add, counter]
    change (n + 1 + 1) % 32 = n + 2
    omega
  obtain ⟨ram, less, xfer', quiet'⟩ := posedge_sys_word completed
    (congrArg BusRequest.reqcyc bus) started (congrArg BusRequest.reqtag bus)
  have req : (s.posedge accepts completed).cache.pReq =
      word 64 (s.cache.dataSram.mem (rowOf s.proc)) n := congrArg BusRequest.req bus
  have stored : ∀ l k, k < 8 → (s.posedge accepts completed).sys.ram.doubleword l k =
      if l = s.cache.lineAt (rowOf s.proc) ∧ k = n then
        word 64 (s.cache.dataSram.mem (rowOf s.proc)) n
      else s.sys.ram.doubleword l k := by
    intro l k inside
    have position : 8 - s.sys.rxCount = n := by omega
    rw [ram, position, xfer, req, Ram.doubleword_store64 _ _ _ more inside]
  have sent' : (s.posedge accepts completed).Sent (rowOf s.proc) (n + 1) := by
    intro k below
    rw [line, data', stored _ k (by omega)]
    by_cases last : k = n
    · rw [if_pos ⟨rfl, last⟩, last]
    · rw [if_neg (fun both => last both.2)]
      exact sent k (by omega)
  apply keeps_of_burst tracked state dirty next ?_ (quiet' (served_quiet silent.2.2 quiet))
  · by_cases more' : n + 1 < 8
    · refine .sending (n + 1) counter' more' (congrArg BusRequest.reqcyc bus)
        (congrArg BusRequest.reqtag bus) (by omega) ?_ sent'
      rw [xfer', xfer, line]
    · refine .sent ?_ (congrArg BusRequest.reqcyc bus) (congrArg BusRequest.reqtag bus) ?_
      · apply BitVec.eq_of_toNat_eq
        rw [counter']
        change n + 2 = 9
        omega
      · rwa [show (8 : Nat) = n + 1 by omega]
  · intro l other
    rw [Ram.eq_line_iff]
    intro k inside
    rw [Ram.word_line _ _ inside, stored l k inside, if_neg (fun both => other both.1)]

/-- The last word is on the bus: the set is given up, or a refused cycle repeats it. -/
theorem posedge_of_sent (tracked : s.Tracked) (burst : s.sys.rxCount ≠ 0 → accepts = true)
    (state : s.cache.pState = .c) (dirty : s.cache.dirtySram.mem (rowOf s.proc) = 1)
    (quiet : s.sys.Quiet readTag) (counter : s.cache.pCounter = 9) (on : s.cache.pReqcyc = true)
    (reqtag : s.cache.pReqtag = writeTag) (sent : s.Sent (rowOf s.proc) 8) :
    Keeps s (s.posedge accepts completed) := by
  have silent : s.cache.Silent s.proc (s.response accepts) :=
    DirectMap.Regs.silent_of_state (.inr state)
  have still : (s.served accepts completed).Quiet readTag := served_quiet silent.2.2 quiet
  have ack : (s.response accepts).reqack = accepts := by
    rw [response_reqack, on, Bool.true_and]
  cases answer : accepts with
  | true =>
      rw [answer] at ack
      have next : (s.posedge true completed).cache.pState = .d := by
        change s.cache.nState s.proc _ = _
        simp [DirectMap.Regs.nState, state, counter, ack]
      have off : (s.posedge true completed).cache.pReqcyc = false := by
        change (s.cache.nBus s.proc _).reqcyc = false
        simp [DirectMap.Regs.nBus, state, counter, ack]
      rw [answer] at silent
      obtain ⟨after, ram⟩ := posedge_free true completed quiet silent.2.2 off
      have before := claimed_of_present (s := s) (by simp [state])
      have clean : s.lines.Clean (rowOf s.proc) := Ram.eq_line_iff.mpr sent
      have given : (s.posedge true completed).lines = s.lines.claim (rowOf s.proc) := by
        rw [lines_of_silent silent ram, claimed_of_replaced (.inl next)]
        rfl
      refine .of_memory silent.1 ?_ ?_ fun i t => ?_
      · rw [given]
        exact tracked.sound.claim before
      · refine .ask next after.count ?_ after.quiet.asked (.inl after.quiet)
        intro on
        rw [after.off] at on
        cases on
      · rw [given, Lines.memory_claim clean before]
  | false =>
      rw [answer] at ack burst silent still
      have count : s.sys.rxCount = 0 := by
        by_contra started
        exact absurd (burst started) (by decide)
      obtain ⟨data, tags, -⟩ := silent.step
      have next : (s.posedge false completed).cache.pState = .c := by
        change s.cache.nState s.proc _ = _
        simp [DirectMap.Regs.nState, state, counter, ack]
      have bus : (s.posedge false completed).cache.bus =
          { reqcyc := true, req := s.cache.pReq, reqtag := writeTag } := by
        change s.cache.nBus s.proc _ = _
        simp [DirectMap.Regs.nBus, state, counter, ack, reqtag]
      have counter' : (s.posedge false completed).cache.pCounter = 9 := by
        change s.cache.nCounter _ = 9
        simp [DirectMap.Regs.nCounter, state, counter, ack]
      obtain ⟨ram, -, -, quiet'⟩ := posedge_sys_address completed
        (congrArg BusRequest.reqcyc bus) count (congrArg BusRequest.reqtag bus)
      apply keeps_of_burst tracked state dirty next (fun l _ => by rw [ram]) (quiet' still)
      refine .sent counter' (congrArg BusRequest.reqcyc bus) (congrArg BusRequest.reqtag bus) ?_
      intro k inside
      have data' : (s.posedge false completed).cache.dataSram.mem = s.cache.dataSram.mem := data
      have tags' : (s.posedge false completed).cache.tagSram.mem = s.cache.tagSram.mem := tags
      rw [DirectMap.Regs.lineAt, tags', data', ram]
      exact sent k inside

/-! ### The refill -/

theorem posedge_of_ask (tracked : s.Tracked) (state : s.cache.pState = .d)
    (count : s.sys.rxCount = 0)
    (line : s.cache.pReqcyc = true →
      s.cache.tagSram.mem (rowOf s.proc) = tag s.proc.lineAddr ∧
        s.cache.pReq = Ram.lineAddress s.proc.lineAddr ∧ s.cache.pReqtag = readTag)
    (asked : s.sys.Asked readTag s.proc.lineAddr)
    (first : s.sys.Quiet readTag ∨ s.cache.pReqcyc = true)
    (refused : s.cache.pReqcyc = true → accepts = false → ∀ addr ∈ completed,
      ¬ (addr = s.cache.pReq ∧ s.sys.findTag addr = some s.cache.pReqtag)) :
    Keeps s (s.posedge accepts completed) := by
  have store : s.cache.stores s.proc = false := by
    simp [DirectMap.Regs.stores, DirectMap.Regs.nAck, state]
  have consume : s.cache.consumes (s.response accepts) = false := by
    simp [DirectMap.Regs.consumes, state]
  have before := claimed_of_replaced (s := s) (.inl state)
  have data : (s.posedge accepts completed).cache.dataSram.mem = s.cache.dataSram.mem :=
    DirectMap.Regs.step_data_mem_of_keeps store consume
  cases ack : (s.response accepts).reqack with
  | true =>
      -- the request is accepted; its beats may arrive from this tick on
      have on : s.cache.pReqcyc = true := by
        rw [response_reqack, Bool.and_eq_true] at ack
        exact ack.1
      have request : s.cache.requests (s.response accepts) = false := by
        simp [DirectMap.Regs.requests, ack]
      have silent : s.cache.Silent s.proc (s.response accepts) := ⟨store, request, consume⟩
      have next : (s.posedge accepts completed).cache.pState = .e := by
        change s.cache.nState s.proc _ = _
        simp [DirectMap.Regs.nState, state, ack]
      have off : (s.posedge accepts completed).cache.pReqcyc = false := by
        change (s.cache.nBus s.proc _).reqcyc = false
        simp [DirectMap.Regs.nBus, state, ack]
      have counter : (s.posedge accepts completed).cache.pCounter = 0 := by
        change s.cache.nCounter _ = 0
        simp [DirectMap.Regs.nCounter, state]
      obtain ⟨ram, zero, answers⟩ := posedge_sys_off (l := s.proc.lineAddr) (c := 0) off
      have same : (s.posedge accepts completed).lines = s.lines := by
        rw [lines_of_silent silent ram, claimed_of_replaced (.inr next)]
        exact congrArg (fun claimed => { s.lines with claimed := claimed }) before.symm
      refine .of_memory store (by rw [same]; exact tracked.sound) ?_ (fun i t => by rw [same])
      refine .refill next off zero ((congrFun silent.step.2.1 _).trans (line on).1)
        (by rw [counter]; decide) ?_ ?_
      · intro k impossible
        rw [counter] at impossible
        exact absurd impossible (Nat.not_lt_zero k)
      · rw [counter]
        exact answers (served_answers consume (.inl ⟨rfl, asked⟩))
  | false =>
      have request : s.cache.requests (s.response accepts) = true := by
        simp [DirectMap.Regs.requests, state, ack]
      have next : (s.posedge accepts completed).cache.pState = .d := by
        change s.cache.nState s.proc _ = _
        simp [DirectMap.Regs.nState, state, ack]
      have bus : (s.posedge accepts completed).cache.bus =
          { reqcyc := true, req := Ram.lineAddress s.proc.lineAddr, reqtag := readTag } := by
        change s.cache.nBus s.proc _ = _
        simp [DirectMap.Regs.nBus, state, ack]
        rfl
      have tags : (s.posedge accepts completed).cache.tagSram.mem =
          Function.update s.cache.tagSram.mem (rowOf s.proc) (tag s.proc.lineAddr) := by
        change (s.cache.step s.proc _).tagSram.mem = _
        rw [DirectMap.Regs.step_tag_mem, request]
        rfl
      have dirty : (s.posedge accepts completed).cache.dirtySram.mem =
          Function.update s.cache.dirtySram.mem (rowOf s.proc) 0 := by
        change (s.cache.step s.proc _).dirtySram.mem = _
        rw [DirectMap.Regs.step_dirty_mem, request, store]
        rfl
      have missing : ∀ addr ∈ completed, s.sys.findTag addr ≠ some readTag := by
        intro addr member found
        have pending := System.mem_readsFor_of_findTag found
        rcases first with quiet | on
        · rw [quiet.2] at pending
          cases pending
        · have refuses : accepts = false := by
            rw [response_reqack, on] at ack
            exact ack
          obtain ⟨-, req, reqtag⟩ := line on
          have same : addr = Ram.lineAddress s.proc.lineAddr := by
            rcases asked.2 with none | read
            · rw [none] at pending
              cases pending
            · rw [read] at pending
              exact List.mem_singleton.mp pending
          exact refused on refuses addr member ⟨same.trans req.symm, by rw [reqtag, found]⟩
      have waiting : (s.served accepts completed).Asked readTag s.proc.lineAddr := by
        rw [served, consume]
        exact asked.update ⟨accepts, completed, false⟩ (by decide) missing
      obtain ⟨ram, zero, asked'⟩ := posedge_sys_read completed (l := s.proc.lineAddr)
        (congrArg BusRequest.reqcyc bus) count (congrArg BusRequest.reqtag bus)
        (congrArg BusRequest.req bus)
      have renamed : (s.posedge accepts completed).lines =
          s.lines.rename (rowOf s.proc) (tag s.proc.lineAddr) := by
        refine Lines.ext data tags ?_ ?_ ((claimed_of_replaced (.inl next)).trans before.symm)
        · simp only [lines, dirty, Function.comp_update, Lines.rename]
          rfl
        · simp only [lines, ram, Lines.rename]
      refine .of_memory store ?_ ?_ fun i t => ?_
      · rw [renamed]
        exact tracked.sound.rename before _
      · refine .ask next zero (fun _ => ⟨?_, congrArg BusRequest.req bus,
          congrArg BusRequest.reqtag bus⟩) (asked' waiting) (.inr (congrArg BusRequest.reqcyc bus))
        rw [tags]
        exact Function.update_self ..
      · rw [renamed, Lines.memory_rename before]

/-- The half of the last beat that a read may wait for. -/
theorem word_of_last {row : BitVec 512} {beat : BitVec 64} {w : Nat} (high : 14 ≤ w) (low : w < 16)
    (last : word 64 row 7 = beat) : word 32 row w = word 32 beat (w - 14) := by
  rw [← last, Words.word_word (show 64 = 2 * 32 from rfl) row 7 (by omega)]
  congr 1
  omega

theorem posedge_of_beat (tracked : s.Tracked) (settled : s.Settled accepts)
    (state : s.cache.pState = .e)
    (claimed : s.cache.tagSram.mem (rowOf s.proc) = tag s.proc.lineAddr)
    (low : s.cache.pCounter.toNat < 8)
    (filled : ∀ k < s.cache.pCounter.toNat,
      s.sys.ram.doubleword s.proc.lineAddr k = word 64 (s.cache.dataSram.mem (rowOf s.proc)) k)
    (answers : s.sys.Answers readTag s.proc.lineAddr s.cache.pCounter.toNat)
    (consume : s.cache.consumes (s.response accepts) = true) :
    Keeps s (s.posedge accepts completed) := by
  have shown := consume
  rw [DirectMap.Regs.consumes, Bool.and_eq_true] at shown
  obtain ⟨rest, queue⟩ := front_of_response shown.2 tracked.owned
  have resp := (answers.front queue).2.1
  have store : s.cache.stores s.proc = false := by
    simp [DirectMap.Regs.stores, DirectMap.Regs.nAck, state]
  have request : s.cache.requests (s.response accepts) = false := by
    simp [DirectMap.Regs.requests, state]
  have before := claimed_of_replaced (s := s) (.inr state)
  have off : (s.posedge accepts completed).cache.pReqcyc = false := by
    change (s.cache.nBus s.proc _).reqcyc = false
    simp [DirectMap.Regs.nBus, state]
  obtain ⟨ram, zero, answers'⟩ := posedge_sys_off (l := s.proc.lineAddr)
    (c := s.cache.pCounter.toNat + 1) off
  have later := answers' (served_taken tracked.owned consume answers)
  have tags : (s.posedge accepts completed).cache.tagSram.mem = s.cache.tagSram.mem := by
    change (s.cache.step s.proc _).tagSram.mem = _
    rw [DirectMap.Regs.step_tag_mem, request]
    rfl
  have dirty : (s.posedge accepts completed).cache.dirtySram.mem = s.cache.dirtySram.mem := by
    change (s.cache.step s.proc _).dirtySram.mem = _
    rw [DirectMap.Regs.step_dirty_mem, request, store]
    rfl
  have data : (s.posedge accepts completed).cache.dataSram.mem =
      Function.update s.cache.dataSram.mem (rowOf s.proc)
        (writeWords (s.cache.dataSram.mem (rowOf s.proc))
          ((s.response accepts).resp.setWidth 512 <<< (s.cache.pCounter.toNat * 64)) 32
          (BitVec.ofNat 16 (2 ^ 2 - 1) <<< (s.cache.pCounter.toNat * 2))) := by
    change (s.cache.step s.proc _).dataSram.mem = _
    rw [DirectMap.Regs.step_data_mem]
    simp [DirectMap.Regs.writeData, DirectMap.Regs.dataWrite, store, consume]
  have row : ∀ k < 8, word 64 ((s.posedge accepts completed).cache.dataSram.mem (rowOf s.proc)) k =
      if k = s.cache.pCounter.toNat then (s.response accepts).resp
      else word 64 (s.cache.dataSram.mem (rowOf s.proc)) k := by
    intro k inside
    rw [data, Function.update_self, word_writeWords_beat rfl (by decide) _ _ (by decide) low inside]
  have filled' : ∀ k < s.cache.pCounter.toNat + 1,
      (s.posedge accepts completed).sys.ram.doubleword s.proc.lineAddr k =
        word 64 ((s.posedge accepts completed).cache.dataSram.mem (rowOf s.proc)) k := by
    intro k below
    rw [ram, row k (by omega)]
    by_cases last : k = s.cache.pCounter.toNat
    · rw [if_pos last, last, resp]
    · rw [if_neg last]
      exact filled k (by omega)
  by_cases more : s.cache.pCounter < 7
  · have next : (s.posedge accepts completed).cache.pState = .e := by
      change s.cache.nState s.proc _ = _
      simp only [DirectMap.Regs.nState, state, shown.2, if_true, if_pos more]
    have counter : (s.posedge accepts completed).cache.pCounter.toNat =
        s.cache.pCounter.toNat + 1 := by
      change (s.cache.nCounter _).toNat = _
      simp only [DirectMap.Regs.nCounter, state, shown.2, if_true]
      rw [BitVec.toNat_add]
      change (s.cache.pCounter.toNat + 1) % 32 = s.cache.pCounter.toNat + 1
      omega
    have written : (s.posedge accepts completed).lines = s.lines.fill (rowOf s.proc)
        ((s.posedge accepts completed).cache.dataSram.mem (rowOf s.proc)) := by
      refine Lines.ext ?_ tags ?_ ?_ ((claimed_of_replaced (.inr next)).trans before.symm)
      · simp only [lines, data, Lines.fill, Function.update_self]
      · simp only [lines, dirty, Lines.fill]
      · simp only [lines, ram, Lines.fill]
    refine .of_memory store ?_ ?_ fun i t => ?_
    · rw [written]
      exact tracked.sound.fill before _
    · refine .refill next off zero (by rw [tags]; exact claimed) ?_ ?_ ?_
      · rw [BitVec.lt_def] at more
        rw [counter]
        exact Nat.succ_lt_succ more
      · rw [counter]
        exact filled'
      · rw [counter]
        exact later
    · rw [written, Lines.memory_fill before]
  · have seven : s.cache.pCounter.toNat = 7 := by
      rw [BitVec.lt_def] at more
      have bound : ¬ s.cache.pCounter.toNat < 7 := more
      omega
    have next : (s.posedge accepts completed).cache.pState = .b := by
      change s.cache.nState s.proc _ = _
      simp only [DirectMap.Regs.nState, state, shown.2, if_true, if_neg more]
    rw [seven] at filled' later row
    have whole : (s.posedge accepts completed).cache.dataSram.mem (rowOf s.proc) =
        s.sys.ram.line s.proc.lineAddr := by
      rw [Ram.eq_line_iff, ← ram]
      exact filled'
    have present := claimed_of_present (s := s.posedge accepts completed) (by simp [next])
    have written : (s.posedge accepts completed).lines = (s.lines.fill (rowOf s.proc)
        ((s.posedge accepts completed).cache.dataSram.mem (rowOf s.proc))).release := by
      refine Lines.ext ?_ tags ?_ ?_ present
      · simp only [lines, data, Lines.fill, Lines.release, Function.update_self]
      · simp only [lines, dirty, Lines.fill, Lines.release]
      · simp only [lines, ram, Lines.fill, Lines.release]
    have clean : (s.lines.fill (rowOf s.proc)
        ((s.posedge accepts completed).cache.dataSram.mem (rowOf s.proc))).Clean
          (rowOf s.proc) := by
      simp only [Lines.Clean, Lines.fill, Function.update_self, whole, lines, claimed, tag_index]
    have filling : (s.lines.fill (rowOf s.proc)
        ((s.posedge accepts completed).cache.dataSram.mem (rowOf s.proc))).claimed =
          some (rowOf s.proc) := before
    refine .of_memory store ?_ ?_ fun i t => ?_
    · rw [written]
      exact (tracked.sound.fill before _).release filling clean
    · refine .lookup next ⟨off, zero, System.quiet_iff_answers.mpr later⟩ (congrFun tags.symm _)
        (congrFun dirty.symm _) fun reads => ?_
      -- the read register has the set without the last beat
      change word 32 (s.cache.dataSram.mem (rowOf s.proc)) s.proc.wordSelect.toNat = _
      have bound := s.proc.wordSelect.isLt
      have arrived := row 7 (by decide)
      rw [if_pos rfl] at arrived
      by_cases high : 14 ≤ s.proc.wordSelect.toNat
      · exact (settled consume (BitVec.eq_of_toNat_eq seven) reads high).trans
          (word_of_last high bound arrived).symm
      · have earlier := row (s.proc.wordSelect.toNat / 2) (by omega)
        rw [if_neg (by omega)] at earlier
        have half := congrArg (fun beat => word 32 beat (s.proc.wordSelect.toNat % 2)) earlier
        simp only [Words.word_word (show 64 = 2 * 32 from rfl) _ _
          (Nat.mod_lt s.proc.wordSelect.toNat (by decide)), Nat.div_add_mod'] at half
        exact half.symm
    · rw [written, Lines.memory_release filling clean, Lines.memory_fill before]

theorem posedge_of_refill (tracked : s.Tracked) (settled : s.Settled accepts)
    (state : s.cache.pState = .e)
    (claimed : s.cache.tagSram.mem (rowOf s.proc) = tag s.proc.lineAddr)
    (low : s.cache.pCounter.toNat < 8)
    (filled : ∀ k < s.cache.pCounter.toNat,
      s.sys.ram.doubleword s.proc.lineAddr k = word 64 (s.cache.dataSram.mem (rowOf s.proc)) k)
    (answers : s.sys.Answers readTag s.proc.lineAddr s.cache.pCounter.toNat) :
    Keeps s (s.posedge accepts completed) := by
  cases consume : s.cache.consumes (s.response accepts) with
  | true => exact posedge_of_beat tracked settled state claimed low filled answers consume
  | false =>
      have idle : (s.response accepts).respcyc = false := by
        simpa [DirectMap.Regs.consumes, state] using consume
      have silent : s.cache.Silent s.proc (s.response accepts) := by
        simp [DirectMap.Regs.Silent, DirectMap.Regs.stores, DirectMap.Regs.nAck,
          DirectMap.Regs.requests, consume, state]
      have before := claimed_of_replaced (s := s) (.inr state)
      have next : (s.posedge accepts completed).cache.pState = .e := by
        change s.cache.nState s.proc _ = _
        simp [DirectMap.Regs.nState, state, idle]
      have off : (s.posedge accepts completed).cache.pReqcyc = false := by
        change (s.cache.nBus s.proc _).reqcyc = false
        simp [DirectMap.Regs.nBus, state]
      have counter : (s.posedge accepts completed).cache.pCounter = 0 := by
        change s.cache.nCounter _ = 0
        simp [DirectMap.Regs.nCounter, state, idle]
      have first := answers.zero_of_empty low (empty_of_response idle)
      obtain ⟨ram, zero, answers'⟩ := posedge_sys_off (l := s.proc.lineAddr) (c := 0) off
      have same : (s.posedge accepts completed).lines = s.lines := by
        rw [lines_of_silent silent ram, claimed_of_replaced (.inr next)]
        exact congrArg (fun claimed => { s.lines with claimed := claimed }) before.symm
      rw [first] at answers
      refine .of_memory silent.1 (by rw [same]; exact tracked.sound) ?_ (fun i t => by rw [same])
      refine .refill next off zero ((congrFun silent.step.2.1 _).trans claimed)
        (by rw [counter]; decide) ?_ ?_
      · intro k impossible
        rw [counter] at impossible
        exact absurd impossible (Nat.not_lt_zero k)
      · rw [counter]
        exact answers' (served_answers consume answers)

/-! ### A whole cycle -/

theorem Tracked.keeps (tracked : s.Tracked) (settled : s.Settled accepts)
    (burst : s.sys.rxCount ≠ 0 → accepts = true)
    (refused : s.cache.pReqcyc = true → accepts = false → ∀ addr ∈ completed,
      ¬ (addr = s.cache.pReq ∧ s.sys.findTag addr = some s.cache.pReqtag)) :
    Keeps s (s.posedge accepts completed) := by
  cases tracked.phase with
  | idle state free => exact posedge_of_idle tracked state free
  | lookup state free tag dirty =>
      cases found : s.cache.hit s.proc with
      | true => exact posedge_of_hit tracked state free tag found
      | false => exact posedge_of_miss tracked state free dirty found
  | evict state loaded dirty quiet stage =>
      cases stage with
      | start counter _ count =>
          exact posedge_of_address tracked state loaded dirty quiet counter count
      | sending n counter more on tag count xfer sent =>
          exact posedge_of_word tracked burst state loaded dirty quiet counter more on tag count
            xfer sent
      | sent counter on tag sent =>
          exact posedge_of_sent tracked burst state dirty quiet counter on tag sent
  | ask state count line asked first =>
      exact posedge_of_ask tracked state count line asked first refused
  | refill state _ _ claimed low filled answers =>
      exact posedge_of_refill tracked settled state claimed low filled answers

/-- The request that an acknowledgement ends is in `STATEB`. -/
theorem held_posedge (held : s.cache.pState ≠ .a → s.proc.req = true) :
    (s.posedge accepts completed).cache.pState ≠ .a →
      (s.posedge accepts completed).proc.req = true ∧
        (s.posedge accepts completed).cache.pAck = false := by
  intro (busy : s.cache.nState s.proc (s.response accepts) ≠ .a)
  change s.proc.req = true ∧ s.cache.nAck s.proc = false
  by_cases idle : s.cache.pState = .a
  · refine ⟨?_, by simp [DirectMap.Regs.nAck, idle]⟩
    by_contra none
    simp [DirectMap.Regs.nState, idle, none] at busy
  · refine ⟨held idle, ?_⟩
    by_contra served
    rw [Bool.not_eq_false, DirectMap.Regs.nAck, Bool.and_eq_true, beq_iff_eq] at served
    simp [DirectMap.Regs.nState, served.1, served.2] at busy

theorem Tracked.posedge (tracked : s.Tracked)
    (keeps : Keeps s (s.posedge accepts completed)) :
    (s.posedge accepts completed).Tracked where
  held := held_posedge fun busy => (tracked.held busy).1
  owned := by
    have tags := keeps.phase.reqtag
    rw [posedge_sys fun on => by rcases tags on with tag | tag <;> rw [tag] <;> decide]
    exact ((tracked.owned.completes completed).pop _).request tags
  sound := keeps.sound
  phase := keeps.phase

/-- `procTick` keeps the request that the cache works on. -/
theorem negedge_of_busy (tracked : s.Tracked) (busy : s.cache.pState ≠ .a)
    (issue : Option ProcIssue) : s.negedge issue = s := by
  obtain ⟨req, silent⟩ := tracked.held busy
  have same : procTick s.proc s.cache.pAck issue = s.proc := by simp [procTick, req, silent]
  rw [negedge, same]

theorem lines_negedge (tracked : s.Tracked) (issue : Option ProcIssue) :
    (s.negedge issue).lines = s.lines := by
  by_cases idle : s.cache.pState = .a
  · have present : s.cache.pState ≠ .d ∧ s.cache.pState ≠ .e := by simp [idle]
    refine Lines.ext rfl rfl rfl rfl ?_
    exact (claimed_of_present (s := s.negedge issue) present).trans
      (claimed_of_present present).symm
  · rw [negedge_of_busy tracked idle]

theorem Tracked.negedge (tracked : s.Tracked) (issue : Option ProcIssue) :
    (s.negedge issue).Tracked := by
  by_cases idle : s.cache.pState = .a
  · refine ⟨fun busy => absurd idle busy, tracked.owned, ?_, ?_⟩
    · rw [lines_negedge tracked]
      exact tracked.sound
    · cases tracked.phase with
      | idle _ free => exact .idle idle ⟨free.off, free.count, free.quiet⟩
      | lookup other => rw [idle] at other; cases other
      | evict other => rw [idle] at other; cases other
      | ask other => rw [idle] at other; cases other
      | refill other => rw [idle] at other; cases other
  · rw [negedge_of_busy tracked idle]
    exact tracked

end

/-! ### The last word written -/

/-- What the processor has written, by line and word. -/
abbrev WordMemory := BitVec 58 → BitVec 4 → BitVec 32

def applyWrite (memory : WordMemory) (p : ProcRequest) : WordMemory :=
  if p.readWriteN then memory
  else fun l w => if l = p.lineAddr ∧ w = p.wordSelect then p.dataIn else memory l w

/-- A read returns the last word written. -/
def lastWrite : Runs.Monitor WordMemory (ProcRequest × BitVec 32) where
  allows memory access :=
    access.1.readWriteN = true → access.2 = memory access.1.lineAddr access.1.wordSelect
  next memory access := applyWrite memory access.1

instance (memory : WordMemory) (access : ProcRequest × BitVec 32) :
    Decidable (lastWrite.allows memory access) :=
  inferInstanceAs (Decidable (_ → _))

/-- An acknowledged request with the data that `procTick` finds. -/
def acknowledged (s : TestBench) (_ : BenchInput) : Option (ProcRequest × BitVec 32) :=
  if s.cache.pAck then some (s.proc, s.cache.pProcDataOut) else none

/-- The words that the cache and the RAM make up. -/
def words (s : TestBench) : WordMemory := fun l w =>
  word 32 (s.lines.memory (index l) (tag l)) w.toNat

/-- The words are those of the monitor, but for the access that it has not seen yet. -/
structure Shows (s : TestBench) (memory : WordMemory) : Prop where
  tracked : s.Tracked
  silent : s.cache.pAck = false → s.words = memory
  read : s.cache.pAck = true → s.proc.readWriteN = true →
    s.cache.pProcDataOut = memory s.proc.lineAddr s.proc.wordSelect
  written : s.cache.pAck = true → s.words = applyWrite memory s.proc

section

variable {s : TestBench} {input : BenchInput} {memory : WordMemory}

theorem words_store {s' : TestBench} (keeps : Keeps s s') :
    s'.words = if s.cache.stores s.proc then applyWrite s.words s.proc else s.words := by
  funext l w
  rw [words, keeps.memory]
  cases store : s.cache.stores s.proc with
  | false => simp [words]
  | true =>
      have write : s.proc.readWriteN = false := by
        rw [DirectMap.Regs.stores, Bool.and_eq_true, Bool.not_eq_true'] at store
        exact store.2
      have own : (index l = rowOf s.proc ∧ tag l = tag s.proc.lineAddr) ↔ l = s.proc.lineAddr :=
        ⟨fun both => eq_of_tag_index both.2 both.1, fun same => by rw [same]; exact ⟨rfl, rfl⟩⟩
      simp only [true_and, own, applyWrite, write, if_true, Bool.false_eq_true, if_false, words]
      by_cases here : l = s.proc.lineAddr
      · rw [if_pos here, DirectMap.word_store]
        simp only [here, true_and]
      · rw [if_neg here, if_neg (fun both => here both.1)]

theorem Tracked.served (tracked : s.Tracked) (serves : s.cache.nAck s.proc = true)
    (reads : s.proc.readWriteN = true) :
    s.cache.nProcDataOut s.proc = s.words s.proc.lineAddr s.proc.wordSelect := by
  have hit := serves
  rw [DirectMap.Regs.nAck, Bool.and_eq_true, beq_iff_eq] at hit
  obtain ⟨state, hit⟩ := hit
  cases tracked.phase with
  | lookup _ _ loaded _ current =>
      have found : s.lines.tags (rowOf s.proc) = tag s.proc.lineAddr := by
        change s.cache.tagSram.mem _ = _
        rw [← loaded]
        simpa [DirectMap.Regs.hit] using hit
      have row : s.lines.memory (index s.proc.lineAddr) (tag s.proc.lineAddr) =
          s.cache.dataSram.mem (rowOf s.proc) := by
        rw [← found]
        exact Lines.memory_of_found (by simp [claimed_of_present (s := s) (by simp [state])])
      rw [DirectMap.Regs.nProcDataOut, if_pos serves, words, row]
      exact current reads
  | idle other => rw [state] at other; cases other
  | evict other => rw [state] at other; cases other
  | ask other => rw [state] at other; cases other
  | refill other => rw [state] at other; cases other

theorem Settled.negedge (tracked : s.Tracked) (settled : s.Settled input.accepts) :
    (s.negedge input.issue).Settled input.accepts := by
  by_cases idle : s.cache.pState = .a
  · intro consume
    have other : s.cache.consumes (s.response input.accepts) = true := consume
    simp [DirectMap.Regs.consumes, idle] at other
  · rw [negedge_of_busy tracked idle]
    exact settled

/-- One cycle from words that the monitor knows. -/
theorem Tracked.shows (tracked : s.Tracked) (allowed : s.Allowed input)
    (settled : s.Settled input.accepts) : (s.step input).Shows s.words := by
  have before := tracked.negedge input.issue
  have same : (s.negedge input.issue).words = s.words := by
    unfold words
    rw [lines_negedge tracked]
  have keeps : Keeps (s.negedge input.issue) (s.step input) :=
    before.keeps (settled.negedge tracked) allowed.burst allowed.refused
  have later := words_store keeps
  rw [same] at later
  refine ⟨before.posedge keeps, fun silent => ?_, fun ack reads => ?_, fun ack => ?_⟩
  · have none : (s.negedge input.issue).cache.nAck (s.negedge input.issue).proc = false := silent
    rw [later, DirectMap.Regs.stores, none]
    rfl
  · rw [← same]
    exact before.served ack reads
  · have hit : (s.negedge input.issue).cache.nAck (s.negedge input.issue).proc = true := ack
    rw [later, DirectMap.Regs.stores, hit, Bool.true_and]
    change _ = applyWrite s.words (s.negedge input.issue).proc
    cases reads : (s.negedge input.issue).proc.readWriteN with
    | true => simp [applyWrite, reads]
    | false => simp

end

theorem word_zero {w : Nat} (size i : Nat) : word size (0 : BitVec w) i = 0 := by
  ext j
  simp [word]

theorem line_zero (l : BitVec 58) : Ram.line (fun _ => 0) l = 0 := by
  refine (Ram.eq_line_iff.mpr fun i _ => ?_).symm
  have zero : Ram.load64 (fun _ => 0) (System.beatAddr (Ram.lineAddress l) i) = 0 := by
    unfold Ram.load64
    beta_reduce
    decide
  rw [Ram.doubleword, zero, word_zero]
  decide

theorem words_zero {s : TestBench} (data : s.cache.dataSram.mem = fun _ => 0)
    (ram : s.sys.ram = fun _ => 0) : s.words = fun _ _ => 0 := by
  funext l w
  have zero : s.lines.memory (index l) (tag l) = 0 := by
    unfold Lines.memory
    split
    · exact congrFun data _
    · change s.sys.ram.line _ = 0
      rw [ram, line_zero]
  rw [words, zero, word_zero]

theorem tracked_reset : reset.Tracked where
  held busy := absurd rfl busy
  owned :=
    { beats := fun _ member => by cases member
      reads := fun _ member => by cases member }
  sound i _ _ := (line_zero _).symm
  phase := .idle rfl ⟨rfl, rfl, rfl, rfl⟩

theorem shows_start : start.Shows fun _ _ => 0 := by
  have keeps : Keeps reset start := posedge_of_idle tracked_reset rfl ⟨rfl, rfl, rfl, rfl⟩
  refine ⟨tracked_reset.posedge keeps, fun _ => words_zero rfl rfl, ?_, ?_⟩
  · intro ack
    cases ack
  · intro ack
    cases ack

/-- The cache returns the last word written in every run in which no read of word 14 or 15
misses while its set has another word there. -/
theorem returns_last_write (inputs : List BenchInput)
    (legal : Runs.Guarded step (fun s input => s.Allowed input ∧ s.Settled input.accepts) start
      inputs) :
    lastWrite.Accepts (fun _ _ => 0) (Runs.emits step acknowledged start inputs) := by
  refine Runs.Monitor.accepts_emits Shows ?_ ?_ shows_start legal
  · intro s input memory shows legal silent
    cases ack : s.cache.pAck with
    | true => simp [acknowledged, ack] at silent
    | false =>
        have later := shows.tracked.shows legal.1 legal.2
        rwa [shows.silent ack] at later
  · intro s input memory access shows legal shown
    cases ack : s.cache.pAck with
    | false => simp [acknowledged, ack] at shown
    | true =>
        rw [acknowledged, ack, if_pos rfl, Option.some.injEq] at shown
        subst shown
        have later := shows.tracked.shows legal.1 legal.2
        rw [shows.written ack] at later
        exact ⟨shows.read ack, later⟩

/-- The cycles of one request, the line being delivered in the given one. -/
def requesting (issue : ProcIssue) (cycles : List (List (BitVec 64))) : List BenchInput :=
  cycles.map fun completed => { issue := some issue, accepts := true, completed := completed }

/-- A write of a word that the reset left in the cache, and a read that misses. -/
theorem returns_last_write_miss :
    lastWrite.Accepts (fun _ _ => 0) (Runs.emits step acknowledged start
      (requesting ⟨false, 0, 13, 5⟩ [[], []] ++
        requesting ⟨true, 16, 13, 0⟩ (List.replicate 13 [] ++ [1024] :: List.replicate 10 []))) :=
  returns_last_write _ (by decide +kernel)

/-- A write of the last word of line 0; its set still shows that word when line 16 is read
after the write-back and the refill. -/
theorem reads_word_of_other_line :
    ¬ ∀ inputs : List BenchInput,
      Runs.Guarded step (fun s input => s.Allowed input) start inputs →
      lastWrite.Accepts (fun _ _ => 0) (Runs.emits step acknowledged start inputs) := by
  intro accepts
  have accepted := accepts (requesting ⟨false, 0, 15, 5⟩ [[], []] ++
    requesting ⟨true, 16, 15, 0⟩ (List.replicate 13 [] ++ [1024] :: List.replicate 10 []))
      (by decide +kernel)
  exact absurd accepted (by decide +kernel)

end TestBench

end Sparcy
