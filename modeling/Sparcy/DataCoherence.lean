import Sparcy.DataCacheSets

/-!
# Coherence of the data cache

Every step keeps the abstract memory, except a store hit, which replaces the enabled
bytes of its line.
-/

namespace Sparcy

open Words (word)

namespace MemorySystem

open DCache (readTag writeTag)
open DCache.Regs (set)
open ICache (index tag)

section

variable {m : MemorySystem} {ip : IcRequest} {p : DcRequest} {events : DramEvents}

/-! ### One cycle -/

/-- A step keeps the invariant, and the abstract memory except for a store. -/
structure Keeps (m m' : MemorySystem) (p : DcRequest) : Prop where
  frame : Frame m m' p
  phase : m'.Phase p
  clean : m'.dc.dirtySram.mem (set p) = 0 → ¬ m'.dc.Replaces p (set p) →
    m'.dc.dataSram.mem (set p) = m'.sys.ram.line (m'.dc.lineAt (set p))
  here : ∀ l, index l = set p → m'.memory p l =
    if m.dc.stores p = true ∧ l = p.lineAddr then
      writeWords (m.memory p l) (DCache.storeData p) 8 (DCache.storeEnable p)
    else m.memory p l

/-- Nothing is written and the line stays where it was. -/
theorem keeps_of_silent (silent : m.dc.Silent p (m.dcResponse events))
    (ram : (m.step ip p events).sys.ram = m.sys.ram) (tracked : m.Tracked p)
    (before : m.dc.pState ≠ .d ∧ m.dc.pState ≠ .e)
    (after : (m.step ip p events).dc.pState ≠ .d ∧ (m.step ip p events).dc.pState ≠ .e)
    (phase : (m.step ip p events).Phase p) : Keeps m (m.step ip p events) p := by
  obtain ⟨data, tags, dirty⟩ : (m.step ip p events).dc.dataSram.mem = m.dc.dataSram.mem ∧
      (m.step ip p events).dc.tagSram.mem = m.dc.tagSram.mem ∧
      (m.step ip p events).dc.dirtySram.mem = m.dc.dirtySram.mem := silent.step
  have line : (m.step ip p events).dc.lineAt (set p) = m.dc.lineAt (set p) := by
    rw [DCache.Regs.lineAt, tags, DCache.Regs.lineAt]
  refine ⟨frame_of_ram fun l _ => by rw [ram], phase, ?_, ?_⟩
  · intro clean _
    rw [data, line, ram]
    apply tracked.clean
    · rw [← dirty]
      exact clean
    · rintro ⟨state | state, -⟩
      · exact before.1 state
      · exact before.2 state
  · intro l _
    rw [memory_of_present after, memory_of_present before, data, tags, ram]
    simp [silent.1]

theorem elsewhere_of_off (off : m.dc.pReqcyc = false) : m.grant ≠ .dc := by
  intro granted
  have on := (Arbiter.grant_dc granted).1
  rw [DCache.Regs.bus, off] at on
  cases on

variable (ip) in
theorem step_free (tracked : m.Tracked p) (quiet : m.sys.Quiet readTag)
    (kept : m.dc.consumes (m.dcResponse events) = false)
    (off : (m.step ip p events).dc.pReqcyc = false) :
    (m.step ip p events).BusFree ∧ (m.step ip p events).sys.ram = m.sys.ram := by
  obtain ⟨ram, count, answers⟩ := step_sys_elsewhere (l := 0) (c := 8) tracked.port
    tracked.phase.burst (elsewhere_of_off off)
  refine ⟨⟨off, count, ?_⟩, ram⟩
  rw [System.quiet_iff_answers (l := 0)]
  exact answers (System.quiet_iff_answers.mp (served_quiet tracked.port kept quiet))

theorem step_of_idle (tracked : m.Tracked p) (state : m.dc.pState = .a) :
    Keeps m (m.step ip p events) p := by
  have silent : m.dc.Silent p (m.dcResponse events) := DCache.Regs.silent_of_state (.inl state)
  have free : m.BusFree := by
    cases tracked.phase with
    | idle _ free => exact free
    | lookup other => rw [state] at other; cases other
    | evict other => rw [state] at other; cases other
    | ask other => rw [state] at other; cases other
    | refill other => rw [state] at other; cases other
  have off : (m.step ip p events).dc.pReqcyc = false := DCache.Regs.step_off (.inl state)
  obtain ⟨after, ram⟩ := step_free ip tracked free.quiet silent.2.2 off
  have next : (m.step ip p events).dc.pState = if p.req then .b else .a := by
    change m.dc.nState p (m.dcResponse events) = _
    rw [DCache.Regs.nState, state]
  have apart : (m.step ip p events).dc.pState ≠ .d ∧ (m.step ip p events).dc.pState ≠ .e := by
    rw [next]
    cases p.req <;> simp
  apply keeps_of_silent silent ram tracked (by simp [state]) apart
  cases asks : p.req with
  | false => exact .idle (by rw [next, asks]; rfl) after
  | true => exact .lookup (by rw [next, asks]; rfl) after silent.loaded

/-- A hit: the line is served from the set, and a store replaces bytes of it. -/
theorem step_of_hit (tracked : m.Tracked p) (state : m.dc.pState = .b) (free : m.BusFree)
    (loaded : m.dc.Loaded p) (hit : m.dc.hit p = true) : Keeps m (m.step ip p events) p := by
  have request : m.dc.requests (m.dcResponse events) = false := by
    simp [DCache.Regs.requests, state]
  have consume : m.dc.consumes (m.dcResponse events) = false := by
    simp [DCache.Regs.consumes, state]
  have off : (m.step ip p events).dc.pReqcyc = false := DCache.Regs.step_off (.inr state)
  obtain ⟨after, ram⟩ := step_free ip tracked free.quiet consume off
  have next : (m.step ip p events).dc.pState = .a := by
    change m.dc.nState p (m.dcResponse events) = _
    simp [DCache.Regs.nState, state, hit]
  have before : m.dc.pState ≠ .d ∧ m.dc.pState ≠ .e := by simp [state]
  have apart : (m.step ip p events).dc.pState ≠ .d ∧ (m.step ip p events).dc.pState ≠ .e := by
    simp [next]
  have phase : (m.step ip p events).Phase p := .idle next after
  cases store : m.dc.stores p with
  | false => exact keeps_of_silent ⟨store, request, consume⟩ ram tracked before apart phase
  | true =>
      have found : m.dc.tagSram.mem (set p) = tag p.lineAddr := by
        rw [← loaded.tag]
        simpa [DCache.Regs.hit] using hit
      have tags : (m.step ip p events).dc.tagSram.mem = m.dc.tagSram.mem := by
        change (m.dc.step p _).tagSram.mem = _
        rw [DCache.Regs.step_tag_mem, request]
        rfl
      have data : (m.step ip p events).dc.dataSram.mem (set p) =
          writeWords (m.dc.dataSram.mem (set p)) (DCache.storeData p) 8
            (DCache.storeEnable p) := by
        change (m.dc.step p _).dataSram.mem (set p) = _
        rw [DCache.Regs.step_data_mem, Function.update_self]
        simp [DCache.Regs.writeData, DCache.Regs.dataWrite, store]
      have dirty : (m.step ip p events).dc.dirtySram.mem (set p) = 1 := by
        change (m.dc.step p _).dirtySram.mem (set p) = 1
        rw [DCache.Regs.step_dirty_mem, store, Bool.true_or, if_pos rfl, Function.update_self]
        rfl
      refine ⟨frame_of_ram fun l _ => by rw [ram], phase, ?_, ?_⟩
      · intro clean
        rw [dirty] at clean
        exact absurd clean (by decide)
      · intro l here
        rw [memory_of_present apart, memory_of_present before, tags, here, ram, data]
        by_cases own : l = p.lineAddr
        · simp [own, found, store]
        · have other : m.dc.tagSram.mem (set p) ≠ tag l := by
            rw [found]
            exact fun same => own (eq_of_tag_index same.symm here)
          simp [own, other]

/-- A miss: the line of the set is written back, or it is in the RAM already. -/
theorem step_of_miss (tracked : m.Tracked p) (state : m.dc.pState = .b) (free : m.BusFree)
    (loaded : m.dc.Loaded p) (miss : m.dc.hit p = false) : Keeps m (m.step ip p events) p := by
  have silent : m.dc.Silent p (m.dcResponse events) := by
    simp [DCache.Regs.Silent, DCache.Regs.stores, DCache.Regs.serves, DCache.Regs.requests,
      DCache.Regs.consumes, state, miss]
  obtain ⟨after, ram⟩ := step_free ip tracked free.quiet silent.2.2
    (DCache.Regs.step_off (.inr state))
  have before : m.dc.pState ≠ .d ∧ m.dc.pState ≠ .e := by simp [state]
  have next : (m.step ip p events).dc.pState =
      if m.dc.dirtySram.mem (set p) = 1 then .c else .d := by
    change m.dc.nState p (m.dcResponse events) = _
    simp [DCache.Regs.nState, state, miss, loaded.dirty]
  obtain ⟨data, tags, dirty⟩ : (m.step ip p events).dc.dataSram.mem = m.dc.dataSram.mem ∧
      (m.step ip p events).dc.tagSram.mem = m.dc.tagSram.mem ∧
      (m.step ip p events).dc.dirtySram.mem = m.dc.dirtySram.mem := silent.step
  by_cases modified : m.dc.dirtySram.mem (set p) = 1
  · rw [if_pos modified] at next
    have counter : (m.step ip p events).dc.pCounter = 0 := by
      change m.dc.nCounter p (m.dcResponse events) = 0
      simp [DCache.Regs.nCounter, state, miss, loaded.dirty, modified]
    apply keeps_of_silent silent ram tracked before (by simp [next])
    exact .evict next silent.loaded (by rw [dirty, modified]) after.quiet
      (.start counter after.off after.count)
  · rw [if_neg modified] at next
    have unmodified : m.dc.dirtySram.mem (set p) = 0 := by
      have bits : ∀ bit : BitVec 1, bit ≠ 1 → bit = 0 := by decide
      exact bits _ modified
    have saved := tracked.clean (set p) unmodified (fun replaced => by
      rcases replaced.1 with other | other
      · exact before.1 other
      · exact before.2 other)
    refine ⟨frame_of_ram fun l _ => by rw [ram], ?_, ?_, ?_⟩
    · refine .ask next after.count ?_ after.quiet.asked (.inl after.quiet)
      intro on
      rw [after.off] at on
      cases on
    · exact fun _ kept => absurd ⟨.inl next, rfl⟩ kept
    · intro l here
      rw [memory_of_replaced (.inl next) here, memory_of_present before, ram, here]
      by_cases found : m.dc.tagSram.mem (set p) = tag l
      · have line : l = m.dc.lineAt (set p) := by
          rw [← here]
          exact eq_lineAt (by rw [here]; exact found)
        simp [silent.1, found, saved, ← line]
      · simp [silent.1, found]

/-! ### The write-back -/

/-- During a write-back only the line of the set changes in the RAM. -/
theorem keeps_of_burst (state : m.dc.pState = .c) (next : (m.step ip p events).dc.pState = .c)
    (dirty : m.dc.dirtySram.mem (set p) = 1)
    (ram : ∀ l, l ≠ m.dc.lineAt (set p) → (m.step ip p events).sys.ram.line l = m.sys.ram.line l)
    (quiet : (m.step ip p events).sys.Quiet readTag)
    (burst : (m.step ip p events).Burst (set p)) : Keeps m (m.step ip p events) p := by
  have silent : m.dc.Silent p (m.dcResponse events) := DCache.Regs.silent_of_state (.inr state)
  obtain ⟨data, tags, dirty'⟩ : (m.step ip p events).dc.dataSram.mem = m.dc.dataSram.mem ∧
      (m.step ip p events).dc.tagSram.mem = m.dc.tagSram.mem ∧
      (m.step ip p events).dc.dirtySram.mem = m.dc.dirtySram.mem := silent.step
  have modified : (m.step ip p events).dc.dirtySram.mem (set p) = 1 := by rw [dirty', dirty]
  refine ⟨frame_of_ram ?_, .evict next silent.loaded modified quiet burst, ?_, ?_⟩
  · intro l other
    apply ram
    rintro rfl
    exact other (index_lineAt _ _)
  · intro clean
    rw [modified] at clean
    exact absurd clean (by decide)
  · intro l here
    rw [memory_of_present (by simp [next]), memory_of_present (by simp [state]), data, tags]
    by_cases found : m.dc.tagSram.mem (index l) = tag l
    · simp [silent.1, found]
    · have other : l ≠ m.dc.lineAt (set p) := by
        rintro rfl
        rw [index_lineAt, tag_lineAt] at found
        exact found rfl
      simp [silent.1, found, ram l other]

/-- The address of the write-back reaches the memory or waits for the bus. -/
theorem step_of_address (tracked : m.Tracked p) (state : m.dc.pState = .c)
    (dirty : m.dc.dirtySram.mem (set p) = 1) (quiet : m.sys.Quiet readTag)
    (count : m.sys.rxCount = 0) (next : (m.step ip p events).dc.pState = .c)
    (counter : (m.step ip p events).dc.pCounter = 1)
    (on : (m.step ip p events).dc.pReqcyc = true)
    (req : (m.step ip p events).dc.pReq = Ram.lineAddress (m.dc.lineAt (set p)))
    (reqtag : (m.step ip p events).dc.pReqtag = writeTag) : Keeps m (m.step ip p events) p := by
  have silent : m.dc.Silent p (m.dcResponse events) := DCache.Regs.silent_of_state (.inr state)
  have line : (m.step ip p events).dc.lineAt (set p) = m.dc.lineAt (set p) := by
    rw [DCache.Regs.lineAt, DCache.Regs.lineAt,
      show (m.step ip p events).dc.tagSram.mem = m.dc.tagSram.mem from silent.step.2.1]
  have still : (m.served ip p events).Quiet readTag := served_quiet tracked.port silent.2.2 quiet
  by_cases granted : (m.step ip p events).grant = .dc
  · obtain ⟨ram, eight, xfer, quiet'⟩ := step_sys_address granted count reqtag
    apply keeps_of_burst state next dirty (fun l _ => by rw [ram]) (quiet' still)
    refine .sending 0 (by rw [counter]; rfl) (by decide) on reqtag eight ?_ granted ?_
    · rw [xfer, req, line]
    · intro k impossible
      omega
  · obtain ⟨ram, zero, answers⟩ := step_sys_elsewhere (l := 0) (c := 8) tracked.port
      tracked.phase.burst granted
    have quiet' : (m.step ip p events).sys.Quiet readTag := by
      rw [System.quiet_iff_answers (l := 0)]
      exact answers (System.quiet_iff_answers.mp still)
    apply keeps_of_burst state next dirty (fun l _ => by rw [ram]) quiet'
    exact .waiting counter on (by rw [req, line]) reqtag zero granted

theorem grant_step (granted : m.grant = .dc) (on : (m.step ip p events).dc.pReqcyc = true) :
    (m.step ip p events).grant = .dc := by
  have owner : (m.step ip p events).arbiter = .b := Arbiter.step_eq_b_iff.mpr granted
  rw [grant, owner, Arbiter.grant_b, DCache.Regs.bus, on]
  rfl

/-- A word of the write-back is stored. -/
theorem step_of_word (tracked : m.Tracked p) (allowed : m.Allowed events)
    (state : m.dc.pState = .c) (loaded : m.dc.Loaded p)
    (dirty : m.dc.dirtySram.mem (set p) = 1) (quiet : m.sys.Quiet readTag) {n : Nat}
    (counter : m.dc.pCounter.toNat = n + 1) (more : n < 8) (tag : m.dc.pReqtag = writeTag)
    (count : m.sys.rxCount = 8 - n)
    (xfer : m.sys.xferAddr = Ram.lineAddress (m.dc.lineAt (set p))) (granted : m.grant = .dc)
    (sent : m.Sent (set p) n) : Keeps m (m.step ip p events) p := by
  have silent : m.dc.Silent p (m.dcResponse events) := DCache.Regs.silent_of_state (.inr state)
  have started : m.sys.rxCount ≠ 0 := by omega
  have ack : (m.dcResponse events).reqack = true :=
    dcResponse_reqack_iff.mpr ⟨granted, allowed.burst started⟩
  have positive : m.dc.pCounter ≠ 0 := by
    intro zero
    rw [zero] at counter
    simp at counter
  have low : m.dc.pCounter < 9 := by
    rw [BitVec.lt_def, counter]
    exact Nat.succ_lt_succ more
  have next : (m.step ip p events).dc.pState = .c := by
    have stays : ¬ (m.dc.pCounter ≠ 0 ∧ (m.dcResponse events).reqack = true ∧
        ¬ m.dc.pCounter < 9) := fun done => done.2.2 low
    change m.dc.nState p (m.dcResponse events) = _
    simp only [DCache.Regs.nState, state, if_neg stays]
  have request : (m.step ip p events).dc.bus =
      { reqcyc := true, req := word 64 (m.dc.dataSram.mem (set p)) n, reqtag := writeTag } := by
    change m.dc.nBus p (m.dcResponse events) = _
    rw [DCache.Regs.nBus, if_pos state, DCache.Regs.writeBack, if_neg positive, if_pos ack,
      if_pos low, tag, loaded.data, counter]
    rfl
  have on : (m.step ip p events).dc.pReqcyc = true := congrArg BusRequest.reqcyc request
  have reqtag : (m.step ip p events).dc.pReqtag = writeTag := congrArg BusRequest.reqtag request
  have req : (m.step ip p events).dc.pReq = word 64 (m.dc.dataSram.mem (set p)) n :=
    congrArg BusRequest.req request
  have counter' : (m.step ip p events).dc.pCounter.toNat = n + 2 := by
    change (m.dc.nCounter p (m.dcResponse events)).toNat = _
    simp only [DCache.Regs.nCounter, state, positive, ack, low, and_self, if_true, if_false]
    rw [BitVec.toNat_add, counter]
    change (n + 1 + 1) % 32 = n + 2
    omega
  have granted' : (m.step ip p events).grant = .dc := grant_step granted on
  obtain ⟨ram, less, xfer', quiet'⟩ := step_sys_word granted' started reqtag
  have index : 8 - m.sys.rxCount = n := by omega
  rw [index, xfer, req] at ram
  have stored : ∀ l k, k < 8 → (m.step ip p events).sys.ram.doubleword l k =
      if l = m.dc.lineAt (set p) ∧ k = n then word 64 (m.dc.dataSram.mem (set p)) n
      else m.sys.ram.doubleword l k := by
    intro l k inside
    rw [ram, Ram.doubleword_store64 _ _ _ more inside]
  have others : ∀ l, l ≠ m.dc.lineAt (set p) →
      (m.step ip p events).sys.ram.line l = m.sys.ram.line l := by
    intro l other
    rw [Ram.eq_line_iff]
    intro k inside
    rw [Ram.word_line _ _ inside, stored l k inside, if_neg (fun both => other both.1)]
  have line : (m.step ip p events).dc.lineAt (set p) = m.dc.lineAt (set p) := by
    rw [DCache.Regs.lineAt, DCache.Regs.lineAt,
      show (m.step ip p events).dc.tagSram.mem = m.dc.tagSram.mem from silent.step.2.1]
  have sent' : (m.step ip p events).Sent (set p) (n + 1) := by
    intro k below
    rw [line, stored _ k (by omega),
      show (m.step ip p events).dc.dataSram.mem = m.dc.dataSram.mem from silent.step.1]
    by_cases last : k = n
    · simp [last]
    · rw [if_neg (fun both => last both.2)]
      exact sent k (by omega)
  apply keeps_of_burst state next dirty others
    (quiet' (served_quiet tracked.port silent.2.2 quiet))
  by_cases more' : n + 1 < 8
  · refine .sending (n + 1) counter' more' on reqtag (by omega) ?_ granted' sent'
    rw [xfer', xfer, line]
  · have full : n + 1 = 8 := by omega
    refine .sent ?_ on reqtag granted' (by rw [← full]; exact sent')
    apply BitVec.eq_of_toNat_eq
    rw [counter']
    change n + 2 = 9
    omega

/-- The last word is on the bus: the write-back ends, or a refused cycle repeats it. -/
theorem step_of_sent (tracked : m.Tracked p) (allowed : m.Allowed events)
    (state : m.dc.pState = .c) (dirty : m.dc.dirtySram.mem (set p) = 1)
    (quiet : m.sys.Quiet readTag) (counter : m.dc.pCounter = 9) (tag : m.dc.pReqtag = writeTag)
    (granted : m.grant = .dc) (sent : m.Sent (set p) 8) : Keeps m (m.step ip p events) p := by
  have silent : m.dc.Silent p (m.dcResponse events) := DCache.Regs.silent_of_state (.inr state)
  obtain ⟨data, tags, -⟩ : (m.step ip p events).dc.dataSram.mem = m.dc.dataSram.mem ∧
      (m.step ip p events).dc.tagSram.mem = m.dc.tagSram.mem ∧
      (m.step ip p events).dc.dirtySram.mem = m.dc.dirtySram.mem := silent.step
  have still : (m.served ip p events).Quiet readTag := served_quiet tracked.port silent.2.2 quiet
  cases accepts : events.accepts with
  | true =>
      have ack : (m.dcResponse events).reqack = true :=
        dcResponse_reqack_iff.mpr ⟨granted, accepts⟩
      have next : (m.step ip p events).dc.pState = .d := by
        change m.dc.nState p (m.dcResponse events) = _
        simp [DCache.Regs.nState, state, counter, ack]
      have off : (m.step ip p events).dc.pReqcyc = false := by
        change (m.dc.nBus p (m.dcResponse events)).reqcyc = false
        simp [DCache.Regs.nBus, DCache.Regs.writeBack, state, counter, ack]
      obtain ⟨after, ram⟩ := step_free ip tracked quiet silent.2.2 off
      have saved : m.dc.dataSram.mem (set p) = m.sys.ram.line (m.dc.lineAt (set p)) :=
        Ram.eq_line_iff.mpr sent
      refine ⟨frame_of_ram fun l _ => by rw [ram], ?_, ?_, ?_⟩
      · refine .ask next after.count ?_ after.quiet.asked (.inl after.quiet)
        intro on
        rw [after.off] at on
        cases on
      · exact fun _ kept => absurd ⟨.inl next, rfl⟩ kept
      · intro l here
        rw [memory_of_replaced (.inl next) here, memory_of_present (by simp [state]), ram, here]
        by_cases found : m.dc.tagSram.mem (set p) = ICache.tag l
        · have line : l = m.dc.lineAt (set p) := by
            rw [← here]
            exact eq_lineAt (by rw [here]; exact found)
          simp [silent.1, found, saved, ← line]
        · simp [silent.1, found]
  | false =>
      have refused : (m.dcResponse events).reqack = false := by
        rw [← Bool.not_eq_true, dcResponse_reqack_iff]
        exact fun both => absurd (both.2.symm.trans accepts) (by decide)
      have count : m.sys.rxCount = 0 := by
        by_contra started
        exact absurd ((allowed.burst started).symm.trans accepts) (by decide)
      have next : (m.step ip p events).dc.pState = .c := by
        change m.dc.nState p (m.dcResponse events) = _
        simp [DCache.Regs.nState, state, refused]
      have on : (m.step ip p events).dc.pReqcyc = true := by
        change (m.dc.nBus p (m.dcResponse events)).reqcyc = true
        simp [DCache.Regs.nBus, DCache.Regs.writeBack, state, counter, refused]
      have reqtag : (m.step ip p events).dc.pReqtag = writeTag := by
        change (m.dc.nBus p (m.dcResponse events)).reqtag = writeTag
        simp [DCache.Regs.nBus, DCache.Regs.writeBack, state, counter, refused, tag]
      have counter' : (m.step ip p events).dc.pCounter = 9 := by
        change m.dc.nCounter p (m.dcResponse events) = 9
        simp [DCache.Regs.nCounter, state, counter]
      have granted' : (m.step ip p events).grant = .dc := grant_step granted on
      obtain ⟨ram, -, -, quiet'⟩ := step_sys_address granted' count reqtag
      apply keeps_of_burst state next dirty (fun l _ => by rw [ram]) (quiet' still)
      refine .sent counter' on reqtag granted' ?_
      intro k inside
      rw [DCache.Regs.lineAt, tags, data, ram]
      exact sent k inside

theorem step_of_evict (tracked : m.Tracked p) (allowed : m.Allowed events)
    (state : m.dc.pState = .c) (loaded : m.dc.Loaded p)
    (dirty : m.dc.dirtySram.mem (set p) = 1) (quiet : m.sys.Quiet readTag)
    (burst : m.Burst (set p)) : Keeps m (m.step ip p events) p := by
  cases burst with
  | start counter off count =>
      have request : (m.step ip p events).dc.bus =
          { reqcyc := true, req := Ram.lineAddress (m.dc.lineAt (set p)), reqtag := writeTag } := by
        change m.dc.nBus p (m.dcResponse events) = _
        rw [DCache.Regs.nBus, if_pos state, DCache.Regs.writeBack, if_pos counter, loaded.tag]
        rfl
      have next : (m.step ip p events).dc.pState = .c := by
        change m.dc.nState p (m.dcResponse events) = _
        simp [DCache.Regs.nState, state, counter]
      have counter' : (m.step ip p events).dc.pCounter = 1 := by
        change m.dc.nCounter p (m.dcResponse events) = 1
        simp [DCache.Regs.nCounter, state, counter]
      exact step_of_address tracked state dirty quiet count next counter'
        (congrArg BusRequest.reqcyc request) (congrArg BusRequest.req request)
        (congrArg BusRequest.reqtag request)
  | waiting counter on req tag count elsewhere =>
      have refused : (m.dcResponse events).reqack = false := by
        rw [← Bool.not_eq_true, dcResponse_reqack_iff]
        exact fun both => elsewhere both.1
      have request : (m.step ip p events).dc.bus =
          { reqcyc := true, req := m.dc.pReq, reqtag := m.dc.pReqtag } := by
        change m.dc.nBus p (m.dcResponse events) = _
        simp [DCache.Regs.nBus, DCache.Regs.writeBack, state, counter, refused]
      have next : (m.step ip p events).dc.pState = .c := by
        change m.dc.nState p (m.dcResponse events) = _
        simp [DCache.Regs.nState, state, refused]
      have counter' : (m.step ip p events).dc.pCounter = 1 := by
        change m.dc.nCounter p (m.dcResponse events) = 1
        simp [DCache.Regs.nCounter, state, counter, refused]
      exact step_of_address tracked state dirty quiet count next counter'
        (congrArg BusRequest.reqcyc request) ((congrArg BusRequest.req request).trans req)
        ((congrArg BusRequest.reqtag request).trans tag)
  | sending n counter more on tag count xfer granted sent =>
      exact step_of_word tracked allowed state loaded dirty quiet counter more tag count xfer
        granted sent
  | sent counter on tag granted sent =>
      exact step_of_sent tracked allowed state dirty quiet counter tag granted sent

/-! ### The refill -/

/-- While its line is fetched the set does not count. -/
theorem keeps_of_fetch (before : m.dc.pState = .d ∨ m.dc.pState = .e)
    (after : (m.step ip p events).dc.pState = .d ∨ (m.step ip p events).dc.pState = .e)
    (ram : (m.step ip p events).sys.ram = m.sys.ram) (phase : (m.step ip p events).Phase p) :
    Keeps m (m.step ip p events) p := by
  have store : m.dc.stores p = false := by
    rcases before with state | state <;> simp [DCache.Regs.stores, DCache.Regs.serves, state]
  refine ⟨frame_of_ram fun l _ => by rw [ram], phase, ?_, ?_⟩
  · exact fun _ kept => absurd ⟨after, rfl⟩ kept
  · intro l here
    rw [memory_of_replaced after here, memory_of_replaced before here, ram]
    simp [store]

theorem step_of_ask (tracked : m.Tracked p) (allowed : m.Allowed events)
    (state : m.dc.pState = .d) (count : m.sys.rxCount = 0)
    (line : m.dc.pReqcyc = true → m.dc.Claimed p ∧ m.dc.pReq = Ram.lineAddress p.lineAddr)
    (asked : m.sys.Asked readTag p.lineAddr) (granted : m.sys.Quiet readTag ∨ m.grant = .dc) :
    Keeps m (m.step ip p events) p := by
  have store : m.dc.stores p = false := by simp [DCache.Regs.stores, DCache.Regs.serves, state]
  have consume : m.dc.consumes (m.dcResponse events) = false := by
    simp [DCache.Regs.consumes, state]
  cases ack : (m.dcResponse events).reqack with
  | true =>
      -- the request is accepted; its beats may arrive from this tick on
      obtain ⟨here, -⟩ := dcResponse_reqack_iff.mp ack
      obtain ⟨claimed, -⟩ := line (Arbiter.grant_dc here).1
      have request : m.dc.requests (m.dcResponse events) = false := by
        simp [DCache.Regs.requests, state, ack]
      obtain ⟨-, tags, dirty⟩ : (m.step ip p events).dc.dataSram.mem = m.dc.dataSram.mem ∧
          (m.step ip p events).dc.tagSram.mem = m.dc.tagSram.mem ∧
          (m.step ip p events).dc.dirtySram.mem = m.dc.dirtySram.mem :=
        DCache.Regs.Silent.step ⟨store, request, consume⟩
      have next : (m.step ip p events).dc.pState = .e := by
        change m.dc.nState p (m.dcResponse events) = _
        simp [DCache.Regs.nState, state, ack]
      have bus : (m.step ip p events).dc.bus =
          { reqcyc := false, req := 0, reqtag := m.dc.pReqtag } := by
        change m.dc.nBus p (m.dcResponse events) = _
        simp [DCache.Regs.nBus, state, request, consume]
      have off : (m.step ip p events).dc.pReqcyc = false := congrArg BusRequest.reqcyc bus
      have counter : (m.step ip p events).dc.pCounter = 0 := by
        change m.dc.nCounter p (m.dcResponse events) = 0
        simp [DCache.Regs.nCounter, state, ack]
      obtain ⟨ram, zero, answers⟩ := step_sys_elsewhere tracked.port tracked.phase.burst
        (elsewhere_of_off off)
      apply keeps_of_fetch (.inl state) (.inr next) ram
      refine .refill next off zero ⟨by rw [tags, claimed.tag], by rw [dirty, claimed.clean], ?_⟩
        (by rw [counter]; decide) ?_ ?_
      · exact (congrArg BusRequest.reqtag bus).trans claimed.reqtag
      · intro k impossible
        rw [counter] at impossible
        exact absurd impossible (Nat.not_lt_zero k)
      · rw [counter]
        exact answers (served_answers tracked.port consume (.inl ⟨rfl, asked⟩))
  | false =>
      have request : m.dc.requests (m.dcResponse events) = true := by
        simp [DCache.Regs.requests, state, ack]
      have next : (m.step ip p events).dc.pState = .d := by
        change m.dc.nState p (m.dcResponse events) = _
        simp [DCache.Regs.nState, state, ack]
      have bus : (m.step ip p events).dc.bus =
          { reqcyc := true, req := Ram.lineAddress p.lineAddr, reqtag := readTag } := by
        change m.dc.nBus p (m.dcResponse events) = _
        simp [DCache.Regs.nBus, state, request]
        rfl
      have on : (m.step ip p events).dc.pReqcyc = true := congrArg BusRequest.reqcyc bus
      have req : (m.step ip p events).dc.pReq = Ram.lineAddress p.lineAddr :=
        congrArg BusRequest.req bus
      have reqtag : (m.step ip p events).dc.pReqtag = readTag := congrArg BusRequest.reqtag bus
      have claimed : (m.step ip p events).dc.Claimed p := by
        refine ⟨?_, ?_, reqtag⟩
        · change (m.dc.step p _).tagSram.mem (set p) = _
          rw [DCache.Regs.step_tag_mem, request, if_pos rfl, Function.update_self]
        · change (m.dc.step p _).dirtySram.mem (set p) = _
          rw [DCache.Regs.step_dirty_mem, request, store, Bool.false_or, if_pos rfl,
            Function.update_self]
          rfl
      have missing : ∀ addr ∈ events.completed, m.sys.findTag addr ≠ some readTag := by
        intro addr completed found
        have pending := System.mem_readsFor_of_findTag found
        rcases granted with quiet | here
        · rw [quiet.2] at pending
          cases pending
        · have refused : events.accepts = false := by
            by_contra accepts
            rw [Bool.not_eq_false] at accepts
            rw [dcResponse_reqack_iff.mpr ⟨here, accepts⟩] at ack
            cases ack
          obtain ⟨asks, sent, tag⟩ := bus_of_dc here
          obtain ⟨claimed, address⟩ := line (Arbiter.grant_dc here).1
          have same : addr = Ram.lineAddress p.lineAddr := by
            rcases asked.2 with none | read
            · rw [none] at pending
              cases pending
            · rw [read] at pending
              exact List.mem_singleton.mp pending
          refine allowed.refused asks refused addr completed ⟨?_, ?_⟩
          · rw [sent, address, same]
          · rw [tag, claimed.reqtag, found]
      by_cases granted' : (m.step ip p events).grant = .dc
      · obtain ⟨ram, zero, asked'⟩ := step_sys_read granted' count reqtag req
        apply keeps_of_fetch (.inl state) (.inl next) ram
        exact .ask next zero (fun _ => ⟨claimed, req⟩) (asked' (served_asked asked missing))
          (.inr granted')
      · have quiet : m.sys.Quiet readTag := by
          rcases granted with quiet | here
          · exact quiet
          · exact absurd (grant_step here on) granted'
        obtain ⟨ram, zero, answers⟩ := step_sys_elsewhere (l := 0) (c := 8) tracked.port
          tracked.phase.burst granted'
        have quiet' : (m.step ip p events).sys.Quiet readTag := by
          rw [System.quiet_iff_answers (l := 0)]
          exact answers (System.quiet_iff_answers.mp (served_quiet tracked.port consume quiet))
        apply keeps_of_fetch (.inl state) (.inl next) ram
        exact .ask next zero (fun _ => ⟨claimed, req⟩) quiet'.asked (.inl quiet')

theorem step_of_beat (tracked : m.Tracked p) (state : m.dc.pState = .e)
    (claimed : m.dc.Claimed p)
    (filled : ∀ k < m.dc.pCounter.toNat,
      m.sys.ram.doubleword p.lineAddr k = word 64 (m.dc.dataSram.mem (set p)) k)
    (answers : m.sys.Answers readTag p.lineAddr m.dc.pCounter.toNat)
    (beat : m.dc.beat (m.dcResponse events) = true) : Keeps m (m.step ip p events) p := by
  have consume : m.dc.consumes (m.dcResponse events) = true := by
    simp [DCache.Regs.consumes, state, beat]
  have store : m.dc.stores p = false := by simp [DCache.Regs.stores, DCache.Regs.serves, state]
  have request : m.dc.requests (m.dcResponse events) = false := by
    simp [DCache.Regs.requests, state]
  obtain ⟨rest, queue⟩ := dc_front beat
  rw [claimed.reqtag] at queue
  obtain ⟨low, resp, -⟩ := answers.front queue
  have low' : m.dc.pCounter < 8 := by
    rw [BitVec.lt_def]
    exact low
  have next : (m.step ip p events).dc.pState = .e := by
    change m.dc.nState p (m.dcResponse events) = _
    simp only [DCache.Regs.nState, state, beat, if_true, if_pos low']
  have bus : (m.step ip p events).dc.bus =
      { reqcyc := false, req := 0, reqtag := m.dc.pReqtag } := by
    change m.dc.nBus p (m.dcResponse events) = _
    rw [DCache.Regs.nBus, if_neg (by simp [state]), request, if_neg (by decide),
      if_neg (fun last => last.2 low')]
  have off : (m.step ip p events).dc.pReqcyc = false := congrArg BusRequest.reqcyc bus
  have counter : (m.step ip p events).dc.pCounter.toNat = m.dc.pCounter.toNat + 1 := by
    change (m.dc.nCounter p (m.dcResponse events)).toNat = _
    simp only [DCache.Regs.nCounter, state, beat, if_true]
    rw [BitVec.toNat_add]
    change (m.dc.pCounter.toNat + 1) % 32 = m.dc.pCounter.toNat + 1
    omega
  have data : (m.step ip p events).dc.dataSram.mem (set p) =
      writeWords (m.dc.dataSram.mem (set p))
        ((m.dcResponse events).resp.setWidth 512 <<< (m.dc.pCounter.toNat * 64)) 8
        (BitVec.ofNat 64 (2 ^ 8 - 1) <<< (m.dc.pCounter.toNat * 8)) := by
    change (m.dc.step p _).dataSram.mem (set p) = _
    rw [DCache.Regs.step_data_mem, Function.update_self]
    simp [DCache.Regs.writeData, DCache.Regs.dataWrite, store, consume]
  have tags : (m.step ip p events).dc.tagSram.mem = m.dc.tagSram.mem := by
    change (m.dc.step p _).tagSram.mem = _
    rw [DCache.Regs.step_tag_mem, request]
    rfl
  have dirty : (m.step ip p events).dc.dirtySram.mem = m.dc.dirtySram.mem := by
    change (m.dc.step p _).dirtySram.mem = _
    rw [DCache.Regs.step_dirty_mem, request, store]
    rfl
  obtain ⟨ram, zero, answers'⟩ := step_sys_elsewhere tracked.port tracked.phase.burst
    (elsewhere_of_off off)
  apply keeps_of_fetch (.inr state) (.inr next) ram
  refine .refill next off zero ⟨by rw [tags, claimed.tag], by rw [dirty, claimed.clean], ?_⟩
    (by rw [counter]; exact low) ?_ ?_
  · exact (congrArg BusRequest.reqtag bus).trans claimed.reqtag
  · intro k below
    rw [counter] at below
    rw [ram, data, word_writeWords_beat rfl (by decide) _ _ (by decide) low (by omega)]
    by_cases last : k = m.dc.pCounter.toNat
    · rw [if_pos last, last]
      exact resp.symm
    · rw [if_neg last]
      exact filled k (by omega)
  · rw [counter]
    exact answers' (served_taken claimed.reqtag consume answers)

theorem step_of_refill (tracked : m.Tracked p) (state : m.dc.pState = .e)
    (claimed : m.dc.Claimed p) (low : m.dc.pCounter.toNat ≤ 8)
    (filled : ∀ k < m.dc.pCounter.toNat,
      m.sys.ram.doubleword p.lineAddr k = word 64 (m.dc.dataSram.mem (set p)) k)
    (answers : m.sys.Answers readTag p.lineAddr m.dc.pCounter.toNat) :
    Keeps m (m.step ip p events) p := by
  cases beat : m.dc.beat (m.dcResponse events) with
  | true => exact step_of_beat tracked state claimed filled answers beat
  | false =>
      have silent : m.dc.Silent p (m.dcResponse events) := by
        simp [DCache.Regs.Silent, DCache.Regs.stores, DCache.Regs.serves, DCache.Regs.requests,
          DCache.Regs.consumes, state, beat]
      obtain ⟨data, tags, dirty⟩ : (m.step ip p events).dc.dataSram.mem = m.dc.dataSram.mem ∧
          (m.step ip p events).dc.tagSram.mem = m.dc.tagSram.mem ∧
          (m.step ip p events).dc.dirtySram.mem = m.dc.dirtySram.mem := silent.step
      have bus : (m.step ip p events).dc.bus =
          { reqcyc := false, req := 0, reqtag := m.dc.pReqtag } := by
        change m.dc.nBus p (m.dcResponse events) = _
        simp [DCache.Regs.nBus, state, silent.2.1, silent.2.2]
      have off : (m.step ip p events).dc.pReqcyc = false := congrArg BusRequest.reqcyc bus
      have counter : (m.step ip p events).dc.pCounter = m.dc.pCounter := by
        change m.dc.nCounter p (m.dcResponse events) = _
        simp [DCache.Regs.nCounter, state, beat]
      by_cases full : m.dc.pCounter = 8
      · -- the set has the whole line and counts again
        have next : (m.step ip p events).dc.pState = .b := by
          change m.dc.nState p (m.dcResponse events) = _
          simp [DCache.Regs.nState, state, beat, full]
        have eight : m.dc.pCounter.toNat = 8 := by
          rw [full]
          rfl
        rw [eight] at answers filled
        obtain ⟨after, ram⟩ := step_free ip tracked
          (System.quiet_iff_answers.mpr answers) silent.2.2 off
        have whole : m.dc.dataSram.mem (set p) = m.sys.ram.line p.lineAddr :=
          Ram.eq_line_iff.mpr filled
        have named : (m.step ip p events).dc.lineAt (set p) = p.lineAddr := by
          rw [DCache.Regs.lineAt, tags, claimed.tag, tag_index]
        refine ⟨frame_of_ram fun l _ => by rw [ram], .lookup next after silent.loaded, ?_, ?_⟩
        · intro _ _
          rw [data, whole, ram, named]
        · intro l here
          rw [memory_of_present (by simp [next]), memory_of_replaced (.inr state) here, tags, here,
            claimed.tag, data, whole, ram]
          by_cases own : tag p.lineAddr = tag l
          · have same : l = p.lineAddr := eq_of_tag_index own.symm here
            simp [silent.1, same]
          · simp [silent.1, own]
      · have next : (m.step ip p events).dc.pState = .e := by
          change m.dc.nState p (m.dcResponse events) = _
          simp only [DCache.Regs.nState, state, beat, if_neg full]
          rfl
        obtain ⟨ram, zero, answers'⟩ := step_sys_elsewhere tracked.port tracked.phase.burst
          (elsewhere_of_off off)
        apply keeps_of_fetch (.inr state) (.inr next) ram
        refine .refill next off zero
          ⟨by rw [tags, claimed.tag], by rw [dirty, claimed.clean], ?_⟩ (by rw [counter]; exact low)
          ?_ ?_
        · exact (congrArg BusRequest.reqtag bus).trans claimed.reqtag
        · rw [counter, ram, data]
          exact filled
        · rw [counter]
          exact answers' (served_answers tracked.port silent.2.2 answers)

theorem Tracked.keeps (tracked : m.Tracked p) (allowed : m.Allowed events) :
    Keeps m (m.step ip p events) p := by
  cases tracked.phase with
  | idle state => exact step_of_idle tracked state
  | lookup state free loaded =>
      cases found : m.dc.hit p with
      | true => exact step_of_hit tracked state free loaded found
      | false => exact step_of_miss tracked state free loaded found
  | evict state loaded dirty quiet burst =>
      exact step_of_evict tracked allowed state loaded dirty quiet burst
  | ask state count line asked granted =>
      exact step_of_ask tracked allowed state count line asked granted
  | refill state _ _ claimed low filled answers =>
      exact step_of_refill tracked state claimed low filled answers

theorem Tracked.step (tracked : m.Tracked p) (allowed : m.Allowed events) :
    (m.step ip p events).Tracked p := by
  have keeps : Keeps m (m.step ip p events) p := tracked.keeps allowed
  refine ⟨tracked.port.step ip p events, ?_, keeps.phase⟩
  intro i clean kept
  by_cases here : i = set p
  · subst here
    exact keeps.clean clean kept
  · exact keeps.frame.clean tracked here clean

theorem Tracked.memory_step (tracked : m.Tracked p) (allowed : m.Allowed events)
    (l : BitVec 58) :
    (m.step ip p events).memory p l =
      if m.dc.stores p = true ∧ l = p.lineAddr then
        writeWords (m.memory p l) (DCache.storeData p) 8 (DCache.storeEnable p)
      else m.memory p l := by
  have keeps : Keeps m (m.step ip p events) p := tracked.keeps allowed
  by_cases here : index l = set p
  · exact keeps.here l here
  · rw [keeps.frame.memory here, if_neg]
    rintro ⟨-, rfl⟩
    exact here rfl

theorem Tracked.switch (tracked : m.Tracked p) (idle : m.dc.pState = .a) (p' : DcRequest) :
    m.Tracked p' := by
  have kept : ∀ (p : DcRequest) (i : BitVec 4), ¬ m.dc.Replaces p i := by
    rintro p i ⟨state | state, -⟩ <;> rw [idle] at state <;> cases state
  refine ⟨tracked.port, fun i clean _ => tracked.clean i clean (kept p i), ?_⟩
  cases tracked.phase with
  | idle state free => exact .idle state free
  | lookup other => rw [idle] at other; cases other
  | evict other => rw [idle] at other; cases other
  | ask other => rw [idle] at other; cases other
  | refill other => rw [idle] at other; cases other

end

end MemorySystem

end Sparcy
