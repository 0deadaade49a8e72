import Sparcy.DirectMap
import Sparcy.BusTraffic
import Sparcy.Library.WriteBack

/-!
# The lines behind the cache of hw2

The cache and the RAM of the test bench as a write-back cache, the phases of an access,
and what a cycle does in each of them.
-/

namespace Sparcy

open Words (word)

namespace DirectMap

open ICache (index tag)

/-- The set of a request. -/
abbrev rowOf (p : ProcRequest) : BitVec 4 := index p.lineAddr

/-- The word that a write hit replaces, and its enable. -/
def storeData (p : ProcRequest) : BitVec 512 := p.dataIn.setWidth 512 <<< (p.wordSelect.toNat * 32)

def storeEnable (p : ProcRequest) : BitVec 16 := (1 : BitVec 16) <<< p.wordSelect.toNat

/-- A write changes its own word of a line. -/
theorem word_store (line : BitVec 512) (p : ProcRequest) (w : BitVec 4) :
    word 32 (writeWords line (storeData p) 32 (storeEnable p)) w.toNat =
      if w = p.wordSelect then p.dataIn else word 32 line w.toNat := by
  have inside := w.isLt
  rw [word_writeWords (by decide) _ _ _ (by omega)]
  have own := Words.getLsbD_ones (w := 16) 1 p.wordSelect.toNat inside
  have enabled : (storeEnable p).getLsbD w.toNat = decide (w = p.wordSelect) := by
    refine own.trans (decide_eq_decide.mpr ?_)
    rw [← BitVec.toNat_inj]
    omega
  simp only [enabled, decide_eq_true_eq]
  by_cases same : w = p.wordSelect
  · rw [if_pos same, if_pos same]
    subst same
    ext j below
    have here : p.wordSelect.toNat * 32 + j < 512 := by omega
    rw [← BitVec.getLsbD_eq_getElem, ← BitVec.getLsbD_eq_getElem, Words.getLsbD_word, storeData]
    simp [below, here]
  · rw [if_neg same, if_neg same]

namespace Regs

/-- The line address that a set names. -/
def lineAt (r : Regs) (i : BitVec 4) : BitVec 58 := r.tagSram.mem i ++ i

/-- The read registers show the set of the request. -/
structure Loaded (r : Regs) (p : ProcRequest) : Prop where
  data : r.dataSram.readData = r.dataSram.mem (rowOf p)
  tag : r.tagSram.readData = r.tagSram.mem (rowOf p)
  dirty : r.dirtySram.readData = r.dirtySram.mem (rowOf p)

/-- No memory is written in this cycle. -/
def Silent (r : Regs) (p : ProcRequest) (bus : BusResponse) : Prop :=
  r.stores p = false ∧ r.requests bus = false ∧ r.consumes bus = false

section

variable {r : Regs} {p : ProcRequest} {bus : BusResponse}

theorem step_data_mem :
    (r.step p bus).dataSram.mem = Function.update r.dataSram.mem (rowOf p)
      (writeWords (r.dataSram.mem (rowOf p)) (r.writeData p bus) 32 (r.dataWrite p bus)) :=
  Sram.step_mem ..

theorem step_tag_mem :
    (r.step p bus).tagSram.mem =
      if r.requests bus then Function.update r.tagSram.mem (rowOf p) (tag p.lineAddr)
      else r.tagSram.mem :=
  Sram.step_mem_ofBool (by decide) ..

theorem step_dirty_mem :
    (r.step p bus).dirtySram.mem =
      if r.stores p || r.requests bus then
        Function.update r.dirtySram.mem (rowOf p) (BitVec.ofBool (r.stores p))
      else r.dirtySram.mem :=
  Sram.step_mem_ofBool (by decide) ..

theorem step_data_mem_of_keeps (store : r.stores p = false) (consume : r.consumes bus = false) :
    (r.step p bus).dataSram.mem = r.dataSram.mem := by
  have none : r.dataWrite p bus = 0 := by simp [dataWrite, store, consume]
  rw [step_data_mem, none, writeWords_zero, Function.update_eq_self]

theorem Silent.step (silent : r.Silent p bus) :
    (r.step p bus).dataSram.mem = r.dataSram.mem ∧ (r.step p bus).tagSram.mem = r.tagSram.mem ∧
      (r.step p bus).dirtySram.mem = r.dirtySram.mem := by
  obtain ⟨store, request, consume⟩ := silent
  exact ⟨step_data_mem_of_keeps store consume, by simp [step_tag_mem, request],
    by simp [step_dirty_mem, store, request]⟩

theorem Silent.loaded (silent : r.Silent p bus) : (r.step p bus).Loaded p := by
  obtain ⟨data, tag, dirty⟩ := silent.step
  exact ⟨congrFun data.symm _, congrFun tag.symm _, congrFun dirty.symm _⟩

theorem silent_of_state (other : r.pState = .a ∨ r.pState = .c) : r.Silent p bus := by
  rcases other with state | state <;> simp [Silent, stores, nAck, requests, consumes, state]

end

end Regs

end DirectMap

theorem System.Answers.zero_of_empty {s : System} {tag : BitVec 13} {l : BitVec 58} {c : Nat}
    (answers : s.Answers tag l c) (low : c < 8) (empty : s.beatsFor tag = []) : c = 0 := by
  rcases answers with ⟨zero, -⟩ | ⟨-, beats⟩
  · exact zero
  · have length := congrArg List.length (empty.symm.trans beats)
    simp at length
    omega

namespace TestBench

open DirectMap (readTag writeTag rowOf ProcRequest)
open ICache (index tag)

/-- The sets of the cache with the RAM behind them. -/
def lines (s : TestBench) : WriteBack.Lines (BitVec 4) (BitVec 54) (BitVec 512) where
  data := s.cache.dataSram.mem
  tags := s.cache.tagSram.mem
  dirty := (fun bit => decide (bit = 1)) ∘ s.cache.dirtySram.mem
  backing i t := s.sys.ram.line (t ++ i)
  claimed := if s.cache.pState = .d ∨ s.cache.pState = .e then some (rowOf s.proc) else none

/-! ### Phases -/

/-- Nothing of the cache is on the bus. -/
structure BusFree (s : TestBench) : Prop where
  off : s.cache.pReqcyc = false
  count : s.sys.rxCount = 0
  quiet : s.sys.Quiet readTag

/-- The words of a set that the RAM already has. -/
def Sent (s : TestBench) (i : BitVec 4) (n : Nat) : Prop :=
  ∀ k < n, s.sys.ram.doubleword (s.cache.lineAt i) k = word 64 (s.cache.dataSram.mem i) k

/-- The stages of a write-back. -/
inductive Burst (s : TestBench) (i : BitVec 4) : Prop
  | start (counter : s.cache.pCounter = 0) (off : s.cache.pReqcyc = false)
      (count : s.sys.rxCount = 0)
  | sending (n : Nat) (counter : s.cache.pCounter.toNat = n + 1) (more : n < 8)
      (on : s.cache.pReqcyc = true) (tag : s.cache.pReqtag = writeTag)
      (count : s.sys.rxCount = 8 - n)
      (xfer : s.sys.xferAddr = Ram.lineAddress (s.cache.lineAt i)) (sent : s.Sent i n)
  | sent (counter : s.cache.pCounter = 9) (on : s.cache.pReqcyc = true)
      (tag : s.cache.pReqtag = writeTag) (sent : s.Sent i 8)

/-- Where the cache is with its request.  The look-up behind a refill does not have the
last beat in its read register. -/
inductive Phase (s : TestBench) : Prop
  | idle (state : s.cache.pState = .a) (free : s.BusFree)
  | lookup (state : s.cache.pState = .b) (free : s.BusFree)
      (tag : s.cache.tagSram.readData = s.cache.tagSram.mem (rowOf s.proc))
      (dirty : s.cache.dirtySram.readData = s.cache.dirtySram.mem (rowOf s.proc))
      (word : s.proc.readWriteN = true →
        word 32 s.cache.dataSram.readData s.proc.wordSelect.toNat =
          word 32 (s.cache.dataSram.mem (rowOf s.proc)) s.proc.wordSelect.toNat)
  | evict (state : s.cache.pState = .c) (loaded : s.cache.Loaded s.proc)
      (dirty : s.cache.dirtySram.mem (rowOf s.proc) = 1) (quiet : s.sys.Quiet readTag)
      (burst : s.Burst (rowOf s.proc))
  | ask (state : s.cache.pState = .d) (count : s.sys.rxCount = 0)
      (line : s.cache.pReqcyc = true →
        s.cache.tagSram.mem (rowOf s.proc) = ICache.tag s.proc.lineAddr ∧
          s.cache.pReq = Ram.lineAddress s.proc.lineAddr ∧ s.cache.pReqtag = readTag)
      (asked : s.sys.Asked readTag s.proc.lineAddr)
      (first : s.sys.Quiet readTag ∨ s.cache.pReqcyc = true)
  | refill (state : s.cache.pState = .e) (off : s.cache.pReqcyc = false)
      (count : s.sys.rxCount = 0)
      (claimed : s.cache.tagSram.mem (rowOf s.proc) = ICache.tag s.proc.lineAddr)
      (low : s.cache.pCounter.toNat < 8)
      (filled : ∀ k < s.cache.pCounter.toNat,
        s.sys.ram.doubleword s.proc.lineAddr k = word 64 (s.cache.dataSram.mem (rowOf s.proc)) k)
      (answers : s.sys.Answers readTag s.proc.lineAddr s.cache.pCounter.toNat)

/-- Everything on the memory side belongs to reads of this cache. -/
structure Owned (s : System) : Prop where
  beats : ∀ beat ∈ s.txQueue, beat.2 = readTag
  reads : ∀ entry ∈ s.addrToTag, entry.2 = readTag

/-- The invariant of a run: a request stays until it is acknowledged. -/
structure Tracked (s : TestBench) : Prop where
  held : s.cache.pState ≠ .a → s.proc.req = true ∧ s.cache.pAck = false
  owned : Owned s.sys
  sound : s.lines.Sound
  phase : s.Phase

theorem Phase.reqtag {s : TestBench} (phase : s.Phase) (on : s.cache.pReqcyc = true) :
    s.cache.pReqtag = readTag ∨ s.cache.pReqtag = writeTag := by
  cases phase with
  | idle _ free => exact absurd (free.off.symm.trans on) (by decide)
  | lookup _ free => exact absurd (free.off.symm.trans on) (by decide)
  | evict _ _ _ _ burst =>
      cases burst with
      | start _ off => exact absurd (off.symm.trans on) (by decide)
      | sending _ _ _ _ tag => exact .inr tag
      | sent _ _ tag => exact .inr tag
  | ask _ _ line => exact .inl (line on).2.2
  | refill _ off => exact absurd (off.symm.trans on) (by decide)

/-! ### Whose traffic it is -/

theorem Owned.complete {s : System} (owned : Owned s) (addr : BitVec 64) :
    Owned (s.dramReadComplete addr) := by
  rw [System.dramReadComplete]
  cases found : s.findTag addr with
  | none => exact owned
  | some tag =>
      have entry : (addr, tag) ∈ s.addrToTag := by
        have pending := System.mem_readsFor_of_findTag found
        simpa [System.readsFor] using pending
      have own : tag = readTag := owned.reads _ entry
      constructor
      · intro beat member
        rcases List.mem_append.mp member with before | new
        · exact owned.beats beat before
        · obtain ⟨i, -, rfl⟩ := List.mem_map.mp new
          exact own
      · exact fun entry member => owned.reads entry (List.mem_filter.mp member).1

theorem Owned.completes {s : System} (owned : Owned s) (completed : List (BitVec 64)) :
    Owned (completed.foldl System.dramReadComplete s) := by
  induction completed generalizing s with
  | nil => exact owned
  | cons addr completed induction => exact induction (owned.complete addr)

theorem Owned.pop {s : System} (owned : Owned s) (respack : Bool) : Owned (s.pop respack) := by
  unfold System.pop
  split
  · exact ⟨fun beat member => owned.beats beat (List.mem_of_mem_tail member), owned.reads⟩
  · exact owned

theorem Owned.request {s : System} {bus : BusRequest} (owned : Owned s)
    (tags : bus.reqcyc = true → bus.reqtag = readTag ∨ bus.reqtag = writeTag) :
    Owned (s.request bus) := by
  unfold System.request
  split
  · rename_i on
    split
    · exact ⟨owned.beats, owned.reads⟩
    · have memory : System.cmd bus.reqtag = System.MEMORY := by
        rcases tags on with tag | tag <;> rw [tag] <;> decide
      rw [System.command_memory memory]
      refine ⟨owned.beats, ?_⟩
      dsimp only
      split
      · exact owned.reads
      · rename_i added
        intro entry member
        rcases List.mem_cons.mp member with rfl | old
        · rcases tags on with tag | tag
          · exact tag
          · exact absurd (.inr (by rw [tag]; decide)) added
        · exact owned.reads entry old
  · exact ⟨owned.beats, owned.reads⟩

/-! ### A tick -/

section

variable {s : TestBench} {accepts : Bool} {completed : List (BitVec 64)} {l : BitVec 58} {c : Nat}

/-- The tick of this test bench serves only memory transfers. -/
theorem request_eq {s : System} {bus : BusRequest}
    (memory : bus.reqcyc = true → System.cmd bus.reqtag = System.MEMORY) :
    (if bus.reqcyc then if s.rxCount ≠ 0 then receive s bus else command s bus
      else { s with rxCount := 0 }) = s.request bus := by
  rw [System.request]
  cases asks : bus.reqcyc with
  | false => rfl
  | true =>
      have mem := memory asks
      have received : receive s bus = s.receive bus := by
        rw [receive, System.receive, if_pos mem, if_pos mem]
      have commanded : command s bus = s.command bus := by
        rw [System.command_memory mem]
        simp only [command, mem, true_and, if_true, System.findTag]
        split <;> simp_all
      rw [received, commanded]

/-- The memory side after the completed reads and the pop. -/
def served (s : TestBench) (accepts : Bool) (completed : List (BitVec 64)) : System :=
  (completed.foldl System.dramReadComplete s.sys).pop (s.cache.consumes (s.response accepts))

theorem posedge_sys (memory : (s.posedge accepts completed).cache.pReqcyc = true →
      System.cmd (s.posedge accepts completed).cache.pReqtag = System.MEMORY) :
    (s.posedge accepts completed).sys =
      (s.served accepts completed).request (s.posedge accepts completed).cache.bus :=
  request_eq memory

variable (s accepts completed) in
theorem served_frame :
    (s.served accepts completed).ram = s.sys.ram ∧
      (s.served accepts completed).rxCount = s.sys.rxCount ∧
      (s.served accepts completed).xferAddr = s.sys.xferAddr := by
  have frame := System.update_frame (s := s.sys) ⟨accepts, completed, false⟩
  rw [served, System.pop]
  split <;> exact frame

theorem served_answers (kept : s.cache.consumes (s.response accepts) = false)
    (answers : s.sys.Answers readTag l c) : (s.served accepts completed).Answers readTag l c := by
  rw [served, kept]
  exact answers.update ⟨accepts, completed, false⟩ (by decide)

theorem served_quiet (kept : s.cache.consumes (s.response accepts) = false)
    (quiet : s.sys.Quiet readTag) : (s.served accepts completed).Quiet readTag :=
  System.quiet_iff_answers.mpr
    (served_answers (l := 0) kept (System.quiet_iff_answers.mp quiet))

theorem front_of_response (shown : (s.response accepts).respcyc = true) (owned : Owned s.sys) :
    ∃ rest, s.sys.txQueue = ((s.response accepts).resp, readTag) :: rest := by
  unfold response System.response at shown ⊢
  cases queue : s.sys.txQueue with
  | nil => simp [queue] at shown
  | cons beat rest =>
      have own := owned.beats beat (by simp [queue])
      exact ⟨rest, by rw [← own]⟩

theorem empty_of_response (idle : (s.response accepts).respcyc = false) :
    s.sys.beatsFor readTag = [] := by
  unfold response System.response at idle
  cases queue : s.sys.txQueue with
  | nil => simp [System.beatsFor, queue]
  | cons beat rest => simp [queue] at idle

theorem served_taken (owned : Owned s.sys) (taken : s.cache.consumes (s.response accepts) = true)
    (answers : s.sys.Answers readTag l c) :
    (s.served accepts completed).Answers readTag l (c + 1) := by
  have shown := taken
  rw [DirectMap.Regs.consumes, Bool.and_eq_true] at shown
  obtain ⟨rest, queue⟩ := front_of_response shown.2 owned
  obtain ⟨more, later⟩ := System.txQueue_update (s := s.sys) ⟨accepts, completed, false⟩
  rw [served, taken]
  apply (answers.update ⟨accepts, completed, false⟩ (by decide)).pop_taken
  rw [later, queue]
  rfl

theorem response_reqack (s : TestBench) (accepts : Bool) :
    (s.response accepts).reqack = (s.cache.pReqcyc && accepts) := by
  unfold response System.response
  split <;> rfl

theorem posedge_sys_off (off : (s.posedge accepts completed).cache.pReqcyc = false) :
    (s.posedge accepts completed).sys.ram = s.sys.ram ∧
      (s.posedge accepts completed).sys.rxCount = 0 ∧
      ((s.served accepts completed).Answers readTag l c →
        (s.posedge accepts completed).sys.Answers readTag l c) := by
  have frame := served_frame s accepts completed
  have silent : (s.posedge accepts completed).cache.bus.reqcyc = false := off
  rw [posedge_sys (fun on => absurd (off.symm.trans on) (by decide)), System.request_idle silent]
  exact ⟨frame.1, rfl, fun answers => answers.congr rfl rfl rfl⟩

variable (completed) in
theorem posedge_sys_address (on : (s.posedge accepts completed).cache.pReqcyc = true)
    (first : s.sys.rxCount = 0)
    (tag : (s.posedge accepts completed).cache.pReqtag = writeTag) :
    (s.posedge accepts completed).sys.ram = s.sys.ram ∧
      (s.posedge accepts completed).sys.rxCount = 8 ∧
      (s.posedge accepts completed).sys.xferAddr = (s.posedge accepts completed).cache.pReq ∧
      ((s.served accepts completed).Quiet readTag →
        (s.posedge accepts completed).sys.Quiet readTag) := by
  obtain ⟨ram, count, -⟩ := served_frame s accepts completed
  have asks : (s.posedge accepts completed).cache.bus.reqcyc = true := on
  have reqtag : (s.posedge accepts completed).cache.bus.reqtag = writeTag := tag
  have memory : System.cmd (s.posedge accepts completed).cache.bus.reqtag = System.MEMORY := by
    rw [reqtag]
    decide
  have write : System.isWrite (s.posedge accepts completed).cache.bus.reqtag = true := by
    rw [reqtag]
    decide
  rw [posedge_sys (fun _ => memory), System.request_command asks (count.trans first)]
  have frame := System.command_memory (s := s.served accepts completed) memory
  refine ⟨?_, ?_, ?_, fun quiet => ?_⟩
  · rw [frame]
    exact ram
  · rw [frame, write]
    rfl
  · rw [frame]
    rfl
  · rw [System.quiet_iff_answers (l := 0)] at quiet ⊢
    exact quiet.command memory (.inr write)

variable (completed) in
theorem posedge_sys_word (on : (s.posedge accepts completed).cache.pReqcyc = true)
    (later : s.sys.rxCount ≠ 0)
    (tag : (s.posedge accepts completed).cache.pReqtag = writeTag) :
    (s.posedge accepts completed).sys.ram =
        s.sys.ram.store64 (System.beatAddr s.sys.xferAddr (8 - s.sys.rxCount))
          (be64toh (s.posedge accepts completed).cache.pReq) ∧
      (s.posedge accepts completed).sys.rxCount = s.sys.rxCount - 1 ∧
      (s.posedge accepts completed).sys.xferAddr = s.sys.xferAddr ∧
      ((s.served accepts completed).Quiet readTag →
        (s.posedge accepts completed).sys.Quiet readTag) := by
  obtain ⟨ram, count, xfer⟩ := served_frame s accepts completed
  have asks : (s.posedge accepts completed).cache.bus.reqcyc = true := on
  have memory : System.cmd (s.posedge accepts completed).cache.bus.reqtag = System.MEMORY := by
    change System.cmd (s.posedge accepts completed).cache.pReqtag = _
    rw [tag]
    decide
  rw [posedge_sys (fun _ => memory), System.request_receive asks (by rwa [count]), System.receive,
    if_pos memory]
  refine ⟨?_, ?_, xfer, id⟩
  · rw [ram, count, xfer]
    rfl
  · rw [count]

variable (completed) in
theorem posedge_sys_read (on : (s.posedge accepts completed).cache.pReqcyc = true)
    (first : s.sys.rxCount = 0)
    (tag : (s.posedge accepts completed).cache.pReqtag = readTag)
    (line : (s.posedge accepts completed).cache.pReq = Ram.lineAddress l) :
    (s.posedge accepts completed).sys.ram = s.sys.ram ∧
      (s.posedge accepts completed).sys.rxCount = 0 ∧
      ((s.served accepts completed).Asked readTag l →
        (s.posedge accepts completed).sys.Asked readTag l) := by
  obtain ⟨ram, count, -⟩ := served_frame s accepts completed
  have asks : (s.posedge accepts completed).cache.bus.reqcyc = true := on
  have reqtag : (s.posedge accepts completed).cache.bus.reqtag = readTag := tag
  have memory : System.cmd (s.posedge accepts completed).cache.bus.reqtag = System.MEMORY := by
    rw [reqtag]
    decide
  have read : System.isWrite (s.posedge accepts completed).cache.bus.reqtag = false := by
    rw [reqtag]
    decide
  rw [posedge_sys (fun _ => memory), System.request_command asks (count.trans first)]
  refine ⟨?_, ?_, fun asked => asked.command memory line⟩
  · rw [System.command_memory memory]
    exact ram
  · rw [System.command_memory memory, read]
    rfl

end

end TestBench

end Sparcy
