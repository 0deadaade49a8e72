import Sparcy.DataCacheBus

/-!
# The sets of the data cache

The phases of an access, and the abstract memory: the cached line for every line
address in the tag memory and the RAM elsewhere.  A set whose line is being fetched
does not count.
-/

namespace Sparcy

open Words (word)

namespace DCache.Regs

open ICache (index tag)

/-- The set of a request. -/
abbrev set (p : DcRequest) : BitVec 4 := index p.lineAddr

/-- The line address that a set names. -/
def lineAt (r : Regs) (i : BitVec 4) : BitVec 58 := r.tagSram.mem i ++ i

/-- The set whose line is being fetched. -/
def Replaces (r : Regs) (p : DcRequest) (i : BitVec 4) : Prop :=
  (r.pState = .d ∨ r.pState = .e) ∧ i = set p

instance (r : Regs) (p : DcRequest) (i : BitVec 4) : Decidable (r.Replaces p i) :=
  inferInstanceAs (Decidable (_ ∧ _))

/-- The read registers show the set of the request. -/
structure Loaded (r : Regs) (p : DcRequest) : Prop where
  data : r.dataSram.readData = r.dataSram.mem (set p)
  tag : r.tagSram.readData = r.tagSram.mem (set p)
  dirty : r.dirtySram.readData = r.dirtySram.mem (set p)

/-- The set has been claimed for the line of the request. -/
structure Claimed (r : Regs) (p : DcRequest) : Prop where
  tag : r.tagSram.mem (set p) = ICache.tag p.lineAddr
  clean : r.dirtySram.mem (set p) = 0
  reqtag : r.pReqtag = readTag

section

variable (r : Regs) (p : DcRequest) (bus : BusResponse)

/-- No memory is written in this cycle. -/
def Silent : Prop :=
  r.stores p = false ∧ r.requests bus = false ∧ r.consumes bus = false

theorem step_data_mem :
    (r.step p bus).dataSram.mem = Function.update r.dataSram.mem (set p)
      (writeWords (r.dataSram.mem (set p)) (r.writeData p bus) 8 (r.dataWrite p bus)) :=
  Sram.step_mem ..

theorem step_tag_mem :
    (r.step p bus).tagSram.mem =
      if r.requests bus then Function.update r.tagSram.mem (set p) (tag p.lineAddr)
      else r.tagSram.mem :=
  Sram.step_mem_ofBool (by decide) ..

theorem step_dirty_mem :
    (r.step p bus).dirtySram.mem =
      if r.stores p || r.requests bus then
        Function.update r.dirtySram.mem (set p) (BitVec.ofBool (r.stores p))
      else r.dirtySram.mem :=
  Sram.step_mem_ofBool (by decide) ..

variable {r p bus}

theorem Silent.step (silent : r.Silent p bus) :
    (r.step p bus).dataSram.mem = r.dataSram.mem ∧ (r.step p bus).tagSram.mem = r.tagSram.mem ∧
      (r.step p bus).dirtySram.mem = r.dirtySram.mem := by
  obtain ⟨store, request, consume⟩ := silent
  refine ⟨?_, by simp [step_tag_mem, request], by simp [step_dirty_mem, store, request]⟩
  have none : r.dataWrite p bus = 0 := by simp [dataWrite, store, consume]
  rw [step_data_mem, none, writeWords_zero, Function.update_eq_self]

theorem Silent.loaded (silent : r.Silent p bus) : (r.step p bus).Loaded p := by
  obtain ⟨data, tag, dirty⟩ := silent.step
  exact ⟨congrFun data.symm _, congrFun tag.symm _, congrFun dirty.symm _⟩

theorem silent_of_state (other : r.pState = .a ∨ r.pState = .c) : r.Silent p bus := by
  rcases other with state | state <;> simp [Silent, stores, serves, requests, consumes, state]

theorem step_off (state : r.pState = .a ∨ r.pState = .b) : (r.step p bus).pReqcyc = false := by
  change (r.nBus p bus).reqcyc = false
  rcases state with state | state <;> simp [nBus, requests, consumes, state]

theorem step_rows {i : BitVec 4} (other : i ≠ set p) :
    (r.step p bus).dataSram.mem i = r.dataSram.mem i ∧
      (r.step p bus).tagSram.mem i = r.tagSram.mem i ∧
      (r.step p bus).dirtySram.mem i = r.dirtySram.mem i := by
  refine ⟨?_, ?_, ?_⟩
  · rw [step_data_mem, Function.update_of_ne other]
  · rw [step_tag_mem]
    split
    · rw [Function.update_of_ne other]
    · rfl
  · rw [step_dirty_mem]
    split
    · rw [Function.update_of_ne other]
    · rfl

end

end DCache.Regs

theorem tag_index (l : BitVec 58) : ICache.tag l ++ ICache.index l = l := by
  apply BitVec.eq_of_getLsbD_eq
  intro j inside
  simp only [ICache.tag, ICache.index, BitVec.getLsbD_append, BitVec.getLsbD_extractLsb']
  by_cases low : j < 4
  · simp [low]
  · simp only [low, if_false, show 4 + (j - 4) = j by omega, show j - 4 < 54 by omega,
      decide_true, Bool.true_and]

theorem eq_of_tag_index {l l' : BitVec 58} (tag : ICache.tag l = ICache.tag l')
    (index : ICache.index l = ICache.index l') : l = l' := by
  rw [← tag_index l, tag, index, tag_index]

namespace MemorySystem

open DCache (readTag writeTag)
open DCache.Regs (set)
open ICache (index tag)

/-- Nothing of the data cache is on the bus. -/
structure BusFree (m : MemorySystem) : Prop where
  off : m.dc.pReqcyc = false
  count : m.sys.rxCount = 0
  quiet : m.sys.Quiet readTag

/-- The words of a set that the RAM already has. -/
def Sent (m : MemorySystem) (i : BitVec 4) (n : Nat) : Prop :=
  ∀ k < n, m.sys.ram.doubleword (m.dc.lineAt i) k = word 64 (m.dc.dataSram.mem i) k

/-- The stages of a write-back: nothing is sent; the address waits for the bus; word
`pCounter - 2` is the last that is stored; everything is stored. -/
inductive Burst (m : MemorySystem) (i : BitVec 4) : Prop
  | start (counter : m.dc.pCounter = 0) (off : m.dc.pReqcyc = false) (count : m.sys.rxCount = 0)
  | waiting (counter : m.dc.pCounter = 1) (on : m.dc.pReqcyc = true)
      (req : m.dc.pReq = Ram.lineAddress (m.dc.lineAt i)) (tag : m.dc.pReqtag = writeTag)
      (count : m.sys.rxCount = 0) (elsewhere : m.grant ≠ .dc)
  | sending (n : Nat) (counter : m.dc.pCounter.toNat = n + 1) (more : n < 8)
      (on : m.dc.pReqcyc = true) (tag : m.dc.pReqtag = writeTag) (count : m.sys.rxCount = 8 - n)
      (xfer : m.sys.xferAddr = Ram.lineAddress (m.dc.lineAt i)) (granted : m.grant = .dc)
      (sent : m.Sent i n)
  | sent (counter : m.dc.pCounter = 9) (on : m.dc.pReqcyc = true)
      (tag : m.dc.pReqtag = writeTag) (granted : m.grant = .dc) (sent : m.Sent i 8)

/-- Where the data cache is with a request. -/
inductive Phase (m : MemorySystem) (p : DcRequest) : Prop
  | idle (state : m.dc.pState = .a) (free : m.BusFree)
  | lookup (state : m.dc.pState = .b) (free : m.BusFree) (loaded : m.dc.Loaded p)
  | evict (state : m.dc.pState = .c) (loaded : m.dc.Loaded p)
      (dirty : m.dc.dirtySram.mem (set p) = 1)
      (quiet : m.sys.Quiet readTag) (burst : m.Burst (set p))
  | ask (state : m.dc.pState = .d) (count : m.sys.rxCount = 0)
      (line : m.dc.pReqcyc = true → m.dc.Claimed p ∧ m.dc.pReq = Ram.lineAddress p.lineAddr)
      (asked : m.sys.Asked readTag p.lineAddr)
      (granted : m.sys.Quiet readTag ∨ m.grant = .dc)
  | refill (state : m.dc.pState = .e) (off : m.dc.pReqcyc = false) (count : m.sys.rxCount = 0)
      (claimed : m.dc.Claimed p) (low : m.dc.pCounter.toNat ≤ 8)
      (filled : ∀ k < m.dc.pCounter.toNat,
        m.sys.ram.doubleword p.lineAddr k = word 64 (m.dc.dataSram.mem (set p)) k)
      (answers : m.sys.Answers readTag p.lineAddr m.dc.pCounter.toNat)

/-- The invariant of a run. -/
structure Tracked (m : MemorySystem) (p : DcRequest) : Prop where
  port : m.FetchPort
  clean : ∀ i, m.dc.dirtySram.mem i = 0 → ¬ m.dc.Replaces p i →
    m.dc.dataSram.mem i = m.sys.ram.line (m.dc.lineAt i)
  phase : m.Phase p

/-- The abstract memory, line by line. -/
def memory (m : MemorySystem) (p : DcRequest) (l : BitVec 58) : BitVec 512 :=
  if m.dc.tagSram.mem (index l) = tag l ∧ ¬ m.dc.Replaces p (index l) then
    m.dc.dataSram.mem (index l)
  else m.sys.ram.line l

section

variable {m : MemorySystem} {ip : IcRequest} {p : DcRequest} {events : DramEvents}

theorem Phase.burst (phase : m.Phase p) (started : m.sys.rxCount ≠ 0) : m.grant = .dc := by
  cases phase with
  | idle _ free => exact absurd free.count started
  | lookup _ free => exact absurd free.count started
  | evict _ _ _ _ burst =>
      cases burst with
      | start _ _ count => exact absurd count started
      | waiting _ _ _ _ count => exact absurd count started
      | sending _ _ _ _ _ _ _ granted => exact granted
      | sent _ _ _ granted => exact granted
  | ask _ count => exact absurd count started
  | refill _ _ count => exact absurd count started

/-! ### The abstract memory, set by set -/

theorem memory_of_present (present : m.dc.pState ≠ .d ∧ m.dc.pState ≠ .e) (l : BitVec 58) :
    m.memory p l =
      if m.dc.tagSram.mem (index l) = tag l then m.dc.dataSram.mem (index l)
      else m.sys.ram.line l := by
  have kept : ¬ m.dc.Replaces p (index l) := by
    rintro ⟨state | state, -⟩
    · exact present.1 state
    · exact present.2 state
  simp [memory, kept]

theorem memory_of_replaced (replaced : m.dc.pState = .d ∨ m.dc.pState = .e) {l : BitVec 58}
    (here : index l = set p) : m.memory p l = m.sys.ram.line l := by
  simp [memory, DCache.Regs.Replaces, replaced, here]

theorem memory_of_other {l : BitVec 58} (other : index l ≠ set p) :
    m.memory p l =
      if m.dc.tagSram.mem (index l) = tag l then m.dc.dataSram.mem (index l)
      else m.sys.ram.line l := by
  have kept : ¬ m.dc.Replaces p (index l) := fun replaced => other replaced.2
  simp [memory, kept]

theorem index_lineAt (r : DCache.Regs) (i : BitVec 4) : index (r.lineAt i) = i :=
  BitVec.extractLsb'_append_eq_right

theorem tag_lineAt (r : DCache.Regs) (i : BitVec 4) : tag (r.lineAt i) = r.tagSram.mem i :=
  BitVec.extractLsb'_append_eq_left

theorem eq_lineAt {r : DCache.Regs} {l : BitVec 58} (found : r.tagSram.mem (index l) = tag l) :
    l = r.lineAt (index l) :=
  eq_of_tag_index ((tag_lineAt r _).trans found).symm (index_lineAt r _).symm

/-- What a step keeps outside the set of the request. -/
structure Frame (m m' : MemorySystem) (p : DcRequest) : Prop where
  rows : ∀ i, i ≠ set p → m'.dc.dataSram.mem i = m.dc.dataSram.mem i ∧
    m'.dc.tagSram.mem i = m.dc.tagSram.mem i ∧ m'.dc.dirtySram.mem i = m.dc.dirtySram.mem i
  ram : ∀ l, index l ≠ set p → m'.sys.ram.line l = m.sys.ram.line l

theorem Frame.memory {m' : MemorySystem} (frame : Frame m m' p) {l : BitVec 58}
    (other : index l ≠ set p) : m'.memory p l = m.memory p l := by
  obtain ⟨data, tags, -⟩ := frame.rows _ other
  rw [memory_of_other other, memory_of_other other, data, tags, frame.ram l other]

theorem Frame.clean {m' : MemorySystem} (frame : Frame m m' p) (tracked : m.Tracked p)
    {i : BitVec 4} (other : i ≠ set p) (clean : m'.dc.dirtySram.mem i = 0) :
    m'.dc.dataSram.mem i = m'.sys.ram.line (m'.dc.lineAt i) := by
  obtain ⟨data, tags, dirty⟩ := frame.rows _ other
  have line : m'.dc.lineAt i = m.dc.lineAt i := by
    rw [DCache.Regs.lineAt, tags, DCache.Regs.lineAt]
  rw [data, line, frame.ram _ (by rw [index_lineAt]; exact other)]
  exact tracked.clean i (dirty.symm.trans clean) (fun replaced => other replaced.2)

theorem frame_of_ram (ram : ∀ l, index l ≠ set p →
    (m.step ip p events).sys.ram.line l = m.sys.ram.line l) : Frame m (m.step ip p events) p :=
  ⟨fun _ other => DCache.Regs.step_rows other, ram⟩

end

end MemorySystem

end Sparcy
