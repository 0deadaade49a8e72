import Sparcy.FetchCache

/-!
# Lines before the first fetch

There is no valid bit.  The tag memory of the instruction cache resets to ones, which
no address has; the one of the data cache resets to 15 and all its sets are dirty.
The first look-up of the data cache hits such a line or writes it back.
-/

namespace Sparcy

open MemorySystem (Inputs)

/-- The memory system, the requests of the last cycle, and the lines that each cache
has fetched and that were stored to after that. -/
structure CacheHistory where
  system : MemorySystem
  ic : IcRequest
  dc : DcRequest
  fetched : List (BitVec 58)
  cached : List (BitVec 58)
  modified : List (BitVec 58)

namespace CacheHistory

/-- A dirty line is sent back. -/
def evicts (m : MemorySystem) (p : DcRequest) : Bool :=
  m.dc.pState == .b && !m.dc.hit p && m.dc.dirtySram.readData == 1

/-- The data cache has received its line. -/
def refills (m : MemorySystem) (p : DcRequest) (events : DramEvents) : Bool :=
  m.dc.pState == .e && m.dc.nState p (m.dcResponse events) == .b

def start (ram : Ram) : CacheHistory :=
  { system := MemorySystem.reset ram
    ic := { req := false, lineAddr := 0, wordSelect := 0 }
    dc := { req := false, lineAddr := 0, wordSelect := 0, byteOffset := 0, readWriteN := true
            dataIn := 0, storeType := 0, loadType := 0 }
    fetched := [], cached := [], modified := [] }

def step (h : CacheHistory) (inputs : Inputs) : CacheHistory :=
  { system := h.system.step inputs.ic inputs.dc inputs.events
    ic := inputs.ic
    dc := inputs.dc
    fetched := h.system.nowKnown inputs.ic inputs.events h.fetched
    cached :=
      if refills h.system inputs.dc inputs.events then inputs.dc.lineAddr :: h.cached
      else h.cached
    modified :=
      if h.system.dc.stores inputs.dc ∧ inputs.dc.lineAddr ∈ h.cached then
        inputs.dc.lineAddr :: h.modified
      else h.modified }

/-- Requests are held, and their addresses are those of `InstructionFetch` and `Mem`. -/
structure Legal (h : CacheHistory) (inputs : Inputs) : Prop where
  allowed : h.system.Allowed inputs.events
  icHeld : h.system.ic.pState ≠ .a → inputs.ic = h.ic
  dcHeld : h.system.dc.pState ≠ .a → inputs.dc = h.dc
  icAddress : inputs.ic.lineAddr.toNat < 2 ^ 24
  dcAddress : inputs.dc.lineAddr.toNat < 2 ^ 14

theorem legal_iff {h : CacheHistory} {inputs : Inputs} :
    h.Legal inputs ↔ h.system.Allowed inputs.events ∧
      (h.system.ic.pState ≠ .a → inputs.ic = h.ic) ∧
      (h.system.dc.pState ≠ .a → inputs.dc = h.dc) ∧
      inputs.ic.lineAddr.toNat < 2 ^ 24 ∧ inputs.dc.lineAddr.toNat < 2 ^ 14 := by
  constructor
  · exact fun ⟨allowed, ic, dc, icAddress, dcAddress⟩ => ⟨allowed, ic, dc, icAddress, dcAddress⟩
  · exact fun ⟨allowed, ic, dc, icAddress, dcAddress⟩ => ⟨allowed, ic, dc, icAddress, dcAddress⟩

instance (h : CacheHistory) (inputs : Inputs) : Decidable (h.Legal inputs) :=
  decidable_of_iff _ legal_iff.symm

/-- Hits and write-backs are on lines that came from the memory; the RAM is changed by
write-backs only, and what was not stored to is read as the RAM has it. -/
structure FromMemory (h : CacheHistory) (inputs : Inputs) : Prop where
  icHit : h.system.ic.nAck inputs.ic = true → inputs.ic.lineAddr ∈ h.fetched
  icRead : h.system.ic.nAck inputs.ic = true →
    h.system.ic.nProcDataOut inputs.ic =
      h.system.sys.ram.word32 (inputs.ic.lineAddr ++ inputs.ic.wordSelect ++ (0 : BitVec 2))
  dcHit : h.system.dc.serves inputs.dc = true → inputs.dc.lineAddr ∈ h.cached
  dcRead : h.system.dc.serves inputs.dc = true → inputs.dc.lineAddr ∉ h.modified →
    h.system.dc.dataSram.readData = h.system.sys.ram.line inputs.dc.lineAddr
  writeBack : evicts h.system inputs.dc = true →
    h.system.dc.lineAt (DCache.Regs.set inputs.dc) ∈ h.modified
  ram : h.system.dc.pState ≠ .c → (h.step inputs).system.sys.ram = h.system.sys.ram

/-- No data request has been looked up since the reset. -/
structure Untouched (h : CacheHistory) : Prop where
  idle : h.system.DataIdle
  fetches : h.system.FetchTracked h.ic h.fetched
  tags : h.system.dc.tagSram.mem = fun _ => 0xf
  dirty : h.system.dc.dirtySram.mem = fun _ => 1
  cached : h.cached = []
  modified : h.modified = []

section

variable {h : CacheHistory} {inputs : Inputs}

theorem untouched_start (ram : Ram) : (start ram).Untouched := by
  have port : (MemorySystem.reset ram).FetchPort := (MemorySystem.coherent_reset ram).port
  refine ⟨⟨rfl, rfl, rfl, port⟩, ⟨fun i _ => .inl rfl, ?_⟩, rfl, rfl, rfl, rfl⟩
  exact .idle rfl ⟨rfl, rfl, rfl⟩

theorem Untouched.fetches_now (untouched : h.Untouched) (legal : h.Legal inputs) :
    h.system.FetchTracked inputs.ic h.fetched := by
  by_cases state : h.system.ic.pState = .a
  · exact untouched.fetches.switch state inputs.ic
  · rw [legal.icHeld state]
    exact untouched.fetches

theorem Untouched.fromMemory (untouched : h.Untouched) (legal : h.Legal inputs) :
    h.FromMemory inputs := by
  have tracked := untouched.fetches_now legal
  have state := untouched.idle.state
  have genuine := ICache.tag_ne_ones legal.icAddress
  constructor
  · exact fun hit => (tracked.hit genuine hit).1
  · exact fun hit => (tracked.hit genuine hit).2
  · intro serves
    simp [DCache.Regs.serves, state] at serves
  · intro serves
    simp [DCache.Regs.serves, state] at serves
  · intro evicted
    simp [evicts, state] at evicted
  · exact fun _ => untouched.idle.ram_step.1

variable (inputs) in
/-- The lists and the memories of the data cache do not change. -/
theorem Untouched.kept (untouched : h.Untouched) :
    (h.step inputs).system.dc.tagSram.mem = (fun _ => 0xf) ∧
      (h.step inputs).system.dc.dirtySram.mem = (fun _ => 1) ∧
      (h.step inputs).cached = [] ∧ (h.step inputs).modified = [] := by
  have state := untouched.idle.state
  have silent : h.system.dc.Silent inputs.dc (h.system.dcResponse inputs.events) :=
    DCache.Regs.silent_of_state (.inl state)
  obtain ⟨-, tags, dirty⟩ := silent.step
  refine ⟨tags.trans untouched.tags, dirty.trans untouched.dirty, ?_, ?_⟩
  · simp [step, refills, state, untouched.cached]
  · simp [step, DCache.Regs.stores, DCache.Regs.serves, state, untouched.modified]

theorem Untouched.step (untouched : h.Untouched) (legal : h.Legal inputs)
    (none : inputs.dc.req = false) : (h.step inputs).Untouched := by
  obtain ⟨tags, dirty, cached, modified⟩ := untouched.kept inputs
  refine ⟨untouched.idle.step none, ?_, tags, dirty, cached, modified⟩
  exact (untouched.fetches_now legal).step untouched.idle legal.allowed

/-- The first look-up finds a line of the reset. -/
theorem Untouched.not_fromMemory (untouched : h.Untouched) (asks : inputs.dc.req = true)
    (next : Inputs) : ¬ (h.step inputs).FromMemory next := by
  intro fromMemory
  obtain ⟨-, -, cached, modified⟩ := untouched.kept inputs
  have lookup : (h.step inputs).system.dc.pState = .b := by
    change h.system.dc.nState inputs.dc _ = .b
    simp [DCache.Regs.nState, untouched.idle.state, asks]
  have dirty : (h.step inputs).system.dc.dirtySram.readData = 1 := by
    change h.system.dc.dirtySram.mem (ICache.index inputs.dc.lineAddr) = 1
    rw [untouched.dirty]
  cases found : (h.step inputs).system.dc.hit next.dc with
  | true =>
      have phantom := fromMemory.dcHit (by simp [DCache.Regs.serves, lookup, found])
      rw [cached] at phantom
      cases phantom
  | false =>
      have phantom := fromMemory.writeBack (by simp [evicts, lookup, found, dirty])
      rw [modified] at phantom
      cases phantom

end

/-- From the reset, lines come from the memory exactly as long as no data request is
looked up. -/
theorem fromMemory_iff (ram : Ram) (inputs : List Inputs)
    (legal : Runs.Guarded step Legal (start ram) inputs) :
    Runs.Guarded step FromMemory (start ram) inputs ↔
      ∀ input ∈ inputs.dropLast, input.dc.req = false := by
  have untouched := untouched_start ram
  generalize start ram = h at legal untouched
  induction inputs generalizing h with
  | nil => simp
  | cons input inputs induction =>
      have now := untouched.fromMemory legal.1
      cases inputs with
      | nil => simpa using now
      | cons next rest =>
          rw [List.dropLast_cons_cons]
          cases asks : input.dc.req with
          | true =>
              constructor
              · intro guarded
                exact absurd guarded.2.1 (untouched.not_fromMemory asks next)
              · intro none
                have quiet := none input List.mem_cons_self
                rw [asks] at quiet
                cases quiet
          | false =>
              have later := induction _ legal.2 (untouched.step legal.1 asks)
              simp only [Runs.guarded_cons, now, true_and, List.mem_cons, forall_eq_or_imp, asks]
              simpa using later

/-- The inputs of cycles with one request for each cache. -/
def holding (ic : IcRequest) (dc : DcRequest) (ticks : List DramEvents) : List Inputs :=
  ticks.map fun events => { ic := ic, dc := dc, events := events }

/-- A fetch of the second word of line 0, with no data request. -/
theorem fromMemory_fetch :
    Runs.Guarded step FromMemory (start (Ram.ofWords [1, 2]))
      (holding ⟨true, 0, 1⟩ ⟨false, 0, 0, 0, true, 0, 0, 0⟩
        (List.replicate 3 (.completing []) ++ .completing [0] ::
          List.replicate 11 (.completing []))) :=
  (fromMemory_iff _ _ (by decide +kernel)).mpr (by decide)

/-- The first load, at address `0x3c00`, hits a line of the reset. -/
theorem hits_phantom_line :
    ¬ ∀ (ram : Ram) (inputs : List Inputs), Runs.Guarded step Legal (start ram) inputs →
      Runs.Guarded step FromMemory (start ram) inputs := by
  intro fromMemory
  have legal : Runs.Guarded step Legal (start (Ram.ofWords [1, 2]))
      (holding ⟨false, 0, 0⟩ ⟨true, 0xf0, 0, 0, true, 0, 0, 2⟩
        (List.replicate 2 (.completing []))) := by
    decide +kernel
  have later := (fromMemory _ _ legal).2.1
  have phantom := later.dcHit (by decide +kernel)
  cases phantom

end CacheHistory

end Sparcy
