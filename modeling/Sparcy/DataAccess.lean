import Sparcy.DataCoherence
import Sparcy.Library.Runs

/-!
# Accesses of the data cache

A run of accesses from a coherent state: each request is held until it is
acknowledged, and another one may follow in the cycle of the acknowledgement.
-/

namespace Sparcy

open Words (word)

namespace MemorySystem

open ICache (index tag)

/-- The cache is idle, with nothing of it on the bus, and its clean sets hold lines of
the RAM. -/
structure Coherent (m : MemorySystem) : Prop where
  idle : m.dc.pState = .a
  clean : ∀ i, m.dc.dirtySram.mem i = 0 →
    m.dc.dataSram.mem i = m.sys.ram.line (m.dc.lineAt i)
  free : m.BusFree
  port : m.FetchPort

theorem Coherent.tracked {m : MemorySystem} (coherent : m.Coherent) (p : DcRequest) :
    m.Tracked p :=
  ⟨coherent.port, fun i clean _ => coherent.clean i clean, .idle coherent.idle coherent.free⟩

theorem Tracked.coherent {m : MemorySystem} {p : DcRequest} (tracked : m.Tracked p)
    (idle : m.dc.pState = .a) : m.Coherent := by
  refine ⟨idle, ?_, ?_, tracked.port⟩
  · intro i clean
    apply tracked.clean i clean
    rintro ⟨state | state, -⟩ <;> rw [idle] at state <;> cases state
  · cases tracked.phase with
    | idle _ free => exact free
    | lookup other => rw [idle] at other; cases other
    | evict other => rw [idle] at other; cases other
    | ask other => rw [idle] at other; cases other
    | refill other => rw [idle] at other; cases other

/-- After a reset every set is dirty. -/
theorem coherent_reset (ram : Ram) : (reset ram).Coherent := by
  refine ⟨rfl, ?_, ⟨rfl, rfl, rfl, rfl⟩, ⟨?_, ?_⟩⟩
  · intro i clean
    exact absurd (show (1 : BitVec 1) = 0 from clean) (by decide)
  · change (0 : BitVec 13) ≠ DCache.readTag
    decide
  · intro asks
    cases asks

/-- In a coherent state every set counts. -/
theorem Coherent.memory_eq {m : MemorySystem} (coherent : m.Coherent) (p : DcRequest)
    (l : BitVec 58) :
    m.memory p l =
      if m.dc.lineAt (index l) = l then m.dc.dataSram.mem (index l) else m.sys.ram.line l := by
  have named : m.dc.lineAt (index l) = l ↔ m.dc.tagSram.mem (index l) = tag l := by
    constructor
    · intro same
      rw [← tag_lineAt, same]
    · intro found
      exact (eq_lineAt found).symm
  rw [memory_of_present (by simp [coherent.idle])]
  simp only [named]

/-- A hit serves the line of the abstract memory. -/
theorem Tracked.served_line {m : MemorySystem} {p : DcRequest} (tracked : m.Tracked p)
    (serves : m.dc.serves p = true) : m.dc.dataSram.readData = m.memory p p.lineAddr := by
  simp only [DCache.Regs.serves, Bool.and_eq_true, beq_iff_eq] at serves
  obtain ⟨state, hit⟩ := serves
  cases tracked.phase with
  | lookup _ _ loaded =>
      have found : m.dc.tagSram.mem (index p.lineAddr) = tag p.lineAddr := by
        rw [← loaded.tag]
        simpa [DCache.Regs.hit] using hit
      rw [memory_of_present (by simp [state]), if_pos found, loaded.data]
  | idle other => rw [state] at other; cases other
  | evict other => rw [state] at other; cases other
  | ask other => rw [state] at other; cases other
  | refill other => rw [state] at other; cases other

/-- The two 32-bit words of a doubleword of a line, in the order of their addresses. -/
def firstWord (line : BitVec 512) (w : BitVec 3) : BitVec 32 :=
  (word 64 line w.toNat).extractLsb' 32 32

def secondWord (line : BitVec 512) (w : BitVec 3) : BitVec 32 :=
  (word 64 line w.toNat).extractLsb' 0 32

/-- For a line of the RAM these are its big-endian words. -/
theorem words_line (ram : Ram) (l : BitVec 58) (w : BitVec 3) :
    firstWord (ram.line l) w =
        ram.word32 (System.beatAddr (Ram.lineAddress l) w.toNat) ∧
      secondWord (ram.line l) w =
        ram.word32 (System.beatAddr (Ram.lineAddress l) w.toNat + 4) := by
  rw [firstWord, secondWord, Ram.word_line _ _ w.isLt, Ram.doubleword, Ram.be64toh_load64]
  exact ⟨BitVec.extractLsb'_append_eq_left, BitVec.extractLsb'_append_eq_right⟩

/-- What a cycle does for the request it holds. -/
structure Serves (m : MemorySystem) (p : DcRequest) (m' : MemorySystem) : Prop where
  coherent : m'.dc.pAck = true → m'.Coherent
  read : m'.dc.pAck = true → p.loadType = 0b11 →
    m'.dc.pProcDataOut.extractLsb' 0 32 = firstWord (m.memory p p.lineAddr) p.wordSelect ∧
      m'.dc.pProcDataOut.extractLsb' 32 32 = secondWord (m.memory p p.lineAddr) p.wordSelect
  store : m.dc.stores p = true → ∀ l, ∀ i < 64,
    word 8 (m'.memory p l) i =
      if l = p.lineAddr ∧ (DCache.storeEnable p).getLsbD i = true then
        word 8 (DCache.storeData p) i
      else word 8 (m.memory p l) i
  keeps : m.dc.stores p = false → ∀ l, m'.memory p l = m.memory p l

theorem Tracked.serves {m : MemorySystem} {p : DcRequest} {events : DramEvents}
    (tracked : m.Tracked p) (allowed : m.Allowed events) (ip : IcRequest) :
    Serves m p (m.step ip p events) := by
  have serves : (m.step ip p events).dc.pAck = m.dc.serves p := rfl
  constructor
  · intro acknowledged
    apply (tracked.step allowed).coherent
    rw [serves, DCache.Regs.serves, Bool.and_eq_true, beq_iff_eq] at acknowledged
    change m.dc.nState p (m.dcResponse events) = .a
    simp [DCache.Regs.nState, acknowledged.1, acknowledged.2]
  · intro acknowledged doubleword
    rw [serves] at acknowledged
    have data : (m.step ip p events).dc.pProcDataOut =
        secondWord (m.memory p p.lineAddr) p.wordSelect ++
          firstWord (m.memory p p.lineAddr) p.wordSelect := by
      change (if m.dc.serves p then DCache.loadData p m.dc.dataSram.readData
        else m.dc.pProcDataOut) = _
      rw [if_pos acknowledged, DCache.loadData, if_pos doubleword,
        tracked.served_line acknowledged]
      rfl
    rw [data]
    exact ⟨BitVec.extractLsb'_append_eq_right, BitVec.extractLsb'_append_eq_left⟩
  · intro store l i inside
    rw [tracked.memory_step allowed]
    by_cases own : l = p.lineAddr
    · rw [if_pos ⟨store, own⟩, word_writeWords (by decide) _ _ _ (by omega)]
      simp [own]
    · rw [if_neg (fun both => own both.2), if_neg (fun both => own both.1)]
  · intro none l
    rw [tracked.memory_step allowed, if_neg]
    rintro ⟨store, -⟩
    rw [none] at store
    cases store

/-- The inputs of a cycle. -/
structure Inputs where
  ic : IcRequest
  dc : DcRequest
  events : DramEvents

/-- The memory system with the request of the last cycle. -/
structure Held where
  system : MemorySystem
  request : DcRequest

namespace Held

def step (h : Held) (inputs : Inputs) : Held :=
  { system := h.system.step inputs.ic inputs.dc inputs.events, request := inputs.dc }

/-- The events are those of `System::tick`, and the request stays until it is
acknowledged. -/
def Legal (h : Held) (inputs : Inputs) : Prop :=
  h.system.Allowed inputs.events ∧ (h.system.dc.pState ≠ .a → inputs.dc = h.request)

instance (h : Held) (inputs : Inputs) : Decidable (h.Legal inputs) :=
  inferInstanceAs (Decidable (_ ∧ _))

/-- From a coherent state every access is served from the abstract memory, and only
its stores change it. -/
theorem serves_abstract_memory (m : MemorySystem) (coherent : m.Coherent)
    (request : DcRequest) (inputs : List Inputs)
    (legal : Runs.Guarded step Legal { system := m, request := request } inputs) :
    Runs.Guarded step (fun h inputs => Serves h.system inputs.dc (h.step inputs).system)
      { system := m, request := request } inputs := by
  have kept : ∀ (h : Held) (inputs : Inputs), h.system.Tracked h.request → h.Legal inputs →
      h.system.Tracked inputs.dc := by
    intro h inputs tracked legal
    by_cases idle : h.system.dc.pState = .a
    · exact tracked.switch idle inputs.dc
    · rw [legal.2 idle]
      exact tracked
  have strengthened := legal.strengthen
    (fun h inputs tracked legal => (kept h inputs tracked legal).step legal.1)
    (coherent.tracked request)
  refine strengthened.mono ?_
  rintro h inputs ⟨tracked, legal⟩
  exact (kept h inputs tracked legal).serves legal.1 inputs.ic

/-- A load of the third doubleword of line 0, held for the given ticks. -/
def loadInputs (ticks : List DramEvents) : List Inputs :=
  ticks.map fun events =>
    { ic := { req := false, lineAddr := 0, wordSelect := 0 }
      dc := { req := true, lineAddr := 0, wordSelect := 2, byteOffset := 0, readWriteN := true
              dataIn := 0, storeType := 0b00, loadType := 0b11 }
      events := events }

/-- After a reset the load writes the line of its set back, fetches its own line and is
acknowledged. -/
theorem serves_abstract_memory_load :
    Runs.Guarded step (fun h inputs => Serves h.system inputs.dc (h.step inputs).system)
      { system := reset (Ram.ofWords [1, 2, 3, 4, 5, 6]), request := ⟨true, 0, 2, 0, true, 0, 0, 3⟩ }
      (loadInputs (List.replicate 14 (.completing []) ++ .completing [0] ::
        List.replicate 11 (.completing []))) :=
  serves_abstract_memory _ (coherent_reset _) _ _ (by decide +kernel)

end Held

end MemorySystem

end Sparcy
