import Sparcy.DataAccess

/-!
# The data cache as a memory

The hits of the data cache, in order, are the accesses of a memory that is read and
stored line by line.  Misses, write-backs and refills do not show.
-/

namespace Sparcy

open Words (word)

namespace MemorySystem

/-- A memory by line addresses. -/
abbrev LineMemory := BitVec 58 → BitVec 512

/-- What an access leaves behind. -/
def applyAccess (memory : LineMemory) (p : DcRequest) : LineMemory :=
  if p.readWriteN then memory
  else
    Function.update memory p.lineAddr
      (writeWords (memory p.lineAddr) (DCache.storeData p) 8 (DCache.storeEnable p))

/-- Each access replies from the line as the earlier accesses left it. -/
def lineMemory : Runs.Monitor LineMemory (DcRequest × BitVec 64) where
  allows memory access := access.2 = DCache.loadData access.1 (memory access.1.lineAddr)
  next memory access := applyAccess memory access.1

/-- An access changes the bytes that a store enables, and no others. -/
theorem word_applyAccess (memory : LineMemory) (p : DcRequest) (l : BitVec 58) {i : Nat}
    (inside : i < 64) :
    word 8 (applyAccess memory p l) i =
      if p.readWriteN = false ∧ l = p.lineAddr ∧ (DCache.storeEnable p).getLsbD i = true then
        word 8 (DCache.storeData p) i
      else word 8 (memory l) i := by
  rw [applyAccess]
  cases load : p.readWriteN with
  | true => simp
  | false =>
      by_cases own : l = p.lineAddr
      · subst own
        rw [if_neg (by decide), Function.update_self, word_writeWords (by decide) _ _ _ (by omega)]
        simp
      · rw [if_neg (by decide), Function.update_of_ne own, if_neg (fun both => own both.2.1)]

section

variable {m : MemorySystem} {p : DcRequest} {events : DramEvents}

/-- Between two accesses the abstract memory does not depend on the request. -/
theorem memory_switch (idle : m.dc.pState = .a) (p p' : DcRequest) :
    m.memory p = m.memory p' := by
  funext l
  rw [memory_of_present (by simp [idle]), memory_of_present (by simp [idle])]

theorem Tracked.memory_step_eq (tracked : m.Tracked p) (allowed : m.Allowed events)
    (ip : IcRequest) :
    (m.step ip p events).memory p =
      if m.dc.serves p then applyAccess (m.memory p) p else m.memory p := by
  funext l
  rw [tracked.memory_step allowed]
  cases serves : m.dc.serves p with
  | false => simp [DCache.Regs.stores, serves]
  | true =>
      rw [if_pos rfl, applyAccess]
      cases load : p.readWriteN with
      | true => simp [DCache.Regs.stores, load]
      | false =>
          by_cases own : l = p.lineAddr
          · subst own
            simp [DCache.Regs.stores, serves, load]
          · simp [own]

end

namespace Held

/-- A hit, with what the cache answers to it. -/
def performed (h : Held) (inputs : Inputs) : Option (DcRequest × BitVec 64) :=
  if h.system.dc.serves inputs.dc then some (inputs.dc, (h.step inputs).system.dc.pProcDataOut)
  else none

theorem tracked_now {h : Held} {inputs : Inputs} (tracked : h.system.Tracked h.request)
    (legal : h.Legal inputs) :
    h.system.Tracked inputs.dc ∧ h.system.memory inputs.dc = h.system.memory h.request := by
  by_cases idle : h.system.dc.pState = .a
  · exact ⟨tracked.switch idle inputs.dc, memory_switch idle ..⟩
  · rw [legal.2 idle]
    exact ⟨tracked, rfl⟩

/-- In every run from a coherent state the hits are accesses of one memory. -/
theorem replies (m : MemorySystem) (coherent : m.Coherent) (request : DcRequest)
    (inputs : List Inputs)
    (legal : Runs.Guarded step Legal { system := m, request := request } inputs) :
    lineMemory.Accepts (m.memory request)
      (Runs.emits step performed { system := m, request := request } inputs) := by
  refine Runs.Monitor.accepts_emits
    (fun h memory => h.system.Tracked h.request ∧ h.system.memory h.request = memory) ?_ ?_
    ⟨coherent.tracked request, rfl⟩ legal
  · rintro h inputs memory ⟨tracked, rfl⟩ legal silent
    obtain ⟨now, same⟩ := tracked_now tracked legal
    have quiet : h.system.dc.serves inputs.dc = false := by
      by_contra serves
      rw [Bool.not_eq_false] at serves
      simp [performed, serves] at silent
    refine ⟨now.step legal.1, ?_⟩
    change (h.system.step inputs.ic inputs.dc inputs.events).memory inputs.dc = _
    rw [now.memory_step_eq legal.1, quiet, ← same]
    rfl
  · rintro h inputs memory access ⟨tracked, rfl⟩ legal shown
    obtain ⟨now, same⟩ := tracked_now tracked legal
    cases serves : h.system.dc.serves inputs.dc with
    | false => simp [performed, serves] at shown
    | true =>
        rw [performed, serves, if_pos rfl, Option.some.injEq] at shown
        subst shown
        refine ⟨?_, now.step legal.1, ?_⟩
        · change (if h.system.dc.serves inputs.dc then _ else _) = _
          rw [serves, if_pos rfl, now.served_line serves, ← same]
        · change (h.system.step inputs.ic inputs.dc inputs.events).memory inputs.dc = _
          rw [now.memory_step_eq legal.1, serves, if_pos rfl, same]
          rfl

end Held

end MemorySystem

end Sparcy
