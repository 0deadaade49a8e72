import Sparcy.System

/-!
# Caches, arbiter and memory

The part of `Core.sv` and `system.cpp` behind the two processor-side cache
ports.  One step is a clock cycle that ends with a rising edge and the
`System::tick` after it.
-/

namespace Sparcy

structure MemorySystem where
  ic : ICache.Regs
  dc : DCache.Regs
  arbiter : Arbiter.State
  sys : System

namespace MemorySystem

def reset (ram : Ram) : MemorySystem :=
  { ic := ICache.reset, dc := DCache.reset, arbiter := .i, sys := System.reset ram }

/-- The request on the bus during the cycle. -/
def bus (m : MemorySystem) : BusRequest := Arbiter.bus m.arbiter m.ic.bus m.dc.bus

/-- What the instruction cache sees of the bus. -/
def icResponse (m : MemorySystem) (events : DramEvents) : BusResponse :=
  m.sys.response
    (Arbiter.icReqack m.arbiter m.ic.bus m.dc.bus (System.reqack events m.bus))

/-- What the data cache sees of the bus. -/
def dcResponse (m : MemorySystem) (events : DramEvents) : BusResponse :=
  m.sys.response
    (Arbiter.dcReqack m.arbiter m.ic.bus m.dc.bus (System.reqack events m.bus))

/-- The next cycle.  The tick sees the outputs of the registers just loaded. -/
def step (m : MemorySystem) (ip : IcRequest) (dp : DcRequest) (events : DramEvents) :
    MemorySystem :=
  let ic := m.ic.step ip (m.icResponse events)
  let dc := m.dc.step dp (m.dcResponse events)
  let arbiter := Arbiter.step m.arbiter m.ic.bus m.dc.bus
  { ic := ic
    dc := dc
    arbiter := arbiter
    sys := m.sys.tick events (ic.pRespack || dc.pRespack)
      (Arbiter.bus arbiter ic.bus dc.bus) }

/-- What `tick` asserts and what DRAMSim guarantees: a started burst is not
refused, only pending reads complete and each at most once, and a read whose
request was refused at this falling edge is not delivered yet. -/
structure Allowed (m : MemorySystem) (events : DramEvents) : Prop where
  burst : m.sys.rxCount ≠ 0 → events.accepts = true
  nodup : events.completed.Nodup
  pending : ∀ addr ∈ events.completed, (m.sys.findTag addr).isSome
  refused : m.bus.reqcyc = true → events.accepts = false →
    ∀ addr ∈ events.completed,
      ¬ (addr = m.bus.req ∧ m.sys.findTag addr = some m.bus.reqtag)

theorem allowed_iff {m : MemorySystem} {events : DramEvents} :
    m.Allowed events ↔
      (m.sys.rxCount ≠ 0 → events.accepts = true) ∧ events.completed.Nodup ∧
        (events.completed.all fun addr => (m.sys.findTag addr).isSome) = true ∧
        (m.bus.reqcyc = true → events.accepts = false → (events.completed.all fun addr =>
          !(addr == m.bus.req && m.sys.findTag addr == some m.bus.reqtag)) = true) := by
  constructor
  · rintro ⟨burst, nodup, pending, refused⟩
    refine ⟨burst, nodup, by simpa using pending, fun asks refuses => ?_⟩
    simpa [imp_iff_not_or] using refused asks refuses
  · rintro ⟨burst, nodup, pending, refused⟩
    refine ⟨burst, nodup, by simpa using pending, fun asks refuses => ?_⟩
    simpa [imp_iff_not_or] using refused asks refuses

instance (m : MemorySystem) (events : DramEvents) : Decidable (m.Allowed events) :=
  decidable_of_iff _ allowed_iff.symm

theorem allowed_completing (m : MemorySystem) : m.Allowed (.completing []) where
  burst _ := rfl
  nodup := List.nodup_nil
  pending _ member := by cases member
  refused _ refuses := by cases refuses

end MemorySystem

end Sparcy
