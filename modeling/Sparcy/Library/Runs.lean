import Mathlib.Tactic.Common

/-!
# Runs of a machine driven by inputs

A synchronous machine is a step function from a state and an input to the next
state.  This file has its runs over a list of inputs, the events that the steps
of a run emit, conditions on every step or on every state of a run, and the
rules by which a fact about one step becomes a fact about a run.
-/

namespace Runs

variable {State Input Event Abstract : Type*}

/-- The state after all inputs. -/
def run (step : State → Input → State) : State → List Input → State
  | state, [] => state
  | state, input :: inputs => run step (step state input) inputs

/-- The events of the steps, in order. -/
def emits (step : State → Input → State) (event : State → Input → Option Event) :
    State → List Input → List Event
  | _, [] => []
  | state, input :: inputs =>
      (event state input).toList ++ emits step event (step state input) inputs

/-- Every step of the run is taken under `good`. -/
def Guarded (step : State → Input → State) (good : State → Input → Prop) :
    State → List Input → Prop
  | _, [] => True
  | state, input :: inputs => good state input ∧ Guarded step good (step state input) inputs

/-- Every state of the run, the first and the last included, satisfies `holds`. -/
def Always (step : State → Input → State) (holds : State → Prop) : State → List Input → Prop
  | state, [] => holds state
  | state, input :: inputs => holds state ∧ Always step holds (step state input) inputs

instance decidableGuarded (step : State → Input → State) (good : State → Input → Prop)
    [∀ state input, Decidable (good state input)] :
    ∀ state inputs, Decidable (Guarded step good state inputs)
  | _, [] => .isTrue trivial
  | state, input :: inputs =>
      have := decidableGuarded step good (step state input) inputs
      inferInstanceAs (Decidable (good state input ∧ _))

instance decidableAlways (step : State → Input → State) (holds : State → Prop)
    [DecidablePred holds] : ∀ state inputs, Decidable (Always step holds state inputs)
  | state, [] => inferInstanceAs (Decidable (holds state))
  | state, input :: inputs =>
      have := decidableAlways step holds (step state input) inputs
      inferInstanceAs (Decidable (holds state ∧ _))

section

variable {step : State → Input → State} {event : State → Input → Option Event}
variable {good better : State → Input → Prop} {holds invariant : State → Prop}

@[simp]
theorem run_nil (state : State) : run step state [] = state := rfl

@[simp]
theorem run_cons (state : State) (input : Input) (inputs : List Input) :
    run step state (input :: inputs) = run step (step state input) inputs := rfl

theorem run_append (state : State) (first second : List Input) :
    run step state (first ++ second) = run step (run step state first) second := by
  induction first generalizing state with
  | nil => rfl
  | cons input first induction => exact induction (step state input)

@[simp]
theorem emits_nil (state : State) : emits step event state [] = [] := rfl

@[simp]
theorem emits_cons (state : State) (input : Input) (inputs : List Input) :
    emits step event state (input :: inputs) =
      (event state input).toList ++ emits step event (step state input) inputs := rfl

@[simp]
theorem guarded_nil (state : State) : Guarded step good state [] := trivial

@[simp]
theorem guarded_cons (state : State) (input : Input) (inputs : List Input) :
    Guarded step good state (input :: inputs) ↔
      good state input ∧ Guarded step good (step state input) inputs := Iff.rfl

@[simp]
theorem always_nil (state : State) : Always step holds state [] ↔ holds state := Iff.rfl

@[simp]
theorem always_cons (state : State) (input : Input) (inputs : List Input) :
    Always step holds state (input :: inputs) ↔
      holds state ∧ Always step holds (step state input) inputs := Iff.rfl

theorem Always.head {state : State} {inputs : List Input}
    (always : Always step holds state inputs) : holds state := by
  cases inputs with
  | nil => exact always
  | cons input inputs => exact always.1

theorem Always.last {state : State} {inputs : List Input}
    (always : Always step holds state inputs) : holds (run step state inputs) := by
  induction inputs generalizing state with
  | nil => exact always
  | cons input inputs induction => exact induction always.2

theorem Always.mono {weaker : State → Prop} (imp : ∀ state, holds state → weaker state)
    {state : State} {inputs : List Input} (always : Always step holds state inputs) :
    Always step weaker state inputs := by
  induction inputs generalizing state with
  | nil => exact imp state always
  | cons input inputs induction => exact ⟨imp state always.1, induction always.2⟩

theorem Guarded.mono (imp : ∀ state input, good state input → better state input)
    {state : State} {inputs : List Input} (guarded : Guarded step good state inputs) :
    Guarded step better state inputs := by
  induction inputs generalizing state with
  | nil => trivial
  | cons input inputs induction => exact ⟨imp state input guarded.1, induction guarded.2⟩

theorem guarded_append {state : State} {first second : List Input} :
    Guarded step good state (first ++ second) ↔
      Guarded step good state first ∧ Guarded step good (run step state first) second := by
  induction first generalizing state with
  | nil => simp
  | cons input first induction =>
      rw [List.cons_append, guarded_cons, induction, guarded_cons, run_cons, and_assoc]

theorem guarded_of_forall {inputs : List Input}
    (free : ∀ input ∈ inputs, ∀ state, good state input) (state : State) :
    Guarded step good state inputs := by
  induction inputs generalizing state with
  | nil => trivial
  | cons input inputs induction =>
      exact ⟨free input List.mem_cons_self state,
        induction (fun later member => free later (List.mem_cons_of_mem _ member)) _⟩

theorem Guarded.last {state : State} {inputs : List Input} {input : Input}
    (guarded : Guarded step good state (inputs ++ [input])) :
    good (run step state inputs) input := by
  induction inputs generalizing state with
  | nil => exact guarded.1
  | cons first inputs induction => exact induction guarded.2

/-- The invariant rule: what every step under `good` preserves holds of every
state of a guarded run. -/
theorem Guarded.always
    (preserved : ∀ state input, invariant state → good state input →
      invariant (step state input))
    {state : State} {inputs : List Input} (initial : invariant state)
    (guarded : Guarded step good state inputs) : Always step invariant state inputs := by
  induction inputs generalizing state with
  | nil => exact initial
  | cons input inputs induction =>
      exact ⟨initial, induction (preserved state input initial guarded.1) guarded.2⟩

/-- A guard may be strengthened by an invariant that it preserves. -/
theorem Guarded.strengthen
    (preserved : ∀ state input, invariant state → good state input →
      invariant (step state input))
    {state : State} {inputs : List Input} (initial : invariant state)
    (guarded : Guarded step good state inputs) :
    Guarded step (fun state input => invariant state ∧ good state input) state inputs := by
  induction inputs generalizing state with
  | nil => trivial
  | cons input inputs induction =>
      exact ⟨⟨initial, guarded.1⟩,
        induction (preserved state input initial guarded.1) guarded.2⟩

/-- Guards that agree where an invariant of all steps holds guard the same runs. -/
theorem guarded_congr (preserved : ∀ state input, invariant state → invariant (step state input))
    (same : ∀ state input, invariant state → (good state input ↔ better state input))
    {state : State} (initial : invariant state) (inputs : List Input) :
    Guarded step good state inputs ↔ Guarded step better state inputs := by
  induction inputs generalizing state with
  | nil => exact Iff.rfl
  | cons input inputs induction =>
      exact and_congr (same state input initial) (induction (preserved state input initial))

/-- The converse of the invariant rule: a run all of whose states are fine is
guarded when every step outside the guard leads to a state that is not. -/
theorem Always.guarded
    (preserved : ∀ state input, invariant state → good state input →
      invariant (step state input))
    (violates : ∀ state input, invariant state → ¬ good state input →
      ¬ holds (step state input))
    {state : State} {inputs : List Input} (initial : invariant state)
    (always : Always step holds state inputs) : Guarded step good state inputs := by
  induction inputs generalizing state with
  | nil => trivial
  | cons input inputs induction =>
      have fine : good state input := by
        by_contra bad
        exact violates state input initial bad always.2.head
      exact ⟨fine, induction (preserved state input initial fine) always.2⟩

/-- Simulation: a step with an event is one abstract step on that event, a silent
step changes nothing abstract.  The run is then the fold of its events. -/
theorem Guarded.simulates {abstraction : State → Abstract}
    {abstractStep : Abstract → Event → Abstract}
    (preserved : ∀ state input, invariant state → good state input →
      invariant (step state input))
    (commutes : ∀ state input, invariant state → good state input →
      abstraction (step state input) =
        (event state input).elim (abstraction state) (abstractStep (abstraction state)))
    {state : State} {inputs : List Input} (initial : invariant state)
    (guarded : Guarded step good state inputs) :
    abstraction (run step state inputs) =
      (emits step event state inputs).foldl abstractStep (abstraction state) := by
  induction inputs generalizing state with
  | nil => rfl
  | cons input inputs induction =>
      have rest := induction (preserved state input initial guarded.1) guarded.2
      rw [run_cons, rest, commutes state input initial guarded.1, emits_cons]
      cases event state input with
      | none => rfl
      | some value => rfl

/-- Conservation: when each step moves at most one item into a first-in first-out
content and at most one out of it, so does the run. -/
theorem Guarded.conserves {Item : Type*} {content : State → List Item}
    {enters leaves : State → Input → Option Item}
    (preserved : ∀ state input, invariant state → good state input →
      invariant (step state input))
    (moves : ∀ state input, invariant state → good state input →
      (leaves state input).toList ++ content (step state input) =
        content state ++ (enters state input).toList)
    {state : State} {inputs : List Input} (initial : invariant state)
    (guarded : Guarded step good state inputs) :
    emits step leaves state inputs ++ content (run step state inputs) =
      content state ++ emits step enters state inputs := by
  induction inputs generalizing state with
  | nil => simp
  | cons input inputs induction =>
      have rest := induction (preserved state input initial guarded.1) guarded.2
      rw [emits_cons, emits_cons, run_cons, List.append_assoc, rest, ← List.append_assoc,
        moves state input initial guarded.1, List.append_assoc]

theorem map_emits {Seen : Type*} (seen : Event → Seen) (state : State) (inputs : List Input) :
    (emits step event state inputs).map seen =
      emits step (fun state input => (event state input).map seen) state inputs := by
  induction inputs generalizing state with
  | nil => rfl
  | cons input inputs induction =>
      rw [emits_cons, emits_cons, List.map_append, induction]
      cases event state input <;> rfl

theorem filter_emits (keep : Event → Bool) (state : State) (inputs : List Input) :
    (emits step event state inputs).filter keep =
      emits step (fun state input => (event state input).filter keep) state inputs := by
  induction inputs generalizing state with
  | nil => rfl
  | cons input inputs induction =>
      rw [emits_cons, emits_cons, List.filter_append, induction]
      cases event state input with
      | none => rfl
      | some value => cases kept : keep value <;> simp [Option.filter, kept]

/-! ### Counting -/

/-- What grows by one with every event counts the events. -/
theorem length_emits {measure : State → Nat}
    (counts : ∀ state input,
      measure (step state input) = measure state + (event state input).toList.length)
    (state : State) (inputs : List Input) :
    measure (run step state inputs) = measure state + (emits step event state inputs).length := by
  induction inputs generalizing state with
  | nil => rfl
  | cons input inputs induction =>
      rw [run_cons, induction, counts, emits_cons, List.length_append, Nat.add_assoc]

theorem le_run {measure : State → Nat}
    (grows : ∀ state input, measure state ≤ measure (step state input))
    (state : State) (inputs : List Input) : measure state ≤ measure (run step state inputs) := by
  induction inputs generalizing state with
  | nil => exact Nat.le_refl _
  | cons input inputs induction =>
      exact Nat.le_trans (grows state input) (induction (step state input))

/-- What never shrinks is below a bound all along a run if it is at its end. -/
theorem Guarded.below {measure : State → Nat} {bound : Nat}
    (grows : ∀ state input, measure state ≤ measure (step state input))
    {state : State} {inputs : List Input} (guarded : Guarded step good state inputs)
    (last : measure (run step state inputs) < bound) :
    Guarded step (fun state input => good state input ∧ measure (step state input) < bound)
      state inputs := by
  induction inputs generalizing state with
  | nil => trivial
  | cons input inputs induction =>
      have later := le_run grows (step state input) inputs
      exact ⟨⟨guarded.1, Nat.lt_of_le_of_lt later last⟩, induction guarded.2 last⟩

/-! ### Machines with more state -/

section

variable {Detail : Type*} {detailed : Detail → Input → Detail} {view : Detail → State}

/-- A machine that does the same, and more, runs the same. -/
theorem run_view (commutes : ∀ detail input, view (detailed detail input) = step (view detail) input)
    (detail : Detail) (inputs : List Input) :
    view (run detailed detail inputs) = run step (view detail) inputs := by
  induction inputs generalizing detail with
  | nil => rfl
  | cons input inputs induction => rw [run_cons, induction, commutes, run_cons]

theorem emits_view
    (commutes : ∀ detail input, view (detailed detail input) = step (view detail) input)
    (detail : Detail) (inputs : List Input) :
    emits detailed (fun detail input => event (view detail) input) detail inputs =
      emits step event (view detail) inputs := by
  induction inputs generalizing detail with
  | nil => rfl
  | cons input inputs induction => rw [emits_cons, induction, commutes, emits_cons]

theorem guarded_view
    (commutes : ∀ detail input, view (detailed detail input) = step (view detail) input)
    (detail : Detail) (inputs : List Input) :
    Guarded detailed (fun detail input => good (view detail) input) detail inputs ↔
      Guarded step good (view detail) inputs := by
  induction inputs generalizing detail with
  | nil => exact Iff.rfl
  | cons input inputs induction => rw [guarded_cons, induction, commutes, guarded_cons]

end

end

/-! ### Monitors -/

/-- A safety specification for a list of events: what it has seen decides which
event it allows next. -/
structure Monitor (Memory Event : Type*) where
  allows : Memory → Event → Prop
  next : Memory → Event → Memory

namespace Monitor

variable {Memory : Type*}

/-- Every event of the list is allowed when it comes. -/
inductive Accepts (monitor : Monitor Memory Event) : Memory → List Event → Prop
  | nil (memory : Memory) : monitor.Accepts memory []
  | cons {memory : Memory} {event : Event} {events : List Event} :
      monitor.allows memory event → monitor.Accepts (monitor.next memory event) events →
        monitor.Accepts memory (event :: events)

theorem accepts_cons {monitor : Monitor Memory Event} {memory : Memory} {event : Event}
    {events : List Event} :
    monitor.Accepts memory (event :: events) ↔
      monitor.allows memory event ∧ monitor.Accepts (monitor.next memory event) events := by
  constructor
  · intro accepts
    cases accepts with
    | cons allowed rest => exact ⟨allowed, rest⟩
  · rintro ⟨allowed, rest⟩
    exact .cons allowed rest

theorem Accepts.last {monitor : Monitor Memory Event} {memory : Memory} {events : List Event}
    {event : Event} (accepts : monitor.Accepts memory (events ++ [event])) :
    monitor.allows (events.foldl monitor.next memory) event := by
  induction events generalizing memory with
  | nil =>
      rw [List.nil_append, accepts_cons] at accepts
      exact accepts.1
  | cons first events induction =>
      rw [List.cons_append, accepts_cons] at accepts
      exact induction accepts.2

instance decidableAccepts (monitor : Monitor Memory Event)
    [∀ memory event, Decidable (monitor.allows memory event)] :
    ∀ memory events, Decidable (monitor.Accepts memory events)
  | memory, [] => .isTrue (.nil memory)
  | memory, event :: events =>
      have := decidableAccepts monitor (monitor.next memory event) events
      decidable_of_iff _ accepts_cons.symm

/-- The events of a guarded run are accepted when a relation between the state and
the monitor's memory is kept by silent steps and advanced by the others. -/
theorem accepts_emits {step : State → Input → State} {event : State → Input → Option Event}
    {good : State → Input → Prop} {monitor : Monitor Memory Event}
    (tracks : State → Memory → Prop)
    (silent : ∀ state input memory, tracks state memory → good state input →
      event state input = none → tracks (step state input) memory)
    (visible : ∀ state input memory value, tracks state memory → good state input →
      event state input = some value →
      monitor.allows memory value ∧ tracks (step state input) (monitor.next memory value))
    {state : State} {memory : Memory} {inputs : List Input} (initial : tracks state memory)
    (guarded : Guarded step good state inputs) :
    monitor.Accepts memory (emits step event state inputs) := by
  induction inputs generalizing state memory with
  | nil => exact .nil memory
  | cons input inputs induction =>
      cases emitted : event state input with
      | none =>
          rw [emits_cons, emitted]
          exact induction (silent state input memory initial guarded.1 emitted) guarded.2
      | some value =>
          rw [emits_cons, emitted]
          have advanced := visible state input memory value initial guarded.1 emitted
          exact .cons advanced.1 (induction advanced.2 guarded.2)

end Monitor

end Runs
