import Sparcy.Library.Runs

/-!
# The potential method

A step of a busy machine uses up potential unless it is excused.  The machine is then idle
at some point of every run that has more steps than its potential and its excused steps
together.
-/

namespace Runs

variable {State Input : Type*}

/-- The number of steps of a run that a test marks. -/
def count (step : State → Input → State) (marks : State → Input → Bool) :
    State → List Input → Nat
  | _, [] => 0
  | state, input :: inputs => (marks state input).toNat + count step marks (step state input) inputs

section

variable {step : State → Input → State} {marks excused : State → Input → Bool}
variable {good : State → Input → Prop} {busy invariant : State → Prop} {potential : State → Nat}

@[simp]
theorem count_nil (state : State) : count step marks state [] = 0 := rfl

@[simp]
theorem count_cons (state : State) (input : Input) (inputs : List Input) :
    count step marks state (input :: inputs) =
      (marks state input).toNat + count step marks (step state input) inputs := rfl

/-- A run that starts busy and does not stay so has a first step that leaves the busy
states. -/
theorem exists_exit {state : State} {inputs : List Input} (start : busy state)
    (ends : ¬ Always step busy state inputs) :
    ∃ first input second, inputs = first ++ input :: second ∧ Always step busy state first ∧
      ¬ busy (run step state (first ++ [input])) := by
  induction inputs generalizing state with
  | nil => exact absurd start ends
  | cons input inputs induction =>
      by_cases next : busy (step state input)
      · obtain ⟨first, exit, second, split, always, left⟩ :=
          induction next (fun always => ends ⟨start, always⟩)
        exact ⟨input :: first, exit, second, by rw [split, List.cons_append], ⟨start, always⟩, left⟩
      · exact ⟨[], input, inputs, rfl, start, next⟩

/-- While the machine stays busy the steps are paid out of the potential, except for the
excused ones. -/
theorem Guarded.length_le
    (preserved : ∀ state input, invariant state → good state input →
      invariant (step state input))
    (descends : ∀ state input, invariant state → good state input → busy state →
      busy (step state input) →
      potential (step state input) + 1 ≤ potential state + (excused state input).toNat)
    {state : State} {inputs : List Input} (initial : invariant state)
    (guarded : Guarded step good state inputs) (always : Always step busy state inputs) :
    inputs.length + potential (run step state inputs) ≤
      potential state + count step excused state inputs := by
  induction inputs generalizing state with
  | nil => simp
  | cons input inputs induction =>
      have now := descends state input initial guarded.1 always.1 always.2.head
      have later := induction (preserved state input initial guarded.1) guarded.2 always.2
      rw [List.length_cons, count_cons, run_cons]
      omega

/-- Marked steps that use up potential are at most as many as the potential. -/
theorem Guarded.count_le
    (preserved : ∀ state input, invariant state → good state input →
      invariant (step state input))
    (descends : ∀ state input, invariant state → good state input →
      potential (step state input) + (marks state input).toNat ≤ potential state)
    {state : State} {inputs : List Input} (initial : invariant state)
    (guarded : Guarded step good state inputs) : count step marks state inputs ≤ potential state := by
  induction inputs generalizing state with
  | nil => exact Nat.zero_le _
  | cons input inputs induction =>
      have now := descends state input initial guarded.1
      have later := induction (preserved state input initial guarded.1) guarded.2
      rw [count_cons]
      omega

/-- Bounded waiting. -/
theorem Guarded.exit
    (preserved : ∀ state input, invariant state → good state input →
      invariant (step state input))
    (descends : ∀ state input, invariant state → good state input → busy state →
      busy (step state input) →
      potential (step state input) + 1 ≤ potential state + (excused state input).toNat)
    {state : State} {inputs : List Input} (initial : invariant state)
    (guarded : Guarded step good state inputs) (start : busy state)
    (long : potential state + count step excused state inputs < inputs.length) :
    ∃ first input second, inputs = first ++ input :: second ∧ Always step busy state first ∧
      ¬ busy (run step state (first ++ [input])) := by
  apply exists_exit start
  intro always
  have short := guarded.length_le preserved descends initial always
  omega

/-- What was left once and for all at some point of a run is not there at its end. -/
theorem Guarded.always_of_last
    (preserved : ∀ state input, invariant state → good state input →
      invariant (step state input))
    (stays : ∀ state input, invariant state → good state input → ¬ busy state →
      ¬ busy (step state input))
    {state : State} {inputs : List Input} (initial : invariant state)
    (guarded : Guarded step good state inputs) (last : busy (run step state inputs)) :
    Always step busy state inputs := by
  induction inputs generalizing state with
  | nil => exact last
  | cons input inputs induction =>
      have later := induction (preserved state input initial guarded.1) guarded.2 last
      refine ⟨?_, later⟩
      by_contra idle
      exact stays state input initial guarded.1 idle later.head

/-- A machine that does not become busy again is idle at the end of every run that is long
enough. -/
theorem Guarded.settles
    (preserved : ∀ state input, invariant state → good state input →
      invariant (step state input))
    (stays : ∀ state input, invariant state → good state input → ¬ busy state →
      ¬ busy (step state input))
    (descends : ∀ state input, invariant state → good state input → busy state →
      potential (step state input) + 1 ≤ potential state + (excused state input).toNat)
    {state : State} {inputs : List Input} (initial : invariant state)
    (guarded : Guarded step good state inputs)
    (long : potential state + count step excused state inputs < inputs.length) :
    ¬ busy (run step state inputs) := by
  intro last
  have paid := guarded.length_le preserved
    (fun state input holds good busy _ => descends state input holds good busy) initial
    (guarded.always_of_last preserved stays initial last)
  omega

end

end Runs
