import Mathlib.Data.List.Induction
import Mathlib.Tactic.Common

/-!
# The residents of a direct-mapped cache

Which line each place of a direct-mapped cache has after a list of accesses, and whether it
was stored into since it came.  A store leaves the cache with a later access to another line
of its place, so no resident is stored into if every store is followed by one.
-/

namespace Residents

variable {Line Place : Type*}

/-- A load or a store of a line. -/
structure Access (Line : Type*) where
  line : Line
  store : Bool
deriving DecidableEq

/-- The line in a place.  `fetched` tells it from the line that the place has at first. -/
structure Resident (Line : Type*) where
  line : Line
  stored : Bool
  fetched : Bool

section

variable {place : Line → Place} {accesses reached : List (Access Line)} {a : Access Line}

variable (place) in
/-- Every store is followed by an access to another line of its place, among those that the
cache has reached. -/
def Evicted (accesses reached : List (Access Line)) : Prop :=
  ∀ (k : Nat) (inside : k < accesses.length), (accesses.get ⟨k, inside⟩).store = true →
    ∃ b ∈ reached.drop (k + 1), place b.line = place (accesses.get ⟨k, inside⟩).line ∧
      b.line ≠ (accesses.get ⟨k, inside⟩).line

instance [DecidableEq Line] [DecidableEq Place] (accesses reached : List (Access Line)) :
    Decidable (Evicted place accesses reached) :=
  inferInstanceAs (Decidable (∀ k, ∀ _ : k < accesses.length, _))

theorem Evicted.exists_later (evicted : Evicted place accesses reached)
    {earlier later : List (Access Line)} (split : accesses = earlier ++ a :: later)
    (store : a.store = true) :
    ∃ b ∈ reached.drop (earlier.length + 1), place b.line = place a.line ∧ b.line ≠ a.line := by
  have inside : earlier.length < accesses.length := by simp [split]
  have here : accesses.get ⟨earlier.length, inside⟩ = a := by simp [split]
  have found := evicted earlier.length inside
  rw [here] at found
  exact found store

/-- What the cache has not gone beyond is no store. -/
theorem Evicted.not_store (evicted : Evicted place accesses reached)
    {earlier later : List (Access Line)} (split : accesses = earlier ++ a :: later)
    (late : reached.length ≤ earlier.length + 1) : a.store = false := by
  by_contra store
  obtain ⟨b, member, -⟩ := evicted.exists_later split (by simpa using store)
  rw [List.drop_eq_nil_of_le late] at member
  cases member

end

section

variable [DecidableEq Line]

/-- A hit keeps the line, and a miss replaces it. -/
def Resident.visit (r : Resident Line) (a : Access Line) : Resident Line :=
  if a.line = r.line then { r with stored := r.stored || a.store }
  else { line := a.line, stored := a.store, fetched := true }

@[simp]
theorem Resident.visit_line (r : Resident Line) (a : Access Line) : (r.visit a).line = a.line := by
  rw [visit]
  split
  · exact (‹a.line = r.line›).symm
  · rfl

theorem Resident.visit_of_hit {r : Resident Line} {a : Access Line} (hit : a.line = r.line) :
    r.visit a = { r with stored := r.stored || a.store } := if_pos hit

theorem Resident.visit_of_miss {r : Resident Line} {a : Access Line} (miss : a.line ≠ r.line) :
    r.visit a = { line := a.line, stored := a.store, fetched := true } := if_neg miss

/-- A store is in its line as long as it stays. -/
theorem Resident.visit_stored_of_store (r : Resident Line) {a : Access Line}
    (store : a.store = true) : (r.visit a).stored = true := by
  rw [visit]
  split
  · exact Bool.or_eq_true_iff.mpr (.inr store)
  · exact store

end

section

variable [DecidableEq Line] [DecidableEq Place] {place : Line → Place} {first : Place → Line}
variable {accesses reached : List (Access Line)} {a : Access Line} {i : Place}

variable (place first) in
/-- What a place has after some accesses. -/
def resident (accesses : List (Access Line)) (i : Place) : Resident Line :=
  (accesses.filter fun a => place a.line = i).foldl Resident.visit
    { line := first i, stored := false, fetched := false }

@[simp]
theorem resident_nil (i : Place) :
    resident place first [] i = { line := first i, stored := false, fetched := false } := rfl

theorem resident_append_of_place (here : place a.line = i) :
    resident place first (accesses ++ [a]) i = (resident place first accesses i).visit a := by
  simp [resident, here]

theorem resident_append_of_other (other : place a.line ≠ i) :
    resident place first (accesses ++ [a]) i = resident place first accesses i := by
  simp [resident, other]

/-- A place without a miss has seen no line but its first one. -/
theorem lines_of_not_fetched (unfetched : (resident place first accesses i).fetched = false) :
    (resident place first accesses i).line = first i ∧
      ∀ a ∈ accesses, place a.line = i → a.line = first i := by
  induction accesses using List.reverseRecOn with
  | nil => exact ⟨rfl, fun a member => absurd member List.not_mem_nil⟩
  | append_singleton accesses last induction =>
      by_cases here : place last.line = i
      · rw [resident_append_of_place here] at unfetched ⊢
        by_cases hit : last.line = (resident place first accesses i).line
        · rw [Resident.visit_of_hit hit] at unfetched
          obtain ⟨line, lines⟩ := induction unfetched
          refine ⟨(Resident.visit_line _ _).trans (hit.trans line), fun a member here => ?_⟩
          rcases List.mem_append.mp member with earlier | now
          · exact lines a earlier here
          · rw [List.mem_singleton.mp now]
            exact hit.trans line
        · rw [Resident.visit_of_miss hit] at unfetched
          cases unfetched
      · rw [resident_append_of_other here] at unfetched ⊢
        obtain ⟨line, lines⟩ := induction unfetched
        refine ⟨line, fun a member place => ?_⟩
        rcases List.mem_append.mp member with earlier | now
        · exact lines a earlier place
        · rw [List.mem_singleton.mp now] at place
          exact absurd place here

/-- What is stored in a resident goes back to a store with no other line of the place behind
it. -/
theorem exists_store_of_stored (stored : (resident place first accesses i).stored = true) :
    ∃ earlier a later, accesses = earlier ++ a :: later ∧ a.store = true ∧
      place a.line = i ∧ (resident place first accesses i).line = a.line ∧
        ∀ b ∈ later, place b.line = i → b.line = a.line := by
  induction accesses using List.reverseRecOn with
  | nil => cases stored
  | append_singleton accesses last induction =>
      by_cases here : place last.line = i
      · rw [resident_append_of_place here, Resident.visit_line]
        rw [resident_append_of_place here] at stored
        cases store : last.store with
        | true =>
            exact ⟨accesses, last, [], rfl, store, here, rfl, fun b member =>
              absurd member List.not_mem_nil⟩
        | false =>
            by_cases hit : last.line = (resident place first accesses i).line
            · rw [Resident.visit_of_hit hit, store, Bool.or_false] at stored
              obtain ⟨earlier, a, later, split, stores, inside, line, same⟩ := induction stored
              refine ⟨earlier, a, later ++ [last], ?_, stores, inside, hit.trans line, ?_⟩
              · rw [split, List.append_assoc, List.cons_append]
              · intro b member place
                rcases List.mem_append.mp member with before | now
                · exact same b before place
                · rw [List.mem_singleton.mp now]
                  exact hit.trans line
            · rw [Resident.visit_of_miss hit, store] at stored
              cases stored
      · rw [resident_append_of_other here]
        rw [resident_append_of_other here] at stored
        obtain ⟨earlier, a, later, split, stores, inside, line, same⟩ := induction stored
        refine ⟨earlier, a, later ++ [last], ?_, stores, inside, line, ?_⟩
        · rw [split, List.append_assoc, List.cons_append]
        · intro b member place
          rcases List.mem_append.mp member with before | now
          · exact same b before place
          · rw [List.mem_singleton.mp now] at place
            exact absurd place here

theorem Evicted.not_stored (evicted : Evicted place accesses reached)
    (reaches : reached <+: accesses) (i : Place) :
    (resident place first reached i).stored = false := by
  by_contra stored
  obtain ⟨earlier, a, later, split, store, inside, -, same⟩ :=
    exists_store_of_stored (by simpa using stored)
  obtain ⟨rest, whole⟩ := reaches
  have position : accesses = earlier ++ a :: (later ++ rest) := by
    rw [← whole, split, List.append_assoc, List.cons_append]
  obtain ⟨b, member, here, other⟩ := evicted.exists_later position store
  have behind : reached.drop (earlier.length + 1) = later := by simp [split]
  rw [behind] at member
  exact other (same b member (here.trans inside))

/-- A place that has its first line still is not stored into. -/
theorem Evicted.not_store_of_not_fetched (evicted : Evicted place accesses reached)
    (unfetched : (resident place first reached i).fetched = false) (member : a ∈ accesses)
    (here : place a.line = i) (line : a.line = first i) : a.store = false := by
  by_contra store
  obtain ⟨earlier, later, split⟩ := List.append_of_mem member
  obtain ⟨b, later, same, other⟩ := evicted.exists_later split (by simpa using store)
  have first := (lines_of_not_fetched unfetched).2 b (List.mem_of_mem_drop later)
    (same.trans here)
  exact other (first.trans line.symm)

end

end Residents
