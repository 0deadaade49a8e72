import Mathlib.Logic.Function.Basic
import Mathlib.Tactic.Common

/-!
# Write-back caches

A direct-mapped cache in front of a backing store.  A set is modified in place and saved
later; while a set is claimed for another line it does not count.  Only a store changes
the memory that the two make up together.
-/

namespace WriteBack

variable {Row Tag Data : Type*}

/-- The sets, the lines behind them, and the set that is being refilled. -/
@[ext]
structure Lines (Row Tag Data : Type*) where
  data : Row → Data
  tags : Row → Tag
  dirty : Row → Bool
  backing : Row → Tag → Data
  claimed : Option Row

namespace Lines

/-- The set has its line as the backing store does. -/
def Clean (c : Lines Row Tag Data) (i : Row) : Prop := c.data i = c.backing i (c.tags i)

/-- A set that is not dirty is clean. -/
def Sound (c : Lines Row Tag Data) : Prop :=
  ∀ i, c.dirty i = false → c.claimed ≠ some i → c.Clean i

variable {c : Lines Row Tag Data} {i : Row}

/-! ### Operations -/

def claim (c : Lines Row Tag Data) (i : Row) : Lines Row Tag Data := { c with claimed := some i }

def release (c : Lines Row Tag Data) : Lines Row Tag Data := { c with claimed := none }

theorem Sound.claim (sound : c.Sound) (free : c.claimed = none) : (c.claim i).Sound := by
  intro j clean _
  exact sound j clean (by simp [free])

section

variable [DecidableEq Row]

def store (c : Lines Row Tag Data) (i : Row) (d : Data) : Lines Row Tag Data :=
  { c with data := Function.update c.data i d, dirty := Function.update c.dirty i true }

def rename (c : Lines Row Tag Data) (i : Row) (t : Tag) : Lines Row Tag Data :=
  { c with tags := Function.update c.tags i t, dirty := Function.update c.dirty i false }

def fill (c : Lines Row Tag Data) (i : Row) (d : Data) : Lines Row Tag Data :=
  { c with data := Function.update c.data i d }

theorem Sound.store (sound : c.Sound) (d : Data) : (c.store i d).Sound := by
  intro j clean present
  by_cases here : j = i
  · subst here
    simp [Lines.store] at clean
  · simp only [Lines.store, Clean, Function.update_of_ne here] at clean ⊢
    exact sound j clean present

theorem Sound.rename (sound : c.Sound) (claimed : c.claimed = some i) (s : Tag) :
    (c.rename i s).Sound := by
  intro j clean present
  have other : j ≠ i := by
    rintro rfl
    exact present claimed
  simp only [Lines.rename, Clean, Function.update_of_ne other] at clean ⊢
  exact sound j clean present

theorem Sound.fill (sound : c.Sound) (claimed : c.claimed = some i) (d : Data) :
    (c.fill i d).Sound := by
  intro j clean present
  have other : j ≠ i := by
    rintro rfl
    exact present claimed
  simp only [Lines.fill, Clean, Function.update_of_ne other] at clean ⊢
  exact sound j clean present

theorem Sound.release (sound : c.Sound) (claimed : c.claimed = some i) (clean : c.Clean i) :
    c.release.Sound := by
  intro j unmodified _
  by_cases here : j = i
  · subst here
    exact clean
  · exact sound j unmodified (by rw [claimed]; simpa using Ne.symm here)

end

/-! ### The memory -/

variable [DecidableEq Row] [DecidableEq Tag]

/-- What the sets and the backing store make up. -/
def memory (c : Lines Row Tag Data) (i : Row) (t : Tag) : Data :=
  if c.tags i = t ∧ c.claimed ≠ some i then c.data i else c.backing i t

/-- Part of the line of a set reaches the backing store. -/
def save (c : Lines Row Tag Data) (i : Row) (d : Data) : Lines Row Tag Data :=
  { c with backing := Function.update c.backing i (Function.update (c.backing i) (c.tags i) d) }

theorem Sound.save (sound : c.Sound) (modified : c.dirty i = true) (d : Data) :
    (c.save i d).Sound := by
  intro j clean present
  have other : j ≠ i := by
    rintro rfl
    exact absurd (modified.symm.trans clean) (by decide)
  simp only [Lines.save, Clean, Function.update_of_ne other] at clean ⊢
  exact sound j clean present

theorem memory_of_found (found : c.claimed ≠ some i) : c.memory i (c.tags i) = c.data i :=
  if_pos ⟨rfl, found⟩

theorem memory_store (present : c.claimed ≠ some i) (d : Data) (j : Row) (t : Tag) :
    (c.store i d).memory j t = if j = i ∧ t = c.tags i then d else c.memory j t := by
  unfold memory store
  by_cases here : j = i
  · subst here
    by_cases named : t = c.tags j
    · simp [named, present]
    · simp [named, Ne.symm named]
  · simp [here]

theorem memory_save (present : c.claimed ≠ some i) (d : Data) (j : Row) (t : Tag) :
    (c.save i d).memory j t = c.memory j t := by
  unfold memory save
  by_cases here : j = i
  · subst here
    by_cases named : t = c.tags j
    · simp [named, present]
    · simp [named, Ne.symm named]
  · simp [here]

theorem memory_claim (clean : c.Clean i) (free : c.claimed = none) (j : Row) (t : Tag) :
    (c.claim i).memory j t = c.memory j t := by
  unfold memory claim
  by_cases here : j = i
  · subst here
    by_cases named : t = c.tags j
    · subst named
      simpa [free] using clean.symm
    · simp [Ne.symm named]
  · simp [free, Ne.symm here]

theorem memory_rename (claimed : c.claimed = some i) (s : Tag) (j : Row) (t : Tag) :
    (c.rename i s).memory j t = c.memory j t := by
  unfold memory rename
  by_cases here : j = i
  · simp [here, claimed]
  · simp [here]

theorem memory_fill (claimed : c.claimed = some i) (d : Data) (j : Row) (t : Tag) :
    (c.fill i d).memory j t = c.memory j t := by
  unfold memory fill
  by_cases here : j = i
  · simp [here, claimed]
  · simp [here]

theorem memory_release (claimed : c.claimed = some i) (clean : c.Clean i) (j : Row) (t : Tag) :
    c.release.memory j t = c.memory j t := by
  unfold memory release
  by_cases here : j = i
  · subst here
    by_cases named : t = c.tags j
    · subst named
      simpa [claimed, Clean] using clean
    · simp [Ne.symm named]
  · have other : some i ≠ some j := by simpa using Ne.symm here
    simp [claimed, other]

end Lines

end WriteBack
