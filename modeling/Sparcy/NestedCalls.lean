import Sparcy.WindowModel

/-!
# Calls and register windows

There are no window traps: a `SAVE` moves to the previous window and a `RESTORE` back,
modulo 32.  The windows of a call tree that is 30 deep do not reach the locals and ins
of the caller.
-/

namespace Sparcy

namespace RegFile

/-- An edge that stays in its window. -/
def Edge.Stays (edge : Edge) : Prop := edge.cwpInc = false ∧ edge.cwpDec = false

/-- The edges of a `SAVE` and of a `RESTORE`. -/
def Edge.IsSave (edge : Edge) : Prop := edge.cwpInc = false ∧ edge.cwpDec = true

def Edge.IsRestore (edge : Edge) : Prop := edge.cwpInc = true ∧ edge.cwpDec = false

/-- Properly nested edges, at most `n` calls deep. -/
inductive Nested : Nat → List Edge → Prop
  | nil (n : Nat) : Nested n []
  | write {n : Nat} {edge : Edge} {rest : List Edge} (legal : edge.Legal)
      (stays : edge.Stays) (later : Nested n rest) : Nested n (edge :: rest)
  | call {n : Nat} {save restore : Edge} {body rest : List Edge} (enters : save.IsSave)
      (legal : save.Legal) (inner : Nested n body) (leaves : restore.IsRestore)
      (legal' : restore.Legal) (later : Nested (n + 1) rest) :
      Nested (n + 1) (save :: body ++ restore :: rest)

/-- How far a row is above the outs of a window. -/
def above (cwp : BitVec 5) (row : BitVec 9) : Nat := (row - 16 * cwp.setWidth 9).toNat

theorem above_sub_one (cwp : BitVec 5) (row : BitVec 9) :
    above (cwp - 1) row = (above cwp row + 16) % 512 := by
  have bound := cwp.isLt
  have bound' := row.isLt
  simp only [above, BitVec.toNat_sub, BitVec.toNat_mul, BitVec.toNat_setWidth,
    BitVec.ofNat_eq_ofNat, BitVec.toNat_ofNat]
  omega

theorem above_windowIndex (cwp r : BitVec 5) (windowed : 8 ≤ r.toNat) :
    above cwp (windowIndex cwp (r.setWidth 6)) = r.toNat - 8 := by
  have bound := r.isLt
  have bound' := cwp.isLt
  have index := Windows.toNat_windowIndex cwp r windowed
  rw [above, BitVec.toNat_sub, index]
  simp only [BitVec.toNat_mul, BitVec.toNat_setWidth, BitVec.ofNat_eq_ofNat, BitVec.toNat_ofNat]
  omega

section

variable {rf : RegFile} {row : BitVec 9}

/-- A register number reaches 24 rows of its window. -/
theorem writeFirst_of_above (r : BitVec 5) (value : BitVec 32) (far : 24 ≤ above rf.cwp row) :
    (rf.writeFirst r value).generalRegister row = rf.generalRegister row := by
  have bound := r.isLt
  rw [writeFirst]
  split
  · split <;> rfl
  · rename_i windowed
    have low : 8 ≤ r.toNat := by
      rw [BitVec.le_def] at windowed
      exact Nat.lt_of_not_le windowed
    have apart : row ≠ windowIndex rf.cwp (r.setWidth 6) := by
      rintro rfl
      rw [above_windowIndex _ _ low] at far
      omega
    exact Function.update_of_ne apart ..

theorem clock_of_above {edge : Edge} (legal : edge.Legal) (far : 24 ≤ above rf.cwp row) :
    (rf.clock edge).generalRegister row = rf.generalRegister row := by
  change (rf.writeRegs edge.wb).generalRegister row = _
  rw [writeRegs]
  cases edge.wb.regEn with
  | false => rfl
  | true =>
      cases double : edge.wb.regDoubleEn with
      | false => simpa using writeFirst_of_above _ _ far
      | true =>
          simp only [if_true, writeNext_of_even _ _ (legal.even double)]
          rw [writeFirst_of_above, writeFirst_of_above _ _ far]
          rwa [writeFirst_cwp]

theorem clock_cwp (edge : Edge) :
    (rf.clock edge).cwp = rf.nextCwp edge.cwpInc edge.cwpDec := rfl

/-- A call tree returns to its window, and the rows that none of its windows reaches
stay as they are. -/
theorem Nested.run {n : Nat} {edges : List Edge} (nested : Nested n edges) (row : BitVec 9)
    (rf : RegFile) :
    (Runs.run clock rf edges).cwp = rf.cwp ∧
      (24 ≤ above rf.cwp row → above rf.cwp row + 16 * n < 512 →
        (Runs.run clock rf edges).generalRegister row = rf.generalRegister row) := by
  induction nested generalizing rf with
  | nil => exact ⟨rfl, fun _ _ => rfl⟩
  | write legal stays later induction =>
      rename_i n edge rest
      have window : (rf.clock edge).cwp = rf.cwp := by
        rw [clock_cwp, stays.1, stays.2]
        rfl
      obtain ⟨cwp, kept⟩ := induction (rf.clock edge)
      rw [Runs.run_cons]
      refine ⟨cwp.trans window, fun far near => ?_⟩
      rw [window] at kept
      rw [kept far near, clock_of_above legal far]
  | call enters legal inner leaves legal' later bodyInduction restInduction =>
      rename_i n save restore body rest
      have entered : (rf.clock save).cwp = rf.cwp - 1 := by
        rw [clock_cwp, enters.1, enters.2]
        rfl
      obtain ⟨cwp, kept⟩ := bodyInduction (rf.clock save)
      obtain ⟨cwp', kept'⟩ := restInduction ((Runs.run clock (rf.clock save) body).clock restore)
      have left : ((Runs.run clock (rf.clock save) body).clock restore).cwp = rf.cwp := by
        rw [clock_cwp, leaves.1, leaves.2]
        change (Runs.run clock (rf.clock save) body).cwp + 1 = rf.cwp
        rw [cwp, entered]
        exact BitVec.sub_add_cancel rf.cwp 1
      rw [List.cons_append, Runs.run_cons, Runs.run_append, Runs.run_cons]
      refine ⟨cwp'.trans left, fun far near => ?_⟩
      have moved : above (rf.cwp - 1) row = above rf.cwp row + 16 := by
        rw [above_sub_one]
        omega
      rw [left] at kept'
      rw [entered, moved] at kept
      rw [kept' far near, clock_of_above legal', kept (by omega) (by omega),
        clock_of_above legal far]
      rw [cwp, entered, moved]
      omega

theorem read_congr {before after : RegFile} {r : BitVec 5} (windowed : 8 ≤ r.toNat)
    (cwp : after.cwp = before.cwp)
    (kept : after.generalRegister (windowIndex before.cwp (r.setWidth 6)) =
      before.generalRegister (windowIndex before.cwp (r.setWidth 6))) :
    after.read r = before.read r := by
  have high : ¬ r ≤ 7 := by
    rw [BitVec.le_def]
    exact Nat.not_le_of_lt windowed
  rw [read, read, if_neg high, if_neg high, cwp, kept]

@[simp]
theorem writeBack_cwp (wb : WBOut) : (rf.writeBack wb).cwp = rf.cwp := by
  change (rf.writeRegs wb).cwp = rf.cwp
  have next : ∀ (rf : RegFile) (r : BitVec 5) (value : BitVec 32),
      (rf.writeNext r value).cwp = rf.cwp := by
    intro rf r value
    rw [writeNext]
    split
    · split <;> rfl
    · rfl
  rw [writeRegs]
  split
  · dsimp only
    split
    · rw [next, writeFirst_cwp]
    · rw [writeFirst_cwp]
  · rfl

end

/-- Edges that only move the window, and one that only writes `%o0`. -/
def saveEdge : Edge := ⟨⟨false, false, 0, 0, false, false, 0⟩, false, true⟩

def restoreEdge : Edge := ⟨⟨false, false, 0, 0, false, false, 0⟩, true, false⟩

def writeO0 (value : BitVec 32) : Edge :=
  ⟨⟨true, false, value.setWidth 64, 8, false, false, 0⟩, false, false⟩

/-- After a call of depth 30 the locals and ins of the caller are read as after the
`SAVE`'s own edge, which still writes in the window of the caller, and the outs of the
caller are the ins that the callee starts with. -/
theorem nested_calls_keep_caller (rf : RegFile) {save restore : Edge} {body : List Edge}
    (enters : save.IsSave) (legal : save.Legal) (inner : Nested 29 body)
    (leaves : restore.IsRestore) (legal' : restore.Legal) :
    (∀ r : BitVec 5, 16 ≤ r.toNat →
        (Runs.run clock rf (save :: body ++ [restore])).read r = (rf.writeBack save.wb).read r) ∧
      (∀ r : BitVec 5, 8 ≤ r.toNat → r.toNat < 16 →
        (rf.clock save).read (r + 16) = (rf.writeBack save.wb).read r) ∧
      (save.wb.regEn = false → ∀ r : BitVec 5, (rf.writeBack save.wb).read r = rf.read r) := by
  have entered : (rf.clock save).cwp = rf.cwp - 1 := by
    rw [clock_cwp, enters.1, enters.2]
    rfl
  refine ⟨?_, ?_, ?_⟩
  · intro r windowed
    have bound := r.isLt
    have tree : Nested 30 (save :: body ++ [restore]) :=
      .call enters legal inner leaves legal' (.nil 30)
    apply read_congr (by omega)
    · rw [writeBack_cwp]
      exact (tree.run 0 rf).1
    · rw [writeBack_cwp]
      have place := above_windowIndex rf.cwp r (by omega)
      have moved : above (rf.cwp - 1) (windowIndex rf.cwp (r.setWidth 6)) = r.toNat + 8 := by
        rw [above_sub_one]
        omega
      have body' := inner.run (windowIndex rf.cwp (r.setWidth 6)) (rf.clock save)
      rw [entered, moved] at body'
      rw [List.cons_append, Runs.run_cons, Runs.run_append, Runs.run_cons, Runs.run_nil,
        clock_of_above legal', body'.2 (by omega) (by omega)]
      · rfl
      · rw [body'.1, moved]
        omega
  · intro r out low
    have bound := r.isLt
    have wrapped : (r + 16).toNat = r.toNat + 16 := by
      rw [BitVec.toNat_add]
      change (r.toNat + 16) % 32 = _
      omega
    have high : ¬ r + 16 ≤ 7 := by
      rw [BitVec.le_def, wrapped]
      exact Nat.not_le_of_lt (show 7 < r.toNat + 16 by omega)
    have high' : ¬ r ≤ 7 := by
      rw [BitVec.le_def]
      exact Nat.not_le_of_lt (show 7 < r.toNat by omega)
    rw [read, read, if_neg high, if_neg high', entered, writeBack_cwp]
    have same : windowIndex (rf.cwp - 1) ((r + 16).setWidth 6) =
        windowIndex rf.cwp (r.setWidth 6) := by
      apply BitVec.eq_of_toNat_eq
      rw [Windows.toNat_windowIndex _ _ (by omega), Windows.toNat_windowIndex _ _ (by omega),
        wrapped, BitVec.toNat_sub]
      have bound' := rf.cwp.isLt
      change (16 * ((2 ^ 5 - 1 + rf.cwp.toNat) % 32) + _) % 512 = _
      omega
    rw [same]
    rfl
  · intro silent r
    have kept : rf.writeRegs save.wb = rf := by rw [writeRegs, silent]; rfl
    simp only [writeBack, kept]
    rfl

/-- A call whose body writes `%o0` and calls once more. -/
theorem nested_calls_keep_caller_write :
    (∀ r : BitVec 5, 16 ≤ r.toNat →
        (Runs.run clock reset (saveEdge :: [writeO0 5, saveEdge, writeO0 7, restoreEdge] ++
          [restoreEdge])).read r = (reset.writeBack saveEdge.wb).read r) ∧
      (∀ r : BitVec 5, 8 ≤ r.toNat → r.toNat < 16 →
        (reset.clock saveEdge).read (r + 16) = (reset.writeBack saveEdge.wb).read r) ∧
      (saveEdge.wb.regEn = false →
        ∀ r : BitVec 5, (reset.writeBack saveEdge.wb).read r = reset.read r) :=
  nested_calls_keep_caller reset ⟨rfl, rfl⟩ (by decide)
    (.write (by decide) ⟨rfl, rfl⟩
      (.call ⟨rfl, rfl⟩ (by decide) (.write (by decide) ⟨rfl, rfl⟩ (.nil 28)) ⟨rfl, rfl⟩
        (by decide) (.nil 29)))
    ⟨rfl, rfl⟩ (by decide)

/-- `n` calls inside each other around one edge. -/
def tower (edge : Edge) : Nat → List Edge
  | 0 => [edge]
  | n + 1 => saveEdge :: tower edge n ++ [restoreEdge]

theorem nested_tower {edge : Edge} (legal : edge.Legal) (stays : edge.Stays) (n : Nat) :
    Nested n (tower edge n) := by
  induction n with
  | zero => exact .write legal stays (.nil 0)
  | succ n induction =>
      exact .call ⟨rfl, rfl⟩ (by decide) induction ⟨rfl, rfl⟩ (by decide) (.nil _)

/-- The innermost write goes to the window `n` below. -/
theorem run_tower (edge : Edge) (n : Nat) (rf : RegFile) :
    (Runs.run clock rf (tower edge n)).generalRegister =
      (({ rf with cwp := rf.cwp - BitVec.ofNat 5 n } : RegFile).writeRegs edge.wb).generalRegister := by
  induction n generalizing rf with
  | zero =>
      have same : rf.cwp - BitVec.ofNat 5 0 = rf.cwp := BitVec.sub_zero rf.cwp
      rw [same]
      rfl
  | succ n induction =>
      have saved : rf.clock saveEdge = { rf with cwp := rf.cwp - 1 } := rfl
      have window : rf.cwp - 1 - BitVec.ofNat 5 n = rf.cwp - BitVec.ofNat 5 (n + 1) := by
        bv_omega
      rw [tower, List.cons_append, Runs.run_cons, Runs.run_append, Runs.run_cons, Runs.run_nil,
        saved]
      change (Runs.run clock { rf with cwp := rf.cwp - 1 } (tower edge n)).generalRegister = _
      rw [induction, window]

/-- Depth 31 is too deep: the innermost outs are the ins of the caller. -/
theorem tower_overwrites_caller (rf : RegFile) (value : BitVec 32) :
    (Runs.run clock rf (tower (writeO0 value) 31)).read 24 = value := by
  have legal : (writeO0 value).Legal := ⟨by simp [writeO0], by simp [writeO0]⟩
  have window := ((nested_tower legal ⟨rfl, rfl⟩ 31).run 0 rf).1
  have wrapped : rf.cwp - 31 = rf.cwp + 1 := by bv_omega
  have place : windowIndex rf.cwp ((24 : BitVec 5).setWidth 6) =
      windowIndex (rf.cwp + 1) ((8 : BitVec 5).setWidth 6) := by
    apply BitVec.eq_of_toNat_eq
    rw [Windows.toNat_windowIndex _ _ (by decide), Windows.toNat_windowIndex _ _ (by decide),
      BitVec.toNat_add]
    change (16 * rf.cwp.toNat + 16) % 512 = (16 * ((rf.cwp.toNat + 1) % 32) + 0) % 512
    omega
  have memory := run_tower (writeO0 value) 31 rf
  change (if (24 : BitVec 5) ≤ 7 then _ else _) = value
  rw [if_neg (by decide), window, memory, place]
  change Function.update rf.generalRegister (windowIndex (rf.cwp - 31) ((8 : BitVec 5).setWidth 6))
    ((value.setWidth 64).setWidth 32) (windowIndex (rf.cwp + 1) ((8 : BitVec 5).setWidth 6)) = value
  rw [wrapped, Function.update_self]
  exact BitVec.setWidth_setWidth_of_le value (by decide)

end RegFile

end Sparcy
