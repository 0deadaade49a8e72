import Sparcy.GuestMemory
import Sparcy.Library.Runs

/-!
# Guest allocations

`do_brk` and `target_mmap` bump one pointer each, the break towards
`target_brk_limit` and the other from there towards `target_mmap_limit`.  The
ranges that they hand out are kept as ghost state.
-/

namespace Sparcy

open Extents (roundUp)

theorem le_roundUp_page (n : Nat) : n ≤ roundUp 4096 n := Extents.le_roundUp (by decide) n

theorem roundUp_page_lt (n : Nat) : roundUp 4096 n < n + 4096 := Extents.roundUp_lt (by decide) n

/-- A page is rounded up to in 32 bits, where the last addresses wrap to 0. -/
theorem toNat_targetPageAlign (x : BitVec 32) :
    (targetPageAlign x).toNat = roundUp 4096 x.toNat % 2 ^ 32 := by
  have mask : TARGET_PAGE_MASK = BitVec.allOnes 32 <<< 12 := by decide
  have bound := x.isLt
  rw [targetPageAlign, mask, Extents.toNat_and_shifted, roundUp, BitVec.toNat_sub,
    BitVec.toNat_add]
  change (2 ^ 32 - 1 + (x.toNat + 4096) % 2 ^ 32) % 2 ^ 32 / 4096 * 4096 = _
  omega

theorem toNat_hostPageAlign (x : BitVec 32) :
    (hostPageAlign x).toNat = roundUp 4096 x.toNat % 2 ^ 32 := by
  have mask : HOST_PAGE_MASK = BitVec.allOnes 64 <<< 12 := by decide
  have bound := x.isLt
  rw [hostPageAlign, mask, BitVec.toNat_setWidth, Extents.toNat_and_shifted, roundUp,
    BitVec.toNat_setWidth, BitVec.toNat_sub, BitVec.toNat_add]
  change (2 ^ 32 - 1 + (x.toNat + 4096) % 2 ^ 32) % 2 ^ 32 % 2 ^ 64 / 4096 * 4096 % 2 ^ 32 = _
  omega

/-- `do_brk` clears the bytes from the old break up to the new one. -/
theorem Ram.memset_between (ram : Ram) {low high : BitVec 32} (ordered : low ≤ high)
    (value : BitVec 8) (b : BitVec 64) :
    ram.memset (g2h low) value ((high - low).setWidth 64) b =
      if low.toNat ≤ b.toNat ∧ b.toNat < high.toNat then value else ram b := by
  have bound := b.isLt
  have low' := low.isLt
  have high' := high.isLt
  have size : (high - low).toNat = high.toNat - low.toNat := BitVec.toNat_sub_of_le ordered
  rw [BitVec.le_def] at ordered
  rw [memset]
  refine if_congr ?_ rfl rfl
  rw [BitVec.lt_def, BitVec.toNat_setWidth, size, BitVec.toNat_sub, g2h, BitVec.toNat_setWidth]
  omega

namespace Target

/-! ### What one call does -/

/-- A request for a break is refused, or the break moves to its rounded value and what it
passes is cleared. -/
theorem doBrk_cases (t : Target) (newBrk : BitVec 32) :
    (t.doBrk newBrk).1 = t ∨
      t.targetBrk ≤ newBrk ∧ hostPageAlign newBrk ≤ t.targetBrkLimit ∧ ∃ ram,
        (t.doBrk newBrk).1 = { t with ram := ram, targetBrk := hostPageAlign newBrk } ∧
        ∀ b, t.targetBrk ≤ hostPageAlign newBrk → ram b =
          if t.targetBrk.toNat ≤ b.toNat ∧ b.toNat < (hostPageAlign newBrk).toNat then 0
          else t.ram b := by
  unfold doBrk
  split
  · exact .inl rfl
  split
  · exact .inl rfl
  rename_i reaches
  dsimp only
  split
  · rename_i granted
    refine .inr ⟨BitVec.not_lt.mp reaches, granted, _, rfl, fun b ordered => ?_⟩
    split
    · exact t.ram.memset_between ordered 0 b
    · rename_i stays
      rw [if_neg]
      rintro ⟨low, high⟩
      exact stays (BitVec.lt_def.mpr (Nat.lt_of_le_of_lt low high))
  · exact .inl rfl

/-- A request for a mapping is refused, or the pointer moves over its rounded length. -/
theorem targetMmap_cases (t : Target) (start len prot flags fd offset : BitVec 32) :
    (∃ errno, t.targetMmap start len prot flags fd offset = (t, .error errno)) ∨
      ¬ 0 ≤ fd.toInt ∧ ¬ flags &&& MAP_FIXED ≠ 0 ∧
        targetPageAlign len + t.targetCurMmapPtr < t.targetMmapLimit ∧
        t.targetMmap start len prot flags fd offset =
          ({ t with targetCurMmapPtr := t.targetCurMmapPtr + targetPageAlign len },
            .ok t.targetCurMmapPtr) := by
  unfold targetMmap
  split
  · exact .inl ⟨_, rfl⟩
  split
  · exact .inl ⟨_, rfl⟩
  rename_i anonymous free
  dsimp only
  split
  · rename_i room
    exact .inr ⟨anonymous, free, room, rfl⟩
  · exact .inl ⟨_, rfl⟩

/-- At the end of the address space the break moves to 0. -/
theorem targetBrk_doBrk_of_wraps (t : Target) {newBrk : BitVec 32} (reaches : t.targetBrk ≤ newBrk)
    (wraps : 2 ^ 32 ≤ newBrk.toNat + 4095) : (t.doBrk newBrk).1.targetBrk = 0 := by
  have zero : hostPageAlign newBrk = 0 := by
    apply BitVec.eq_of_toNat_eq
    have bound := newBrk.isLt
    rw [toNat_hostPageAlign, roundUp]
    change _ = 0
    omega
  have nonzero : newBrk ≠ 0 := by
    rintro rfl
    exact absurd wraps (by decide)
  have granted : hostPageAlign newBrk ≤ t.targetBrkLimit := by
    rw [zero]
    exact Nat.zero_le _
  unfold doBrk
  rw [if_neg nonzero, if_neg (BitVec.not_lt.mpr reaches)]
  dsimp only
  rw [if_pos granted]
  exact zero

/-- Memory is refused for want of room only. -/
theorem targetMmap_refused (t : Target) {start len prot flags fd offset : BitVec 32} {errno : Errno}
    (refused : t.targetMmap start len prot flags fd offset = (t, .error errno))
    (anonymous : ¬ 0 ≤ fd.toInt) (free : ¬ flags &&& MAP_FIXED ≠ 0) :
    t.targetMmapLimit ≤ targetPageAlign len + t.targetCurMmapPtr := by
  by_contra room
  rw [BitVec.not_le] at room
  simp only [targetMmap, if_neg anonymous, if_neg free, if_pos room] at refused
  cases congrArg Prod.snd refused

end Target

namespace AllocCall

/-- The length that a call asks for. -/
def length : AllocCall → Nat
  | .brk _ => 0
  | .mmap _ len _ _ _ _ => len.toNat

/-- A break wraps only while it is at 0.  A granted length fits below 2^32 from the
pointer on, and one that does not fit is refused. -/
def Fits (t : Target) : AllocCall → Prop
  | .brk newBrk =>
      newBrk < t.targetBrk ∨ t.targetBrk = 0 ∨ newBrk.toNat + 4095 < 2 ^ 32
  | .mmap _ len _ flags fd _ =>
      0 ≤ fd.toInt ∨ flags &&& MAP_FIXED ≠ 0 ∨
        roundUp 4096 len.toNat + t.targetCurMmapPtr.toNat < 2 ^ 32 ∨
        t.targetMmapLimit.toNat ≤
          (roundUp 4096 len.toNat + t.targetCurMmapPtr.toNat) % 2 ^ 32

instance (t : Target) (call : AllocCall) : Decidable (call.Fits t) := by
  cases call with
  | brk newBrk => exact inferInstanceAs (Decidable (_ ∨ _))
  | mmap start len prot flags fd offset => exact inferInstanceAs (Decidable (_ ∨ _))

/-- A break that fits is not rounded below the current one. -/
theorem Fits.le_hostPageAlign {t : Target} {newBrk : BitVec 32}
    (fits : (AllocCall.brk newBrk).Fits t) (reaches : t.targetBrk ≤ newBrk) :
    t.targetBrk ≤ hostPageAlign newBrk := by
  have above := le_roundUp_page newBrk.toNat
  have near := roundUp_page_lt newBrk.toNat
  rw [BitVec.le_def] at reaches ⊢
  rw [toNat_hostPageAlign]
  rcases fits with below | zero | room
  · rw [BitVec.lt_def] at below
    omega
  · rw [zero]
    exact Nat.zero_le _
  · omega

/-- A mapping that fits and is granted ends below 2^32. -/
theorem Fits.roundUp_add_lt {t : Target} {start len prot flags fd offset : BitVec 32}
    (fits : (AllocCall.mmap start len prot flags fd offset).Fits t) (anonymous : ¬ 0 ≤ fd.toInt)
    (free : ¬ flags &&& MAP_FIXED ≠ 0)
    (room : targetPageAlign len + t.targetCurMmapPtr < t.targetMmapLimit) :
    roundUp 4096 len.toNat + t.targetCurMmapPtr.toNat < 2 ^ 32 := by
  have size := toNat_targetPageAlign len
  rw [BitVec.lt_def, BitVec.toNat_add] at room
  rcases fits with file | fixed | nowrap | refused
  · exact absurd file anonymous
  · exact absurd fixed free
  · exact nowrap
  · omega

end AllocCall

/-- The allocator with the initial break and the ranges that `mmap` has returned. -/
structure Allocations where
  target : Target
  initialBrk : Nat
  regions : List Extent

namespace Allocations

/-- The heap, from the initial break to the current one. -/
def heap (s : Allocations) : Extent :=
  { start := s.initialBrk, size := s.target.targetBrk.toNat - s.initialBrk }

/-- The range that a call returns. -/
def grant (s : Allocations) : AllocCall → Option Extent
  | .brk _ => none
  | .mmap start len prot flags fd offset =>
      match (s.target.targetMmap start len prot flags fd offset).2 with
      | .ok ret => some { start := ret.toNat, size := (targetPageAlign len).toNat }
      | .error _ => none

def step (s : Allocations) (call : AllocCall) : Allocations :=
  { s with
    target := (s.target.doSyscall call).1
    regions := (s.grant call).toList ++ s.regions }

/-- The range that a granted mapping returns. -/
def region (t : Target) (len : BitVec 32) : Extent :=
  { start := t.targetCurMmapPtr.toNat, size := (targetPageAlign len).toNat }

theorem step_of_granted {s : Allocations} {start len prot flags fd offset : BitVec 32}
    (granted : s.target.targetMmap start len prot flags fd offset =
      ({ s.target with
          targetCurMmapPtr := s.target.targetCurMmapPtr + targetPageAlign len },
        .ok s.target.targetCurMmapPtr)) :
    s.grant (.mmap start len prot flags fd offset) = some (region s.target len) ∧
      s.step (.mmap start len prot flags fd offset) =
        { s with
          target := { s.target with
            targetCurMmapPtr := s.target.targetCurMmapPtr + targetPageAlign len }
          regions := region s.target len :: s.regions } := by
  have returned : s.grant (.mmap start len prot flags fd offset) =
      some (region s.target len) := by
    simp only [grant, granted]
    rfl
  refine ⟨returned, ?_⟩
  rw [step, returned]
  simp only [Target.doSyscall, granted]
  rfl

/-- The allocator after `sl_init`. -/
def start (brk initStackPointer : BitVec 32) (gm : BitVec 64) (argv : List HostString)
    (ram : Ram) : Allocations :=
  { target := Target.slInit brk initStackPointer gm argv ram
    initialBrk := brk.toNat
    regions := [] }

/-- A range of whole pages that serves a request, between the two limits. -/
structure Serves (t : Target) (call : AllocCall) (e : Extent) : Prop where
  pages : e.size % 4096 = 0 ∧ (e.start - t.targetBrkLimit.toNat) % 4096 = 0
  length : call.length ≤ e.size
  above : t.targetBrkLimit.toNat ≤ e.start
  below : e.stop ≤ t.targetMmapLimit.toNat

/-- A call keeps the guest's allocations apart: the break does not move back or over its
limit, what it passes is cleared and nothing else, a range that is returned serves the
request, and afterwards no two ranges meet. -/
structure Right (s : Allocations) (call : AllocCall) : Prop where
  kept : s.target.targetBrk ≤ (s.step call).target.targetBrk
  bounded : (s.step call).target.targetBrk ≤ s.target.targetBrkLimit
  cleared : ∀ b, (s.step call).target.ram b =
    if s.target.targetBrk.toNat ≤ b.toNat ∧ b.toNat < (s.step call).target.targetBrk.toNat then 0
    else s.target.ram b
  serves : ∀ e ∈ s.grant call, Serves s.target call e
  apart : ((s.step call).heap :: (s.step call).regions).Pairwise Extent.Apart

/-- What the two bump pointers maintain. -/
structure Sound (s : Allocations) : Prop where
  heap : s.initialBrk ≤ s.target.targetBrk.toNat
  bounded : s.target.targetBrk.toNat ≤ s.target.targetBrkLimit.toNat
  ahead : s.target.targetBrkLimit.toNat ≤ s.target.targetCurMmapPtr.toNat
  pages : (s.target.targetCurMmapPtr.toNat - s.target.targetBrkLimit.toNat) % 4096 = 0
  behind : ∀ e ∈ s.regions,
    s.target.targetBrkLimit.toNat ≤ e.start ∧ e.stop ≤ s.target.targetCurMmapPtr.toNat
  apart : s.regions.Pairwise Extent.Apart

theorem sound_start (initStackPointer : BitVec 32) (argv : List HostString) (ram : Ram)
    {brk : BitVec 32} {gm : BitVec 64} (below : brk ≤ (gm / 4).setWidth 32) :
    (start brk initStackPointer gm argv ram).Sound where
  heap := Nat.le_refl _
  bounded := below
  ahead := Nat.le_refl _
  pages := congrArg (· % 4096) (Nat.sub_self _)
  behind := by
    intro e member
    cases member
  apart := .nil

/-- The heap stops below the first range of `mmap`. -/
theorem Sound.heap_apart {s : Allocations} (sound : s.Sound) :
    (s.heap :: s.regions).Pairwise Extent.Apart := by
  refine List.pairwise_cons.mpr ⟨fun e member => ?_, sound.apart⟩
  have above := (sound.behind e member).1
  have low := sound.heap
  have high := sound.bounded
  refine .inl ?_
  change s.initialBrk + (s.target.targetBrk.toNat - s.initialBrk) ≤ e.start
  omega

/-! ### Steps -/

section

variable {s : Allocations}

/-- A call that is refused. -/
theorem Sound.right_of_refused (sound : s.Sound) {call : AllocCall}
    (same : (s.target.doSyscall call).1 = s.target) (nothing : s.grant call = none) :
    s.Right call ∧ (s.step call).Sound := by
  have stays : s.step call = s := by
    rw [step, same, nothing]
    rfl
  rw [← stays] at sound
  refine ⟨{ kept := ?_, bounded := ?_, cleared := ?_, serves := ?_, apart := sound.heap_apart },
    sound⟩
  · rw [stays]
    exact BitVec.le_refl _
  · rw [stays] at sound ⊢
    exact sound.bounded
  · intro b
    rw [stays, if_neg (by omega)]
  · intro e member
    rw [nothing] at member
    cases member

/-- A break that does not wrap. -/
theorem Sound.brk (sound : s.Sound) {newBrk : BitVec 32}
    (fits : (AllocCall.brk newBrk).Fits s.target) :
    s.Right (.brk newBrk) ∧ (s.step (.brk newBrk)).Sound := by
  rcases s.target.doBrk_cases newBrk with same | ⟨reaches, granted, ram, moved, cleared⟩
  · exact sound.right_of_refused same rfl
  · have ordered := fits.le_hostPageAlign reaches
    have stepped : s.step (.brk newBrk) =
        { s with target := { s.target with ram := ram, targetBrk := hostPageAlign newBrk } } := by
      rw [← moved]
      rfl
    have sound' : (s.step (.brk newBrk)).Sound := by
      rw [stepped]
      exact {
        heap := Nat.le_trans sound.heap ordered
        bounded := granted
        ahead := sound.ahead
        pages := sound.pages
        behind := sound.behind
        apart := sound.apart }
    refine ⟨{ kept := ?_, bounded := ?_, cleared := ?_, serves := ?_, apart := sound'.heap_apart },
      sound'⟩
    · rw [stepped]
      exact ordered
    · rw [stepped]
      exact granted
    · rw [stepped]
      exact fun b => cleared b ordered
    · intro e member
      cases member

/-- A range that ends below 2^32 serves its request. -/
theorem Sound.serves_region (sound : s.Sound) {start len prot flags fd offset : BitVec 32}
    (nowrap : roundUp 4096 len.toNat + s.target.targetCurMmapPtr.toNat < 2 ^ 32)
    (room : targetPageAlign len + s.target.targetCurMmapPtr < s.target.targetMmapLimit) :
    Serves s.target (.mmap start len prot flags fd offset) (region s.target len) := by
  have above := le_roundUp_page len.toNat
  have whole := Extents.roundUp_mod 4096 len.toNat
  have size : (targetPageAlign len).toNat = roundUp 4096 len.toNat := by
    rw [toNat_targetPageAlign]
    exact Nat.mod_eq_of_lt (by omega)
  rw [BitVec.lt_def, BitVec.toNat_add, size, Nat.mod_eq_of_lt nowrap] at room
  have pages : (targetPageAlign len).toNat % 4096 = 0 := by
    rw [size]
    exact whole
  exact {
    pages := ⟨pages, sound.pages⟩
    length := by
      change len.toNat ≤ (targetPageAlign len).toNat
      omega
    above := sound.ahead
    below := by
      change s.target.targetCurMmapPtr.toNat + (targetPageAlign len).toNat ≤ _
      omega }

/-- The pointer behind it is the end of the last range. -/
theorem Sound.map_region (sound : s.Sound) {len : BitVec 32}
    (nowrap : roundUp 4096 len.toNat + s.target.targetCurMmapPtr.toNat < 2 ^ 32) :
    ({ s with
      target := { s.target with
        targetCurMmapPtr := s.target.targetCurMmapPtr + targetPageAlign len }
      regions := region s.target len :: s.regions } : Allocations).Sound := by
  have ahead := sound.ahead
  have pages := sound.pages
  have whole := Extents.roundUp_mod 4096 len.toNat
  have size := toNat_targetPageAlign len
  have next : (s.target.targetCurMmapPtr + targetPageAlign len).toNat =
      s.target.targetCurMmapPtr.toNat + (targetPageAlign len).toNat := by
    rw [BitVec.toNat_add]
    omega
  refine {
    heap := sound.heap
    bounded := sound.bounded
    ahead := ?_
    pages := ?_
    behind := ?_
    apart := Extent.pairwise_apart_cons (fun e member => (sound.behind e member).2) sound.apart }
  · dsimp only
    omega
  · dsimp only
    omega
  · intro e member
    rcases List.mem_cons.mp member with rfl | earlier
    · exact ⟨ahead, Nat.le_of_eq next.symm⟩
    · have earlier := sound.behind e earlier
      dsimp only
      omega

/-- A mapping that fits below 2^32. -/
theorem Sound.mmap (sound : s.Sound) {start len prot flags fd offset : BitVec 32}
    (fits : (AllocCall.mmap start len prot flags fd offset).Fits s.target) :
    s.Right (.mmap start len prot flags fd offset) ∧
      (s.step (.mmap start len prot flags fd offset)).Sound := by
  rcases s.target.targetMmap_cases start len prot flags fd offset with
    ⟨errno, refused⟩ | ⟨anonymous, free, room, granted⟩
  · refine sound.right_of_refused ?_ ?_
    · simp only [Target.doSyscall, refused]
    · simp only [grant, refused]
  · have nowrap := fits.roundUp_add_lt anonymous free room
    obtain ⟨returned, stepped⟩ := step_of_granted granted
    have sound' : (s.step (.mmap start len prot flags fd offset)).Sound := by
      rw [stepped]
      exact sound.map_region nowrap
    refine ⟨{ kept := ?_, bounded := ?_, cleared := ?_, serves := ?_, apart := sound'.heap_apart },
      sound'⟩
    · rw [stepped]
      exact BitVec.le_refl _
    · rw [stepped]
      exact sound.bounded
    · intro b
      rw [stepped, if_neg]
      dsimp only
      omega
    · intro e member
      rw [returned] at member
      obtain rfl := Option.some.inj member
      exact sound.serves_region nowrap room

theorem Sound.right_step (sound : s.Sound) {call : AllocCall} (fits : call.Fits s.target) :
    s.Right call ∧ (s.step call).Sound := by
  cases call with
  | brk newBrk => exact sound.brk fits
  | mmap start len prot flags fd offset => exact sound.mmap fits

end

/-- A call that wraps moves the break back, or returns a range that is too small or that
leaves its limits. -/
theorem Right.fits {s : Allocations} {call : AllocCall} (right : s.Right call) :
    call.Fits s.target := by
  by_contra wraps
  cases call with
  | brk newBrk =>
      simp only [AllocCall.Fits, not_or, BitVec.not_lt, Nat.not_lt] at wraps
      obtain ⟨reaches, nonzero, wraps⟩ := wraps
      have kept := right.kept
      rw [show (s.step (.brk newBrk)).target.targetBrk = 0 from
        s.target.targetBrk_doBrk_of_wraps reaches wraps] at kept
      exact nonzero (BitVec.le_zero_iff.mp kept)
  | mmap start len prot flags fd offset =>
      simp only [AllocCall.Fits, not_or, Nat.not_lt, Nat.not_le] at wraps
      obtain ⟨anonymous, free, wraps, room⟩ := wraps
      have size := toNat_targetPageAlign len
      have near := roundUp_page_lt len.toNat
      have bound := s.target.targetMmapLimit.isLt
      have length := len.isLt
      rcases s.target.targetMmap_cases start len prot flags fd offset with
        ⟨errno, refused⟩ | ⟨-, -, -, granted⟩
      · have full := s.target.targetMmap_refused refused anonymous free
        rw [BitVec.le_def, BitVec.toNat_add] at full
        omega
      · have serves := right.serves _ (step_of_granted granted).1
        have enough : len.toNat ≤ (targetPageAlign len).toNat := serves.length
        have below : s.target.targetCurMmapPtr.toNat + (targetPageAlign len).toNat ≤
          s.target.targetMmapLimit.toNat := serves.below
        have above := le_roundUp_page len.toNat
        omega

/-! ### Runs -/

theorem Sound.stepped (s : Allocations) (call : AllocCall) (sound : s.Sound)
    (fits : call.Fits s.target) : (s.step call).Sound := (sound.right_step fits).2

/-- Over a run that starts sound, the calls are right as long as none wraps. -/
theorem Sound.guarded_right {s : Allocations} (sound : s.Sound) {calls : List AllocCall}
    (fits : Runs.Guarded step (fun s call => call.Fits s.target) s calls) :
    Runs.Guarded step Right s calls :=
  (fits.strengthen Sound.stepped sound).mono fun _ _ both => (both.1.right_step both.2).1

/-- Every call of a run keeps the allocations apart exactly if none wraps. -/
theorem allocations_right_iff (brk initStackPointer : BitVec 32) (gm : BitVec 64)
    (argv : List HostString) (ram : Ram) (calls : List AllocCall)
    (below : brk ≤ (Target.slInit brk initStackPointer gm argv ram).targetBrkLimit) :
    Runs.Guarded step Right (start brk initStackPointer gm argv ram) calls ↔
      Runs.Guarded step (fun s call => call.Fits s.target)
        (start brk initStackPointer gm argv ram) calls :=
  ⟨Runs.Guarded.mono fun _ _ => Right.fits,
    (sound_start initStackPointer argv ram below).guarded_right⟩

/-- A program that moves its break, maps two pages and is refused a file. -/
theorem allocations_right_iff_two_pages :
    Runs.Guarded step Right (start 0x20000 0x3fc00000 0x40000000 [] fun _ => 0)
      [.brk 0x21234, .mmap 0 0x1800 3 0x22 0xffffffff 0, .mmap 0 0x1000 1 2 3 0] :=
  (allocations_right_iff 0x20000 0x3fc00000 0x40000000 [] (fun _ => 0) _ (by decide)).mpr
    (by decide)

/-- `brk(0xffffffff)` moves the break to 0. -/
theorem brk_wraps_to_zero :
    ¬ ∀ (brk initStackPointer : BitVec 32) (gm : BitVec 64) (argv : List HostString) (ram : Ram)
      (calls : List AllocCall),
      brk ≤ (Target.slInit brk initStackPointer gm argv ram).targetBrkLimit →
      Runs.Guarded step Right (start brk initStackPointer gm argv ram) calls := by
  intro right
  have run := right 0x20000 0x3fc00000 0x40000000 [] (fun _ => 0) [.brk 0xffffffff] (by decide)
  exact absurd run.1.kept (by decide)

end Allocations

end Sparcy
