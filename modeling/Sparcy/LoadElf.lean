import Sparcy.GuestAllocations

/-!
# The loaded image and the heap

`System::load_elf` and the initial break that `main` hands to `sl_init`.  What libelf
and the file system deliver, the headers and the bytes of the file, are inputs.
-/

namespace Sparcy

open Extents (roundUp)

namespace System

abbrev PT_LOAD : BitVec 32 := 1

abbrev PT_GNU_STACK : BitVec 32 := 0x6474e551

/-- `1*GIGA`, with which `main` builds the system. -/
abbrev RAM_SIZE : BitVec 32 := 0x40000000

/-- The fields of a `GElf_Phdr` that decide what is loaded. -/
structure Phdr where
  pType : BitVec 32
  pOffset : BitVec 64
  pVaddr : BitVec 64
  pFilesz : BitVec 64
  pMemsz : BitVec 64
deriving DecidableEq

/-- An executable: its entry, its program headers and its bytes. -/
structure Elf where
  entry : BitVec 64
  phdrs : List Phdr
  content : List (BitVec 8)

/-- How `load_elf` gives up on a header. -/
inductive LoadError where
  | notEnoughRam
  | seek
  | shortRead
  | unexpectedHeader (pType : BitVec 32)
deriving DecidableEq

/-- `ram` and `max_elf_addr` while the headers are read. -/
structure Image where
  ram : Ram
  maxElfAddr : BitVec 64

/-- One turn of the loop over the headers. -/
def loadHeader (ramsize : BitVec 32) (content : List (BitVec 8)) (image : Image) (phdr : Phdr) :
    Except LoadError Image :=
  if PT_LOAD = phdr.pType then
    if ramsize.setWidth 64 < phdr.pVaddr + phdr.pMemsz then .error .notEnoughRam
    else
      let ram := image.ram.memset phdr.pVaddr 0 phdr.pMemsz
      -- a negative offset is one that `lseek` refuses
      if phdr.pOffset.msb then .error .seek
      else
        let segment := (content.drop phdr.pOffset.toNat).take phdr.pFilesz.toNat
        if segment.length ≠ phdr.pFilesz.toNat then .error .shortRead
        else
          let maxElfAddr :=
            if image.maxElfAddr < phdr.pVaddr + phdr.pFilesz then phdr.pVaddr + phdr.pFilesz
            else image.maxElfAddr
          .ok { ram := ram.memcpy phdr.pVaddr segment, maxElfAddr := maxElfAddr }
  else if phdr.pType = PT_GNU_STACK then .ok image
  else if phdr.pType = 0x4 then .ok image
  else .error (.unexpectedHeader phdr.pType)

/-- `load_elf`, with the entry that it returns. -/
def loadElf (ramsize : BitVec 32) (elf : Elf) (ram : Ram) : Except LoadError (Image × BitVec 64) :=
  match elf.phdrs.foldlM (loadHeader ramsize elf.content) { ram := ram, maxElfAddr := 0 } with
  | .error error => .error error
  | .ok image =>
      .ok ({ image with maxElfAddr := (image.maxElfAddr + 4095) / 4096 * 4096 }, elf.entry)

/-- `get_max_elf_addr`, as the `uint32_t` that `sl_init` receives. -/
def Image.brk (image : Image) : BitVec 32 := image.maxElfAddr.setWidth 32

namespace Phdr

def Loads (p : Phdr) : Prop := PT_LOAD = p.pType

instance (p : Phdr) : Decidable p.Loads := inferInstanceAs (Decidable (_ = _))

/-- The memory of a segment. -/
def segment (p : Phdr) : Extent := { start := p.pVaddr.toNat, size := p.pMemsz.toNat }

/-- The part of it that comes from the file. -/
def fromFile (p : Phdr) : Extent := { start := p.pVaddr.toNat, size := p.pFilesz.toNat }

end Phdr

/-- Where the last byte that comes from the file ends. -/
def fileEnd : List Phdr → Nat
  | [] => 0
  | p :: phdrs => if p.Loads then max p.fromFile.stop (fileEnd phdrs) else fileEnd phdrs

/-- Every segment ends within the pages of the bytes that come from the file. -/
def Covered (phdrs : List Phdr) : Prop :=
  ∀ p ∈ phdrs, p.Loads → p.segment.stop ≤ roundUp 4096 (fileEnd phdrs) ∧ p.segment.stop < 2 ^ 64

instance (phdrs : List Phdr) : Decidable (Covered phdrs) :=
  inferInstanceAs (Decidable (∀ p ∈ phdrs, _))

/-- The break is on a page boundary, and no segment reaches over it. -/
structure Above (brk : BitVec 32) (phdrs : List Phdr) : Prop where
  aligned : brk.toNat % 4096 = 0
  above : ∀ p ∈ phdrs, p.Loads → p.segment.stop ≤ brk.toNat

/-! ### The maximum -/

/-- What a header that is accepted does. -/
theorem loadHeader_cases {ramsize : BitVec 32} {content : List (BitVec 8)} {image image' : Image}
    {p : Phdr} (accepted : loadHeader ramsize content image p = .ok image') :
    ¬ p.Loads ∧ image' = image ∨
      p.Loads ∧ p.pVaddr + p.pMemsz ≤ ramsize.setWidth 64 ∧
        image'.maxElfAddr =
          if image.maxElfAddr < p.pVaddr + p.pFilesz then p.pVaddr + p.pFilesz
          else image.maxElfAddr := by
  unfold loadHeader at accepted
  split at accepted
  · rename_i loads
    split at accepted
    · cases accepted
    rename_i room
    dsimp only at accepted
    split at accepted
    · cases accepted
    split at accepted
    · cases accepted
    cases accepted
    exact .inr ⟨loads, BitVec.not_lt.mp room, rfl⟩
  · rename_i other
    split at accepted
    · cases accepted
      exact .inl ⟨other, rfl⟩
    split at accepted
    · cases accepted
      exact .inl ⟨other, rfl⟩
    · cases accepted

/-- Without a wrap the loop computes the end of what comes from the file, and stays in the
RAM. -/
theorem maxElfAddr_foldlM {ramsize : BitVec 32} {content : List (BitVec 8)} {phdrs : List Phdr}
    (sizes : ∀ p ∈ phdrs, p.Loads → p.pFilesz ≤ p.pMemsz)
    (fits : ∀ p ∈ phdrs, p.Loads → p.segment.stop < 2 ^ 64) {image image' : Image}
    (inside : image.maxElfAddr.toNat ≤ ramsize.toNat)
    (accepted : phdrs.foldlM (loadHeader ramsize content) image = .ok image') :
    image'.maxElfAddr.toNat = max image.maxElfAddr.toNat (fileEnd phdrs) ∧
      image'.maxElfAddr.toNat ≤ ramsize.toNat := by
  induction phdrs generalizing image with
  | nil =>
      cases accepted
      exact ⟨(Nat.max_zero _).symm, inside⟩
  | cons p phdrs induction =>
      rw [List.foldlM_cons] at accepted
      cases first : loadHeader ramsize content image p with
      | error error =>
          rw [first] at accepted
          cases accepted
      | ok next =>
          rw [first] at accepted
          have rest := @induction (fun q member => sizes q (List.mem_cons_of_mem _ member))
            (fun q member => fits q (List.mem_cons_of_mem _ member)) next
          rcases loadHeader_cases first with ⟨other, rfl⟩ | ⟨loads, room, moved⟩
          · rw [fileEnd, if_neg other]
            exact rest inside accepted
          · have size := sizes p List.mem_cons_self loads
            have stop := fits p List.mem_cons_self loads
            rw [BitVec.le_def] at size
            change p.pVaddr.toNat + p.pMemsz.toNat < 2 ^ 64 at stop
            rw [BitVec.le_def, BitVec.toNat_add, BitVec.toNat_setWidth,
              Nat.mod_eq_of_lt stop] at room
            have small := ramsize.isLt
            have sum : (p.pVaddr + p.pFilesz).toNat = p.fromFile.stop := by
              rw [BitVec.toNat_add]
              exact Nat.mod_eq_of_lt (by omega)
            have reached : p.fromFile.stop ≤ ramsize.toNat := by
              change p.pVaddr.toNat + p.pFilesz.toNat ≤ _
              omega
            have next' : next.maxElfAddr.toNat = max image.maxElfAddr.toNat p.fromFile.stop := by
              rw [moved]
              split
              · rename_i below
                rw [BitVec.lt_def, sum] at below
                rw [sum]
                omega
              · rename_i stays
                rw [BitVec.lt_def, sum] at stays
                omega
            have final := rest (by omega) accepted
            rw [fileEnd, if_pos loads, ← Nat.max_assoc, ← next']
            exact final

/-- If no segment wraps, the break is the end of what comes from the file, rounded up. -/
theorem toNat_brk_loadElf {elf : Elf} {ram : Ram} {image : Image} {entry : BitVec 64}
    (accepted : loadElf RAM_SIZE elf ram = .ok (image, entry))
    (sizes : ∀ p ∈ elf.phdrs, p.Loads → p.pFilesz ≤ p.pMemsz)
    (fits : ∀ p ∈ elf.phdrs, p.Loads → p.segment.stop < 2 ^ 64) :
    image.brk.toNat = roundUp 4096 (fileEnd elf.phdrs) := by
  unfold loadElf at accepted
  split at accepted
  · cases accepted
  rename_i last loaded
  cases accepted
  obtain ⟨reached, inside⟩ := maxElfAddr_foldlM sizes fits (Nat.zero_le _) loaded
  have sum : (last.maxElfAddr + 4095).toNat = last.maxElfAddr.toNat + 4095 := by
    have small : RAM_SIZE.toNat = 2 ^ 30 := rfl
    rw [BitVec.toNat_add]
    change (_ + 4095) % 2 ^ 64 = _
    omega
  have start : max 0 (fileEnd elf.phdrs) = fileEnd elf.phdrs := Nat.zero_max _
  rw [Image.brk, BitVec.toNat_setWidth, BitVec.toNat_mul, BitVec.toNat_udiv, sum, roundUp]
  change (_ / 4096 * 4096) % 2 ^ 64 % 2 ^ 32 = _
  change last.maxElfAddr.toNat = max 0 _ at reached
  have small : RAM_SIZE.toNat = 2 ^ 30 := rfl
  omega

theorem above_iff_covered {elf : Elf} {ram : Ram} {image : Image} {entry : BitVec 64}
    (accepted : loadElf RAM_SIZE elf ram = .ok (image, entry))
    (sizes : ∀ p ∈ elf.phdrs, p.Loads → p.pFilesz ≤ p.pMemsz) :
    Above image.brk elf.phdrs ↔ Covered elf.phdrs := by
  constructor
  · intro above p member loads
    have fits (q : Phdr) (member : q ∈ elf.phdrs) (loads : q.Loads) : q.segment.stop < 2 ^ 64 := by
      have below := above.above q member loads
      have bound := image.brk.isLt
      omega
    rw [← toNat_brk_loadElf accepted sizes fits]
    exact ⟨above.above p member loads, fits p member loads⟩
  · intro covered
    have value := toNat_brk_loadElf accepted sizes fun q member loads =>
      (covered q member loads).2
    refine ⟨?_, fun p member loads => ?_⟩
    · rw [value]
      exact Extents.roundUp_mod _ _
    · rw [value]
      exact (covered p member loads).1

end System

namespace Allocations

/-- A call neither changes a byte of a segment nor moves the break over one. -/
def Spares (phdrs : List System.Phdr) (s : Allocations) (call : AllocCall) : Prop :=
  ∀ p ∈ phdrs, p.Loads → ∀ b : BitVec 64, p.segment.Holds b.toNat →
    (s.step call).target.ram b = s.target.ram b ∧
      ¬ (s.target.targetBrk.toNat ≤ b.toNat ∧
        b.toNat < (s.step call).target.targetBrk.toNat)

/-- A request for a break does not wrap. -/
def BreakFits (s : Allocations) : AllocCall → Prop
  | .brk newBrk => (AllocCall.brk newBrk).Fits s.target
  | .mmap .. => True

/-- The break moves up, and only what it passes changes. -/
theorem grows {s : Allocations} {call : AllocCall} (fits : s.BreakFits call) :
    s.target.targetBrk.toNat ≤ (s.step call).target.targetBrk.toNat ∧
      ∀ b : BitVec 64, b.toNat < s.target.targetBrk.toNat →
        (s.step call).target.ram b = s.target.ram b := by
  cases call with
  | brk newBrk =>
      rcases s.target.doBrk_cases newBrk with same | ⟨reaches, -, ram, moved, cleared⟩
      · change _ ≤ (s.target.doBrk newBrk).1.targetBrk.toNat ∧ ∀ b : BitVec 64, _ →
          (s.target.doBrk newBrk).1.ram b = _
        rw [same]
        exact ⟨Nat.le_refl _, fun _ _ => rfl⟩
      · have ordered := AllocCall.Fits.le_hostPageAlign fits reaches
        change _ ≤ (s.target.doBrk newBrk).1.targetBrk.toNat ∧ ∀ b : BitVec 64, _ →
          (s.target.doBrk newBrk).1.ram b = _
        rw [moved]
        refine ⟨ordered, fun b below => ?_⟩
        dsimp only
        rw [cleared b ordered, if_neg (by omega)]
  | mmap start len prot flags fd offset =>
      rcases s.target.targetMmap_cases start len prot flags fd offset with
        ⟨errno, refused⟩ | ⟨-, -, -, granted⟩
      · simp only [step, Target.doSyscall, refused]
        exact ⟨Nat.le_refl _, fun _ _ => trivial⟩
      · simp only [step, Target.doSyscall, granted]
        exact ⟨Nat.le_refl _, fun _ _ => trivial⟩

/-- From a break above the image on, calls that do not wrap spare it. -/
theorem guarded_spares {phdrs : List System.Phdr} {brk : BitVec 32} (above : System.Above brk phdrs)
    {s : Allocations} (reached : brk.toNat ≤ s.target.targetBrk.toNat) {calls : List AllocCall}
    (fits : Runs.Guarded step BreakFits s calls) : Runs.Guarded step (Spares phdrs) s calls := by
  induction calls generalizing s with
  | nil => trivial
  | cons call calls induction =>
      obtain ⟨up, kept⟩ := grows fits.1
      refine ⟨fun p member loads b inside => ?_, induction (Nat.le_trans reached up) fits.2⟩
      have below := above.above p member loads
      have low : b.toNat < s.target.targetBrk.toNat := by
        have stop := inside.2
        omega
      exact ⟨kept b low, fun passed => absurd passed.1 (Nat.not_le.mpr low)⟩

end Allocations

namespace System

/-- The break is above the image exactly if the segments are covered by what comes from the
file, and then no later call that does not wrap touches them. -/
theorem heap_above_image_iff (elf : Elf) (ram : Ram) (image : Image) (entry : BitVec 64)
    (accepted : loadElf RAM_SIZE elf ram = .ok (image, entry))
    (sizes : ∀ p ∈ elf.phdrs, p.Loads → p.pFilesz ≤ p.pMemsz) :
    (Above image.brk elf.phdrs ↔ Covered elf.phdrs) ∧
      (Covered elf.phdrs → ∀ (initStackPointer : BitVec 32) (gm : BitVec 64)
        (argv : List HostString) (calls : List AllocCall),
        Runs.Guarded Allocations.step Allocations.BreakFits
          (Allocations.start image.brk initStackPointer gm argv image.ram) calls →
        Runs.Guarded Allocations.step (Allocations.Spares elf.phdrs)
          (Allocations.start image.brk initStackPointer gm argv image.ram) calls) := by
  have same := above_iff_covered accepted sizes
  refine ⟨same, fun covered initStackPointer gm argv calls fits => ?_⟩
  exact Allocations.guarded_spares (same.mpr covered) (Nat.le_refl _) fits

/-- Two bytes of data and less than a page of zeros. -/
abbrev dataElf : Elf :=
  { entry := 0x10000
    phdrs := [{ pType := 1, pOffset := 0, pVaddr := 0x10000, pFilesz := 2, pMemsz := 0x800 }]
    content := [0x40, 0x41] }

/-- The break is at the next page, and a call that moves it on spares the segment. -/
theorem heap_above_image_iff_data :
    ∃ image, loadElf RAM_SIZE dataElf (fun _ => 0) = .ok (image, 0x10000) ∧
      Above image.brk dataElf.phdrs ∧
      Runs.Guarded Allocations.step (Allocations.Spares dataElf.phdrs)
        (Allocations.start image.brk 0x3fc00000 0x40000000 [] image.ram) [.brk 0x12345] := by
  have loaded := heap_above_image_iff dataElf (fun _ => 0) _ 0x10000 rfl (by decide)
  refine ⟨_, rfl, loaded.1.mpr (by decide), loaded.2 (by decide) 0x3fc00000 0x40000000 [] _ ?_⟩
  exact ⟨.inr (.inr (by decide)), trivial⟩

/-- A segment of two pages of zeros, over which the heap starts. -/
theorem heap_starts_in_zeros :
    ¬ ∀ (elf : Elf) (ram : Ram) (image : Image) (entry : BitVec 64),
      loadElf RAM_SIZE elf ram = .ok (image, entry) →
      (∀ p ∈ elf.phdrs, p.Loads → p.pFilesz ≤ p.pMemsz) → Above image.brk elf.phdrs := by
  intro always
  have above := always
    { entry := 0
      phdrs := [{ pType := 1, pOffset := 0, pVaddr := 0x10000, pFilesz := 0, pMemsz := 0x2000 }]
      content := [] }
    (fun _ => 0) _ 0 rfl (by decide)
  exact absurd (above.above _ List.mem_cons_self (by decide)) (by decide)

end System

end Sparcy
