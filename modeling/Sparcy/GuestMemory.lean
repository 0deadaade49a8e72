import Sparcy.RamLines
import Sparcy.Library.Extents

/-!
# Guest memory

The part of `syscall.c` that decides where the guest's memory is: `sl_init` with
`init_stack`, `do_brk` and `target_mmap`, over the RAM behind `g2h`.
-/

namespace Sparcy

namespace Ram

/-- `memset` on the RAM. -/
def memset (ram : Ram) (addr : BitVec 64) (value : BitVec 8) (len : BitVec 64) : Ram := fun b =>
  if b - addr < len then value else ram b

/-- `memcpy` into the RAM. -/
def memcpy (ram : Ram) (addr : BitVec 64) (bytes : List (BitVec 8)) : Ram := fun b =>
  bytes[(b - addr).toNat]?.getD (ram b)

/-- `stl_he_p` of the little-endian host. -/
def stlHeP (ram : Ram) (addr : BitVec 64) (v : BitVec 32) : Ram :=
  ram.memcpy addr [v.extractLsb' 0 8, v.extractLsb' 8 8, v.extractLsb' 16 8, v.extractLsb' 24 8]

/-- `stl_be_p`, with `be_bswap` of a word. -/
def stlBeP (ram : Ram) (addr : BitVec 64) (v : BitVec 32) : Ram := ram.stlHeP addr (be32toh v)

end Ram

/-! ### Pages -/

abbrev TARGET_PAGE_SIZE : BitVec 32 := 1 <<< 12

abbrev TARGET_PAGE_MASK : BitVec 32 := ~~~(TARGET_PAGE_SIZE - 1)

abbrev HOST_PAGE_SIZE : BitVec 32 := 4 * 1024

abbrev HOST_PAGE_MASK : BitVec 64 := 0xfffffffffffff000

/-- `TARGET_PAGE_ALIGN` of an `abi_ulong`. -/
def targetPageAlign (addr : BitVec 32) : BitVec 32 :=
  (addr + TARGET_PAGE_SIZE - 1) &&& TARGET_PAGE_MASK

/-- `HOST_PAGE_ALIGN` of an `abi_ulong`, stored in one: the sum has 32 bits, the mask 64. -/
def hostPageAlign (addr : BitVec 32) : BitVec 32 :=
  ((addr + HOST_PAGE_SIZE - 1).setWidth 64 &&& HOST_PAGE_MASK).setWidth 32

/-- `g2h`, as an offset from `guest_base`. -/
def g2h (x : BitVec 32) : BitVec 64 := x.setWidth 64

/-! ### Program arguments -/

/-- A C string in host memory and the byte behind its terminator. -/
structure HostString where
  chars : List (BitVec 8)
  nonzero : ∀ c ∈ chars, c ≠ 0
  next : BitVec 8

namespace HostString

/-- The bytes that lie at the string's pointer. -/
def bytes (s : HostString) : List (BitVec 8) := s.chars ++ [0, s.next]

/-- `while (*tmp++);`: how far `tmp` has moved. -/
def scan : List (BitVec 8) → Nat
  | [] => 0
  | c :: rest => if c = 0 then 1 else scan rest + 1

/-- `len`, the terminator included. -/
def len (s : HostString) : Nat := scan s.bytes

/-- `((len + 15) / 16) * 16`. -/
def slot (s : HostString) : Nat := (s.len + 15) / 16 * 16

end HostString

/-- What the first loop of `init_stack` carries. -/
structure Placed where
  guestPtr : BitVec 32
  newArgv : List (BitVec 32)
  ram : Ram

namespace Placed

def start (guestMaxMem : BitVec 64) (ram : Ram) : Placed :=
  { guestPtr := guestMaxMem.setWidth 32, newArgv := [], ram := ram }

/-- One turn of the loop. -/
def place (s : HostString) (p : Placed) : Placed :=
  let guestPtr := p.guestPtr - BitVec.ofNat 32 s.slot
  { guestPtr := guestPtr
    newArgv := guestPtr :: p.newArgv
    ram := p.ram.memcpy (g2h guestPtr) (s.bytes.take (s.len + 1)) }

end Placed

/-- The stores of `put_user_ual` that write a row of words from `guest_ptr` on. -/
def putUserUals (ram : Ram) (guestPtr : BitVec 32) : List (BitVec 32) → Ram
  | [] => ram
  | x :: rest => putUserUals (ram.stlBeP (g2h guestPtr) x) (guestPtr + 4) rest

/-! ### The state -/

/-- The variables of `syscall.c` that place the guest's memory, and the RAM. -/
structure Target where
  guestMaxMem : BitVec 64
  targetBrk : BitVec 32
  targetBrkLimit : BitVec 32
  targetCurMmapPtr : BitVec 32
  targetMmapLimit : BitVec 32
  targetSp : BitVec 32
  ram : Ram

/-- The errors of `target_mmap`. -/
inductive Errno where
  | EINVAL
  | ENOMEM
deriving DecidableEq

def Errno.code : Errno → BitVec 32
  | EINVAL => 22
  | ENOMEM => 12

/-- `get_errno`; `host_to_target_errno` maps both errors to themselves.  A pointer of -1,
which it would take for an error, is not reached: `target_cur_mmap_ptr` is a multiple of the
page size, like a quarter of the guest's memory. -/
def getErrno : Except Errno (BitVec 32) → BitVec 32
  | .ok ret => ret
  | .error errno => -errno.code

abbrev MAP_FIXED : BitVec 32 := 0x10

/-- The system calls that allocate memory.  `mmap` and `mmap2` differ in the offset that
they pass on. -/
inductive AllocCall where
  | brk (newBrk : BitVec 32)
  | mmap (start len prot flags fd offset : BitVec 32)
deriving DecidableEq

namespace Target

/-- The strings, the last one first, downwards from `guest_max_mem`. -/
def placeArgs (t : Target) (argv : List HostString) : Placed :=
  argv.foldr Placed.place (Placed.start t.guestMaxMem t.ram)

/-- `init_stack`.  A null pointer among the arguments, at which it exits, is no
`HostString`. -/
def initStack (t : Target) (argv : List HostString) : Target :=
  let placed := t.placeArgs argv
  let words := BitVec.ofNat 32 argv.length :: (placed.newArgv ++ [0])
  { t with ram := putUserUals placed.ram (t.targetSp + 16 * 4) words }

/-- `sl_init`, with the RAM as the loader left it. -/
def slInit (brk initStackPointer : BitVec 32) (gm : BitVec 64) (argv : List HostString)
    (ram : Ram) : Target :=
  initStack
    { guestMaxMem := gm
      targetBrk := brk
      targetBrkLimit := (gm / 4).setWidth 32
      targetCurMmapPtr := (gm / 4).setWidth 32
      targetMmapLimit := (gm / 2).setWidth 32
      targetSp := initStackPointer
      ram := ram } argv

/-- `do_brk`. -/
def doBrk (t : Target) (newBrk : BitVec 32) : Target × BitVec 32 :=
  if newBrk = 0 then (t, t.targetBrk)
  else if newBrk < t.targetBrk then (t, t.targetBrk)
  else
    let newBrk := hostPageAlign newBrk
    if newBrk ≤ t.targetBrkLimit then
      let ram :=
        if t.targetBrk < newBrk then
          t.ram.memset (g2h t.targetBrk) 0 ((newBrk - t.targetBrk).setWidth 64)
        else t.ram
      ({ t with ram := ram, targetBrk := newBrk }, newBrk)
    else (t, t.targetBrk)

/-- `target_mmap`; `-1` with `errno` set is an error. -/
def targetMmap (t : Target) (_start len _prot flags fd _offset : BitVec 32) :
    Target × Except Errno (BitVec 32) :=
  if 0 ≤ fd.toInt then (t, .error .EINVAL)
  else if flags &&& MAP_FIXED ≠ 0 then (t, .error .EINVAL)
  else
    let len := targetPageAlign len
    if len + t.targetCurMmapPtr < t.targetMmapLimit then
      ({ t with targetCurMmapPtr := t.targetCurMmapPtr + len }, .ok t.targetCurMmapPtr)
    else (t, .error .ENOMEM)

/-- The two cases of `do_syscall`. -/
def doSyscall (t : Target) : AllocCall → Target × BitVec 32
  | .brk newBrk => t.doBrk newBrk
  | .mmap start len prot flags fd offset =>
      let result := t.targetMmap start len prot flags fd offset
      (result.1, getErrno result.2)

end Target

end Sparcy
