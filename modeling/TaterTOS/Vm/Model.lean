import TaterTOS.Vm.Regions
import TaterTOS.Vmm.PageMap

/-!
# Virtual memory of native processes

A model of `SYS_MMAP`, `SYS_MUNMAP` and `SYS_MPROTECT` in `kernel/proc/syscall.c` over the region
table and the page map of a process. Page tables appear as the maps they refine, the physical
allocator as the set of its free frames. What the environment decides is a list of answers in the
state: which free frame `pmm_alloc_page` hands out (or none), which frames a new mapping takes for
page tables and whether it finds them all, and whether `kmalloc` and `vfs_read` succeed.

The contents of pages are not modelled.
-/

namespace TaterTOS.Vm

open Function Lib Vmm

/-! ### The state -/

/-- The physical allocator: its free frames, and how often it handed out each frame and got it
back. -/
structure Pool where
  free : ℕ → Bool
  gets : ℕ → ℕ
  puts : ℕ → ℕ

def Pool.take (p : Pool) (a : ℕ) : Pool :=
  { p with free := update p.free a false, gets := update p.gets a (p.gets a + 1) }

def Pool.put (p : Pool) (a : ℕ) : Pool :=
  { p with free := update p.free a true, puts := update p.puts a (p.puts a + 1) }

structure Env where
  frames : List ℕ
  maps : List (Bool × List ℕ)
  oks : List Bool

structure SharedObject where
  pages : ℕ → ℕ
  pageRefs : ℕ → ℕ
  pageCount : ℕ
  used : Bool

@[irreducible] def vmSharedMax : ℕ := 128
def fdMax : ℕ := 64

structure Memfd where
  size : ℕ
  capacity : ℕ
  pos : ℕ
  pages : List ℕ
  deriving DecidableEq, Repr

inductive Fd
  | none
  | file (size : ℕ)
  | memfd (mf : Memfd)
  deriving DecidableEq, Repr

structure Proc where
  regions : Table
  pages : PageMap
  tables : List ℕ
  fds : ℕ → Fd

structure Machine where
  objects : Fin vmSharedMax → SharedObject
  pool : Pool
  env : Env

structure State extends Proc, Machine

def State.setRegions (s : State) (regions : Table) : State := { s with regions := regions }

/-! ### Frames and page tables -/

def Pool.Offers (p : Pool) (a : ℕ) : Prop := a ≠ 0 ∧ frameOf a = a ∧ p.free a = true

instance (p : Pool) (a : ℕ) : Decidable (p.Offers a) := inferInstanceAs (Decidable (_ ∧ _ ∧ _))

def pmmAllocPage (s : State) : ℕ × State :=
  match s.env.frames with
  | [] => (0, s)
  | a :: frames =>
    let s := { s with env := { s.env with frames := frames } }
    if s.pool.Offers a then (a, { s with pool := s.pool.take a }) else (0, s)

def pmmFreePage (s : State) (a : ℕ) : State := { s with pool := s.pool.put a }

def takeTables (s : State) : List ℕ → State
  | [] => s
  | a :: as =>
    takeTables (if s.pool.Offers a then { s with pool := s.pool.take a, tables := a :: s.tables }
      else s) as

def vmmMapUser (s : State) (virt phys flags : ℕ) : State :=
  if userVaTop ≤ virt then s
  else match s.env.maps with
    | [] => { s with pages := s.pages.map virt phys flags }
    | (ok, taken) :: maps =>
      let s := takeTables { s with env := { s.env with maps := maps } } taken
      if ok then { s with pages := s.pages.map virt phys flags } else s

def vmmUnmapUser (s : State) (virt : ℕ) : State :=
  if userVaTop ≤ virt then s else { s with pages := s.pages.unmap virt }

def vmmVirtToPhysUser (s : State) (virt : ℕ) : ℕ :=
  if userVaTop ≤ virt then 0 else s.pages.virtToPhys virt

def vmmProtectUser (s : State) (virt flags : ℕ) : Bool × State :=
  if userVaTop ≤ virt then (false, s)
  else if (s.pages (virt / 4096)).isNone then (false, s)
  else (true, { s with pages := s.pages.protect virt flags })

def nextOk (s : State) : Bool × State :=
  match s.env.oks with
  | [] => (true, s)
  | ok :: oks => (ok, { s with env := { s.env with oks := oks } })

def kmalloc (s : State) (size : ℕ) : Bool × State := if size = 0 then (false, s) else nextOk s

/-! ### Protections -/

def vmProtSupported (prot : ℕ) : Bool :=
  if prot &&& not32 (protRead ||| protWrite ||| protExec) ≠ 0 then false
  else if prot = 0 then true
  else if prot &&& protRead = 0 then false
  else if prot &&& (protWrite ||| protExec) = protWrite ||| protExec then false
  else true

def vmFlagsSupported (flags : ℕ) : Bool :=
  if flags &&& not32 (mapShared ||| mapPrivate ||| mapFixed ||| mapAnon ||| mapFile |||
      mapReserve ||| mapGuard) ≠ 0 then false
  else if flags &&& mapGuard ≠ 0 then
    if flags &&& not32 (mapGuard ||| mapPrivate ||| mapAnon ||| mapFixed) ≠ 0 then false
    else if flags &&& (mapPrivate ||| mapAnon) ≠ mapPrivate ||| mapAnon then false
    else true
  else if flags &&& (mapShared ||| mapPrivate) = 0 then false
  else if flags &&& (mapShared ||| mapPrivate) = mapShared ||| mapPrivate then false
  else if flags &&& (mapAnon ||| mapFile) = 0 then false
  else if flags &&& (mapAnon ||| mapFile) = mapAnon ||| mapFile then false
  else if flags &&& mapFile ≠ 0 ∧ flags &&& mapShared ≠ 0 then false
  else if flags &&& mapReserve ≠ 0 ∧ flags &&& mapFile ≠ 0 then false
  else if flags &&& mapReserve ≠ 0 ∧ flags &&& mapShared ≠ 0 then false
  else true

def vmProtToPteFlags (prot : ℕ) : ℕ :=
  (if prot ≠ 0 then flagUser else 0) ||| (if prot &&& protWrite ≠ 0 then flagWrite else 0) |||
    (if prot &&& protExec = 0 then flagNoExecute else 0)

/-! ### Ranges of pages -/

/-- `for (va = base; va < base + length; va += PAGE_SIZE)`. -/
def pageAddrs (base length : ℕ) : List ℕ :=
  (List.range ((u64 (base + length) - base + 4095) / 4096)).map fun i => base + i * 4096

def vmRangeMapped (s : State) (base length : ℕ) : Bool :=
  if length = 0 then false
  else (pageAddrs base length).all fun va => vmmVirtToPhysUser s va != 0

def vmRangeAvailable (s : State) (base length : ℕ) : Bool :=
  if length = 0 then false
  else if base < vmUserBase then false
  else if u64 (base + length) < base then false
  else if vmUserLimit < u64 (base + length) then false
  else if vmAnyRegionOverlap s.regions base length then false
  else (pageAddrs base length).all fun va => vmmVirtToPhysUser s va == 0

/-- The candidates from `base` on, at most as many as the first argument says. -/
def findFreeLoop (s : State) (length maxStart : ℕ) : ℕ → ℕ → ℕ
  | 0, _ => 0
  | k + 1, base =>
    if base ≤ maxStart then
      if vmRangeAvailable s base length then base else findFreeLoop s length maxStart k
        (base + 4096)
    else 0

def vmFindFreeRange (s : State) (length : ℕ) : ℕ :=
  if length = 0 then 0
  else if vmUserLimit - vmUserBase < length then 0
  else
    let maxStart := vmUserLimit - length
    findFreeLoop s length maxStart ((maxStart - vmUserBase) / 4096 + 1) vmUserBase

def unmapPage (s : State) (va : ℕ) : State :=
  if vmmVirtToPhysUser s va = 0 then s else vmmUnmapUser s va

def vmUnmapPagesOnly (s : State) (base length : ℕ) : State :=
  (pageAddrs base length).foldl unmapPage s

def releasePage (s : State) (va : ℕ) : State :=
  let pa := vmmVirtToPhysUser s va
  if pa = 0 then s else pmmFreePage (vmmUnmapUser s va) (frameOf pa)

def vmReleasePrivatePages (s : State) (base length : ℕ) : State :=
  (pageAddrs base length).foldl releasePage s

/-- The loop of `vm_commit_private_pages`; `mapped` counts the bytes done. -/
def commitLoop (base flags : ℕ) : List ℕ → ℕ → State → Bool × State
  | [], _, s => (true, s)
  | va :: vas, mapped, s =>
    let (pa, s) := pmmAllocPage s
    if pa = 0 then (false, vmReleasePrivatePages s base mapped)
    else
      let s := vmmMapUser s va pa flags
      if frameOf (vmmVirtToPhysUser s va) ≠ pa then
        (false, vmReleasePrivatePages (pmmFreePage (vmmUnmapUser s va) pa) base mapped)
      else commitLoop base flags vas (mapped + 4096) s

def vmCommitPrivatePages (s : State) (base length prot : ℕ) : Bool × State :=
  if length = 0 then (false, s)
  else commitLoop base (vmProtToPteFlags prot) (pageAddrs base length) 0 s

/-! ### Anonymous shared objects -/

def SharedObject.reset : SharedObject := ⟨fun _ => 0, fun _ => 0, 0, false⟩

def State.setObject (s : State) (id : Fin vmSharedMax) (obj : SharedObject) : State :=
  { s with objects := update s.objects id obj }

def vmSharedAllocSlot (s : State) : Option (Fin vmSharedMax) :=
  (List.finRange vmSharedMax).find? fun i => !(s.objects i).used

def vmSharedAllReleased (obj : SharedObject) : Bool :=
  if !obj.used then true else (List.range obj.pageCount).all fun i => obj.pageRefs i == 0

def destroyPage (id : Fin vmSharedMax) (s : State) (i : ℕ) : State :=
  let obj := s.objects id
  if obj.pages i = 0 then s
  else (pmmFreePage s (obj.pages i)).setObject id
    { obj with pages := update obj.pages i 0 }

def vmSharedDestroy (s : State) (id : Fin vmSharedMax) : State :=
  if !(s.objects id).used then s
  else ((List.range (s.objects id).pageCount).foldl (destroyPage id) s).setObject id
    SharedObject.reset

/-- The loop of `vm_shared_create` that allocates the pages. -/
def createLoop (id : Fin vmSharedMax) : List ℕ → State → Bool × State
  | [], s => (true, s)
  | i :: is, s =>
    let (pa, s) := pmmAllocPage s
    if pa = 0 then (false, vmSharedDestroy s id)
    else
      let obj := s.objects id
      createLoop id is (s.setObject id { obj with
        pages := update obj.pages i pa
        pageRefs := update obj.pageRefs i 1 })

def vmSharedCreate (s : State) (pageCount : ℕ) : Option (Fin vmSharedMax) × State :=
  match vmSharedAllocSlot s with
  | none => (none, s)
  | some id =>
    let s := s.setObject id SharedObject.reset
    let (ok, s) := kmalloc s (pageCount * 8)
    if !ok then (none, s)
    else
      let (ok, s) := kmalloc s (pageCount * 4)
      if !ok then (none, s)
      else
        let s := s.setObject id ⟨fun _ => 0, fun _ => 0, pageCount, true⟩
        let (ok, s) := createLoop id (List.range pageCount) s
        if ok then (some id, s) else (none, s)

def releaseRef (id : Fin vmSharedMax) (s : State) (idx : ℕ) : State :=
  let obj := s.objects id
  if obj.pageRefs idx = 0 then s
  else
    let obj := { obj with pageRefs := update obj.pageRefs idx (obj.pageRefs idx - 1) }
    if obj.pageRefs idx = 0 ∧ obj.pages idx ≠ 0 then
      (pmmFreePage s (obj.pages idx)).setObject id
        { obj with pages := update obj.pages idx 0 }
    else s.setObject id obj

def vmSharedReleaseRange (s : State) (id pageStart pageCount : ℕ) : State :=
  if h : id < vmSharedMax then
    let obj := s.objects ⟨id, h⟩
    if !obj.used ∨ obj.pageCount < pageStart then s
    else if obj.pageCount - pageStart < pageCount then s
    else
      let s := (List.range pageCount).foldl
        (fun s i => releaseRef ⟨id, h⟩ s (u32 (pageStart + i))) s
      if vmSharedAllReleased (s.objects ⟨id, h⟩) then vmSharedDestroy s ⟨id, h⟩ else s
  else s

/-- The loop of `vm_map_shared_pages`; `mapped` counts the bytes done. -/
def mapSharedLoop (base flags pageStart : ℕ) (obj : SharedObject) :
    List ℕ → ℕ → State → Bool × State
  | [], _, s => (true, s)
  | i :: is, mapped, s =>
    let pa := obj.pages (u32 (pageStart + i))
    if pa = 0 then (false, vmUnmapPagesOnly s base mapped)
    else
      let va := u64 (base + i * 4096)
      let s := vmmMapUser s va pa flags
      if frameOf (vmmVirtToPhysUser s va) ≠ pa then
        (false, vmUnmapPagesOnly (vmmUnmapUser s va) base mapped)
      else mapSharedLoop base flags pageStart obj is (mapped + 4096) s

def vmMapSharedPages (s : State) (base length prot : ℕ) (id : Fin vmSharedMax) (pageStart : ℕ) :
    Bool × State :=
  let obj := s.objects id
  if !obj.used then (false, s)
  else
    let pageCount := u32 (length / 4096)
    if obj.pageCount < pageStart then (false, s)
    else if obj.pageCount - pageStart < pageCount then (false, s)
    else mapSharedLoop base (vmProtToPteFlags prot ||| flagNofree) pageStart obj
      (List.range pageCount) 0 s

/-! ### Mappings -/

def vmMapAnonPrivateRegion (s : State) (base length prot flags : ℕ) : Bool × State :=
  if length = 0 then (false, s)
  else if !vmRangeAvailable s base length then (false, s)
  else
    let (ok, s) :=
      if flags &&& mapReserve = 0 then vmCommitPrivatePages s base length prot else (true, s)
    if !ok then (false, s)
    else match vmRegionAllocSlot s.regions with
      | none =>
        (false, if flags &&& mapReserve = 0 then vmReleasePrivatePages s base length else s)
      | some slot =>
        (true, s.setRegions (vmRegionFill s.regions slot base length
          (if flags &&& mapReserve ≠ 0 then 0 else prot) flags .anonPrivate vmBackingNone 0
          (flags &&& mapReserve == 0)))

def vmMapGuardRegion (s : State) (base length flags : ℕ) : Bool × State :=
  if length = 0 then (false, s)
  else if !vmRangeAvailable s base length then (false, s)
  else match vmRegionAllocSlot s.regions with
    | none => (false, s)
    | some slot =>
      (true, s.setRegions (vmRegionFill s.regions slot base length 0 flags .guard
        vmBackingNone 0 false))

def vmMapAnonSharedRegion (s : State) (base length prot flags : ℕ) : Bool × State :=
  if length = 0 then (false, s)
  else if !vmRangeAvailable s base length then (false, s)
  else match vmSharedCreate s (u32 (length / 4096)) with
    | (none, s) => (false, s)
    | (some id, s) =>
      let (ok, s) := vmMapSharedPages s base length prot id 0
      if !ok then (false, vmSharedDestroy s id)
      else match vmRegionAllocSlot s.regions with
        | none => (false, vmSharedDestroy (vmUnmapPagesOnly s base length) id)
        | some slot =>
          (true, s.setRegions (vmRegionFill s.regions slot base length prot flags .anonShared
            id.val 0 true))

/-- The loop of `vm_map_file_region` that reads the file into the pages. -/
def readLoop (base length : ℕ) : List ℕ → State → Bool × State
  | [], s => (true, s)
  | va :: vas, s =>
    if vmmVirtToPhysUser s va = 0 then (false, vmReleasePrivatePages s base length)
    else
      let (ok, s) := nextOk s
      if !ok then (false, vmReleasePrivatePages s base length) else readLoop base length vas s

def vmMapFileRegion (s : State) (base length prot flags fd : ℕ) : Bool × State :=
  if fd < 3 ∨ fdMax ≤ fd then (false, s)
  else match s.fds fd with
    | .none => (false, s)
    | .memfd _ => (false, s)
    | .file size =>
      if !vmRangeAvailable s base length then (false, s)
      else
        let (ok, s) := vmCommitPrivatePages s base length prot
        if !ok then (false, s)
        else
          let remaining := if length < size then length else size
          let (ok, s) := readLoop base length
            ((List.range ((remaining + 4095) / 4096)).map fun i => base + i * 4096) s
          if !ok then (false, s)
          else match vmRegionAllocSlot s.regions with
            | none => (false, vmReleasePrivatePages s base length)
            | some slot =>
              (true, s.setRegions (vmRegionFill s.regions slot base length prot flags
                .filePrivate vmBackingNone 0 true))

/-- The loop of `vm_map_memfd_region` over the frames of the file. -/
def memfdMapLoop (flags : ℕ) : List ℕ → ℕ → ℕ → State → State
  | [], _, _, s => s
  | pa :: pas, va, remaining, s =>
    if remaining = 0 then s
    else if pa = 0 then s
    else memfdMapLoop flags pas (va + 4096) (if 4096 < remaining then remaining - 4096 else 0)
      (vmmMapUser s va pa flags)

def memfdFlags (prot : ℕ) : ℕ :=
  let flags := flagPresent ||| flagUser
  let flags := if prot &&& protWrite ≠ 0 then u32 (flags ||| flagWrite) else flags
  if prot &&& protExec = 0 then u32 (flags ||| flagNoExecute) else flags

def vmMapMemfdRegion (s : State) (base length prot flags : ℕ) (mf : Memfd) : Bool × State :=
  if !vmRangeAvailable s base length then (false, s)
  else
    let remaining := if length < mf.size then length else mf.size
    let s := memfdMapLoop (memfdFlags prot) mf.pages base remaining s
    match vmRegionAllocSlot s.regions with
    | none => (false, s)
    | some slot =>
      (true, s.setRegions (vmRegionFill s.regions slot base length prot flags .anonShared
        vmBackingNone 0 true))

/-! ### Changes of mappings -/

def vmReleaseRegionPages (s : State) (r : Region) (base length : ℕ) : Bool × State :=
  if length = 0 then (false, s)
  else if !r.committed then (true, s)
  else if !vmRangeMapped s base length then (false, s)
  else match r.kind with
    | .anonShared =>
      (true, vmSharedReleaseRange (vmUnmapPagesOnly s base length) r.backingId
        (vmRegionPageStartAt r base) (u32 (length / 4096)))
    | .anonPrivate => (true, vmReleasePrivatePages s base length)
    | .filePrivate => (true, vmReleasePrivatePages s base length)
    | .none => (false, s)
    | .guard => (false, s)

/-- The loop of `vm_unmap_region_range` over the regions that cover the range. -/
def releaseLoop (base stop : ℕ) : List Slot → State → Bool × State
  | [], s => (true, s)
  | slot :: slots, s =>
    let r := s.regions slot
    let overlapBase := if r.base < base then base else r.base
    let overlapEnd := if stop < r.stop then stop else r.stop
    if overlapEnd ≤ overlapBase then (false, s)
    else
      let (ok, s) := vmReleaseRegionPages s r overlapBase (overlapEnd - overlapBase)
      if !ok then (false, s) else releaseLoop base stop slots s

def vmUnmapRegionRange (s : State) (base length : ℕ) : Bool × State :=
  let stop := u64 (base + length)
  match vmRegionCollectCoveringSlots s.regions base length with
  | none => (false, s)
  | some slots => match spillSlot s.regions slots base stop with
    | none => (false, s)
    | some spill =>
      let (ok, s) := releaseLoop base stop slots s
      if !ok then (false, s)
      else (true, s.setRegions
        (vmRegionMergeNeighbors (trimRegions s.regions slots spill base stop)))

/-- The loop of `vm_mprotect_region_range` over the pages. -/
def protectLoop (flags : ℕ) : List ℕ → State → Bool × State
  | [], s => (true, s)
  | va :: vas, s =>
    let (ok, s) := vmmProtectUser s va flags
    if !ok then (false, s) else protectLoop flags vas s

def vmMprotectRegionRange (s : State) (base length prot : ℕ) : Bool × State :=
  match vmRegionFindContaining s.regions base length with
  | none => (false, s)
  | some slot =>
    let r := s.regions slot
    let stop := u64 (base + length)
    let rewrite (s : State) (slots : List Slot) (inner outer : Piece) : State :=
      s.setRegions
        (vmRegionMergeNeighbors (splitRegion s.regions slot slots r base length inner outer))
    match vmRegionAllocSlots s.regions (slotsNeeded r base stop) with
    | none => (false, s)
    | some slots =>
      if !r.committed then
        if r.kind ≠ .anonPrivate ∧ r.kind ≠ .guard then (false, s)
        else if prot = 0 then
          (true, rewrite s slots ⟨0, r.flags, false⟩ ⟨r.prot, r.flags, false⟩)
        else if r.kind = .guard then (false, s)
        else
          let (ok, s) := vmCommitPrivatePages s base length prot
          if !ok then (false, s)
          else (true, rewrite s slots ⟨prot, r.flags &&& not32 mapReserve, true⟩
            ⟨0, r.flags, false⟩)
      else if !vmRangeMapped s base length then (false, s)
      else
        let (ok, s) := protectLoop (vmProtToPteFlags prot) (pageAddrs base length) s
        if !ok then (false, s)
        else (true, rewrite s slots ⟨prot, r.flags, true⟩ ⟨r.prot, r.flags, true⟩)

/-! ### The calls -/

inductive Error
  | inval
  | nomem
  | badf
  | failed
  deriving DecidableEq, Repr

def roundLength (length : ℕ) : Option ℕ :=
  if length = 0 ∨ 2 ^ 64 - 1 - (4096 - 1) < length then none
  else
    let length := u64 (length + (4096 - 1)) &&& not64 (4096 - 1)
    if length = 0 then none else some length

def mmapBase (s : State) (hint length flags : ℕ) : ℕ :=
  if flags &&& mapFixed ≠ 0 then if vmRangeAvailable s hint length then hint else 0
  else if hint ≠ 0 ∧ vmRangeAvailable s hint length then hint
  else vmFindFreeRange s length

def sysMmap (s : State) (a1 a2 a3 a4 a5 : UInt64) : Except Error ℕ × State :=
  let hint := a1.toNat
  let prot := u32 a3.toNat
  let flags := u32 a4.toNat
  let fd := u32 a5.toNat
  match roundLength a2.toNat with
  | none => (.error .inval, s)
  | some length =>
    if !vmProtSupported prot || !vmFlagsSupported flags then (.error .inval, s)
    else if flags &&& mapReserve ≠ 0 ∧ prot ≠ 0 then (.error .inval, s)
    else if flags &&& mapGuard ≠ 0 ∧ prot ≠ 0 then (.error .inval, s)
    else if hint ≠ 0 ∧ hint &&& (4096 - 1) ≠ 0 then (.error .inval, s)
    else
      let base := mmapBase s hint length flags
      if base = 0 then (.error .nomem, s)
      else
        let (ok, s) :=
          if flags &&& mapGuard ≠ 0 then vmMapGuardRegion s base length flags
          else if flags &&& mapAnon ≠ 0 then
            if flags &&& mapShared ≠ 0 then vmMapAnonSharedRegion s base length prot flags
            else vmMapAnonPrivateRegion s base length prot flags
          else match (if 3 ≤ fd ∧ fd < fdMax then s.fds fd else .none) with
            | .memfd mf => vmMapMemfdRegion s base length prot flags mf
            | _ => vmMapFileRegion s base length prot flags fd
        if ok then (.ok base, s) else (.error .nomem, s)

def sysMunmap (s : State) (a1 a2 : UInt64) : Except Error ℕ × State :=
  let base := a1.toNat
  if base &&& (4096 - 1) ≠ 0 then (.error .inval, s)
  else match roundLength a2.toNat with
    | none => (.error .inval, s)
    | some length =>
      let (ok, s) := vmUnmapRegionRange s base length
      (if ok then .ok 0 else .error .failed, s)

def sysMprotect (s : State) (a1 a2 a3 : UInt64) : Except Error ℕ × State :=
  let base := a1.toNat
  let prot := u32 a3.toNat
  if base &&& (4096 - 1) ≠ 0 then (.error .inval, s)
  else match roundLength a2.toNat with
    | none => (.error .inval, s)
    | some length =>
      if !vmProtSupported prot then (.error .inval, s)
      else
        let (ok, s) := vmMprotectRegionRange s base length prot
        (if ok then .ok 0 else .error .failed, s)

end TaterTOS.Vm
