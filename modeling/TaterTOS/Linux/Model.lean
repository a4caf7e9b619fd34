import TaterTOS.Vm.Sbrk

/-!
# Memory of Linux processes

A model of `LNX_brk`, `LNX_mmap` and `LNX_munmap` in `kernel/proc/syscall.c`, and of the faults that
`lx_try_grow_stack` satisfies. The region table, the page map, the allocator and the functions on
them are those of the native calls.

A mapped file appears as the answers of its file system.
-/

namespace TaterTOS.Linux

open Lib Vm
open Vmm (frameOf userVaTop flagPresent flagUser flagWrite flagNoExecute)

def lnxMapShared : ℕ := 0x01
def lnxMapPrivate : ℕ := 0x02
def lnxMapFixed : ℕ := 0x10
def lnxMapAnonymous : ℕ := 0x20
def lnxMapNoreserve : ℕ := 0x4000

structure Process extends Heap where
  heapStart : UInt64
  linuxMmapNext : UInt64

inductive Error
  | inval
  | nomem
  | badf
  | spipe
  | io
  deriving DecidableEq, Repr

/-! ### Pages -/

def frameAt (s : State) (va : ℕ) : ℕ := frameOf (vmmVirtToPhysUser s va)

def lxMapOne (h : Heap) (va flags : ℕ) : Bool × Heap :=
  let (pa, s) := pmmAllocPage h.toState
  if pa = 0 then (false, { h with toState := s })
  else (true, { h with toState := vmmMapUser s va pa flags, mem := fill h.mem pa 4096 0 })

def lxUnmapPage (s : State) (va : ℕ) : State :=
  if frameAt s va = 0 then s else pmmFreePage (vmmUnmapUser s va) (frameAt s va)

def lxUnmapRange (s : State) (base npg : ℕ) : State :=
  ((List.range npg).map fun i => u64 (base + i * 4096)).foldl lxUnmapPage s

def lxMapPages (base flags : ℕ) : ℕ → ℕ → Heap → Bool × Heap
  | 0, _, h => (true, h)
  | k + 1, i, h =>
    if frameAt h.toState (u64 (base + i * 4096)) ≠ 0 then lxMapPages base flags k (i + 1) h
    else match lxMapOne h (u64 (base + i * 4096)) flags with
      | (false, h) => (false, { h with toState := lxUnmapRange h.toState base i })
      | (true, h) => lxMapPages base flags k (i + 1) h

def mmapFlags (prot : ℕ) : ℕ :=
  flagPresent ||| flagUser ||| (if prot &&& protWrite ≠ 0 then flagWrite else 0) |||
    (if prot &&& protExec = 0 then flagNoExecute else 0)

/-! ### The heap -/

def lnxBrk (p : Process) (a1 : UInt64) : ℕ × Process :=
  let curBrk := p.heapEnd.toNat
  let newbrk := a1.toNat
  if newbrk = 0 then (curBrk, p)
  else if newbrk < p.heapStart.toNat ∨ userVaTop < newbrk then (curBrk, p)
  else
    let oldPg := alignUp curBrk 4096
    let newPg := alignUp newbrk 4096
    if oldPg < newPg then
      match lxMapPages oldPg sbrkFlags ((newPg - oldPg) / 4096) 0 p.toHeap with
      | (false, h) => (curBrk, { p with toHeap := h })
      | (true, h) => (newbrk, { p with toHeap := { h with heapEnd := a1 } })
    else if newPg < oldPg then
      (newbrk, { p with
        toState := lxUnmapRange p.toState newPg ((oldPg - newPg) / 4096), heapEnd := a1 })
    else (newbrk, { p with heapEnd := a1 })

/-! ### Mappings -/

def lxMmapProtToFry (prot : ℕ) : ℕ :=
  let fprot := prot &&& (protRead ||| protWrite ||| protExec)
  if fprot ≠ 0 then fprot ||| protRead else 0

def isRangeFreeForMmapHint (s : State) (base length : ℕ) : Bool :=
  if length = 0 ∨ base < 0x10000 then false
  else if u64 (base + length) < base ∨ vmUserLimit < u64 (base + length) then false
  else if vmAnyRegionOverlap s.regions base length then false
  else if vmmVirtToPhysUser s base ≠ 0 then false
  else if vmmVirtToPhysUser s (base + length - 4096) ≠ 0 then false
  else if length ≤ 64 * 1024 * 1024 then
    (pageAddrs base length).all fun va => vmmVirtToPhysUser s va == 0
  else true

/-- Every protection that `lx_mmap_prot_to_fry` gives is supported. -/
def lxMapSparseAnonPrivate (s : State) (base length prot : ℕ) : Option State :=
  if !isRangeFreeForMmapHint s base length then none
  else (vmRegionAllocSlot s.regions).map fun slot => s.setRegions (vmRegionMergeNeighbors
    (vmRegionFill s.regions slot base length (lxMmapProtToFry prot)
      (mapPrivate ||| mapAnon ||| mapReserve) .anonPrivate vmBackingNone 0 false))

/-- Large mappings start at a multiple of the largest power of two in them. -/
def mmapAlign (mapLen : ℕ) : ℕ :=
  if 1024 * 1024 ≤ mapLen then
    let p2 := [1, 2, 4, 8, 16, 32].foldl (fun p2 k => p2 ||| p2 >>> k) mapLen
    (p2 >>> 1) + 1
  else 0x1000

/-- The search downward from the cursor: the base, `0` without one, and the cursor. The fuel is the
cursor, which each round lowers. -/
def cursorLoop (s : State) (mapLen align : ℕ) : ℕ → ℕ → ℕ × ℕ
  | 0, next => (0, next)
  | k + 1, next =>
    if next < u64 (mapLen + 0x10000) then (0, next)
    else
      let cand := sub64 next mapLen &&& not64 (align - 1)
      if isRangeFreeForMmapHint s cand mapLen then (cand, cand)
      else if cand ≤ align then (0, 0)
      else cursorLoop s mapLen align k cand

def isFile : Fd → Bool
  | .file _ => true
  | _ => false

/-- The answers of a file system: whether the position can be read and set, and what the reads of
each page and the zero fill leave in its bytes. -/
structure MappedFile where
  tells : Bool
  seeks : Bool
  reads : ℕ → Option (ℕ → UInt8)

def fileLoop (f : MappedFile) (base : ℕ) : ℕ → ℕ → ℕ → Heap → Except Error Unit × Heap
  | 0, _, _, h => (.ok (), h)
  | k + 1, i, left, h =>
    if left = 0 then (.ok (), h)
    else
      let pa := frameAt h.toState (u64 (base + i * 4096))
      if pa = 0 then (.error .nomem, h)
      else match f.reads i with
        | none => (.error .io, h)
        | some bytes =>
          let chunk := if 4096 < left then 4096 else left
          fileLoop f base k (i + 1) (left - chunk)
            { h with mem := fun a => if pa ≤ a ∧ a < pa + chunk then bytes (a - pa) else h.mem a }

def mapEagerly (f : MappedFile) (h : Heap) (base npg len flags mflags fd : ℕ) :
    Except Error Unit × Heap :=
  match lxMapPages base mflags npg 0 h with
  | (false, h) => (.error .nomem, h)
  | (true, h) =>
    let r : Except Error Unit × Heap :=
      if flags &&& lnxMapAnonymous ≠ 0 then (.ok (), h)
      else if !(3 ≤ fd && fd < fdMax && isFile (h.fds fd)) then (.error .badf, h)
      else if !f.tells then (.error .spipe, h)
      else if !f.seeks then (.error .inval, h)
      else fileLoop f base npg 0 len h
    match r with
    | (.ok _, h) => (.ok (), h)
    | (.error e, h) => (.error e, { h with toState := lxUnmapRange h.toState base npg })

/-- The place of a mapping and the state in which it is made: a fixed one takes away what is
there. -/
def mmapPlace (p : Process) (addr npg flags : ℕ) : ℕ × Process :=
  let mapLen := u64 (npg * 4096)
  let base := addr &&& not64 0xFFF
  let (base, p) :=
    if flags &&& lnxMapFixed ≠ 0 ∧ addr ≠ 0 then
      (base, { p with
        toState := lxUnmapRange (vmUnmapRegionRange p.toState base mapLen).2 base npg })
    else if addr ≠ 0 ∧ isRangeFreeForMmapHint p.toState base mapLen then (base, p)
    else (0, p)
  if base ≠ 0 then (base, p)
  else
    let r := cursorLoop p.toState mapLen (mmapAlign mapLen) p.linuxMmapNext.toNat
      p.linuxMmapNext.toNat
    (r.1, { p with linuxMmapNext := UInt64.ofNat r.2 })

def lnxMmap (p : Process) (f : MappedFile) (a1 a2 a3 a4 a5 a6 : UInt64) :
    Except Error ℕ × Process :=
  let addr := a1.toNat
  let len := a2.toNat
  let prot := a3.toNat
  let flags := a4.toNat
  if len = 0 then (.error .inval, p)
  else if a6.toNat &&& 0xFFF ≠ 0 then (.error .inval, p)
  else if 2 ^ 64 - 1 - 0xFFF < len then (.error .nomem, p)
  else
    let npg := (len + 0xFFF) >>> 12
    let mapLen := u64 (npg * 4096)
    let (base, p) := mmapPlace p addr npg flags
    if base = 0 then (.error .nomem, p)
    else
      let anonPrivate : Bool := flags &&& lnxMapAnonymous ≠ 0 ∧ flags &&& lnxMapPrivate ≠ 0 ∧
        flags &&& lnxMapShared = 0
      if anonPrivate ∧ 64 * 1024 * 1024 ≤ mapLen ∧
          (flags &&& lnxMapNoreserve ≠ 0 ∨ 4 * 1024 * 1024 * 1024 ≤ mapLen) then
        match lxMapSparseAnonPrivate p.toState base mapLen prot with
        | none => (.error .nomem, p)
        | some s => (.ok base, { p with toState := s })
      else match mapEagerly f p.toHeap base npg len flags (mmapFlags prot) (u32 a5.toNat) with
        | (.error e, h) => (.error e, { p with toHeap := h })
        | (.ok _, h) =>
          -- without a free slot the mapping is not tracked
          let regions := match vmRegionAllocSlot h.regions with
            | none => h.regions
            | some slot => vmRegionFill h.regions slot base mapLen (lxMmapProtToFry prot)
                (mapPrivate ||| (if anonPrivate then mapAnon else 0))
                (if anonPrivate then .anonPrivate else .filePrivate) vmBackingNone 0 true
          (.ok base, { p with toHeap := { h with regions := regions } })

def lnxMunmap (p : Process) (a1 a2 : UInt64) : Process :=
  let base := a1.toNat &&& not64 0xFFF
  let npg := u64 (a2.toNat + 0xFFF) >>> 12
  match vmUnmapRegionRange p.toState base (u64 (npg * 4096)) with
  | (true, s) => { p with toState := s }
  | (false, s) => { p with toState := lxUnmapRange s base npg }

/-! ### Growth of a stack -/

def regionAbove (t : Table) (va : ℕ) : Option Slot :=
  (List.finRange procVmregMax).foldl (fun best i =>
    if (t i).used ∧ (t i).kind = .anonPrivate ∧ (t i).prot &&& protWrite ≠ 0 ∧ va < (t i).base then
      match best with
      | none => some i
      | some b => if (t i).base < (t b).base then some i else some b
    else best) none

def lxTryGrowStack (p : Process) (faultVa rsp err : UInt64) : Bool × Process :=
  let va := faultVa.toNat &&& not64 0xFFF
  if err.toNat &&& 1 ≠ 0 then (false, p)
  else
    let window : Bool := va < userVaTop ∧ userVaTop - (512 <<< 20) ≤ va
    if window ∧ frameAt p.toState va ≠ 0 then (true, p)
    else if window ∧ !vmAnyRegionOverlap p.regions va 4096 then
      let (ok, h) := lxMapOne p.toHeap va sbrkFlags
      (ok, { p with toHeap := h })
    else if u64 (faultVa.toNat + 65536) < rsp.toNat then (false, p)
    else match regionAbove p.regions va with
      | none => (false, p)
      | some best =>
        let r := p.regions best
        let gap := sub64 r.base va
        if 1 <<< 20 < gap then (false, p)
        else if 64 <<< 20 < sub64 r.stop va then (false, p)
        else if vmAnyRegionOverlap p.regions va gap then (false, p)
        else
          let grown := { r with base := va, length := u64 (r.length + gap) }
          let p := { p with regions := Function.update p.regions best grown }
          if frameAt p.toState va ≠ 0 then (true, p)
          else
            let (ok, h) := lxMapOne p.toHeap va (flagPresent ||| flagUser ||| flagWrite |||
              (if r.prot &&& protExec = 0 then flagNoExecute else 0))
            (ok, { p with toHeap := h })

end TaterTOS.Linux
