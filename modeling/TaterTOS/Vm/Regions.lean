import TaterTOS.Lib.Word

/-!
# The region table of a process

A model of the `vm_region_*` helpers of `kernel/proc/syscall.c`: an array of slots, each unused or
holding one mapping of the process.
-/

namespace TaterTOS.Vm

open Function Lib

/-! ### Constants -/

@[irreducible] def procVmregMax : ℕ := 2048
def vmUserBase : ℕ := 0x0000100000000000
def vmUserLimit : ℕ := 0x00007FFF00000000
def vmBackingNone : ℕ := 0xFFFFFFFF

def protRead : ℕ := 0x01
def protWrite : ℕ := 0x02
def protExec : ℕ := 0x04

def mapShared : ℕ := 0x01
def mapPrivate : ℕ := 0x02
def mapFixed : ℕ := 0x10
def mapAnon : ℕ := 0x20
def mapFile : ℕ := 0x40
def mapReserve : ℕ := 0x80
def mapGuard : ℕ := 0x100

/-! ### Regions -/

inductive RegionKind
  | none
  | anonPrivate
  | anonShared
  | filePrivate
  | guard
  deriving DecidableEq, Repr

structure Region where
  base : ℕ
  length : ℕ
  prot : ℕ
  flags : ℕ
  backingId : ℕ
  backingPageStart : ℕ
  kind : RegionKind
  used : Bool
  committed : Bool
  deriving DecidableEq, Repr

def Region.stop (r : Region) : ℕ := u64 (r.base + r.length)

abbrev Slot := Fin procVmregMax
abbrev Table := Slot → Region

def Region.cleared : Region := ⟨0, 0, 0, 0, vmBackingNone, 0, .none, false, false⟩

def vmRegionClear (t : Table) (slot : Slot) : Table := update t slot Region.cleared

def vmRegionFill (t : Table) (slot : Slot) (base length prot flags : ℕ) (kind : RegionKind)
    (backingId backingPageStart : ℕ) (committed : Bool) : Table :=
  update t slot
    ⟨base, length, prot, flags, backingId, backingPageStart, kind, true, committed⟩

def vmRegionPageStartAt (r : Region) (base : ℕ) : ℕ :=
  if base < r.base then 0 else u32 (r.backingPageStart + u32 ((base - r.base) / 4096))

def vmRegionFillSpanFromParent (t : Table) (dst : Slot) (src : Region)
    (base length prot flags : ℕ) (committed : Bool) : Table :=
  vmRegionFill t dst base length prot flags src.kind src.backingId (vmRegionPageStartAt src base)
    committed

/-! ### Searches -/

def vmRegionAllocSlot (t : Table) : Option Slot :=
  (List.finRange procVmregMax).find? fun i => !(t i).used

def vmRegionAllocSlots (t : Table) (needed : ℕ) : Option (List Slot) :=
  let slots := ((List.finRange procVmregMax).filter fun i => !(t i).used).take needed
  if slots.length = needed then some slots else none

def vmRegionOverlaps (r : Region) (base stop : ℕ) : Bool :=
  if !r.used then false
  else if r.stop < r.base then false
  else !(decide (stop ≤ r.base) || decide (r.stop ≤ base))

def vmAnyRegionOverlap (t : Table) (base length : ℕ) : Bool :=
  if length = 0 then false
  else if u64 (base + length) < base then true
  else (List.finRange procVmregMax).any fun i => vmRegionOverlaps (t i) base (u64 (base + length))

def vmRegionFindContaining (t : Table) (base length : ℕ) : Option Slot :=
  if length = 0 then none
  else if u64 (base + length) < base then none
  else (List.finRange procVmregMax).find? fun i =>
    (t i).used && !decide ((t i).stop < (t i).base) &&
      (decide ((t i).base ≤ base) && decide (u64 (base + length) ≤ (t i).stop))

def slotAt (t : Table) (cursor : ℕ) : Option Slot :=
  (List.finRange procVmregMax).find? fun i =>
    (t i).used && !decide ((t i).stop < (t i).base) &&
      !(decide (cursor < (t i).base) || decide ((t i).stop ≤ cursor))

def collectLoop (t : Table) (stop : ℕ) : ℕ → ℕ → Option (List Slot)
  | 0, cursor => if cursor < stop then none else some []
  | room + 1, cursor =>
    if cursor < stop then
      match slotAt t cursor with
      | none => none
      | some slot =>
        (collectLoop t stop room (if (t slot).stop < stop then (t slot).stop else stop)).map
          fun slots => slot :: slots
    else some []

def vmRegionCollectCoveringSlots (t : Table) (base length : ℕ) : Option (List Slot) :=
  if length = 0 then none
  else if u64 (base + length) < base then none
  else collectLoop t (u64 (base + length)) procVmregMax base

/-! ### Fusion -/

def vmRegionsCanMerge (a b : Region) : Bool :=
  if !a.used || !b.used then false
  else if a.stop ≠ b.base then false
  else if a.prot ≠ b.prot ∨ a.flags ≠ b.flags then false
  else if a.kind ≠ b.kind ∨ a.committed ≠ b.committed then false
  else if a.kind = .anonShared then
    if a.backingId ≠ b.backingId then false
    else decide (u32 (a.backingPageStart + u32 (a.length / 4096)) = b.backingPageStart)
  else true

def fuse (t : Table) (a b : Slot) : Table :=
  vmRegionClear
    (update t a { t a with length := u64 ((t a).length + (t b).length) }) b

def ordered (t : Table) (i j : Slot) : Slot × Slot :=
  if (t j).base < (t i).base then (j, i) else (i, j)

/-- The first two regions, in the order of the two loops, that can be fused. -/
def findMerge (t : Table) : Option (Slot × Slot) :=
  (List.finRange procVmregMax).findSome? fun i =>
    if !(t i).used then none
    else (List.finRange procVmregMax).findSome? fun j =>
      if i = j ∨ !(t j).used then none
      else
        let ab := ordered t i j
        if vmRegionsCanMerge (t ab.1) (t ab.2) then some ab else none

def mergeRounds : ℕ → Table → Table
  | 0, t => t
  | k + 1, t => match findMerge t with
    | none => t
    | some (a, b) => mergeRounds k (fuse t a b)

/-- Each round clears a slot, so there are no more rounds than slots. -/
def vmRegionMergeNeighbors (t : Table) : Table := mergeRounds procVmregMax t

/-! ### Writes -/

def spillSlot (t : Table) (slots : List Slot) (base stop : ℕ) : Option (Option Slot) :=
  match slots with
  | [slot] =>
    if (t slot).base < base ∧ stop < (t slot).stop then (vmRegionAllocSlot t).map some
    else some none
  | _ => some none

/-- What `vm_unmap_region_range` writes for a range inside one region; `spill` is the slot that it
got for the upper part. -/
def trimOne (t : Table) (slot : Slot) (spill : Option Slot) (base stop : ℕ) : Table :=
  let r := t slot
  if base = r.base ∧ stop = r.stop then vmRegionClear t slot
  else if base = r.base then
    vmRegionFillSpanFromParent t slot r stop (sub64 r.stop stop) r.prot r.flags r.committed
  else if stop = r.stop then
    vmRegionFillSpanFromParent t slot r r.base (sub64 base r.base) r.prot r.flags r.committed
  else
    let t :=
      vmRegionFillSpanFromParent t slot r r.base (sub64 base r.base) r.prot r.flags r.committed
    match spill with
    | none => t
    | some spill =>
      vmRegionFillSpanFromParent t spill r stop (sub64 r.stop stop) r.prot r.flags r.committed

/-- What it writes for a range over several regions, the first, the last and those between. -/
def trimMany (t : Table) (first : Slot) (middle : List Slot) (last : Slot) (base stop : ℕ) :
    Table :=
  let rf := t first
  let rl := t last
  let t :=
    if rf.base < base then
      vmRegionFillSpanFromParent t first rf rf.base (sub64 base rf.base) rf.prot rf.flags
        rf.committed
    else vmRegionClear t first
  let t := middle.foldl vmRegionClear t
  if stop < rl.stop then
    vmRegionFillSpanFromParent t last rl stop (sub64 rl.stop stop) rl.prot rl.flags rl.committed
  else vmRegionClear t last

def trimRegions (t : Table) (slots : List Slot) (spill : Option Slot) (base stop : ℕ) : Table :=
  match slots with
  | [] => t
  | [slot] => trimOne t slot spill base stop
  | first :: second :: rest =>
    trimMany t first ((second :: rest).dropLast) ((second :: rest).getLast (by simp)) base stop

def slotsNeeded (r : Region) (base stop : ℕ) : ℕ :=
  if base = r.base ∧ stop = r.stop then 0
  else if base = r.base ∨ stop = r.stop then 1
  else 2

structure Piece where
  prot : ℕ
  flags : ℕ
  committed : Bool

/-- What `vm_mprotect_region_range` writes before the fusion: the range of the region `r` at `slot`
becomes the piece `inner`, and the rest of the region the piece `outer`. -/
def splitRegion (t : Table) (slot : Slot) (slots : List Slot) (r : Region) (base length : ℕ)
    (inner outer : Piece) : Table :=
  let stop := u64 (base + length)
  let fillInner (t : Table) (dst : Slot) : Table :=
    vmRegionFill t dst base length inner.prot inner.flags r.kind r.backingId
      (vmRegionPageStartAt r base) inner.committed
  let fillHead (t : Table) (dst : Slot) : Table :=
    vmRegionFillSpanFromParent t dst r r.base (sub64 base r.base) outer.prot outer.flags
      outer.committed
  let fillTail (t : Table) (dst : Slot) : Table :=
    vmRegionFillSpanFromParent t dst r stop (sub64 r.stop stop) outer.prot outer.flags
      outer.committed
  if base = r.base ∧ stop = r.stop then fillInner t slot
  else match slots with
    | [slot₁] =>
      if base = r.base then fillTail (fillInner t slot) slot₁
      else fillInner (fillHead t slot) slot₁
    | [slot₁, slot₂] => fillTail (fillInner (fillHead t slot) slot₁) slot₂
    | _ => t

end TaterTOS.Vm
