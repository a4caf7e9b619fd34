import TaterTOS.Lib.Word
import TaterTOS.Lib.Chain

/-!
# The physical memory manager

A model of `kernel/mm/pmm.c`: a buddy allocator over pages of 4096 bytes. Every page has one byte
of metadata; the head of a block holds its kind and order, the other pages of the block hold
`metaTail`. The free blocks of each order form a list through `freeNext`.

Loops that follow list links take fuel and answer `none` without it; a call on an allocator whose
metadata was never placed answers `none` at the first access through its null pointers.
-/

namespace TaterTOS.Pmm

open Function Lib

/-! ### Constants -/

def pageSize : ℕ := 4096
def efiConventionalMemory : ℕ := 7
def earlyPhysLimit : ℕ := 0x100000000
def earlyPoolMin : ℕ := 0x00200000
def earlyPoolSize : ℕ := 16 * 1024 * 1024
def smpTrampolinePhys : ℕ := 0x00008000

def metaOrderMask : ℕ := 0x3F
def metaKindMask : ℕ := 0xC0
def metaFreeBase : ℕ := 0x00
def metaUsedBase : ℕ := 0x40
def metaReservedBase : ℕ := 0x80
def metaTail : ℕ := 0xFF

def invalidPage : ℕ := 2 ^ 64 - 1

/-! ### Data -/

structure PhysRange where
  start : ℕ
  stop : ℕ
  deriving DecidableEq, Repr

structure State where
  pageMeta : ℕ → ℕ
  freeNext : ℕ → ℕ
  freeHeads : ℕ → ℕ
  metadataBytes : ℕ
  metadataPhys : ℕ
  totalPages : ℕ
  usedPages : ℕ
  earlyAllocLimit : ℕ
  earlyPoolStart : ℕ
  earlyPoolEnd : ℕ
  earlyPoolNext : ℕ
  maxOrder : ℕ

/-! ### Metadata bytes -/

def metaMakeFree (order : ℕ) : ℕ := metaFreeBase ||| order
def metaMakeUsed (order : ℕ) : ℕ := metaUsedBase ||| order
def metaMakeReserved (order : ℕ) : ℕ := metaReservedBase ||| order

def metaIsTail (m : ℕ) : Bool := m == metaTail
def metaIsFree (m : ℕ) : Bool := m != metaTail && (m &&& metaKindMask) == metaFreeBase
def metaIsUsed (m : ℕ) : Bool := m != metaTail && (m &&& metaKindMask) == metaUsedBase
def metaOrder (m : ℕ) : ℕ := m &&& metaOrderMask

def clampEarlyAllocLimit (limit : ℕ) : ℕ :=
  alignDown (if limit = 0 ∨ earlyPhysLimit < limit then earlyPhysLimit else limit) pageSize

def orderPages (order : ℕ) : ℕ := u64 (1 <<< order)

/-- The loop of `compute_max_order`; the fuel is its bound on `order`. -/
def computeMaxOrderLoop (pages : ℕ) : ℕ → ℕ → ℕ
  | 0, order => order
  | fuel + 1, order =>
    let nextPages := u64 (1 <<< (order + 1))
    if nextPages = 0 ∨ pages < nextPages then order
    else computeMaxOrderLoop pages fuel (order + 1)

def computeMaxOrder (pages : ℕ) : ℕ := computeMaxOrderLoop pages 63 0

/-- The loop of `order_for_pages`; the fuel is what remains of `pmm_max_order`. -/
def orderForPagesLoop (count : ℕ) : ℕ → ℕ → ℕ → ℕ × ℕ
  | 0, pages, order => (pages, order)
  | fuel + 1, pages, order =>
    if pages < count then orderForPagesLoop count fuel (u64 (pages <<< 1)) (order + 1)
    else (pages, order)

/-- The smallest order that holds `count` pages, or `0xFF`. -/
def orderForPages (maxOrder count : ℕ) : ℕ :=
  let r := orderForPagesLoop count maxOrder 1 0
  if r.1 < count then 0xFF else r.2

def metadataSizeBytes (pages maxOrder : ℕ) : ℕ :=
  let size := u64 pages
  let size := alignUp size 8
  let size := u64 (size + u64 (pages * 8))
  let size := alignUp size 8
  let size := u64 (size + u64 ((maxOrder + 1) * 8))
  alignUp size pageSize

/-! ### Guard ranges -/

def exchange : PhysRange → List PhysRange → PhysRange × List PhysRange
  | x, [] => (x, [])
  | x, y :: ys =>
    if y.start < x.start then ((exchange y ys).1, x :: (exchange y ys).2)
    else ((exchange x ys).1, y :: (exchange x ys).2)

def sortRangesLoop : ℕ → List PhysRange → List PhysRange
  | 0, l => l
  | _ + 1, [] => []
  | n + 1, x :: xs => (exchange x xs).1 :: sortRangesLoop n (exchange x xs).2

def sortRanges (ranges : List PhysRange) : List PhysRange := sortRangesLoop ranges.length ranges

/-- One step of the merge; the ranges already written are held last first. -/
def normalizeStep (out : List PhysRange) (r : PhysRange) : List PhysRange :=
  if r.stop ≤ r.start then out
  else match out with
    | [] => [r]
    | last :: rest =>
      if last.stop < r.start then r :: last :: rest
      else if last.stop < r.stop then { last with stop := r.stop } :: rest
      else last :: rest

def normalizeRanges (ranges : List PhysRange) : List PhysRange :=
  ((sortRanges ranges).foldl normalizeStep []).reverse

def findRegionLoop (stop size : ℕ) : ℕ → List PhysRange → Option ℕ
  | cursor, [] => if u64 (cursor + size) ≤ stop then some cursor else none
  | cursor, g :: gs =>
    if g.stop ≤ cursor then findRegionLoop stop size cursor gs
    else if stop ≤ g.start then if u64 (cursor + size) ≤ stop then some cursor else none
    else if u64 (cursor + size) ≤ g.start then some cursor
    else
      let cursor' := alignUp g.stop pageSize
      if stop ≤ cursor' ∨ stop - cursor' < size then none
      else findRegionLoop stop size cursor' gs

def findRegionBase (start stop : ℕ) (guards : List PhysRange) (size : ℕ) : Option ℕ :=
  if size = 0 then none
  else
    let cursor := alignUp start pageSize
    let stop := alignDown stop pageSize
    if stop ≤ cursor ∨ stop - cursor < size then none
    else findRegionLoop stop size cursor guards

/-! ### Blocks and free lists -/

/-- The writes of `set_block_meta`: the head, then the tails one by one. -/
def setBlockMeta (s : State) (startPage order headMeta : ℕ) : State :=
  { s with
    pageMeta := (List.range' 1 (orderPages order - 1)).foldl
      (fun m i => update m (startPage + i) metaTail)
      (update s.pageMeta startPage headMeta) }

def insertFreeBlock (s : State) (startPage order : ℕ) : State :=
  let s := setBlockMeta s startPage order (metaMakeFree order)
  { s with
    freeNext := update s.freeNext startPage (s.freeHeads order)
    freeHeads := update s.freeHeads order startPage }

/-- Search the list of `order` for the first block that satisfies `ok`, with the block before it.
The fuel is enough for a list without repetitions. -/
def findFree (s : State) (order : ℕ) (ok : ℕ → Bool) : Option (Option (ℕ × ℕ)) :=
  walk s.freeNext invalidPage ok (s.totalPages + 1) invalidPage (s.freeHeads order)

def unlink (s : State) (order prev cur : ℕ) : State :=
  { s with
    freeNext := unlinkNext s.freeNext invalidPage prev cur
    freeHeads := update s.freeHeads order
      (unlinkHead s.freeNext invalidPage prev cur (s.freeHeads order)) }

def removeFreeBlock (s : State) (startPage order : ℕ) : Option (Bool × State) :=
  match findFree s order (· == startPage) with
  | none => none
  | some none => some (false, s)
  | some (some (prev, cur)) => some (true, unlink s order prev cur)

/-- The merge loop of `free_block`; the fuel is what remains of `pmm_max_order`. -/
def coalesce : ℕ → State → ℕ → ℕ → Option (State × ℕ × ℕ)
  | 0, s, startPage, order => some (s, startPage, order)
  | fuel + 1, s, startPage, order =>
    let buddy := startPage ^^^ orderPages order
    if s.totalPages ≤ buddy then some (s, startPage, order)
    else if !metaIsFree (s.pageMeta buddy) || metaOrder (s.pageMeta buddy) != order then
      some (s, startPage, order)
    else match removeFreeBlock s buddy order with
      | none => none
      | some (false, s) => some (s, startPage, order)
      | some (true, s) =>
        coalesce fuel s (if buddy < startPage then buddy else startPage) (order + 1)

def freeBlock (s : State) (startPage order : ℕ) : Option State :=
  let s := { s with usedPages := sub64 s.usedPages (orderPages order) }
  match coalesce (s.maxOrder - order) s startPage order with
  | none => none
  | some (s, startPage, order) => some (insertFreeBlock s startPage order)

def releaseBlock (s : State) (startPage order : ℕ) : Option State :=
  freeBlock (setBlockMeta s startPage order (metaMakeUsed order)) startPage order

def fitOrder (startPage endPage : ℕ) : ℕ → ℕ
  | 0 => 0
  | order + 1 =>
    if startPage &&& (orderPages (order + 1) - 1) = 0 ∧
        u64 (startPage + orderPages (order + 1)) ≤ endPage then order + 1
    else fitOrder startPage endPage order

/-- The loop of `release_range_pages`; each round releases at least one page. -/
def releaseRangeLoop : ℕ → State → ℕ → ℕ → Option State
  | 0, s, startPage, endPage => if startPage < endPage then none else some s
  | fuel + 1, s, startPage, endPage =>
    if startPage < endPage then
      let order := fitOrder startPage endPage s.maxOrder
      match releaseBlock s startPage order with
      | none => none
      | some s => releaseRangeLoop fuel s (u64 (startPage + orderPages order)) endPage
    else some s

def releaseRangePages (s : State) (startPage endPage : ℕ) : Option State :=
  releaseRangeLoop (endPage - startPage) s startPage endPage

/-- The loop of `release_descriptor_usable` over the guards, and the release behind it. -/
def releaseDescriptorLoop (stop : ℕ) : State → ℕ → List PhysRange → Option State
  | s, cursor, [] =>
    if cursor < stop then releaseRangePages s (cursor / pageSize) (stop / pageSize) else some s
  | s, cursor, g :: gs =>
    if stop ≤ cursor then some s
    else if g.stop ≤ cursor then releaseDescriptorLoop stop s cursor gs
    else if stop ≤ g.start then releaseRangePages s (cursor / pageSize) (stop / pageSize)
    else match (if cursor < g.start then
        releaseRangePages s (cursor / pageSize) (g.start / pageSize) else some s) with
      | none => none
      | some s => releaseDescriptorLoop stop s (if cursor < g.stop then g.stop else cursor) gs

def releaseDescriptorUsable (s : State) (start stop : ℕ) (guards : List PhysRange) : Option State :=
  let cursor := alignUp start pageSize
  let stop := alignDown stop pageSize
  if stop ≤ cursor then some s else releaseDescriptorLoop stop s cursor guards

/-! ### Allocation -/

def blockCanSatisfy (startPage blockOrder targetOrder minPage maxPage : ℕ) : Bool :=
  let targetPages := orderPages targetOrder
  let blockEnd := u64 (startPage + orderPages blockOrder)
  let rangeStart := if startPage < minPage then minPage else startPage
  let rangeEnd := if maxPage < blockEnd then maxPage else blockEnd
  if rangeEnd ≤ rangeStart ∨ rangeEnd - rangeStart < targetPages then false
  else decide (u64 (alignUp rangeStart targetPages + targetPages) ≤ rangeEnd)

/-- How the split loop ends: with a block of the target order, or because neither half fits. -/
inductive SplitResult
  | done (s : State) (block : ℕ)
  | neither (s : State)

/-- The split loop; the number counts the halvings left, `order` is the order it started from. -/
def splitLoop (order targetOrder minPage maxPage : ℕ) : ℕ → State → ℕ → SplitResult
  | 0, s, block => .done s block
  | n + 1, s, block =>
    let splitOrder := targetOrder + n
    let left := block
    let right := u64 (block + orderPages splitOrder)
    let leftOk := blockCanSatisfy left splitOrder targetOrder minPage maxPage
    let rightOk := blockCanSatisfy right splitOrder targetOrder minPage maxPage
    if !leftOk && !rightOk then .neither (insertFreeBlock s block order)
    else if leftOk then
      let s := setBlockMeta s left splitOrder (metaMakeFree splitOrder)
      splitLoop order targetOrder minPage maxPage n (insertFreeBlock s right splitOrder) left
    else
      let s := setBlockMeta s right splitOrder (metaMakeFree splitOrder)
      splitLoop order targetOrder minPage maxPage n (insertFreeBlock s left splitOrder) right

def splitBlock (s : State) (prev cur order targetOrder minPage maxPage : ℕ) : SplitResult :=
  splitLoop order targetOrder minPage maxPage (order - targetOrder) (unlink s order prev cur) cur

def takeBlock (targetOrder : ℕ) : SplitResult → ℕ × State
  | .neither s => (0, s)
  | .done s block =>
    let s := setBlockMeta s block targetOrder (metaMakeUsed targetOrder)
    (u64 (block * pageSize), { s with usedPages := u64 (s.usedPages + orderPages targetOrder) })

/-- The loop over the orders; the fuel counts the orders left up to `pmm_max_order`. -/
def allocOrderLoop (s : State) (targetOrder minPage maxPage : ℕ) : ℕ → ℕ → Option (ℕ × State)
  | 0, _ => some (0, s)
  | fuel + 1, order =>
    match findFree s order (blockCanSatisfy · order targetOrder minPage maxPage) with
    | none => none
    | some none => allocOrderLoop s targetOrder minPage maxPage fuel (order + 1)
    | some (some (prev, cur)) =>
      some (takeBlock targetOrder (splitBlock s prev cur order targetOrder minPage maxPage))

/-- The first page of the window: `min_phys` rounded up, at least `1`. -/
def windowMin (minPhys : ℕ) : ℕ :=
  if alignUp minPhys pageSize / pageSize < 1 then 1 else alignUp minPhys pageSize / pageSize

/-- The end of the window: `max_phys` rounded down, at most `pmm_total_pages`. -/
def windowMax (total maxPhys : ℕ) : ℕ :=
  if total < maxPhys / pageSize then total else maxPhys / pageSize

def allocPagesRangeLocked (s : State) (count minPhys maxPhys : ℕ) : Option (ℕ × State) :=
  if count = 0 ∨ s.totalPages = 0 then some (0, s)
  else
    let minPage := windowMin minPhys
    let maxPage := windowMax s.totalPages maxPhys
    if maxPage ≤ minPage then some (0, s)
    else
      let targetOrder := orderForPages s.maxOrder count
      if targetOrder = 0xFF then some (0, s)
      else if s.metadataPhys = 0 then none
      else allocOrderLoop s targetOrder minPage maxPage (s.maxOrder + 1 - targetOrder) targetOrder

/-- The loop of `reserve_early_pool`, halving the size from `earlyPoolSize` to one page. -/
def reserveEarlyPoolLoop (poolLimit : ℕ) : ℕ → State → ℕ → Option State
  | 0, _, _ => none
  | fuel + 1, s, poolSize =>
    match allocPagesRangeLocked s (poolSize / pageSize) earlyPoolMin poolLimit with
    | none => none
    | some (phys, s) =>
      if phys ≠ 0 then
        some { s with
          earlyPoolStart := phys, earlyPoolEnd := u64 (phys + poolSize), earlyPoolNext := phys }
      else if poolSize = pageSize then some s
      else reserveEarlyPoolLoop poolLimit fuel s (poolSize >>> 1)

def reserveEarlyPool (s : State) : Option State :=
  let s := { s with earlyPoolStart := 0, earlyPoolEnd := 0, earlyPoolNext := 0 }
  let poolLimit := clampEarlyAllocLimit s.earlyAllocLimit
  if poolLimit ≤ earlyPoolMin then some s
  else reserveEarlyPoolLoop poolLimit 13 s earlyPoolSize

/-! ### Boot -/

structure Descriptor where
  type : UInt32
  physicalStart : UInt64
  numberOfPages : UInt64

def isUsableType (type : ℕ) : Bool := type == efiConventionalMemory

def Descriptor.usable (d : Descriptor) : Bool := isUsableType d.type.toNat

def Descriptor.stop (d : Descriptor) : ℕ :=
  u64 (d.physicalStart.toNat + u64 (d.numberOfPages.toNat * pageSize))

/-- The handoff fields that are read; `descAt off` is the descriptor `off` bytes into the map.
Like every object the map has fewer than `2 ^ 63` bytes. -/
structure Handoff where
  mmapBase : UInt64
  mmapSize : UInt64
  mmapDescSize : UInt64
  bootIdentityLimit : UInt64
  descAt : ℕ → Descriptor
  size_lt : mmapSize.toNat < 2 ^ 63

/-- An image in physical memory, between two linker symbols: at least one byte and fewer than
`2 ^ 63`. -/
structure Image where
  start : ℕ
  stop : ℕ
  nonempty : start < stop
  stop_lt : stop < 2 ^ 64
  size_lt : stop - start < 2 ^ 63

/-- What `pmm_init` starts from; the handoff pointer may be null. -/
structure Boot where
  handoff : Option Handoff
  bootImage : Image
  kernelImage : Image

def mmapOffsets (size stride : ℕ) : ℕ → ℕ → List ℕ
  | 0, _ => []
  | fuel + 1, off =>
    if off < size then off :: mmapOffsets size stride fuel (u64 (off + stride)) else []

def Handoff.descs (h : Handoff) : List Descriptor :=
  (mmapOffsets h.mmapSize.toNat h.mmapDescSize.toNat h.mmapSize.toNat 0).map h.descAt

def maxPhysStep (maxPhys : ℕ) (d : Descriptor) : ℕ :=
  if !d.usable then maxPhys
  else if d.numberOfPages.toNat = 0 ∨ (2 ^ 64 - 1) / pageSize < d.numberOfPages.toNat then maxPhys
  else if maxPhys < d.stop then d.stop else maxPhys

/-- Page `0` and the trampoline page, then the page-rounded images. -/
def fixedGuards (b : Boot) : List PhysRange :=
  [⟨0, pageSize⟩, ⟨smpTrampolinePhys, smpTrampolinePhys + pageSize⟩,
    ⟨alignDown b.bootImage.start pageSize, alignUp b.bootImage.stop pageSize⟩,
    ⟨alignDown b.kernelImage.start pageSize, alignUp b.kernelImage.stop pageSize⟩]

/-- The place for the metadata inside one descriptor, if there is one. -/
def metadataCandidate (guards : List PhysRange) (size : ℕ) (d : Descriptor) : Option (ℕ × ℕ) :=
  let start := d.physicalStart.toNat
  if !d.usable then none
  else if earlyPhysLimit ≤ start then none
  else
    let stop := if earlyPhysLimit < d.stop then earlyPhysLimit else d.stop
    if stop ≤ start then none
    else match findRegionBase start stop guards size with
      | none => none
      | some candidate => some (candidate, stop - start)

def metadataStep (guards : List PhysRange) (size : ℕ) (best : ℕ × ℕ) (d : Descriptor) : ℕ × ℕ :=
  match metadataCandidate guards size d with
  | none => best
  | some (candidate, descSize) => if best.2 < descSize then (candidate, descSize) else best

/-- The statics as `pmm_init` resets them; nothing is read through the null array pointers. -/
def State.reset : State where
  pageMeta _ := metaTail
  freeNext _ := invalidPage
  freeHeads _ := invalidPage
  metadataBytes := 0
  metadataPhys := 0
  totalPages := 0
  usedPages := 0
  earlyAllocLimit := earlyPhysLimit
  earlyPoolStart := 0
  earlyPoolEnd := 0
  earlyPoolNext := 0
  maxOrder := 0

def State.clearMetadata (s : State) (phys : ℕ) : State :=
  { s with
    metadataPhys := phys
    pageMeta := fun _ => metaMakeReserved 0
    freeNext := fun _ => invalidPage
    freeHeads := fun _ => invalidPage
    usedPages := s.totalPages }

def releaseStep (guards : List PhysRange) (s : State) (d : Descriptor) : Option State :=
  if !d.usable || d.numberOfPages.toNat == 0 then some s
  else releaseDescriptorUsable s d.physicalStart.toNat d.stop guards

def State.measure (h : Handoff) : State :=
  let total := u64 (h.descs.foldl maxPhysStep 0 + pageSize - 1) / pageSize
  let limit := h.bootIdentityLimit.toNat
  { State.reset with
    earlyAllocLimit := if limit ≠ 0 then clampEarlyAllocLimit limit else earlyPhysLimit
    totalPages := total
    maxOrder := if total = 0 then 0 else computeMaxOrder total
    metadataBytes := if total = 0 then 0 else metadataSizeBytes total (computeMaxOrder total) }

def metadataBase (b : Boot) (h : Handoff) : ℕ :=
  (h.descs.foldl (metadataStep (normalizeRanges (fixedGuards b)) (State.measure h).metadataBytes)
    (0, 0)).1

def releaseGuards (b : Boot) (s : State) : List PhysRange :=
  normalizeRanges (fixedGuards b ++ [⟨s.metadataPhys, u64 (s.metadataPhys + s.metadataBytes)⟩])

def pmmInitRelease (b : Boot) : Option State :=
  match b.handoff with
  | none => some State.reset
  | some h =>
    if h.mmapBase.toNat = 0 ∨ h.mmapSize.toNat = 0 ∨ h.mmapDescSize.toNat = 0 then some State.reset
    else if (State.measure h).totalPages = 0 ∨ metadataBase b h = 0 then some (State.measure h)
    else
      let s := (State.measure h).clearMetadata (metadataBase b h)
      h.descs.foldlM (releaseStep (releaseGuards b s)) s

def pmmInit (b : Boot) : Option State :=
  match pmmInitRelease b with
  | none => none
  | some s => if s.metadataPhys = 0 then some s else reserveEarlyPool s

/-! ### Exported calls -/

def pmmAllocPage (s : State) : Option (ℕ × State) :=
  allocPagesRangeLocked s 1 pageSize (2 ^ 64 - 1)

def pmmAllocEarlyLow (s : State) : Option (ℕ × State) :=
  if s.earlyPoolStart ≠ 0 ∧ s.earlyPoolNext < s.earlyPoolEnd then
    some (s.earlyPoolNext, { s with earlyPoolNext := u64 (s.earlyPoolNext + pageSize) })
  else
    let poolLimit := clampEarlyAllocLimit s.earlyAllocLimit
    if poolLimit ≤ earlyPoolMin then some (0, s)
    else allocPagesRangeLocked s 1 earlyPoolMin poolLimit

def pmmAllocPageBelow (s : State) (maxPhys : ℕ) : Option (ℕ × State) :=
  allocPagesRangeLocked s 1 pageSize maxPhys

def pmmAllocPages (s : State) (count : ℕ) : Option (ℕ × State) :=
  if count = 0 then some (0, s) else allocPagesRangeLocked s count pageSize (2 ^ 64 - 1)

def pmmAllocPagesRange (s : State) (count minPhys maxPhys : ℕ) : Option (ℕ × State) :=
  if count = 0 ∨ maxPhys ≤ minPhys then some (0, s)
  else allocPagesRangeLocked s count minPhys maxPhys

def pmmAllocPagesBelow (s : State) (count maxPhys : ℕ) : Option (ℕ × State) :=
  if count = 0 then some (0, s) else allocPagesRangeLocked s count pageSize maxPhys

/-- The count is ignored: the block that starts at `phys` is freed as a whole. -/
def pmmFreePages (s : State) (phys _count : ℕ) : Option State :=
  if phys = 0 then some s
  else
    let startPage := phys / pageSize
    if s.totalPages ≤ startPage then some s
    else if s.metadataPhys = 0 then none
    else if !metaIsUsed (s.pageMeta startPage) then some s
    else freeBlock s startPage (metaOrder (s.pageMeta startPage))

def pmmFreePage (s : State) (phys : ℕ) : Option State := pmmFreePages s phys 1

inductive Op
  | allocPage
  | allocEarlyLow
  | allocPageBelow (maxPhys : UInt64)
  | allocPages (count : UInt64)
  | allocPagesRange (count minPhys maxPhys : UInt64)
  | allocPagesBelow (count maxPhys : UInt64)
  | freePages (phys count : UInt64)

def Op.run (s : State) : Op → Option (ℕ × State)
  | allocPage => pmmAllocPage s
  | allocEarlyLow => pmmAllocEarlyLow s
  | allocPageBelow m => pmmAllocPageBelow s m.toNat
  | allocPages c => pmmAllocPages s c.toNat
  | allocPagesRange c lo hi => pmmAllocPagesRange s c.toNat lo.toNat hi.toNat
  | allocPagesBelow c hi => pmmAllocPagesBelow s c.toNat hi.toNat
  | freePages p c => (pmmFreePages s p.toNat c.toNat).map (0, ·)

def runOps (s : State) : List Op → Option State
  | [] => some s
  | op :: ops => match op.run s with
    | none => none
    | some (_, s) => runOps s ops

end TaterTOS.Pmm
