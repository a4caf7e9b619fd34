import TaterTOS.Fat32.Dir

/-!
# FAT32: files

`fat32Write`, `fat32Seek` and `fat32Truncate` on an open file. The loops over a chain
share a counter of steps, which is the `fuel` of the model.
-/

namespace TaterTOS.Fat32

open Lib

def Fs.startOff (fs : Fs) (skip s : ℕ) : ℕ :=
  if s = skip / fs.bytesPerSector then skip % fs.bytesPerSector else 0

/-! ### Reading -/

/-! ### Writing -/

def skipWrite (fs : Fs) : ℕ → ℕ → ℕ → ℕ → FatIo (Option (ℕ × ℕ × ℕ × ℕ))
  | fuel, prev, cluster, skip =>
    if skip < fs.clusterSize then return some (fuel, prev, cluster, skip)
    else
      match fuel with
      | 0 => return none
      | fuel + 1 => do
        let next ← readFatEntry fs cluster
        if eoc ≤ next then
          let newc ← allocCluster fs cluster
          if newc = 0 then return none
          else skipWrite fs fuel cluster newc (skip - fs.clusterSize)
        else skipWrite fs fuel cluster next (skip - fs.clusterSize)

/-- The `n` sectors of a cluster from `s` on: the bytes that are left, and whether every sector
could be read and written. -/
def writeSectors (fs : Fs) (lba skip : ℕ) : ℕ → ℕ → List UInt8 → FatIo (List UInt8 × Bool)
  | _, 0, data => return (data, true)
  | s, n + 1, data =>
    if s < skip / fs.bytesPerSector then writeSectors fs lba skip (s + 1) n data
    else do
      match ← readSector .data (lba + s) with
      | none => return (data, false)
      | some sector =>
        let off := fs.startOff skip s
        let take := min data.length (fs.bytesPerSector - off)
        if ← writeSector .data (lba + s) (putBytes sector off (data.take take)) then
          if data.length = take then return ([], true)
          else writeSectors fs lba skip (s + 1) n (data.drop take)
        else return (data, false)

def clusterOr (fs : Fs) (prev cluster : ℕ) : FatIo (Option ℕ) := do
  if eoc ≤ cluster then
    let newc ← allocCluster fs prev
    if newc = 0 then return none else return some newc
  else return some cluster

def writeClusters (fs : Fs) : ℕ → ℕ → ℕ → ℕ → List UInt8 → FatIo (List UInt8 × Bool)
  | fuel, prev, cluster, skip, data =>
    if data.length = 0 then return (data, true)
    else
      match fuel with
      | 0 => return (data, true)
      | fuel + 1 => do
        match ← clusterOr fs prev cluster with
        | none => return (data, true)
        | some cluster =>
          let r ← writeSectors fs (fs.clusterToLba cluster) skip 0 fs.sectorsPerCluster data
          if r.2 = false ∨ r.1 = [] then return r
          else
            let next ← readFatEntry fs cluster
            writeClusters fs fuel cluster next 0 r.1

def firstAlloc (fs : Fs) (f : File) : FatIo (Option File) := do
  if 2 ≤ f.firstCluster then return some f
  else if f.pos ≠ 0 ∨ f.size ≠ 0 then return none
  else
    let newc ← allocCluster fs 0
    if newc = 0 then return none
    else if ← updateDirEntryCluster fs f.slot newc then
      return some { f with firstCluster := newc }
    else
      let _ ← writeFatEntry fs newc 0
      return none

def advance (fs : Fs) (f : File) (written : ℕ) : FatIo File := do
  let f := { f with pos := u32 (f.pos + written) }
  if f.size < f.pos then
    let _ ← updateDirEntrySize fs f.slot f.pos
    return { f with size := f.pos }
  else return f

def fat32Write (fs : Fs) (f : File) (data : List UInt8) : FatIo (ℤ × File) := do
  if data.length = 0 then return (0, f)
  if f.isDir then return (-1, f)
  match ← firstAlloc fs f with
  | none => return (-1, f)
  | some f =>
    match ← skipWrite fs fs.chainStepLimit 0 f.firstCluster f.pos with
    | none => return (0, f)
    | some (fuel, prev, cluster, skip) =>
      let r ← writeClusters fs fuel prev cluster skip data
      let written := data.length - r.1.length
      if r.2 then
        let f ← advance fs f written
        return (written, f)
      else return (written, f)

/-! ### Positions and sizes -/

def fat32Seek (f : File) (offset : ℤ) (whence : ℕ) : ℤ × File :=
  let new? : Option ℤ := match whence with
    | 0 => some offset
    | 1 => some (f.pos + offset)
    | 2 => some (f.size + offset)
    | _ => none
  match new? with
  | none => (-1, f)
  | some new => if new < 0 ∨ 0xFFFFFFFF < new then (-1, f) else (new, { f with pos := new.toNat })

def truncateZero (fs : Fs) (f : File) : FatIo (ℤ × File) := do
  if 2 ≤ f.firstCluster then fat32FreeChain fs f.firstCluster
  let _ ← updateDirEntrySize fs f.slot 0
  let _ ← updateDirEntryCluster fs f.slot 0
  return (0, { f with firstCluster := 0, size := 0, pos := 0 })

def truncateKeep (fs : Fs) (f : File) (newSize : ℕ) : FatIo (ℤ × File) := do
  let needed := (newSize + fs.clusterSize - 1) / fs.clusterSize
  let keepLast ← fat32WalkChain fs f.firstCluster (needed - 1)
  if keepLast < 2 then return (-1, f)
  else
    let nextAfter ← readFatEntry fs keepLast
    if 2 ≤ nextAfter ∧ nextAfter < eoc then fat32FreeChain fs nextAfter
    let _ ← writeFatEntry fs keepLast endMark
    let _ ← updateDirEntrySize fs f.slot newSize
    return (0, { f with size := newSize, pos := min f.pos newSize })

def fat32Truncate (fs : Fs) (f : File) (newSize : ℕ) : FatIo (ℤ × File) :=
  if f.isDir then return (-1, f)
  else if newSize = f.size then return (0, f)
  else if f.size < newSize then return (-1, f)
  else if newSize = 0 then truncateZero fs f
  else truncateKeep fs f newSize

end TaterTOS.Fat32
