import TaterTOS.Fat32.Names

/-!
# FAT32: directories
-/

namespace TaterTOS.Fat32

open Lib

/-! ### The loop over a directory -/

/-- What the body of the loop does with an entry: stop with a result, or go on. -/
inductive Walk (σ ρ : Type)
  | done (r : ρ)
  | next (s : σ)

inductive WalkEnd (σ ρ : Type)
  /-- A sector could not be read, or the chain is too long. -/
  | failed
  | done (r : ρ)
  | ended (last : ℕ) (s : σ)

structure Slot where
  cluster : ℕ
  offset : ℕ
  deriving DecidableEq, Repr

variable {σ ρ : Type}

abbrev Body (σ ρ : Type) := σ → Record → Slot → Walk σ ρ

def recordAt (s : Sector) (off : ℕ) : Record := fun i => if i < 32 then s (off + i) else 0

def walkRecords (f : Body σ ρ) (s : Sector) (cl base : ℕ) : ℕ → ℕ → σ → Walk σ ρ
  | _, 0, st => .next st
  | off, n + 1, st =>
    match f st (recordAt s off) ⟨cl, base + off⟩ with
    | .done r => .done r
    | .next st => walkRecords f s cl base (off + 32) n st

def walkSectors (fs : Fs) (f : Body σ ρ) (cl : ℕ) : ℕ → ℕ → σ → FatIo (Option (Walk σ ρ))
  | _, 0, st => return some (.next st)
  | s, n + 1, st => do
    match ← readSector .data (fs.clusterToLba cl + s) with
    | none => return none
    | some sector =>
      match walkRecords f sector cl (s * fs.bytesPerSector) 0 (fs.bytesPerSector / 32) st with
      | .done r => return some (.done r)
      | .next st => walkSectors fs f cl (s + 1) n st

def walkClusters (fs : Fs) (f : Body σ ρ) : ℕ → ℕ → ℕ → σ → FatIo (WalkEnd σ ρ)
  | fuel, prev, cl, st =>
    if 2 ≤ cl ∧ cl < eoc then
      match fuel with
      | 0 => return .failed
      | fuel + 1 => do
        match ← walkSectors fs f cl 0 fs.sectorsPerCluster st with
        | none => return .failed
        | some (.done r) => return .done r
        | some (.next st) =>
          let next ← readFatEntry fs cl
          walkClusters fs f fuel cl next st
    else return .ended prev st

def walkDir (fs : Fs) (f : Body σ ρ) (cl : ℕ) (st : σ) : FatIo (WalkEnd σ ρ) :=
  walkClusters fs f fs.chainStepLimit 0 cl st

/-! ### Search -/

structure Found where
  cluster : ℕ
  size : ℕ
  attr : UInt8
  slot : Slot

def findBody (name : Str) : Body Lfn (Option Found) := fun lfn e at_ =>
  if e.isEnd then .done none
  else if e.isDeleted then .next .empty
  else if e.isLfn then .next (lfn.consume e)
  else if e.isVolume then .next .empty
  else if matchName lfn e name then .done (some ⟨e.firstCluster, e.size, e.attr, at_⟩)
  else .next .empty

def findInDir (fs : Fs) (dirCluster : ℕ) (name : Str) : FatIo (Option Found) := do
  match ← walkDir fs (findBody name) dirCluster .empty with
  | .done r => return r
  | _ => return none

def freeSlotBody : Body Unit Slot := fun _ e at_ =>
  if e.isEnd || e.isDeleted then .done at_ else .next ()

/-- `find_free_dir_slot`: without a free entry the directory gets a new cluster. -/
def findFreeDirSlot (fs : Fs) (dirCluster : ℕ) : FatIo (Option Slot) := do
  match ← walkDir fs freeSlotBody dirCluster () with
  | .failed => return none
  | .done at_ => return some at_
  | .ended last _ =>
    let newc ← allocCluster fs last
    if newc = 0 then return none else return some ⟨newc, 0⟩

/-! ### Changes of an entry -/

def Fs.slotLba (fs : Fs) (at_ : Slot) : ℕ :=
  fs.clusterToLba at_.cluster + at_.offset / fs.bytesPerSector

def Fs.slotOff (fs : Fs) (at_ : Slot) : ℕ := at_.offset % fs.bytesPerSector

def editEntry (fs : Fs) (at_ : Slot) (g : ℕ → Sector → Sector) : FatIo Bool := do
  match ← readSector .data (fs.slotLba at_) with
  | none => return false
  | some s => writeSector .data (fs.slotLba at_) (g (fs.slotOff at_) s)

def updateDirEntrySize (fs : Fs) (at_ : Slot) (newSize : ℕ) : FatIo Bool :=
  editEntry fs at_ fun off s => putLe32 s (off + 28) newSize

def putCluster (s : Sector) (off cluster : ℕ) : Sector :=
  putLe16 (putLe16 s (off + 20) (cluster / 65536)) (off + 26) cluster

def updateDirEntryCluster (fs : Fs) (at_ : Slot) (newCluster : ℕ) : FatIo Bool :=
  editEntry fs at_ fun off s => putCluster s off newCluster

def writeDirEntry (fs : Fs) (at_ : Slot) (entry : Record) : FatIo Bool :=
  editEntry fs at_ fun off s => putBytes s off ((List.range 32).map entry)

def markDirEntryDeleted (fs : Fs) (at_ : Slot) : FatIo Bool :=
  editEntry fs at_ fun off s => Function.update s off 0xE5

/-! ### Paths -/

structure File where
  firstCluster : ℕ
  size : ℕ
  pos : ℕ
  slot : Slot
  attr : UInt8

def File.isDir (f : File) : Bool := f.attr &&& attrDir != 0

def openAt (fs : Fs) : ℕ → List Str → FatIo (Option File)
  | _, [] => return none
  | cur, name :: names => do
    match ← findInDir fs cur name with
    | none => return none
    | some r =>
      if names = [] then return some ⟨r.cluster, r.size, 0, r.slot, r.attr⟩
      else if r.attr &&& attrDir = 0 then return none
      else openAt fs r.cluster names

def fat32Open (fs : Fs) (path : Str) : FatIo (Option File) :=
  openAt fs fs.rootCluster (components (relative path))

def resolveAt (fs : Fs) : ℕ → List Str → FatIo (Option ℕ)
  | cur, [] => return some cur
  | cur, name :: names => do
    match ← findInDir fs cur name with
    | none => return none
    | some r => if r.attr &&& attrDir = 0 then return none else resolveAt fs r.cluster names

/-- `resolve_dir_cluster`; unlike `fat32_open` it skips no leading slash. -/
def resolveDirCluster (fs : Fs) (dirPath : Str) : FatIo (Option ℕ) :=
  resolveAt fs fs.rootCluster (components dirPath)

end TaterTOS.Fat32
