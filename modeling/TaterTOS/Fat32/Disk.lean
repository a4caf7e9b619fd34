import TaterTOS.Lib.Device
import TaterTOS.Lib.Word

/-!
# FAT32: the volume

A model of `kernel/fs/fat32.c`, bottom layer.

The functions return at once when a sector does not fit the buffer of `FAT32_MAX_SECTOR` bytes; the
sizes that `fat32_mount` accepts do. Sector addresses are not truncated to 64 bits.
-/

namespace TaterTOS.Fat32

open Lib

inductive Area
  | fat
  | data
  deriving DecidableEq, Repr

abbrev FatIo (α : Type) := Io Area α

/-- A cluster number from here on ends a chain. -/
def eoc : ℕ := 0x0FFFFFF8

def endMark : ℕ := 0x0FFFFFFF

def sectorSizes : List ℕ := [512, 1024, 2048, 4096]

structure Fs where
  partLba : ℕ
  bytesPerSector : ℕ
  sectorsPerCluster : ℕ
  reservedSectors : ℕ
  fatCount : ℕ
  sectorsPerFat : ℕ
  totalSectors : ℕ
  rootCluster : ℕ
  bytes_mem : bytesPerSector ∈ sectorSizes
  cluster_pos : 0 < sectorsPerCluster
  fats_pos : 0 < fatCount
  root_ge : 2 ≤ rootCluster
  total_lt : totalSectors < 2 ^ 32
  /-- There is room for a cluster behind the tables. -/
  room : reservedSectors + fatCount * sectorsPerFat + sectorsPerCluster ≤ totalSectors

namespace Fs

def fatLba (fs : Fs) : ℕ := fs.partLba + fs.reservedSectors

def dataLba (fs : Fs) : ℕ := fs.fatLba + fs.fatCount * fs.sectorsPerFat

def totalClusters (fs : Fs) : ℕ :=
  (fs.totalSectors - (fs.reservedSectors + fs.fatCount * fs.sectorsPerFat)) / fs.sectorsPerCluster

def clusterLimit (fs : Fs) : ℕ := fs.totalClusters + 2

def clusterSize (fs : Fs) : ℕ := fs.sectorsPerCluster * fs.bytesPerSector

end Fs

/-! ### Mounting -/

structure Bpb where
  bytesPerSector : ℕ
  sectorsPerCluster : ℕ
  reservedSectors : ℕ
  fatCount : ℕ
  totalSectors16 : ℕ
  totalSectors32 : ℕ
  sectorsPerFat32 : ℕ
  rootCluster : ℕ
  deriving DecidableEq, Repr

def Bpb.read (s : Sector) : Bpb where
  bytesPerSector := le16 s 11
  sectorsPerCluster := (s 13).toNat
  reservedSectors := le16 s 14
  fatCount := (s 16).toNat
  totalSectors16 := le16 s 19
  totalSectors32 := le32 s 32
  sectorsPerFat32 := le32 s 36
  rootCluster := le32 s 44

def isFat32Bpb (b : Bpb) : Prop :=
  b.bytesPerSector ∈ sectorSizes ∧
  b.sectorsPerCluster ≠ 0 ∧ b.sectorsPerCluster &&& (b.sectorsPerCluster - 1) = 0 ∧
  b.reservedSectors ≠ 0 ∧ b.fatCount ≠ 0 ∧ b.sectorsPerFat32 ≠ 0 ∧ 2 ≤ b.rootCluster ∧
  ¬(b.totalSectors16 = 0 ∧ b.totalSectors32 = 0)

instance (b : Bpb) : Decidable (isFat32Bpb b) := inferInstanceAs (Decidable (_ ∧ _))

def Bpb.totalSectors (b : Bpb) : ℕ :=
  if b.totalSectors32 = 0 then b.totalSectors16 else b.totalSectors32

def Bpb.meta (b : Bpb) : ℕ := b.reservedSectors + b.fatCount * b.sectorsPerFat32

def fat32BootSigOk (s : Sector) (bytesPerSector : ℕ) : Bool :=
  s (bytesPerSector - 2) == 0x55 && s (bytesPerSector - 1) == 0xAA

theorem Bpb.totalSectors_read_lt (s : Sector) : (Bpb.read s).totalSectors < 2 ^ 32 := by
  have := le16_lt s 19
  have := le32_lt s 32
  unfold Bpb.totalSectors Bpb.read
  dsimp only
  split_ifs <;> omega

def fat32Mount (sectorSize partLba : ℕ) (s : Sector) : Option Fs :=
  let b := Bpb.read s
  if hb : isFat32Bpb b then
    if b.bytesPerSector ≠ sectorSize then none
    else if !fat32BootSigOk s b.bytesPerSector then none
    else if b.totalSectors ≤ b.meta then none
    else if hroom : (b.totalSectors - b.meta) / b.sectorsPerCluster = 0 then none
    else some {
      partLba := partLba
      bytesPerSector := b.bytesPerSector
      sectorsPerCluster := b.sectorsPerCluster
      reservedSectors := b.reservedSectors
      fatCount := b.fatCount
      sectorsPerFat := b.sectorsPerFat32
      totalSectors := b.totalSectors
      rootCluster := b.rootCluster
      bytes_mem := hb.1
      cluster_pos := Nat.pos_of_ne_zero hb.2.1
      fats_pos := Nat.pos_of_ne_zero hb.2.2.2.2.1
      root_ge := hb.2.2.2.2.2.2.1
      total_lt := Bpb.totalSectors_read_lt s
      room := by
        rw [Nat.div_eq_zero_iff, not_or, not_lt] at hroom
        have := Nat.pos_of_ne_zero hb.2.1
        unfold Bpb.meta at hroom
        omega }
  else none

/-! ### The table -/

def Fs.chainStepLimit (fs : Fs) : ℕ := fs.totalClusters + 1

def Fs.clusterToLba (fs : Fs) (cluster : ℕ) : ℕ :=
  fs.dataLba + (cluster - 2) * fs.sectorsPerCluster

def Fs.fatSector (fs : Fs) (cluster : ℕ) : ℕ := fs.fatLba + cluster * 4 / fs.bytesPerSector

def Fs.fatOff (fs : Fs) (cluster : ℕ) : ℕ := cluster * 4 % fs.bytesPerSector

/-- The low 28 bits, `v & 0x0FFFFFFF`. -/
def low28 (v : ℕ) : ℕ := v % 2 ^ 28

/-- `(p & 0xF0000000) | (v & 0x0FFFFFFF)`. -/
def setLow28 (p v : ℕ) : ℕ := p / 2 ^ 28 * 2 ^ 28 + low28 v

def readFatEntry (fs : Fs) (cluster : ℕ) : FatIo ℕ := do
  match ← readSector .fat (fs.fatSector cluster) with
  | none => return endMark
  | some s => return low28 (le32 s (fs.fatOff cluster))

def mirrorFat (fs : Fs) (lba : ℕ) (s : Sector) : ℕ → ℕ → FatIo Bool
  | _, 0 => return true
  | f, n + 1 => do
    if ← writeSector .fat (lba + f * fs.sectorsPerFat) s then mirrorFat fs lba s (f + 1) n
    else return false

def writeFatEntry (fs : Fs) (cluster value : ℕ) : FatIo Bool := do
  match ← readSector .fat (fs.fatSector cluster) with
  | none => return false
  | some s =>
    let s := putLe32 s (fs.fatOff cluster) (setLow28 (le32 s (fs.fatOff cluster)) value)
    if ← writeSector .fat (fs.fatSector cluster) s then
      mirrorFat fs (fs.fatSector cluster) s 1 (fs.fatCount - 1)
    else return false

def zeroSectors (lba : ℕ) : ℕ → ℕ → FatIo Bool
  | _, 0 => return true
  | s, n + 1 => do
    if ← writeSector .data (lba + s) (fun _ => 0) then zeroSectors lba (s + 1) n else return false

def linkAfter (fs : Fs) (prev c : ℕ) : FatIo Bool :=
  if prev = 0 then return true else writeFatEntry fs prev c

def claimCluster (fs : Fs) (prev c : ℕ) : FatIo ℕ := do
  if ← writeFatEntry fs c endMark then
    if ← linkAfter fs prev c then
      if ← zeroSectors (fs.clusterToLba c) 0 fs.sectorsPerCluster then return c else return 0
    else return 0
  else return 0

def allocFrom (fs : Fs) (prev : ℕ) : ℕ → ℕ → FatIo ℕ
  | _, 0 => return 0
  | c, n + 1 => do
    if (← readFatEntry fs c) = 0 then claimCluster fs prev c else allocFrom fs prev (c + 1) n

def allocCluster (fs : Fs) (prev : ℕ) : FatIo ℕ := allocFrom fs prev 2 fs.totalClusters

def freeChain (fs : Fs) : ℕ → ℕ → FatIo Unit
  | 0, _ => return ()
  | fuel + 1, cluster =>
    if 2 ≤ cluster ∧ cluster < eoc then do
      let next ← readFatEntry fs cluster
      let _ ← writeFatEntry fs cluster 0
      freeChain fs fuel next
    else return ()

def fat32FreeChain (fs : Fs) (cluster : ℕ) : FatIo Unit := freeChain fs fs.chainStepLimit cluster

def walkChain (fs : Fs) : ℕ → ℕ → ℕ → FatIo ℕ
  | _, cl, 0 => return cl
  | i, cl, n + 1 =>
    if cl < 2 ∨ eoc ≤ cl then return 0
    else if fs.chainStepLimit ≤ i then return 0
    else do
      let next ← readFatEntry fs cl
      walkChain fs (i + 1) next n

def fat32WalkChain (fs : Fs) (start count : ℕ) : FatIo ℕ := walkChain fs 0 start count

end TaterTOS.Fat32
