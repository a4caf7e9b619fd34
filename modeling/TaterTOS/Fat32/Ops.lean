import TaterTOS.Fat32.File

/-!
# FAT32: calls with paths

`fat32Create`, `fat32Mkdir` and `fat32Unlink`.
-/

namespace TaterTOS.Fat32

open Lib

def newEntry (name : List UInt8) (attr : UInt8) (cluster size : ℕ) : Record :=
  putLe32 (putCluster (Function.update (putBytes (fun _ => 0) 0 name) 11 attr) 0 cluster) 28 size

def dotName : List UInt8 := padTo 11 [dot]

def dotDotName : List UInt8 := padTo 11 [dot, dot]

/-- The root is entry 0 for its subdirectories. -/
def Fs.parentField (fs : Fs) (dirCluster : ℕ) : ℕ :=
  if dirCluster = fs.rootCluster then 0 else dirCluster

def writeDots (fs : Fs) (dirCluster cluster : ℕ) : FatIo Bool := do
  match ← readSector .data (fs.clusterToLba cluster) with
  | none =>
    fat32FreeChain fs cluster
    return false
  | some s =>
    let s := putBytes s 0 ((List.range 32).map (newEntry dotName attrDir cluster 0))
    let s := putBytes s 32
      ((List.range 32).map (newEntry dotDotName attrDir (fs.parentField dirCluster) 0))
    if ← writeSector .data (fs.clusterToLba cluster) s then return true
    else
      fat32FreeChain fs cluster
      return false

def createCluster (fs : Fs) (dirCluster : ℕ) (attr : UInt8) : FatIo (Option ℕ) := do
  if attr &&& attrDir = 0 then return some 0
  else
    let cluster ← allocCluster fs 0
    if cluster = 0 then return none
    else if ← writeDots fs dirCluster cluster then return some cluster
    else return none

def placeEntry (fs : Fs) (dirCluster : ℕ) (entry : Record) (cluster : ℕ) : FatIo ℤ := do
  match ← findFreeDirSlot fs dirCluster with
  | none =>
    if cluster ≠ 0 then fat32FreeChain fs cluster
    return -1
  | some at_ =>
    if ← writeDirEntry fs at_ entry then return 0
    else
      if cluster ≠ 0 then fat32FreeChain fs cluster
      return -1

def createIn (fs : Fs) (dirCluster : ℕ) (name : Str) (attr : UInt8) : FatIo ℤ := do
  match ← findInDir fs dirCluster name with
  | some _ => return -1
  | none =>
    match buildShortName name with
    | none => return -1
    | some short =>
      match ← createCluster fs dirCluster attr with
      | none => return -1
      | some cluster =>
        placeEntry fs dirCluster (newEntry short (attr ||| attrArchive) cluster 0) cluster

def fat32Create (fs : Fs) (path : Str) (attr : UInt8) : FatIo ℤ := do
  match splitPath path with
  | none => return -1
  | some (parent, name) =>
    match ← resolveDirCluster fs parent with
    | none => return -1
    | some dirCluster => createIn fs dirCluster name attr

def fat32Mkdir (fs : Fs) (path : Str) : FatIo ℤ := fat32Create fs path attrDir

def fat32Unlink (fs : Fs) (path : Str) : FatIo ℤ := do
  match ← fat32Open fs path with
  | none => return -1
  | some f =>
    if f.isDir then return -1
    else
      if 2 ≤ f.firstCluster then fat32FreeChain fs f.firstCluster
      if ← markDirEntryDeleted fs f.slot then return 0 else return -1

end TaterTOS.Fat32
