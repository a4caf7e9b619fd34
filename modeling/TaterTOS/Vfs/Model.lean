import Mathlib.Tactic

/-!
# Mounts and open files

A model of the mount list and of the pool of open files in `kernel/fs/vfs.c`.

An operation of a file system is null or not; what it answers is an argument of the call, and so is
the address that `kmalloc` gives. The data of file systems is not modelled.
-/

namespace TaterTOS.Vfs

abbrev filePoolSize : ℕ := 256

def mountpointSize : ℕ := 64

abbrev FileId := Fin filePoolSize

inductive OpName
  | openFile
  | close
  | readdir
  | stat
  | create
  | mkdir
  | unlink
  | rename
  deriving DecidableEq, Repr

abbrev FsOps := OpName → Bool

structure Mount where
  mountpoint : List Char
  mountpoint_lt : mountpoint.length < mountpointSize
  ops : FsOps
  openRefs : ℕ
  active : Bool

/-- `mounts` is what is allocated, `list` is `g_mounts`, `files` gives the mount of an open file. -/
structure State where
  mounts : ℕ → Option Mount
  list : List ℕ
  files : FileId → Option ℕ

def State.setMount (s : State) (m : ℕ) (mt : Option Mount) : State :=
  { s with mounts := Function.update s.mounts m mt }

def State.setFile (s : State) (f : FileId) (m : Option ℕ) : State :=
  { s with files := Function.update s.files f m }

def Mount.withRefs (mt : Mount) (n : ℕ) : Mount := { mt with openRefs := n }

def Mount.inactive (mt : Mount) : Mount := { mt with active := false }

/-! ### References -/

def getLocked (s : State) (m : ℕ) : Option State :=
  match s.mounts m with
  | none => none
  | some mt =>
    if mt.openRefs = 0xFFFFFFFF then none else some
      (s.setMount m (some (mt.withRefs (mt.openRefs + 1))))

def tryDispose (s : State) (m : ℕ) : State :=
  match s.mounts m with
  | none => s
  | some mt => if mt.active ∨ mt.openRefs ≠ 0 then s else s.setMount m none

def put (s : State) (m : ℕ) : State :=
  match s.mounts m with
  | none => s
  | some mt => tryDispose (s.setMount m (some (mt.withRefs (mt.openRefs - 1)))) m

def vfsUmount (s : State) (mountpoint : List Char) : Option State :=
  match s.list.find? fun m => (s.mounts m).any (·.mountpoint == mountpoint) with
  | none => none
  | some m =>
    let s := { s with list := s.list.erase m }
    match s.mounts m with
    | none => none
    | some mt => some (tryDispose (s.setMount m (some mt.inactive)) m)

def umountAll (mountpoint : List Char) : ℕ → State → State
  | 0, s => s
  | n + 1, s =>
    match vfsUmount s mountpoint with
    | none => s
    | some s => umountAll mountpoint n s

def newMount (mountpoint : List Char) (ops : FsOps) : Mount where
  mountpoint := mountpoint.take (mountpointSize - 1)
  mountpoint_lt := lt_of_le_of_lt (List.length_take_le _ _) (by decide)
  ops := ops
  openRefs := 0
  active := true

/-- `answer` is the address that `kmalloc` gives. Nothing runs between the loop and the check for
the mountpoint, so the check does not fail (`Tracks.umountAll`). -/
def vfsMount (s : State) (mountpoint : List Char) (ops : FsOps) (answer : ℕ) : ℤ × State :=
  let s := umountAll mountpoint s.list.length s
  if answer = 0 ∨ (s.mounts answer).isSome then (-1, s)
  else (0, { s.setMount answer (some (newMount mountpoint ops)) with list := answer :: s.list })

/-! ### The mount of a path -/

def mountMatches (mountpoint path : List Char) : Bool :=
  mountpoint.isPrefixOf path && match path.drop mountpoint.length with
    | [] => true
    | c :: _ => c == '/' || mountpoint.getLast? == some '/'

def findMountTurn (s : State) (path : List Char) (best : Option ℕ × ℕ) (m : ℕ) : Option ℕ × ℕ :=
  match s.mounts m with
  | none => best
  | some mt =>
    if mountMatches mt.mountpoint path && best.2 < mt.mountpoint.length then
      (some m, mt.mountpoint.length)
    else best

/-- The mount and `best_len`. -/
def findMountBest (s : State) (path : List Char) : Option ℕ × ℕ :=
  s.list.foldl (findMountTurn s path) (none, 0)

def findMountLocked (s : State) (path : List Char) : Option ℕ := (findMountBest s path).1

def findMountOnce (s : State) (path : List Char) : Option (ℕ × State) :=
  match findMountLocked s path with
  | none => none
  | some m => (getLocked s m).map fun s => (m, s)

def State.supports (s : State) (m : ℕ) (op : OpName) : Bool := (s.mounts m).any fun mt => mt.ops op

/-- The common form of the calls with one path: a reference is taken, and dropped after the
operation; without the operation the call returns. -/
def pathCallWith (found : Option (ℕ × State)) (s : State) (op : OpName) (rc : ℤ) : ℤ × State :=
  match found with
  | none => (-1, s)
  | some (m, s) => if s.supports m op then (rc, put s m) else (-1, s)

/-- `/nvme` with a number, and an optional `/` at the end. -/
def pathIsExactNvmeMountpoint : List Char → Bool
  | '/' :: 'n' :: 'v' :: 'm' :: 'e' :: rest =>
    let rest := rest.dropWhile fun c => '0' ≤ c && c ≤ '9'
    rest == [] || rest == ['/']
  | _ => false

/-- What `vfs_try_recover_mount` and `vfs_mount_secondary` do to the mounts: look at a mount,
unmount, mount, and check the new mount with `vfs_stat` and `vfs_readdir_ex`. -/
inductive RecoverAct
  | health (mountpoint : List Char)
  | umount (mountpoint : List Char)
  | mount (mountpoint : List Char) (ops : FsOps) (answer : ℕ)
  | probe (path : List Char) (op : OpName)

def mountpointHealthy (s : State) (mountpoint : List Char) : State :=
  match s.list.find? fun m =>
      (s.mounts m).any (·.mountpoint == mountpoint) && (getLocked s m).isSome with
  | none => s
  | some m =>
    match getLocked s m with
    | none => s
    | some s => put s m

def RecoverAct.run (s : State) : RecoverAct → State
  | .health mountpoint => mountpointHealthy s mountpoint
  | .umount mountpoint => (vfsUmount s mountpoint).getD s
  | .mount mountpoint ops answer => (vfsMount s mountpoint ops answer).2
  | .probe path op => (pathCallWith (findMountOnce s path) s op 0).2

def findMountRef (s : State) (path : List Char) (recover : Option (List RecoverAct)) :
    Option (ℕ × State) × State :=
  match findMountOnce s path with
  | some r => (some r, s)
  | none =>
    if pathIsExactNvmeMountpoint path then
      match recover with
      | none => (none, s)
      | some acts =>
        let s := acts.foldl RecoverAct.run s
        (findMountOnce s path, s)
    else (none, s)

/-! ### Calls -/

def pathCall (op : OpName) (s : State) (path : List Char) (recover : Option (List RecoverAct))
    (rc : ℤ) : ℤ × State :=
  let r := findMountRef s path recover
  pathCallWith r.1 r.2 op rc

def vfsReaddir := pathCall .readdir
def vfsReaddirEx := pathCall .readdir
def vfsStat := pathCall .stat
def vfsCreate := pathCall .create
def vfsMkdir := pathCall .mkdir
def vfsUnlink := pathCall .unlink

def fileAlloc (s : State) : Option FileId :=
  (List.finRange filePoolSize).find? fun f => (s.files f).isNone

def vfsOpen (s : State) (path : List Char) (recover : Option (List RecoverAct)) (opened : Bool) :
    Option FileId × State :=
  if path = [] then (none, s)
  else
    let r := findMountRef s path recover
    match r.1 with
    | none => (none, r.2)
    | some (m, s) =>
      if s.supports m .openFile then
        match fileAlloc s with
        | none => (none, put s m)
        | some f => if opened then (some f, s.setFile f (some m)) else (none, put s m)
      else (none, s)

def vfsClose (s : State) (f : FileId) (rc : ℤ) : ℤ × State :=
  match s.files f with
  | none => (0, s)
  | some m => (if s.supports m .close then rc else 0, (put s m).setFile f none)

def vfsRename (s : State) (oldPath newPath : List Char) (recover : Option (List RecoverAct))
    (rc : ℤ) : ℤ × State :=
  let r := findMountRef s oldPath recover
  match r.1 with
  | none => (-1, r.2)
  | some (m, s) =>
    if s.supports m .rename then
      if findMountLocked s newPath = some m then (rc, put s m) else (-1, put s m)
    else (-1, s)

def State.init : State := ⟨fun _ => none, [], fun _ => none⟩

end TaterTOS.Vfs
