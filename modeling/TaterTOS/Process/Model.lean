import TaterTOS.Sched.Model

/-!
# Processes

A model of how `kernel/proc/process.c` creates and ends tasks. A process is a slot of the table with
the part that its threads share; `σ` is what this part holds (descriptors, regions), `γ` is the rest
of the kernel that the end of a process changes.

Names, exit codes, the saved registers and the kernel stack are not modelled; what
`alloc_kernel_stack` answers is an argument.
-/

namespace TaterTOS.Process

open Lib Sched

variable {σ γ : Type}

structure Shared (σ : Type) where
  ownerPid : ℕ
  refcount : ℕ
  data : σ

/-- A task; `owned` is the shared part that the slot itself holds. -/
structure Proc (σ : Type) where
  pid : ℕ
  tgid : ℕ
  state : ProcState
  cr3 : ℕ
  isKernel : Bool
  shared : Option Slot
  owned : Shared σ

structure Table (σ : Type) where
  procs : Slot → Proc σ
  nextPid : ℕ
  kernelPml4 : ℕ

def Proc.live (p : Proc σ) : Bool := p.state != .unused && p.state != .dead

def Table.set (t : Table σ) (i : Slot) (p : Proc σ) : Table σ :=
  { t with procs := Function.update t.procs i p }

def Table.count (t : Table σ) (k : Slot) (n : ℕ) : Table σ :=
  t.set k { t.procs k with owned := { (t.procs k).owned with refcount := n } }

def Table.hold (t : Table σ) (k : Slot) (d : σ) : Table σ :=
  t.set k { t.procs k with owned := { (t.procs k).owned with data := d } }

/-- The shared part of a cleared slot and of a new process, and what happens when the last task of a
process, in the given slot, ends. -/
structure Resources (σ γ : Type) where
  zero : σ
  fresh : σ
  release : Table σ → Slot → γ → σ × γ

structure System (σ γ : Type) where
  table : Table σ
  world : γ

variable (R : Resources σ γ)

/-! ### New tasks -/

def clearedProc (pid : ℕ) : Proc σ where
  pid := pid
  tgid := pid
  state := .running
  cr3 := 0
  isKernel := false
  shared := none
  owned := ⟨0, 0, R.zero⟩

def procAlloc (t : Table σ) : Option (Slot × Table σ) :=
  (slots.find? fun i => !(t.procs i).live).map fun i =>
    (i, { t.set i (clearedProc R t.nextPid) with nextPid := u32 (t.nextPid + 1) })

def startTask (t : Table σ) (i : Slot) (p : Proc σ) (stack : Bool) : Option Slot × Table σ :=
  if stack then (some i, t.set i p)
  else (none, t.set i { p with shared := none, state := .dead })

def processCreateUser (t : Table σ) (cr3 : ℕ) (stack : Bool) : Option Slot × Table σ :=
  match procAlloc R t with
  | none => (none, t)
  | some (i, t) =>
    let p := t.procs i
    startTask t i { p with cr3 := cr3, shared := some i, owned := ⟨p.pid, 1, R.fresh⟩ } stack

def processCreateKernel (t : Table σ) (stack : Bool) : Option Slot × Table σ :=
  match procAlloc R t with
  | none => (none, t)
  | some (i, t) => startTask t i { t.procs i with cr3 := t.kernelPml4, isKernel := true } stack

def retain (t : Table σ) (k : Slot) : Table σ :=
  let refcount := (t.procs k).owned.refcount
  if refcount != 0xFFFFFFFF then t.count k (refcount + 1) else t

/-- `process_create_user_thread` and `process_clone_linux_thread`. -/
def processCreateUserThread (t : Table σ) (parent : Slot) (stack : Bool) : Option Slot × Table σ :=
  let q := t.procs parent
  match q.isKernel, q.shared with
  | false, some k =>
    match procAlloc R t with
    | none => (none, t)
    | some (i, t) =>
      let p := t.procs i
      match startTask t i { p with cr3 := q.cr3, tgid := q.tgid, shared := some k } stack with
      | (none, t) => (none, t)
      | (some i, t) => (some i, retain t k)
  | _, _ => (none, t)

/-! ### The end of tasks -/

/-- What the CPU that frees a task runs: the pid of its task, whether it is on the kernel stack of
this task, and its page table. -/
structure Cpu where
  cur : Option ℕ
  onStack : Bool
  cr3 : ℕ

def blockedFree (t : Table σ) (cpu : Cpu) (p : Proc σ) : Bool :=
  cpu.cur == some p.pid && (cpu.onStack ||
    (!p.isKernel && p.cr3 != 0 && p.cr3 != t.kernelPml4 && cpu.cr3 == p.cr3))

/-- One task less uses the shared part; the last one releases what it holds. -/
def sharedRelease (y : System σ γ) (i : Slot) : System σ γ :=
  match (y.table.procs i).shared with
  | none => y
  | some k =>
    let refcount := (y.table.procs k).owned.refcount - 1
    let t := y.table.count k refcount
    if refcount ≠ 0 then { y with table := t }
    else
      let r := R.release t i y.world
      ⟨t.hold k r.1, r.2⟩

def schedRemove (t : Table σ) (i : Slot) : Table σ :=
  if (t.procs i).state == .running then t.set i { t.procs i with state := .dead } else t

def isUserGroupLeader (p : Proc σ) : Bool :=
  !p.isKernel && p.shared.isSome && p.pid == p.tgid

def Proc.ended (p : Proc σ) (keep : Bool) : Proc σ :=
  { p with cr3 := 0, state := .dead, shared := if keep then p.shared else none }

def procFree (y : System σ γ) (cpu : Cpu) (pid : ℕ) : System σ γ :=
  match slots.find? fun i => (y.table.procs i).pid == pid && (y.table.procs i).live with
  | none => y
  | some i =>
    if blockedFree y.table cpu (y.table.procs i) then y
    else
      let keep := isUserGroupLeader (y.table.procs i)
      let y := sharedRelease R { y with table := schedRemove y.table i } i
      { y with table := y.table.set i ((y.table.procs i).ended keep) }

def freeThreads (y : System σ γ) (cpu : Cpu) (tgid : ℕ) (is : List Slot) : System σ γ :=
  is.foldl (fun y i =>
    let p := y.table.procs i
    if p.live && p.tgid == tgid && p.pid != tgid then procFree R y cpu p.pid else y) y

def processExitGroup (y : System σ γ) (cpu : Cpu) (tgid : ℕ) : System σ γ :=
  if tgid = 0 then y else procFree R (freeThreads R y cpu tgid slots) cpu tgid

/-- `none` is a failure. -/
def processThreadExit (t : Table σ) (tid : ℕ) : Option (Table σ) :=
  match slots.find? fun i => (t.procs i).pid == tid with
  | none => none
  | some i =>
    let p := t.procs i
    if !p.live then none
    else if p.isKernel || p.pid == p.tgid then none
    else some (t.set i { p with state := .zombie })

def syscallThreadExit (y : System σ γ) (cpu : Cpu) (tid : ℕ) : System σ γ :=
  match processThreadExit y.table tid with
  | some t => { y with table := t }
  | none => procFree R y cpu tid

def processThreadJoin (y : System σ γ) (cpu : Cpu) (cur : Slot) (tid : ℕ) : System σ γ :=
  match slots.find? fun i => (y.table.procs i).pid == tid && (y.table.procs i).live with
  | none => y
  | some i =>
    let p := y.table.procs i
    if p.isKernel || p.tgid != (y.table.procs cur).tgid || p.pid == p.tgid then y
    else if p.state == .zombie then procFree R y cpu tid
    else y

/-! ### Start -/

def processInit (kernelPml4 : ℕ) : Table σ where
  procs _ := { clearedProc R 0 with state := .unused }
  nextPid := 1
  kernelPml4 := kernelPml4

end TaterTOS.Process
