import TaterTOS.Lib.Queue
import TaterTOS.Lib.Scan
import TaterTOS.Lib.Word

/-!
# The scheduler

A model of `kernel/proc/sched.c` and of the allocation of process slots in `kernel/proc/process.c`.
Tasks are slots of the process table, a pointer to a task is an `Option Slot`, and the runqueues are
threaded through the `next` links of the tasks. Every call runs under `g_sched_lock`, so it is a
function on the state. What the machine decides is an argument: the CPU that runs the call, the time
`now` in milliseconds, and the values of the two reads of a futex word.

The registers, stacks and address spaces that a switch loads and the diagnostic output are not
modelled.
-/

namespace TaterTOS.Sched

open Function Lib

/-! ### The state -/

abbrev procMax : ℕ := 256

def maxCpus : ℕ := 64

abbrev Slot := Fin procMax

inductive ProcState
  | unused
  | running
  | waiting
  | zombie
  | dead
  deriving DecidableEq, Repr

def ESRCH : ℤ := 3
def EINTR : ℤ := 4
def EAGAIN : ℤ := 11
def ETIMEDOUT : ℤ := 110

def UINT64_MAX : ℕ := 2 ^ 64 - 1

/-- The fields of `struct fry_process` that the scheduler reads or writes. `handlers` are the signal
handlers of the shared part of the process, if it has one. -/
structure Task where
  pid : ℕ := 0
  state : ProcState := .unused
  cpu : ℕ := 0
  isKernel : Bool := false
  isLinux : Bool := false
  handlers : Option (ℕ → ℕ) := none
  sigPending : ℕ := 0
  sigBlocked : ℕ := 0
  wakeTimeMs : ℕ := 0
  waitFutexKey : ℕ := 0
  waitFutexBitset : ℕ := 0
  waitPid : ℕ := 0
  waitTid : ℕ := 0
  waitPoll : Bool := false
  waitResult : ℤ := 0

/-- What a CPU runs: its boot context, which no queue ever holds, or a task. -/
inductive Runner
  | boot
  | task (i : Slot)
  deriving DecidableEq, Repr

structure State where
  procs : Slot → Task
  nextPid : ℕ
  next : Option Slot → Option Slot
  rq : ℕ → Queue (Option Slot)
  current : ℕ → Option Runner
  idleTask : ℕ → Option Slot
  schedNextCpu : ℕ
  firstUserSwitchSeen : Bool

/-- The processors that `smp_init` found; it stops at `SMP_MAX_CPUS`. -/
structure Smp where
  cpuCount : ℕ
  bspIndex : ℕ
  cpuCount_le : cpuCount ≤ maxCpus

def Smp.count (smp : Smp) : ℕ := if smp.cpuCount = 0 then 1 else smp.cpuCount

def Smp.bsp (smp : Smp) : ℕ := if smp.count ≤ smp.bspIndex then 0 else smp.bspIndex

theorem Smp.count_pos (smp : Smp) : 0 < smp.count := by
  unfold Smp.count
  split_ifs <;> omega

theorem Smp.count_le (smp : Smp) : smp.count ≤ maxCpus := by
  have := smp.cpuCount_le
  unfold Smp.count
  split_ifs
  · decide
  · exact this

theorem Smp.bsp_lt (smp : Smp) : smp.bsp < smp.count := by
  have := smp.count_pos
  unfold Smp.bsp
  split_ifs <;> omega

def State.setTask (s : State) (i : Slot) (p : Task) : State :=
  { s with procs := update s.procs i p }

def slots : List Slot := List.finRange procMax

/-! ### Runqueues -/

def queueFuel : ℕ := procMax + 1

def rqPush (s : State) (c : ℕ) (p : Slot) : State :=
  let r := (s.rq c).push s.next none (some p)
  { s with next := r.1, rq := update s.rq c r.2 }

def rqPop (s : State) (c : ℕ) : Option Slot × State :=
  let r := (s.rq c).pop s.next none
  ((s.rq c).head, { s with next := r.1, rq := update s.rq c r.2 })

def State.isUser (s : State) : Option Slot → Bool
  | none => false
  | some p => !(s.procs p).isKernel

def rqPromoteFirstUser (s : State) (c : ℕ) : State :=
  match (s.rq c).head with
  | none => s
  | some h =>
    if !(s.procs h).isKernel then s
    else
      let r := (s.rq c).promote s.next none s.isUser queueFuel
      { s with next := r.1, rq := update s.rq c r.2 }

def State.hasPid (s : State) (pid : ℕ) : Option Slot → Bool
  | none => false
  | some p => (s.procs p).pid == pid

def removeLoop (s : State) (pid : ℕ) : List ℕ → Option Slot × State
  | [] => (none, s)
  | c :: cs =>
    match walk s.next none (s.hasPid pid) queueFuel none (s.rq c).head with
    | some (some (prev, cur)) =>
      let r := (s.rq c).take s.next none prev cur
      (cur, { s with next := r.1, rq := update s.rq c r.2 })
    | _ => removeLoop s pid cs

def removeFromRunqueue (smp : Smp) (s : State) (pid : ℕ) : Option Slot × State :=
  removeLoop s pid (List.range (min smp.count maxCpus))

def wakeRunnableLocked (smp : Smp) (s : State) (i : Slot) (result : ℤ) : State :=
  let p := s.procs i
  let cpu := if smp.count ≤ p.cpu then smp.bsp % 256 else p.cpu
  rqPush (s.setTask i { p with
    state := .running, wakeTimeMs := 0, waitPoll := false, waitResult := result, cpu := cpu }) cpu i

/-! ### Signals -/

/-- The lowest pending signal that is not blocked and has a handler, as a bit. -/
def schedDeliverableSignalMask (p : Task) : ℕ :=
  if !p.isLinux then 0
  else
    match p.handlers with
    | none => 0
    | some handler =>
      -- SIGKILL and SIGSTOP are never delivered to a handler
      let mask := p.sigPending &&& not64 p.sigBlocked &&& not64 (1 <<< (9 - 1)) &&&
        not64 (1 <<< (19 - 1))
      match (List.range' 1 63).find? fun sig =>
          mask &&& (1 <<< (sig - 1)) != 0 && handler sig != 0 with
      | some sig => 1 <<< (sig - 1)
      | none => 0

/-! ### Entering and leaving the runqueues -/

/-- The CPU for a new task and the next value of `g_sched_next_cpu`: userspace stays on the CPU of
its creator, the rest goes round. -/
def addTarget (smp : Smp) (s : State) (p : Task) : ℕ × ℕ :=
  if !p.isKernel && p.cpu < smp.count then (p.cpu, s.schedNextCpu)
  else
    let target := if smp.count ≤ s.schedNextCpu then 0 else s.schedNextCpu
    (target, if smp.count ≤ target + 1 then 0 else target + 1)

def schedAdd (smp : Smp) (s : State) (pid : ℕ) : State :=
  match slots.find? fun i => (s.procs i).pid == pid && (s.procs i).state == .running with
  | none => s
  | some i =>
    let target := addTarget smp s (s.procs i)
    let s := { s with schedNextCpu := target.2 }
    rqPush (s.setTask i { s.procs i with cpu := target.1 % 256 }) target.1 i

def unlinkTask (smp : Smp) (s : State) (pid : ℕ) (f : Task → Task) : State :=
  match removeFromRunqueue smp s pid with
  | (none, s) => s
  | (some i, s) => s.setTask i (f (s.procs i))

def schedRemoveWithState (smp : Smp) (s : State) (pid : ℕ) (state : ProcState) : State :=
  unlinkTask smp s pid fun p => { p with state := state }

def Task.sleepUntil (p : Task) (wake : ℕ) : Task :=
  { p with
    state := .waiting, wakeTimeMs := wake, waitPid := 0, waitTid := 0, waitFutexKey := 0,
    waitFutexBitset := 0, waitResult := 0 }

def schedSleep (smp : Smp) (s : State) (now pid ms : ℕ) : State :=
  unlinkTask smp s pid fun p => p.sleepUntil (u64 (now + ms))

def Task.block (p : Task) : Task :=
  { p with state := .waiting, wakeTimeMs := UINT64_MAX, waitResult := 0 }

def schedBlock (smp : Smp) (s : State) (pid : ℕ) : State := unlinkTask smp s pid Task.block

def Task.blockPoll (p : Task) (wakeTimeMs : ℕ) : Task :=
  { p with
    state := .waiting, waitPid := 0, waitTid := 0, waitFutexKey := 0, waitFutexBitset := 0,
    waitPoll := true, waitResult := 0, wakeTimeMs := wakeTimeMs }

def schedBlockPoll (smp : Smp) (s : State) (pid wakeTimeMs : ℕ) : State :=
  unlinkTask smp s pid fun p => p.blockPoll wakeTimeMs

def Task.blockOn (p : Task) (key wakeTimeMs bitset : ℕ) : Task :=
  { p with
    state := .waiting, waitPid := 0, waitTid := 0, waitFutexKey := key,
    waitFutexBitset := bitset, waitResult := 0, wakeTimeMs := wakeTimeMs }

def Task.unblock (p : Task) : Task :=
  { p with state := .running, waitFutexKey := 0, waitFutexBitset := 0, wakeTimeMs := 0 }

def futexTask (smp : Smp) (s : State) (pid : ℕ) : Option Slot × State :=
  match removeFromRunqueue smp s pid with
  | (some i, s) => (some i, s)
  | (none, s) =>
    (slots.find? fun i => (s.procs i).pid == pid &&
      ((s.procs i).state == .running || (s.procs i).state == .waiting), s)

/-- `word` holds the values of the first and the last read of the futex word, if there is one. -/
def schedBlockFutex (smp : Smp) (s : State) (pid : ℕ) (word : Option (ℕ × ℕ))
    (expected key wakeTimeMs bitset : ℕ) : ℤ × State :=
  match word with
  | none => (-EAGAIN, s)
  | some (first, last) =>
    if first != expected then (-EAGAIN, s)
    else
      match futexTask smp s pid with
      | (none, s) => (-ESRCH, s)
      | (some i, s) =>
        if schedDeliverableSignalMask (s.procs i) != 0 then
          (-EINTR, wakeRunnableLocked smp s i 0)
        else
          let p := (s.procs i).blockOn key wakeTimeMs bitset
          if last != expected then (-EAGAIN, s.setTask i p.unblock) else (0, s.setTask i p)

/-! ### Waking -/

def wakeTask (smp : Smp) (clear : Task → Task) (result : Task → ℤ) (s : State) (i : Slot) : State :=
  wakeRunnableLocked smp (s.setTask i (clear (s.procs i))) i (result (s.procs i))

/-- A plain wake resets the bits of a futex wait but not its key. -/
def Task.clearBitset (p : Task) : Task :=
  { p with state := .running, wakeTimeMs := 0, waitFutexBitset := 0, waitResult := 0 }

def schedWake (smp : Smp) (s : State) (pid : ℕ) : State :=
  match slots.find? fun i => (s.procs i).pid == pid && (s.procs i).state == .waiting with
  | none => s
  | some i => wakeTask smp Task.clearBitset (fun _ => 0) s i

def Task.clearFutex (p : Task) : Task := { p with waitFutexKey := 0, waitFutexBitset := 0 }

def schedWakeSignal (smp : Smp) (s : State) (pid : ℕ) : ℕ × State :=
  match slots.find? fun i => (s.procs i).pid == pid with
  | none => (0, s)
  | some i =>
    if (s.procs i).state != .waiting then (0, s)
    else if schedDeliverableSignalMask (s.procs i) == 0 then (0, s)
    else (1, wakeTask smp Task.clearFutex (fun _ => -EINTR) s i)

def Task.polls (p : Task) : Bool := p.state == .waiting && p.waitPoll

def Task.clearPoll (p : Task) : Task := { p with waitPoll := false }

def schedWakePollWaiters (smp : Smp) (s : State) : ℕ × State :=
  scan (fun s i => (s.procs i).polls) (wakeTask smp Task.clearPoll fun _ => 0) none s 0 slots

def Task.waitsOn (p : Task) (key bitset : ℕ) : Bool :=
  p.state == .waiting && p.waitFutexKey == key && p.waitFutexBitset &&& bitset != 0

def schedWakeFutex (smp : Smp) (s : State) (key maxWake bitset : ℕ) (result : ℤ) : ℕ × State :=
  if maxWake = 0 ∨ key = 0 then (0, s)
  else
    scan (fun s i => (s.procs i).waitsOn key bitset)
      (wakeTask smp Task.clearFutex fun _ => result) (some maxWake) s 0 slots

def Task.waitsFor (p : Task) (key : ℕ) : Bool := p.state == .waiting && p.waitFutexKey == key

def schedRequeueFutex (s : State) (keyFrom keyTo maxRequeue : ℕ) : ℕ × State :=
  if maxRequeue = 0 ∨ keyFrom = 0 ∨ keyTo = 0 ∨ keyFrom = keyTo then (0, s)
  else
    scan (fun s i => (s.procs i).waitsFor keyFrom)
      (fun s i => s.setTask i { s.procs i with waitFutexKey := keyTo }) (some maxRequeue) s 0 slots

/-! ### The timer tick -/

def Task.expired (p : Task) (now : ℕ) : Bool :=
  p.state == .waiting && p.waitPid == 0 && p.wakeTimeMs ≤ now

def Task.clearExpired (p : Task) : Task := if p.waitFutexKey != 0 then p.clearFutex else p

def Task.expiredResult (p : Task) : ℤ := if p.waitFutexKey != 0 then -ETIMEDOUT else 0

def wakeSleepers (smp : Smp) (s : State) (now : ℕ) : State :=
  (scan (fun s i => (s.procs i).expired now)
    (wakeTask smp Task.clearExpired Task.expiredResult) none s 0 slots).2

def State.runs (s : State) : Option Runner → Bool
  | none => false
  | some .boot => true
  | some (.task i) => (s.procs i).state == .running

def pushIdle (s : State) (cpu : ℕ) (idle : Slot) : State :=
  rqPush (s.setTask idle { s.procs idle with state := .running, cpu := cpu % 256 }) cpu idle

def tickEmpty (s : State) (cpu : ℕ) : Option State :=
  match (s.rq cpu).head with
  | some _ => some s
  | none =>
    match s.current cpu, s.idleTask cpu with
    | some cur, some idle =>
      if !s.runs (some cur) && cur != .task idle then some (pushIdle s cpu idle) else none
    | _, _ => none

def rotate (s : State) (cpu : ℕ) : State :=
  match rqPop s cpu with
  | (some p, s) => rqPush s cpu p
  | (none, s) => s

def switchTo (smp : Smp) (s : State) (cpu : ℕ) (next : Slot) : State :=
  { s with
    current := update s.current cpu (some (.task next))
    firstUserSwitchSeen := s.firstUserSwitchSeen ||
      (cpu == smp.bsp && !(s.procs next).isKernel) }

/-- No other task is queued: keep the current one if it runs, else fall back to the idle task. -/
def tickAlone (smp : Smp) (s : State) (cpu : ℕ) : State :=
  if s.runs (s.current cpu) then s
  else
    match s.idleTask cpu with
    | none => s
    | some idle =>
      if s.current cpu = some (.task idle) then s
      else
        let s := pushIdle (removeFromRunqueue smp s (s.procs idle).pid).2 cpu idle
        match (s.rq cpu).head with
        | some next => switchTo smp s cpu next
        | none => s

/-- The queue before the choice: a running task goes to the end, and the first switch of the boot
CPU prefers userspace. -/
def tickTurn (smp : Smp) (s : State) (cpu : ℕ) : State :=
  let s := if s.runs (s.current cpu) then rotate s cpu else s
  if cpu = smp.bsp ∧ s.firstUserSwitchSeen = false then rqPromoteFirstUser s cpu else s

def tickPick (smp : Smp) (s : State) (cpu : ℕ) : State :=
  let s := tickTurn smp s cpu
  match (s.rq cpu).head with
  | none => tickAlone smp s cpu
  | some next =>
    if s.current cpu = some (.task next) then tickAlone smp s cpu else switchTo smp s cpu next

def schedTick (smp : Smp) (s : State) (cpu now : ℕ) : State :=
  match tickEmpty s cpu with
  | none => s
  | some s => tickPick smp (wakeSleepers smp s now) cpu

/-! ### Process slots -/

/-- A slot given to a new task with the next pid; the link of the slot is cleared with the rest. -/
def claimSlot (s : State) (i : Slot) : State :=
  { s.setTask i { pid := s.nextPid, state := .running, cpu := 0xFF } with
    nextPid := u32 (s.nextPid + 1), next := update s.next (some i) none }

def procAlloc (s : State) : Option (Slot × State) :=
  (slots.find? fun i => (s.procs i).state == .unused || (s.procs i).state == .dead).map
    fun i => (i, claimSlot s i)

/-! ### Start -/

def bootState : State where
  procs := fun _ => {}
  nextPid := 1
  next := fun _ => none
  rq := fun _ => ⟨none, none, 0⟩
  current := fun _ => none
  idleTask := fun _ => none
  schedNextCpu := 0
  firstUserSwitchSeen := false

/-- The part of `sched_init` for one CPU; `ok` says whether the idle task gets its kernel stack. -/
def initCpu (ok : ℕ → Bool) (s : State) (c : ℕ) : State :=
  let s := { s with
    rq := update s.rq c ⟨none, none, 0⟩, current := update s.current c none }
  match procAlloc s with
  | none => s
  | some (i, s) =>
    if ok c then
      let s := s.setTask i { s.procs i with isKernel := true, cpu := c % 256 }
      let s := rqPush { s with idleTask := update s.idleTask c (some i) } c i
      { s with current := update s.current c (some (.task i)) }
    else s.setTask i { s.procs i with isKernel := true, state := .dead }

def schedInit (smp : Smp) (ok : ℕ → Bool) : State :=
  let s := (List.range (min smp.count maxCpus)).foldl (initCpu ok) bootState
  { s with current := update s.current smp.bsp (some .boot), schedNextCpu := 0 }

end TaterTOS.Sched
