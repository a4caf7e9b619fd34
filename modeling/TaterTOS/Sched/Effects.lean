import TaterTOS.Sched.Runs

/-!
# What a call does to a task
-/

namespace TaterTOS.Sched

open Lib

section

variable (smp : Smp) (s : State) (j : Slot)

inductive TaskStep : Call → Task → Prop
  | same (a : Call) : TaskStep a (s.procs j)
  | remove {state : ProcState} (hrun : (s.procs j).state = .running) :
      TaskStep (.removeWithState (s.procs j).pid state) { s.procs j with state := state }
  | sleep {now ms : ℕ} (hrun : (s.procs j).state = .running) :
      TaskStep (.sleep now (s.procs j).pid ms) ((s.procs j).sleepUntil (u64 (now + ms)))
  | block (hrun : (s.procs j).state = .running) :
      TaskStep (.block (s.procs j).pid) (s.procs j).block
  | blockPoll {wakeTimeMs : ℕ} (hrun : (s.procs j).state = .running) :
      TaskStep (.blockPoll (s.procs j).pid wakeTimeMs) ((s.procs j).blockPoll wakeTimeMs)
  | blockFutex {word : Option (ℕ × ℕ)} {expected key wakeTimeMs bitset : ℕ}
      (hstate : (s.procs j).state = .running ∨ (s.procs j).state = .waiting)
      (hword : word = some (expected, expected))
      (hsig : schedDeliverableSignalMask (s.procs j) = 0) :
      TaskStep (.blockFutex (s.procs j).pid word expected key wakeTimeMs bitset)
        ((s.procs j).blockOn key wakeTimeMs bitset)
  | recheck {word : Option (ℕ × ℕ)} {expected key wakeTimeMs bitset : ℕ}
      (hstate : (s.procs j).state = .running ∨ (s.procs j).state = .waiting)
      (hword : ∃ last, last ≠ expected ∧ word = some (expected, last)) :
      TaskStep (.blockFutex (s.procs j).pid word expected key wakeTimeMs bitset)
        ((s.procs j).blockOn key wakeTimeMs bitset).unblock
  | interrupt {word : Option (ℕ × ℕ)} {expected key wakeTimeMs bitset : ℕ}
      (hstate : (s.procs j).state = .running ∨ (s.procs j).state = .waiting)
      (hsig : schedDeliverableSignalMask (s.procs j) ≠ 0) :
      TaskStep (.blockFutex (s.procs j).pid word expected key wakeTimeMs bitset)
        ((s.procs j).woken smp 0)
  | wake (hwait : (s.procs j).state = .waiting) :
      TaskStep (.wake (s.procs j).pid) ((s.procs j).clearBitset.woken smp 0)
  | wakeSignal (hwait : (s.procs j).state = .waiting) :
      TaskStep (.wakeSignal (s.procs j).pid) ((s.procs j).clearFutex.woken smp (-EINTR))
  | wakePoll (hpoll : (s.procs j).polls = true) :
      TaskStep .wakePollWaiters ((s.procs j).clearPoll.woken smp 0)
  | wakeFutex {key maxWake bitset : ℕ} {result : ℤ}
      (hwait : (s.procs j).waitsOn key bitset = true) :
      TaskStep (.wakeFutex key maxWake bitset result)
        ((s.procs j).clearFutex.woken smp result)
  | requeue {keyFrom keyTo maxRequeue : ℕ} (hkey : keyFrom ≠ 0)
      (hwait : (s.procs j).waitsFor keyFrom = true) :
      TaskStep (.requeueFutex keyFrom keyTo maxRequeue)
        { s.procs j with waitFutexKey := keyTo }
  | expire {cpu now : ℕ} (hexp : (s.procs j).expired now = true) : TaskStep (.tick cpu now)
        ((s.procs j).clearExpired.woken smp (s.procs j).expiredResult)
  | idle {cpu now : ℕ} (hidle : s.idleTask cpu = some j) :
      TaskStep (.tick cpu now) { s.procs j with state := .running, cpu := cpu % 256 }

end

variable {smp : Smp} {s : State} {added : Set Slot} {l : ℕ → List Slot}
  {pid : ℕ} {i j : Slot} {s1 : State} {a : Call} {f : State → Slot → State} {g : Task → Task}

def SameCpus (s s' : State) : Prop := s'.current = s.current ∧ s'.idleTask = s.idleTask

theorem SameCpus.trans {s2 s3 : State} (h1 : SameCpus s1 s2) (h2 : SameCpus s2 s3) :
    SameCpus s1 s3 := ⟨h2.1.trans h1.1, h2.2.trans h1.2⟩

theorem scan_sameCpus (hf : ∀ s i, SameCpus s (f s i))
    (select : State → Slot → Bool) (max : Option ℕ) (s : State) :
    SameCpus s (scan select f max s 0 slots).2 :=
  scan_keeps (P := SameCpus s) (fun s' i hs => hs.trans (hf s' i)) max ⟨rfl, rfl⟩

/-- What a call but a tick does. -/
structure Steps (smp : Smp) (s : State) (a : Call) (s' : State) : Prop where
  task : ∀ j, TaskStep smp s j a (s'.procs j)
  cpus : SameCpus s s'

theorem Steps.same (a : Call) : Steps smp s a s := ⟨fun _ => .same a, rfl, rfl⟩

theorem Steps.one {s' : State} {p : Task} (hself : s'.procs i = p)
    (hother : ∀ j ≠ i, s'.procs j = s.procs j) (hcpus : SameCpus s s')
    (hi : TaskStep smp s i a p) : Steps smp s a s' := by
  refine ⟨fun j => ?_, hcpus⟩
  by_cases hj : j = i
  · rw [hj, hself]
    exact hi
  · rw [hother j hj]
    exact .same a

theorem Steps.edit (hf : Edits f g)
    (hcpus : SameCpus s (f s i)) (hi : TaskStep smp s i a (g (s.procs i))) :
    Steps smp s a (f s i) :=
  .one (hf.self s i) (fun _ hj => hf.other s hj) hcpus hi

theorem Steps.set {p : Task} (hprocs : s1.procs = s.procs) (hcpus : SameCpus s s1)
    (hi : TaskStep smp s i a p) : Steps smp s a (s1.setTask i p) :=
  .one (setTask_self s1 i p) (fun _ hj => hprocs ▸ setTask_of_ne s1 p hj) hcpus hi

theorem Edits.scan_procs (hf : Edits f g)
    (select : Task → Bool) (max : Option ℕ) (s : State) (j : Slot) :
    let s' := (Lib.scan (fun s i => select (s.procs i)) f max s 0 slots).2
    s'.procs j = s.procs j ∨ select (s.procs j) = true ∧ s'.procs j = g (s.procs j) := by
  rw [hf.scanned]
  dsimp only
  rw [hf.folded chosen_slots.1]
  split_ifs with hj
  · exact .inr ⟨chosen_slots.2 j hj, rfl⟩
  · exact .inl rfl

theorem Steps.scan (hf : Edits f g)
    (hcpus : ∀ s i, SameCpus s (f s i)) (select : Task → Bool) (max : Option ℕ)
    (hsel : ∀ j, select (s.procs j) = true → TaskStep smp s j a (g (s.procs j))) :
    Steps smp s a (Lib.scan (fun s i => select (s.procs i)) f max s 0 slots).2 := by
  refine ⟨fun j => ?_, scan_sameCpus hcpus _ max s⟩
  rcases hf.scan_procs select max s j with hj | ⟨hj, he⟩
  · exact hj ▸ .same a
  · exact he ▸ hsel j hj

theorem Inv.unlinkTask_steps (h : Inv smp s added l) {f : Task → Task}
    (hf : ∀ i, (s.procs i).pid = pid → (s.procs i).state = .running →
      TaskStep smp s i a (f (s.procs i))) : Steps smp s a (Sched.unlinkTask smp s pid f) := by
  have hrem := h.lined.removed smp pid
  unfold Sched.unlinkTask
  generalize removeFromRunqueue smp s pid = r at hrem
  cases hrem with
  | absent => exact .same a
  | @found c i next rq _ hi hpid _ => exact .set rfl ⟨rfl, rfl⟩ (hf i hpid (h.mem c i hi).2.1)

theorem FutexTask.state (ht : FutexTask s l pid (some i, s1)) (h : Inv smp s added l) :
    (s.procs i).pid = pid ∧ ((s.procs i).state = .running ∨ (s.procs i).state = .waiting) := by
  cases ht with
  | queued hi hpid _ => exact ⟨hpid, Or.inl (h.mem _ i hi).2.1⟩
  | loose hpid hi _ => exact ⟨hpid, hi⟩

theorem FutexTask.sameCpus {o : Option Slot} (ht : FutexTask s l pid (o, s1)) : SameCpus s s1 := by
  cases ht <;> exact ⟨rfl, rfl⟩

theorem Inv.blockFutex_steps (h : Inv smp s added l) (pid : ℕ) (word : Option (ℕ × ℕ))
    (expected key wakeTimeMs bitset : ℕ) :
    Steps smp s (.blockFutex pid word expected key wakeTimeMs bitset)
      (schedBlockFutex smp s pid word expected key wakeTimeMs bitset).2 := by
  have hcases := h.blockFutex_cases pid word expected key wakeTimeMs bitset
  generalize (schedBlockFutex smp s pid word expected key wakeTimeMs bitset).2 = s' at hcases ⊢
  cases hcases with
  | same => exact .same _
  | interrupt ht hsig =>
    obtain ⟨rfl, hstate⟩ := ht.state h
    refine ⟨fun j => ?_, ht.sameCpus⟩
    rw [wakeRunnableLocked_eq, ht.procs]
    exact (Steps.set ht.procs ht.sameCpus (.interrupt hstate hsig)).task j
  | block ht hword hsig =>
    obtain ⟨rfl, hstate⟩ := ht.state h
    exact .set ht.procs ht.sameCpus (.blockFutex hstate hword hsig)
  | recheck ht hlast hword =>
    obtain ⟨rfl, hstate⟩ := ht.state h
    exact .set ht.procs ht.sameCpus (.recheck hstate ⟨_, hlast, hword⟩)

theorem requeue_edits (keyTo : ℕ) :
    Edits (fun s i => s.setTask i { s.procs i with waitFutexKey := keyTo })
    fun p => { p with waitFutexKey := keyTo } where
  self s i := setTask_self s i _
  other s _ _ hj := setTask_of_ne s _ hj

theorem wakeSleepers_procs (smp : Smp) (now : ℕ) (s : State) (j : Slot) :
    (wakeSleepers smp s now).procs j = s.procs j ∨ ((s.procs j).expired now = true ∧
      (wakeSleepers smp s now).procs j =
        (s.procs j).clearExpired.woken smp (s.procs j).expiredResult) :=
  (wakeTask_edits smp Task.clearExpired Task.expiredResult).scan_procs (·.expired now) none s j

theorem Inv.schedTick_taskStep (h : Inv smp s added l) (cpu now : ℕ) (j : Slot) :
    TaskStep smp s j (.tick cpu now) ((Sched.schedTick smp s cpu now).procs j) := by
  rcases h.schedTick_cases cpu now with ⟨-, hsame⟩ | ⟨s', -, -, hfill, -, -, hprocs, -⟩
  · rw [hsame]
    exact TaskStep.same _
  · rw [hprocs]
    have hwake := wakeSleepers_procs smp now s' j
    cases hfill with
    | full =>
      rcases hwake with hj | ⟨hexp, hj⟩
      · exact hj ▸ TaskStep.same _
      · exact hj ▸ TaskStep.expire hexp
    | @idle _ idle hnil _ _ hidle _ =>
      by_cases hji : j = idle
      · subst hji
        have hself : (Sched.pushIdle s cpu j).procs j =
            { s.procs j with state := .running, cpu := cpu % 256 } := setTask_self s j _
        rcases hwake with hj | ⟨hexp, -⟩
        · rw [hj, hself]
          exact TaskStep.idle hidle
        · -- the idle task runs now
          have hw := Task.waiting_of_expired hexp
          rw [hself] at hw
          exact absurd hw nofun
      · have hother : (Sched.pushIdle s cpu idle).procs j = s.procs j := setTask_of_ne s _ hji
        rw [hother] at hwake
        rcases hwake with hj | ⟨hexp, hj⟩
        · exact hj ▸ TaskStep.same _
        · exact hj ▸ TaskStep.expire hexp

theorem schedWake_steps (smp : Smp) (s : State) (pid : ℕ) :
    Steps smp s (.wake pid) (schedWake smp s pid) := by
  unfold schedWake
  cases hfind : slots.find? fun i => (s.procs i).pid == pid && (s.procs i).state == .waiting with
  | none => exact .same _
  | some i =>
    have hi := List.find?_some hfind
    simp only [Bool.and_eq_true, beq_iff_eq] at hi
    exact .edit (wakeTask_edits _ _ _) ⟨rfl, rfl⟩ (hi.1 ▸ .wake hi.2)

theorem schedWakeSignal_steps (smp : Smp) (s : State) (pid : ℕ) :
    Steps smp s (.wakeSignal pid) (schedWakeSignal smp s pid).2 := by
  unfold schedWakeSignal
  cases hfind : slots.find? fun i => (s.procs i).pid == pid with
  | none => exact .same _
  | some i =>
    obtain rfl : (s.procs i).pid = pid := by simpa using List.find?_some hfind
    dsimp only
    split_ifs with hwait
    · exact .same _
    · exact .same _
    · exact .edit (wakeTask_edits smp Task.clearFutex fun _ => -EINTR) ⟨rfl, rfl⟩
        (.wakeSignal (by simpa using hwait))

theorem Inv.steps (h : Inv smp s added l) (ha : ∀ cpu now, a ≠ .tick cpu now) :
    Steps smp s a (Sched.exec smp s a) := by
  cases a with
  | removeWithState pid state =>
    rw [Sched.exec]
    exact h.unlinkTask_steps fun _ hpid hrun => hpid ▸ .remove hrun
  | sleep now pid ms =>
    rw [Sched.exec]
    exact h.unlinkTask_steps fun _ hpid hrun => hpid ▸ .sleep hrun
  | block pid => exact h.unlinkTask_steps fun _ hpid hrun => hpid ▸ .block hrun
  | blockPoll pid wakeTimeMs =>
    rw [Sched.exec]
    exact h.unlinkTask_steps fun _ hpid hrun => hpid ▸ .blockPoll hrun
  | blockFutex pid word expected key wakeTimeMs bitset =>
    exact h.blockFutex_steps pid word expected key wakeTimeMs bitset
  | wake pid => exact schedWake_steps smp s pid
  | wakeSignal pid => exact schedWakeSignal_steps smp s pid
  | wakePollWaiters =>
    exact .scan (wakeTask_edits smp Task.clearPoll fun _ => 0)
      (fun _ _ => ⟨rfl, rfl⟩) Task.polls none
      fun _ => .wakePoll
  | wakeFutex key maxWake bitset result =>
    unfold Sched.exec Sched.schedWakeFutex
    dsimp only
    split_ifs
    · exact .same _
    · exact .scan (wakeTask_edits _ _ _) (fun _ _ => ⟨rfl, rfl⟩) (fun p => p.waitsOn key bitset)
        (some maxWake) fun _ => .wakeFutex
  | requeueFutex keyFrom keyTo maxRequeue =>
    unfold Sched.exec Sched.schedRequeueFutex
    dsimp only
    split_ifs with hnone
    · exact .same _
    · exact .scan (requeue_edits keyTo) (fun _ _ => ⟨rfl, rfl⟩) (fun p => p.waitsFor keyFrom)
        (some maxRequeue) fun _ => .requeue fun hkey => hnone (.inr (.inl hkey))
  | tick cpu now => exact absurd rfl (ha cpu now)

theorem Inv.taskStep (h : Inv smp s added l) (a : Call) (j : Slot) :
    TaskStep smp s j a ((Sched.exec smp s a).procs j) := by
  by_cases ha : ∀ cpu now, a ≠ .tick cpu now
  · exact (h.steps ha).task j
  · simp only [not_forall, not_not] at ha
    obtain ⟨cpu, now, rfl⟩ := ha
    exact h.schedTick_taskStep cpu now j

theorem schedAdd_sameCpus (smp : Smp) (s : State) (pid : ℕ) : SameCpus s (schedAdd smp s pid) := by
  unfold schedAdd
  split
  · exact ⟨rfl, rfl⟩
  · exact ⟨rfl, rfl⟩

section

variable (hi : slots.find?
    (fun i => (s.procs i).pid == pid && (s.procs i).state == .running) = some i)
include hi

theorem schedAdd_procs
    (hj : j ≠ i) :
    (schedAdd smp s pid).procs j = s.procs j := by
  unfold schedAdd
  rw [hi]
  exact setTask_of_ne _ _ hj

theorem schedAdd_self :
    (schedAdd smp s pid).procs i =
      { s.procs i with cpu := (addTarget smp s (s.procs i)).1 % 256 } := by
  unfold schedAdd
  rw [hi]
  exact setTask_self _ _ _

end

theorem TaskStep.cpu {smp : Smp} {s : State} {p : Task} (h : TaskStep smp s j a p)
    (hlt : (s.procs j).cpu < smp.count) (hidle : ∀ c, s.idleTask c = some j → (s.procs j).cpu = c) :
    p.cpu = (s.procs j).cpu := by
  have hle : smp.count ≤ 64 := smp.count_le
  cases h with
  | same | remove | sleep | block | blockPoll | blockFutex | recheck | requeue => rfl
  | interrupt => exact Task.woken_cpu_of_lt smp _ hlt
  | wake => exact Task.woken_cpu_of_lt smp (p := (s.procs j).clearBitset) _ hlt
  | wakeSignal | wakeFutex => exact Task.woken_cpu_of_lt smp (p := (s.procs j).clearFutex) _ hlt
  | wakePoll => exact Task.woken_cpu_of_lt smp (p := (s.procs j).clearPoll) _ hlt
  | expire =>
    have hcpu : (s.procs j).clearExpired.cpu = (s.procs j).cpu := by
      unfold Task.clearExpired
      split_ifs <;> rfl
    rw [Task.woken_cpu_of_lt smp _ (hcpu ▸ hlt), hcpu]
  | @idle cpu _ hc =>
    have := hidle cpu hc
    exact (Nat.mod_eq_of_lt (by omega)).trans this.symm

end TaterTOS.Sched
