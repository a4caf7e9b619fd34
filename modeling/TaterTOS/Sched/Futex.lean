import TaterTOS.Sched.Effects

/-!
# Waiters of a futex
-/

namespace TaterTOS.Sched

open List

variable {smp : Smp} {s : State} {added : Set Slot} {l : ℕ → List Slot}
  {key : ℕ} {p : Task} {a : Action} {c c' : Config}

/-! ### One wake, one requeue -/

def firstTasks (s : State) (max : ℕ) (select : Task → Bool) : List Slot :=
  (slots.filter fun i => select (s.procs i)).take max

theorem length_firstTasks (s : State) (max : ℕ) (select : Task → Bool) :
    (firstTasks s max select).length =
      min max (slots.filter fun i => select (s.procs i)).length := length_take

theorem nodup_firstTasks (s : State) (max : ℕ) (select : Task → Bool) :
    (firstTasks s max select).Nodup :=
  (@chosen_slots (fun i => select (s.procs i)) (some max)).1

theorem mem_firstTasks {s : State} {max : ℕ} {select : Task → Bool} :
    ∀ i ∈ firstTasks s max select, select (s.procs i) = true :=
  (@chosen_slots (fun i => select (s.procs i)) (some max)).2

theorem schedWakeFutex_spec (smp : Smp) (s : State) (hkey : key ≠ 0) (maxWake bitset : ℕ)
    (result : ℤ) : schedWakeFutex smp s key maxWake bitset result =
      ((firstTasks s maxWake fun p => p.waitsOn key bitset).length,
        (firstTasks s maxWake fun p => p.waitsOn key bitset).foldl
          (wakeTask smp Task.clearFutex fun _ => result) s) := by
  unfold schedWakeFutex
  by_cases hmax : maxWake = 0
  · rw [hmax]
    rfl
  · rw [if_neg (not_or.mpr ⟨hmax, hkey⟩), (wakeTask_edits _ _ _).scanned
      fun p => p.waitsOn key bitset]
    rfl

theorem schedRequeueFutex_spec (s : State) {keyFrom keyTo : ℕ} (hfrom : keyFrom ≠ 0)
    (hto : keyTo ≠ 0) (hne : keyFrom ≠ keyTo) (maxRequeue : ℕ) :
    schedRequeueFutex s keyFrom keyTo maxRequeue =
      ((firstTasks s maxRequeue fun p => p.waitsFor keyFrom).length,
        (firstTasks s maxRequeue fun p => p.waitsFor keyFrom).foldl
          (fun s i => s.setTask i { s.procs i with waitFutexKey := keyTo }) s) := by
  unfold schedRequeueFutex
  by_cases hmax : maxRequeue = 0
  · rw [hmax]
    rfl
  · rw [if_neg (by simp [hmax, hfrom, hto, hne]), (requeue_edits keyTo).scanned
      fun p => p.waitsFor keyFrom]
    rfl

theorem foldl_requeue_rest (keyTo : ℕ) (w : List Slot) (s : State) :
    let s' := w.foldl (fun s i => s.setTask i { s.procs i with waitFutexKey := keyTo }) s
    s' = { s with procs := s'.procs } := by
  induction w generalizing s with
  | nil => rfl
  | cons i w ih => exact ih _

/-! ### The wait of a task -/

def Task.wait (p : Task) : Option ℕ :=
  if p.state = .waiting ∧ p.waitFutexKey ≠ 0 then some p.waitFutexKey else none

theorem Task.wait_of_state (h : p.state ≠ .waiting) : p.wait = none :=
  if_neg fun hp => h hp.1

theorem Task.wait_of_key (h : p.waitFutexKey = 0) : p.wait = none :=
  if_neg fun hp => hp.2 h

theorem Task.waitsFor_iff (hkey : key ≠ 0) : p.waitsFor key = true ↔ p.wait = some key := by
  unfold Task.waitsFor Task.wait
  rw [Bool.and_eq_true, beq_iff_eq, beq_iff_eq]
  constructor
  · rintro ⟨hs, rfl⟩
    exact if_pos ⟨hs, hkey⟩
  · intro h
    split_ifs at h with hp
    exact ⟨hp.1, Option.some.inj h⟩

theorem Task.waiting_of_waitsFor (h : p.waitsFor key = true) : p.state = .waiting := by
  simp only [Task.waitsFor, Bool.and_eq_true, beq_iff_eq] at h
  exact h.1

theorem Task.waitsOn_wait {bitset : ℕ} (hkey : key ≠ 0) (h : p.waitsOn key bitset = true) :
    p.wait = some key := by
  rw [← Task.waitsFor_iff hkey]
  exact (Bool.and_eq_true_iff.mp h).1

/-- How the wait of a task with this pid can change: it ends, a call of the task begins a new one,
or a requeue moves it. -/
inductive WaitStep (pid : ℕ) : Action → Option ℕ → Option ℕ → Prop
  | same (a : Action) (w : Option ℕ) : WaitStep pid a w w
  | ends (a : Action) (w : Option ℕ) : WaitStep pid a w none
  | begins (word : Option (ℕ × ℕ)) (expected key wakeTimeMs bitset : ℕ) (w : Option ℕ) :
      WaitStep pid (.call (.blockFutex pid word expected key wakeTimeMs bitset)) w (some key)
  | moves (keyFrom keyTo maxRequeue : ℕ) :
      WaitStep pid (.call (.requeueFutex keyFrom keyTo maxRequeue)) (some keyFrom) (some keyTo)

theorem WaitStep.ended {pid : ℕ} {w : Option ℕ} (h : p.wait = none) :
    WaitStep pid a w p.wait := h ▸ .ends a w

def KeyReset (s : State) : Action → Prop
  | .call (.block pid) => ∀ i, (s.procs i).pid = pid → (s.procs i).state = .running →
      (s.procs i).waitFutexKey = 0
  | .call (.removeWithState _ state) => state ≠ .waiting
  | _ => True

theorem TaskStep.wait {j : Slot} {a : Call} (h : TaskStep smp s j a p)
    (hok : KeyReset s (.call a)) :
    WaitStep (s.procs j).pid (.call a) (s.procs j).wait p.wait := by
  cases h with
  | same => exact .same _ _
  | remove => exact WaitStep.ended (Task.wait_of_state hok)
  | sleep | blockPoll | recheck => exact WaitStep.ended (Task.wait_of_key rfl)
  | block hrun => exact WaitStep.ended (Task.wait_of_key (hok j rfl hrun))
  | @blockFutex _ _ key wakeTimeMs bitset =>
    by_cases hkey : key = 0
    · exact WaitStep.ended (Task.wait_of_key hkey)
    · have hp : ((s.procs j).blockOn key wakeTimeMs bitset).wait = some key := if_pos ⟨rfl, hkey⟩
      rw [hp]
      exact .begins _ _ _ _ _ _
  | interrupt | wake | wakeSignal | wakePoll | wakeFutex | expire | idle =>
    exact WaitStep.ended (Task.wait_of_state nofun)
  | @requeue keyFrom keyTo _ hkey hwait =>
    by_cases hto : keyTo = 0
    · exact WaitStep.ended (Task.wait_of_key hto)
    · have hs := Task.waiting_of_waitsFor hwait
      have hp : ({ s.procs j with waitFutexKey := keyTo } : Task).wait = some keyTo :=
        if_pos ⟨hs, hto⟩
      rw [hp, (Task.waitsFor_iff hkey).mp hwait]
      exact .moves _ _ _

theorem Step.wait (hstep : Step smp KeyReset a c c') {l : ℕ → List Slot}
    (hinv : Inv smp c.sched c.added l) (j : Slot) :
    WaitStep (c.sched.procs j).pid a (c.sched.procs j).wait (c'.sched.procs j).wait := by
  cases hstep with
  | call a _ hok => exact (hinv.taskStep a j).wait hok
  | @add _ pid i hi _ =>
    by_cases hj : j = i
    · subst hj
      rw [schedAdd_self hi]
      exact .same _ _
    · rw [schedAdd_procs hi hj]
      exact .same _ _
  | @create _ i s' hs hidle hok cpu isKernel isLinux failed handlers sigBlocked =>
    obtain ⟨-, rfl⟩ := procAlloc_spec hs
    by_cases hj : j = i
    · subst hj
      rw [setTask_self]
      exact WaitStep.ended (Task.wait_of_state (by cases failed <;> exact nofun))
    · rw [setTask_of_ne _ _ hj, claimSlot_of_ne _ hj]
      exact .same _ _
  | @outside _ s' hout =>
    rcases hout.state j with hs | ⟨hs, -⟩
    · rcases hout.key j with hk | hk
      · have hwait : (s'.procs j).wait = (c.sched.procs j).wait := by
          unfold Task.wait
          rw [hs, hk]
        exact hwait ▸ .same _ _
      · exact WaitStep.ended (Task.wait_of_key hk)
    · have hnot : (s'.procs j).state ≠ .waiting := by
        rcases hs with hs | hs <;> rw [hs] <;> exact nofun
      exact WaitStep.ended (Task.wait_of_state hnot)

def Begins (c : Config) (i : Slot) (a : Action) : Prop :=
  ∃ word expected key wakeTimeMs bitset,
    a = .call (.blockFutex (c.sched.procs i).pid word expected key wakeTimeMs bitset)

/-- **A wait that ended does not come back** before the task begins another one. -/
theorem Reachable.wait_none {i : Slot} (h : Reachable smp KeyReset c)
    (hnone : (c.sched.procs i).wait = none)
    (hrun : Relation.ReflTransGen (fun c c' => ∃ a, Step smp KeyReset a c c' ∧
      ¬ Begins c i a) c c') :
    Reachable smp KeyReset c' ∧ (c'.sched.procs i).wait = none := by
  induction hrun with
  | refl => exact ⟨h, hnone⟩
  | tail _ hstep ih =>
    obtain ⟨a, hstep, hnot⟩ := hstep
    obtain ⟨hreach, hnone⟩ := ih
    obtain ⟨l, hinv, -⟩ := hreach.inv
    have hwait := hstep.wait hinv i
    rw [hnone] at hwait
    refine ⟨hreach.step hstep, ?_⟩
    generalize (_ : Task).wait = w at hwait
    cases hwait with
    | same => rfl
    | ends => rfl
    | begins word expected key wakeTimeMs bitset =>
      exact absurd ⟨word, expected, key, wakeTimeMs, bitset, rfl⟩ hnot

/-- **Futex waiters are conserved.** A wake takes the first tasks of the table that wait on the key
with a bit in common, up to its limit, and puts each at the end of its queue once; a requeue moves
the first tasks that wait on the first key and wakes none. In every run in which tasks block with
their key reset, a wait begins only with a call of its task and moves only by a requeue from its
key; once it ended, no wake and no requeue selects the task until it begins another one. -/
theorem futex_waiters (smp : Smp) : (∀ s key maxWake bitset result, key ≠ 0 →
      let w := firstTasks s maxWake fun p => p.waitsOn key bitset
      let r := schedWakeFutex smp s key maxWake bitset result
      r.1 = min maxWake (slots.filter fun i => (s.procs i).waitsOn key bitset).length ∧
      w.length = r.1 ∧ w.Nodup ∧ (∀ i ∈ w, (s.procs i).waitsOn key bitset = true) ∧
      (∀ j, r.2.procs j =
        if j ∈ w then (s.procs j).clearFutex.woken smp result else s.procs j) ∧
      ∀ added l, Inv smp s added l → Inv smp r.2 added (appendAll s l w)) ∧
    (∀ s keyFrom keyTo n, keyFrom ≠ 0 → keyTo ≠ 0 → keyFrom ≠ keyTo →
      let w := firstTasks s n fun p => p.waitsFor keyFrom
      let r := schedRequeueFutex s keyFrom keyTo n
      r.1 = min n (slots.filter fun i => (s.procs i).waitsFor keyFrom).length ∧
      w.length = r.1 ∧ w.Nodup ∧ (∀ i ∈ w, (s.procs i).waitsFor keyFrom = true) ∧
      (∀ j, r.2.procs j =
        if j ∈ w then { s.procs j with waitFutexKey := keyTo } else s.procs j) ∧
      r.2 = { s with procs := r.2.procs }) ∧
    (∀ a c c', Reachable smp KeyReset c → Step smp KeyReset a c c' → ∀ i,
      WaitStep (c.sched.procs i).pid a (c.sched.procs i).wait (c'.sched.procs i).wait) ∧
    ∀ c c' i, Reachable smp KeyReset c → (c.sched.procs i).state ≠ .waiting →
      Relation.ReflTransGen (fun c c' => ∃ a, Step smp KeyReset a c c' ∧ ¬ Begins c i a) c c' →
      ∀ key ≠ 0, (∀ bitset, (c'.sched.procs i).waitsOn key bitset = false) ∧
        (c'.sched.procs i).waitsFor key = false := by
  refine ⟨?_, ?_, ?_, ?_⟩
  · intro s key maxWake bitset result hkey w r
    have hr : r = _ := schedWakeFutex_spec smp s hkey maxWake bitset result
    have hw := nodup_firstTasks s maxWake fun p => p.waitsOn key bitset
    have hmem : ∀ i ∈ w, (s.procs i).waitsOn key bitset = true := mem_firstTasks
    rw [hr]
    refine ⟨length_firstTasks _ _ _, rfl, hw, hmem, ?_, ?_⟩
    · exact (wakeTask_edits smp Task.clearFutex fun _ => result).folded hw s
    · intro added l hinv
      exact (Inv.foldl_wakeTask Task.clearFutex (fun _ => rfl) _ hw hinv
        fun i hi => Task.waiting_of_waitsOn (hmem i hi)).1
  · intro s keyFrom keyTo n hfrom hto hne w r
    have hr : r = _ := schedRequeueFutex_spec s hfrom hto hne n
    have hw := nodup_firstTasks s n fun p => p.waitsFor keyFrom
    rw [hr]
    refine ⟨length_firstTasks _ _ _, rfl, hw, mem_firstTasks, ?_, ?_⟩
    · exact (requeue_edits keyTo).folded hw s
    · exact foldl_requeue_rest keyTo _ s
  · intro a c c' hreach hstep i
    obtain ⟨l, hinv, -⟩ := hreach.inv
    exact hstep.wait hinv i
  · intro c c' i hreach hstate hrun key hkey
    obtain ⟨-, hnone⟩ := hreach.wait_none (Task.wait_of_state hstate) hrun
    refine ⟨fun bitset => ?_, ?_⟩
    · rw [Bool.eq_false_iff]
      intro hon
      rw [Task.waitsOn_wait hkey hon] at hnone
      exact absurd hnone nofun
    · rw [Bool.eq_false_iff]
      intro hfor
      rw [(Task.waitsFor_iff hkey).mp hfor] at hnone
      exact absurd hnone nofun

def waitingTask : Config :=
  ⟨exec oneCpu oneTask.sched (.blockFutex 2 (some (5, 5)) 5 64 1000 1), oneTask.added⟩

def wokenTask : Config := ⟨exec oneCpu waitingTask.sched (.wake 2), waitingTask.added⟩

theorem wokenTask_reachable (ok : State → Action → Prop)
    (hcreate : ok (schedInit oneCpu fun _ => true) (.create 1))
    (hblock : ok oneTask.sched (.call (.blockFutex 2 (some (5, 5)) 5 64 1000 1)))
    (hwake : ok waitingTask.sched (.call (.wake 2))) : Reachable oneCpu ok wokenTask :=
  ((oneTask_reachable ok hcreate).call _ (oneTask_allowed _ _ _ _ _) hblock).call (.wake 2)
    trivial hwake

theorem futex_waiters_waitingTask : (schedWakeFutex oneCpu waitingTask.sched 64 3 1 0).1 = 1 ∧
    (schedRequeueFutex waitingTask.sched 64 128 3).1 = 1 ∧
    ∀ key ≠ 0, (wokenTask.sched.procs 1).waitsFor key = false := by
  obtain ⟨hwake, hrequeue, -, hrun⟩ := futex_waiters oneCpu
  refine ⟨?_, ?_, fun key hkey => ?_⟩
  · rw [(hwake waitingTask.sched 64 3 1 0 (by decide)).1]
    decide +kernel
  · rw [(hrequeue waitingTask.sched 64 128 3 (by decide) (by decide) (by decide)).1]
    decide +kernel
  · have hreach := wokenTask_reachable KeyReset trivial trivial trivial
    exact (hrun _ _ 1 hreach (by decide +kernel) Relation.ReflTransGen.refl key hkey).2

/-- **A plain wake keeps the key.** The wait of the task ended, it blocks for something else, and a
requeue of the old futex still moves it. -/
theorem requeue_stale : ∃ c c' i, Reachable oneCpu (fun _ _ => True) c ∧
    (c.sched.procs i).state = .running ∧
    Step oneCpu (fun _ _ => True) (.call (.block 2)) c c' ∧
    (schedRequeueFutex c'.sched 64 128 1).1 = 1 ∧
    ((schedRequeueFutex c'.sched 64 128 1).2.procs i).waitFutexKey = 128 := by
  refine ⟨wokenTask, _, 1, wokenTask_reachable _ trivial trivial trivial, ?_,
    Step.call (.block 2) trivial trivial, ?_, ?_⟩
  · decide +kernel
  · decide +kernel
  · decide +kernel

end TaterTOS.Sched
