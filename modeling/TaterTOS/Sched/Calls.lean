import TaterTOS.Sched.Invariant

/-!
# The calls keep the runqueue invariant

One lemma for each call of the scheduler: from a state that satisfies `Inv` it leads to one that
does, and complete queues stay complete. For `sched_block_futex` the latter needs that the word is
not seen to change between its two reads.
-/

namespace TaterTOS.Sched

open Function Lib List

variable {smp : Smp} {s : State} {added : Set Slot} {l : ℕ → List Slot}
  {pid cpu : ℕ} {i : Slot} {s1 s' : State} {p : Task} {is : List Slot}

/-! ### Blocking -/

theorem Inv.unlinkTask (h : Inv smp s added l) (pid : ℕ) (f : Task → Task)
    (hstate : ∀ p, (f p).state ≠ .running) (hcpu : ∀ p, (f p).cpu = p.cpu) :
    ∃ l', Leads smp s added l (unlinkTask smp s pid f) added l' := by
  have hrem := h.lined.removed smp pid
  unfold Sched.unlinkTask
  generalize removeFromRunqueue smp s pid = r at hrem
  cases hrem with
  | absent => exact ⟨l, Leads.refl h⟩
  | @found _ i _ _ _ hi _ hl =>
    have hleave := h.leave hi hl (hcpu (s.procs i))
    exact ⟨_, hleave.1, hleave.2 (hstate _)⟩

inductive FutexTask (s : State) (l : ℕ → List Slot) (pid : ℕ) : Option Slot × State → Prop
  | none : FutexTask s l pid (none, s)
  | queued {c : ℕ} {i : Slot} {next : Option Slot → Option Slot} {rq : ℕ → Queue (Option Slot)}
      (hi : i ∈ l c) (hpid : (s.procs i).pid = pid)
      (hl : Lined { s with next := next, rq := rq } (update l c ((l c).erase i))) :
      FutexTask s l pid (some i, { s with next := next, rq := rq })
  | loose {i : Slot} (hpid : (s.procs i).pid = pid)
      (hi : (s.procs i).state = .running ∨ (s.procs i).state = .waiting) (hout : ∀ d, i ∉ l d) :
      FutexTask s l pid (some i, s)

theorem Inv.futexTask (h : Inv smp s added l) (pid : ℕ) :
    FutexTask s l pid (futexTask smp s pid) := by
  have hrem := h.lined.removed smp pid
  unfold Sched.futexTask
  generalize removeFromRunqueue smp s pid = r at hrem
  cases hrem with
  | found _ hi hpid hl => exact FutexTask.queued hi hpid hl
  | absent hno =>
    dsimp only
    cases hfind : slots.find? fun i => (s.procs i).pid == pid &&
        ((s.procs i).state == .running || (s.procs i).state == .waiting) with
    | none => exact FutexTask.none
    | some i =>
      have hi := List.find?_some hfind
      simp only [Bool.and_eq_true, beq_iff_eq, Bool.or_eq_true] at hi
      refine FutexTask.loose hi.1 hi.2 fun d hd => hno d ?_ i hd hi.1
      -- a queue that holds a task is the one of a CPU
      obtain ⟨hadd, -, hcpu⟩ := h.mem d i hd
      exact hcpu ▸ h.cpu_lt i hadd

theorem FutexTask.mem_added (ht : FutexTask s l pid (some i, s1)) (h : Inv smp s added l)
    (hadd : ∀ i, (s.procs i).pid = pid → (s.procs i).state = .running → i ∈ added) :
    i ∈ added := by
  cases ht with
  | queued hi _ _ => exact (h.mem _ i hi).1
  | loose hpid hi _ => exact hi.elim (hadd i hpid) (h.waits i)

theorem FutexTask.procs (ht : FutexTask s l pid (some i, s1)) : s1.procs = s.procs := by
  cases ht with
  | queued => rfl
  | loose => rfl

theorem FutexTask.set (ht : FutexTask s l pid (some i, s1)) (h : Inv smp s added l) (hi : i ∈ added)
    (hcpu : p.cpu = (s.procs i).cpu) :
    ∃ l', (∀ d, i ∉ l' d) ∧ Inv smp (s1.setTask i p) added l' ∧
      (p.state ≠ .running → Complete s added l → Complete (s1.setTask i p) added l') := by
  cases ht with
  | queued hi _ hl =>
    exact ⟨_, fun d hd => ((h.lined.mem_erase hi).mp hd).2 rfl, h.leave hi hl hcpu⟩
  | loose _ _ hout => exact ⟨l, hout, h.edit_out hi hout hcpu⟩

theorem wakeRunnableLocked_setTask (smp : Smp) (s : State) (i : Slot) (state : ProcState)
    (result : ℤ) : wakeRunnableLocked smp (s.setTask i { s.procs i with state := state }) i result =
      wakeRunnableLocked smp s i result := by
  rw [wakeRunnableLocked_eq, setTask_self, setTask_setTask]
  rfl

theorem FutexTask.wake (ht : FutexTask s l pid (some i, s1)) (h : Inv smp s added l)
    (hi : i ∈ added) (result : ℤ) :
    ∃ l', Leads smp s added l (wakeRunnableLocked smp s1 i result) added l' := by
  have hcpu : (s1.procs i).cpu = (s.procs i).cpu := by rw [ht.procs]
  obtain ⟨l', hout, hl', hfull⟩ := ht.set h hi (p := { s1.procs i with state := .waiting }) hcpu
  have hwake := hl'.wake hi hout (p := { s1.procs i with state := .waiting })
    (by rw [setTask_self]) result
  rw [setTask_setTask, wakeRunnableLocked_setTask] at hwake
  exact ⟨_, hwake.1, hwake.2 ∘ hfull nofun⟩

section

variable (smp s l pid) (word : Option (ℕ × ℕ)) (expected key wakeTimeMs bitset : ℕ)

/-- What `sched_block_futex` can do. -/
inductive BlockFutex : State → Prop
  | same : BlockFutex s
  | interrupt {i : Slot} {s1 : State} (ht : FutexTask s l pid (some i, s1))
      (hsig : schedDeliverableSignalMask (s.procs i) ≠ 0) :
      BlockFutex (wakeRunnableLocked smp s1 i 0)
  | block {i : Slot} {s1 : State} (ht : FutexTask s l pid (some i, s1))
      (hword : word = some (expected, expected))
      (hsig : schedDeliverableSignalMask (s.procs i) = 0) :
      BlockFutex (s1.setTask i ((s.procs i).blockOn key wakeTimeMs bitset))
  | recheck {i : Slot} {s1 : State} {last : ℕ} (ht : FutexTask s l pid (some i, s1))
      (hlast : last ≠ expected) (hword : word = some (expected, last)) :
      BlockFutex (s1.setTask i ((s.procs i).blockOn key wakeTimeMs bitset).unblock)

variable {smp s l}

theorem Inv.blockFutex_cases (h : Inv smp s added l) :
    BlockFutex smp s l pid word expected key wakeTimeMs bitset
      (schedBlockFutex smp s pid word expected key wakeTimeMs bitset).2 := by
  unfold schedBlockFutex
  cases word with
  | none => exact .same
  | some v =>
    obtain ⟨first, last⟩ := v
    dsimp only
    by_cases hfirst : first = expected
    · have ht := h.futexTask pid
      rw [if_neg (by simp [hfirst]), hfirst]
      generalize Sched.futexTask smp s pid = r at ht
      obtain ⟨o, s1⟩ := r
      cases o with
      | none =>
        cases ht
        exact .same
      | some i =>
        dsimp only
        rw [ht.procs]
        by_cases hsig : schedDeliverableSignalMask (s.procs i) = 0
        · rw [if_neg (by simpa using hsig)]
          by_cases hlast : last = expected
          · rw [if_neg (by simp [hlast]), hlast]
            exact .block ht rfl hsig
          · rw [if_pos (by simpa using hlast)]
            exact .recheck ht hlast rfl
        · rw [if_pos (by simpa using hsig)]
          exact .interrupt ht hsig
    · rw [if_pos (by simpa using hfirst)]
      exact .same

/-- **`sched_block_futex`**: the queues stay complete when the word is not seen to change between
the reads. -/
theorem Inv.blockFutex (h : Inv smp s added l)
    (hadd : ∀ i, (s.procs i).pid = pid → (s.procs i).state = .running → i ∈ added) : ∃ l',
      Inv smp (schedBlockFutex smp s pid word expected key wakeTimeMs bitset).2 added l' ∧
      ((∀ v ∈ word, v.1 = expected → v.2 = expected) → Complete s added l →
        Complete (schedBlockFutex smp s pid word expected key wakeTimeMs bitset).2 added l') := by
  have hcases := h.blockFutex_cases pid word expected key wakeTimeMs bitset
  generalize (schedBlockFutex smp s pid word expected key wakeTimeMs bitset).2 = s' at hcases ⊢
  cases hcases with
  | same => exact ⟨l, h, fun _ => id⟩
  | interrupt ht =>
    obtain ⟨l', hl', hfull⟩ := ht.wake h (ht.mem_added h hadd) 0
    exact ⟨l', hl', fun _ => hfull⟩
  | @block i _ ht =>
    obtain ⟨l', -, hl', hfull⟩ := ht.set h (ht.mem_added h hadd)
      (p := (s.procs i).blockOn key wakeTimeMs bitset) rfl
    exact ⟨l', hl', fun _ => hfull nofun⟩
  | @recheck i _ _ ht hlast hword =>
    obtain ⟨l', -, hl', -⟩ := ht.set h (ht.mem_added h hadd)
      (p := ((s.procs i).blockOn key wakeTimeMs bitset).unblock) rfl
    exact ⟨l', hl', fun hsteady => absurd (hsteady _ hword rfl) hlast⟩

end

/-! ### Adding -/

theorem addTarget_lt (smp : Smp) (s : State) (p : Task) : (addTarget smp s p).1 < smp.count := by
  have hpos := smp.count_pos
  unfold addTarget
  by_cases hcpu : (!p.isKernel && p.cpu < smp.count) = true
  · rw [if_pos hcpu]
    simpa using (Bool.and_eq_true_iff.mp hcpu).2
  · dsimp only
    split_ifs <;> omega

theorem Inv.add (h : Inv smp s added l)
    (hi : slots.find? (fun i => (s.procs i).pid == pid && (s.procs i).state == .running) = some i)
    (hnew : i ∉ added) :
    ∃ l', Leads smp s added l (schedAdd smp s pid) (insert i added) l' := by
  have hrun := List.find?_some hi
  simp only [Bool.and_eq_true, beq_iff_eq] at hrun
  have hlt := addTarget_lt smp s (s.procs i)
  have hle : smp.count ≤ 64 := smp.count_le
  have hmod : (addTarget smp s (s.procs i)).1 % 256 = (addTarget smp s (s.procs i)).1 :=
    Nat.mod_eq_of_lt (by omega)
  have hround : Inv smp { s with schedNextCpu := (addTarget smp s (s.procs i)).2 } added l :=
    { h with lined := { h.lined with } }
  have hent := hround.enter (i := i)
    (p := { s.procs i with cpu := (addTarget smp s (s.procs i)).1 })
    (fun d hd => hnew (h.mem d i hd).1) hrun.2 hlt
    (fun d hd => absurd (h.idle d i hd).1 hnew)
  unfold schedAdd
  rw [hi]
  simp only [hmod]
  exact ⟨_, hent.1, fun hfull => hent.2 hfull⟩

/-! ### Waking -/

theorem wakeTask_eq (smp : Smp) (clear : Task → Task) (result : Task → ℤ) (s : State) (i : Slot) :
    wakeTask smp clear result s i =
      rqPush (s.setTask i ((clear (s.procs i)).woken smp (result (s.procs i))))
        ((clear (s.procs i)).woken smp (result (s.procs i))).cpu i := by
  unfold wakeTask
  rw [wakeRunnableLocked_eq, setTask_self, setTask_setTask]

/-- `f` at a slot puts `g` of the task there and leaves the other tasks. -/
structure Edits (f : State → Slot → State) (g : Task → Task) : Prop where
  self : ∀ s i, (f s i).procs i = g (s.procs i)
  other : ∀ s {i j}, j ≠ i → (f s i).procs j = s.procs j

theorem wakeTask_edits (smp : Smp) (clear : Task → Task) (result : Task → ℤ) :
    Edits (wakeTask smp clear result) fun p => (clear p).woken smp (result p) where
  self s i := by rw [wakeTask_eq, rqPush_procs, setTask_self]
  other s i j hj := by rw [wakeTask_eq, rqPush_procs, setTask_of_ne _ _ hj]

theorem nodup_slots : slots.Nodup := nodup_finRange procMax

section

variable {f : State → Slot → State} {g : Task → Task} (h : Edits f g)
include h

theorem Edits.folded : ∀ {w : List Slot}, w.Nodup → ∀ (s : State) (j : Slot),
    (w.foldl f s).procs j = if j ∈ w then g (s.procs j) else s.procs j
  | [], _, s, j => by simp
  | i :: w, hnd, s, j => by
    obtain ⟨hi, hnd⟩ := nodup_cons.mp hnd
    rw [foldl_cons, Edits.folded hnd]
    by_cases hj : j = i
    · subst hj
      rw [if_neg hi, if_pos mem_cons_self, h.self]
    · rw [h.other s hj]
      simp only [mem_cons, hj, false_or]

theorem Edits.scanned (select : Task → Bool) (max : Option ℕ) (s : State) :
    scan (fun s i => select (s.procs i)) f max s 0 slots =
      ((chosen max 0 (slots.filter fun i => select (s.procs i))).length,
        (chosen max 0 (slots.filter fun i => select (s.procs i))).foldl f s) := by
  rw [scan_eq _ max nodup_slots, zero_add]
  intro s i j hj
  rw [h.other s hj]

end

theorem Inv.wakeTask (h : Inv smp s added l) (hw : (s.procs i).state = .waiting)
    (clear : Task → Task) (hclear : ∀ p, (clear p).cpu = p.cpu) (result : Task → ℤ) :
    Leads smp s added l (wakeTask smp clear result s i) added
      (appendTo l ((clear (s.procs i)).woken smp (result (s.procs i))).cpu i) := by
  apply h.wake (h.waits i hw) (h.not_mem _) (hclear _)
  rw [hw]
  exact nofun

def appendAll (s : State) (l : ℕ → List Slot) (w : List Slot) : ℕ → List Slot :=
  fun q => l q ++ w.filter fun i => (s.procs i).cpu == q

theorem longer_appendAll (s : State) (l : ℕ → List Slot) (w : List Slot) :
    Longer l (appendAll s l w) := fun q => List.prefix_append (l q) _

theorem appendAll_cons (s : State) (l : ℕ → List Slot) (i : Slot) (w : List Slot) :
    appendAll s (appendTo l (s.procs i).cpu i) w = appendAll s l (i :: w) := by
  funext q
  unfold appendAll appendTo
  by_cases hq : q = (s.procs i).cpu
  · subst hq
    rw [update_self, filter_cons_of_pos (by simp), append_assoc, singleton_append]
  · rw [update_of_ne hq, filter_cons_of_neg (by simpa using Ne.symm hq)]

theorem appendAll_congr {s s' : State} (l : ℕ → List Slot) {w : List Slot}
    (h : ∀ i ∈ w, s'.procs i = s.procs i) : appendAll s' l w = appendAll s l w := by
  funext q
  unfold appendAll
  congr 1
  apply filter_congr
  intro i hi
  rw [h i hi]

theorem Inv.foldl_wakeTask (clear : Task → Task) (hclear : ∀ p, (clear p).cpu = p.cpu)
    (result : Task → ℤ) : ∀ {w : List Slot}, w.Nodup → ∀ {s : State} {l : ℕ → List Slot},
    Inv smp s added l → (∀ i ∈ w, (s.procs i).state = .waiting) →
      Leads smp s added l (w.foldl (Sched.wakeTask smp clear result) s) added (appendAll s l w)
  | [], _, s, l, h, _ => by
    have hnil : appendAll s l [] = l := funext fun q => append_nil (l q)
    rw [hnil]
    exact Leads.refl h
  | i :: w, hnd, s, l, h, hw => by
    obtain ⟨hi, hnd⟩ := nodup_cons.mp hnd
    have hwi := hw i mem_cons_self
    have hwake := h.wakeTask hwi clear hclear result
    have hcpu : ((clear (s.procs i)).woken smp (result (s.procs i))).cpu = (s.procs i).cpu := by
      rw [Task.woken_cpu_of_lt smp _ (by rw [hclear]; exact h.cpu_lt i (h.waits i hwi)), hclear]
    rw [hcpu] at hwake
    have hother : ∀ j ∈ w, (Sched.wakeTask smp clear result s i).procs j = s.procs j :=
      fun j hj => (wakeTask_edits smp clear result).other s fun hji => hi (hji ▸ hj)
    have hind := Inv.foldl_wakeTask clear hclear result hnd hwake.1 fun j hj => by
      rw [hother j hj]
      exact hw j (mem_cons_of_mem i hj)
    rw [appendAll_congr _ hother, appendAll_cons] at hind
    exact hwake.trans hind

theorem chosen_slots {select : Slot → Bool} {max : Option ℕ} :
    (chosen max 0 (slots.filter select)).Nodup ∧
      ∀ i ∈ chosen max 0 (slots.filter select), select i = true := by
  have hsub := chosen_sublist max 0 (slots.filter select)
  refine ⟨(nodup_slots.filter _).sublist hsub, fun i hi => ?_⟩
  exact (mem_filter.mp (hsub.subset hi)).2

theorem Inv.scan_wakeTask (h : Inv smp s added l) (select : Task → Bool)
    (hselect : ∀ p, select p = true → p.state = .waiting) (clear : Task → Task)
    (hclear : ∀ p, (clear p).cpu = p.cpu) (result : Task → ℤ) (max : Option ℕ) :
    ∃ l', Longer l l' ∧ Leads smp s added l (scan (fun s i => select (s.procs i))
      (Sched.wakeTask smp clear result) max s 0 slots).2 added l' := by
  rw [(wakeTask_edits smp clear result).scanned]
  exact ⟨_, longer_appendAll s l _, Inv.foldl_wakeTask clear hclear result chosen_slots.1 h
    fun i hi => hselect _ (chosen_slots.2 i hi)⟩

theorem Task.waiting_of_polls (h : p.polls = true) : p.state = .waiting := by
  simp only [Task.polls, Bool.and_eq_true, beq_iff_eq] at h
  exact h.1

theorem Task.waiting_of_waitsOn {key bitset : ℕ} (h : p.waitsOn key bitset = true) :
    p.state = .waiting := by
  simp only [Task.waitsOn, Bool.and_eq_true, beq_iff_eq] at h
  exact h.1.1

theorem Task.waiting_of_expired {now : ℕ} (h : p.expired now = true) : p.state = .waiting := by
  simp only [Task.expired, Bool.and_eq_true, beq_iff_eq] at h
  exact h.1.1

section

variable (h : Inv smp s added l)
include h

theorem Inv.schedWake (pid : ℕ) :
    ∃ l', Leads smp s added l (schedWake smp s pid) added l' := by
  unfold Sched.schedWake
  cases hfind : slots.find? fun i => (s.procs i).pid == pid && (s.procs i).state == .waiting with
  | none => exact ⟨l, Leads.refl h⟩
  | some i =>
    have hi := List.find?_some hfind
    simp only [Bool.and_eq_true, beq_iff_eq] at hi
    exact ⟨_, h.wakeTask hi.2 Task.clearBitset (fun _ => rfl) fun _ => 0⟩

theorem Inv.schedWakeSignal (pid : ℕ) :
    ∃ l', Leads smp s added l (schedWakeSignal smp s pid).2 added l' := by
  unfold Sched.schedWakeSignal
  cases slots.find? fun i => (s.procs i).pid == pid with
  | none => exact ⟨l, Leads.refl h⟩
  | some i =>
    dsimp only
    split_ifs with hw
    · exact ⟨l, Leads.refl h⟩
    · exact ⟨l, Leads.refl h⟩
    · exact ⟨_, h.wakeTask (by simpa using hw) Task.clearFutex (fun _ => rfl) fun _ => -EINTR⟩

theorem Inv.schedWakePollWaiters :
    ∃ l', Leads smp s added l (schedWakePollWaiters smp s).2 added l' := by
  obtain ⟨l', -, h'⟩ := h.scan_wakeTask Task.polls (fun _ => Task.waiting_of_polls)
    Task.clearPoll (fun _ => rfl) (fun _ => 0) none
  exact ⟨l', h'⟩

theorem Inv.schedWakeFutex (key maxWake bitset : ℕ) (result : ℤ) :
    ∃ l', Leads smp s added l (schedWakeFutex smp s key maxWake bitset result).2 added l' := by
  unfold Sched.schedWakeFutex
  split_ifs
  · exact ⟨l, Leads.refl h⟩
  · obtain ⟨l', -, h'⟩ := h.scan_wakeTask (fun p => p.waitsOn key bitset)
      (fun _ => Task.waiting_of_waitsOn) Task.clearFutex (fun _ => rfl)
      (fun _ => result) (some maxWake)
    exact ⟨l', h'⟩

theorem Inv.setTask (hstate : p.state = (s.procs i).state)
    (hcpu : p.cpu = (s.procs i).cpu) :
    Leads smp s added l (s.setTask i p) added l := by
  obtain ⟨hinv, hfull⟩ := h.change (h.lined.setTask i p) rfl (setTask_self s i p)
    (fun j hj => setTask_of_ne _ p hj) (fun _ _ => Iff.rfl) (fun _ _ _ => Iff.rfl)
    (fun d hd => by rw [hstate, hcpu]; exact h.mem d i hd) (fun hi => hcpu ▸ h.cpu_lt i hi)
    (fun hw => h.waits i (hstate ▸ hw)) (fun d hd => by rw [hcpu]; exact h.idle d i hd)
  refine ⟨hinv, fun hold => hfull (fun hi hr => ?_) hold⟩
  rw [hcpu]
  exact hold i hi (hstate ▸ hr)

theorem Inv.schedRequeueFutex (keyFrom keyTo maxRequeue : ℕ) :
    Leads smp s added l (schedRequeueFutex s keyFrom keyTo maxRequeue).2 added l := by
  unfold Sched.schedRequeueFutex
  split_ifs
  · exact Leads.refl h
  · apply scan_keeps (P := fun s' => Leads smp s added l s' added l) _ _ (Leads.refl h)
    intro s' i hs
    exact hs.trans (hs.1.setTask rfl rfl)

/-! ### The timer tick -/

theorem Inv.wakeSleepers (now : ℕ) :
    ∃ l', Longer l l' ∧ Leads smp s added l (wakeSleepers smp s now) added l' := by
  apply h.scan_wakeTask (fun p => p.expired now) (fun _ => Task.waiting_of_expired)
  intro p
  unfold Task.clearExpired
  split_ifs <;> rfl

theorem Inv.pushIdle {idle : Slot} (hidle : s.idleTask cpu = some idle)
    (hout : ∀ d, idle ∉ l d) :
    Leads smp s added l (pushIdle s cpu idle) added (appendTo l cpu idle) := by
  obtain ⟨hadd, hcpu⟩ := h.idle cpu idle hidle
  have hlt : cpu < smp.count := hcpu ▸ h.cpu_lt idle hadd
  have hle : smp.count ≤ 64 := smp.count_le
  have hmod : cpu % 256 = cpu := Nat.mod_eq_of_lt (by omega)
  have hent := h.enter hout (p := { s.procs idle with state := .running, cpu := cpu }) rfl hlt
    (fun d hd => hcpu.symm.trans (h.idle d idle hd).2)
  rw [Set.insert_eq_of_mem hadd] at hent
  unfold Sched.pushIdle
  rw [hmod]
  exact hent

end

/-- **The tick on an empty runqueue** ends, or gives it the idle task. -/
inductive Filled (s : State) (l : ℕ → List Slot) (cpu : ℕ) : Option State → Prop
  | full (hne : l cpu ≠ []) : Filled s l cpu (some s)
  | idle {cur : Runner} {idle : Slot} (hnil : l cpu = []) (hcur : s.current cpu = some cur)
      (hstop : s.runs (some cur) = false) (hidle : s.idleTask cpu = some idle)
      (hne : cur ≠ .task idle) : Filled s l cpu (some (pushIdle s cpu idle))
  | ends (hnil : l cpu = []) (h : ∀ cur idle, s.current cpu = some cur →
      s.idleTask cpu = some idle → s.runs (some cur) = false → cur = .task idle) :
      Filled s l cpu none

theorem Lined.tickEmpty (h : Lined s l) (cpu : ℕ) : Filled s l cpu (tickEmpty s cpu) := by
  have hhead := h.head_eq cpu
  unfold Sched.tickEmpty
  rw [hhead]
  cases hl : l cpu with
  | cons i is => exact Filled.full (by rw [hl]; exact cons_ne_nil i is)
  | nil =>
    cases hcur : s.current cpu with
    | none => exact Filled.ends hl fun _ _ hc => absurd (hcur.symm.trans hc) nofun
    | some cur =>
      cases hidle : s.idleTask cpu with
      | none => exact Filled.ends hl fun _ _ _ hi => absurd (hidle.symm.trans hi) nofun
      | some idle =>
        dsimp only [List.head?_nil]
        by_cases hcond : (!s.runs (some cur) && cur != .task idle) = true
        · rw [if_pos hcond]
          simp only [Bool.and_eq_true, Bool.not_eq_true', bne_iff_ne] at hcond
          exact Filled.idle hl hcur hcond.1 hidle hcond.2
        · rw [if_neg hcond]
          refine Filled.ends hl fun cur' idle' hc hi hr => ?_
          obtain rfl := Option.some.inj (hcur.symm.trans hc)
          obtain rfl := Option.some.inj (hidle.symm.trans hi)
          simpa [hr] using hcond

theorem Inv.filled (h : Inv smp s added l) (hs : Filled s l cpu (some s')) :
    ∃ l', l' cpu ≠ [] ∧ Leads smp s added l s' added l' := by
  cases hs with
  | full hne => exact ⟨l, hne, Leads.refl h⟩
  | @idle _ idle hnil _ _ hidle _ =>
    refine ⟨_, ?_, h.pushIdle hidle fun d hd => ?_⟩
    · simp [appendTo]
    · -- the idle task would be in the queue of its CPU, which is empty
      have hd' : cpu = d := (h.idle cpu idle hidle).2.symm.trans (h.mem d idle hd).2.2
      rw [← hd', hnil] at hd
      exact not_mem_nil hd

def OnlyQueues (s s' : State) : Prop := s' = { s with next := s'.next, rq := s'.rq }

theorem OnlyQueues.refl (s : State) : OnlyQueues s s := rfl

theorem OnlyQueues.trans {s2 s3 : State} (h1 : OnlyQueues s1 s2) (h2 : OnlyQueues s2 s3) :
    OnlyQueues s1 s3 := by
  unfold OnlyQueues at *
  rw [h2, h1]

variable {s : State}

theorem OnlyQueues.procs (h : OnlyQueues s s') : s'.procs = s.procs := by rw [h]

theorem OnlyQueues.idleTask (h : OnlyQueues s s') : s'.idleTask = s.idleTask := by
  rw [h]

theorem OnlyQueues.current (h : OnlyQueues s s') : s'.current = s.current := by
  rw [h]

theorem OnlyQueues.seen (h : OnlyQueues s s') :
    s'.firstUserSwitchSeen = s.firstUserSwitchSeen := by
  rw [h]

theorem rotate_onlyQueues (s : State) (c : ℕ) : OnlyQueues s (rotate s c) := by
  unfold OnlyQueues rotate rqPop
  cases (s.rq c).head <;> rfl

theorem promote_onlyQueues (s : State) (c : ℕ) : OnlyQueues s (rqPromoteFirstUser s c) := by
  unfold OnlyQueues rqPromoteFirstUser
  cases (s.rq c).head with
  | none => rfl
  | some h =>
    dsimp only
    split_ifs <;> rfl

theorem tickTurn_onlyQueues (smp : Smp) (s : State) (cpu : ℕ) :
    OnlyQueues s (tickTurn smp s cpu) := by
  unfold tickTurn
  have hrot : OnlyQueues s (if s.runs (s.current cpu) then rotate s cpu else s) := by
    split_ifs
    · exact rotate_onlyQueues s cpu
    · exact OnlyQueues.refl s
  dsimp only
  generalize (if s.runs (s.current cpu) then rotate s cpu else s) = s1 at hrot ⊢
  split_ifs
  · exact hrot.trans (promote_onlyQueues _ cpu)
  · exact hrot

theorem Inv.rotate (h : Inv smp s added l) {c : ℕ} (hc : l c = i :: is) :
    Leads smp s added l (rotate s c) added (update l c (is ++ [i])) := by
  have hq := rotate_onlyQueues s c
  apply h.reorder (h.lined.rotate hc) _ hq.procs hq.idleTask
  rw [hc]
  exact perm_append_singleton i is

theorem Inv.promote (h : Inv smp s added l) (c : ℕ) : ∃ l', l'.Perm (l c) ∧
    Leads smp s added l (rqPromoteFirstUser s c) added (update l c l') := by
  have hq := promote_onlyQueues s c
  obtain ⟨l', hperm, hl⟩ := h.lined.promote c
  exact ⟨l', hperm, h.reorder hl hperm hq.procs hq.idleTask⟩

theorem Inv.tickTurn (h : Inv smp s added l) (cpu : ℕ) : ∃ l', l'.Perm (l cpu) ∧
    Leads smp s added l (tickTurn smp s cpu) added (update l cpu l') := by
  have hrot : ∃ l', l'.Perm (l cpu) ∧ Leads smp s added l
      (if s.runs (s.current cpu) then Sched.rotate s cpu else s) added
      (update l cpu l') := by
    have hsame : Leads smp s added l s added (update l cpu (l cpu)) := by
      rw [update_eq_self]
      exact Leads.refl h
    split_ifs
    · cases hl : l cpu with
      | nil =>
        -- a queue that is empty stays so
        have hnone : Sched.rotate s cpu = s := by
          have hhead := h.lined.head_eq cpu
          rw [hl] at hhead
          simp [Sched.rotate, rqPop, Queue.pop, hhead]
        rw [hnone]
        exact ⟨[], List.Perm.refl _, hl ▸ hsame⟩
      | cons i is => exact ⟨is ++ [i], perm_append_singleton i is, h.rotate hl⟩
    · exact ⟨l cpu, List.Perm.refl _, hsame⟩
  obtain ⟨l', hperm, h'⟩ := hrot
  unfold Sched.tickTurn
  dsimp only
  generalize (if s.runs (s.current cpu) then Sched.rotate s cpu else s) = s1 at h' ⊢
  split_ifs
  · obtain ⟨l'', hperm', h''⟩ := h'.1.promote cpu
    rw [update_self] at hperm'
    rw [update_idem] at h''
    exact ⟨l'', hperm'.trans hperm, h'.trans h''⟩
  · exact ⟨l', hperm, h'⟩

theorem Inv.switchTo (h : Inv smp s added l) (cpu : ℕ) (next : Slot) :
    Leads smp s added l (switchTo smp s cpu next) added l :=
  ⟨{ h with lined := { h.lined with } }, id⟩

theorem tickPick_eq {next : Slot} (h : Inv smp (tickTurn smp s cpu) added l)
    (hl : l cpu = next :: is) :
    tickPick smp s cpu = if (tickTurn smp s cpu).current cpu = some (.task next) then
      tickTurn smp s cpu else switchTo smp (tickTurn smp s cpu) cpu next := by
  have hhead := h.lined.head_eq cpu
  have hrun : ((tickTurn smp s cpu).procs next).state = .running :=
    (h.mem cpu next (by rw [hl]; exact mem_cons_self)).2.1
  rw [hl, List.head?_cons] at hhead
  unfold tickPick
  dsimp only
  rw [hhead]
  dsimp only
  by_cases hcur : (tickTurn smp s cpu).current cpu = some (.task next)
  · rw [if_pos hcur, if_pos hcur]
    unfold tickAlone
    rw [if_pos]
    rw [hcur]
    simpa [State.runs] using hrun
  · rw [if_neg hcur, if_neg hcur]

theorem Inv.tickPick (h : Inv smp s added l) (hne : l cpu ≠ []) :
    ∃ l' next, next ∈ l' cpu ∧ Leads smp s added l (tickPick smp s cpu) added l' ∧
      (tickPick smp s cpu).procs = s.procs ∧ (tickPick smp s cpu).idleTask = s.idleTask ∧
      (tickPick smp s cpu).current = update s.current cpu (some (.task next)) := by
  obtain ⟨l', hperm, h'⟩ := h.tickTurn cpu
  have hq := tickTurn_onlyQueues smp s cpu
  cases hl : l' with
  | nil =>
    rw [hl] at hperm
    exact absurd hperm.symm.eq_nil hne
  | cons next is =>
    have hself : update l cpu l' cpu = next :: is := by rw [update_self, hl]
    refine ⟨update l cpu l', next, by rw [hself]; exact mem_cons_self, ?_⟩
    rw [tickPick_eq h'.1 hself]
    split_ifs with hcur
    · refine ⟨h', hq.procs, hq.idleTask, ?_⟩
      rw [hq.current] at hcur ⊢
      rw [← hcur, update_eq_self]
    · refine ⟨h'.trans (h'.1.switchTo cpu next), hq.procs, hq.idleTask, ?_⟩
      change update (Sched.tickTurn smp s cpu).current cpu _ = _
      rw [hq.current]

/-- **What a tick does**: nothing, or it fills the queue, wakes the sleepers and picks a task. -/
theorem Inv.schedTick_cases (h : Inv smp s added l) (cpu now : ℕ) :
    (Filled s l cpu none ∧ schedTick smp s cpu now = s) ∨
    ∃ s' l' next, Filled s l cpu (some s') ∧ next ∈ l' cpu ∧
      Leads smp s added l (schedTick smp s cpu now) added l' ∧
      (schedTick smp s cpu now).procs = (Sched.wakeSleepers smp s' now).procs ∧
      (schedTick smp s cpu now).idleTask = (Sched.wakeSleepers smp s' now).idleTask ∧
      (schedTick smp s cpu now).current =
        update (Sched.wakeSleepers smp s' now).current cpu (some (.task next)) := by
  have hfill := h.lined.tickEmpty cpu
  unfold Sched.schedTick
  cases hs : Sched.tickEmpty s cpu with
  | none =>
    rw [hs] at hfill
    exact .inl ⟨hfill, rfl⟩
  | some s' =>
    rw [hs] at hfill
    obtain ⟨l1, hne, h1⟩ := h.filled hfill
    obtain ⟨l2, hlong, h2⟩ := h1.1.wakeSleepers now
    obtain ⟨l3, next, hnext, h3, hrest⟩ := h2.1.tickPick (hlong.ne_nil hne)
    exact .inr ⟨s', l3, next, hfill, hnext, (h1.trans h2).trans h3, hrest⟩

theorem Inv.schedTick (h : Inv smp s added l) (cpu now : ℕ) :
    ∃ l', Leads smp s added l (schedTick smp s cpu now) added l' := by
  rcases h.schedTick_cases cpu now with ⟨-, hsame⟩ | ⟨_, l', -, -, -, hlead, -⟩
  · rw [hsame]
    exact ⟨l, Leads.refl h⟩
  · exact ⟨l', hlead⟩

end TaterTOS.Sched
