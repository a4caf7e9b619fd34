import TaterTOS.Sched.Effects

/-!
# What a CPU runs

* `Owned`, `Busy`: every CPU runs a task of its own, and a CPU with an empty queue runs a stopped
  task that its idle task can replace;
* `tick_current`: from such a state a tick leaves a running task of the queue on its CPU, on no
  other one, and ticks go round the queue;
* `Reachable.seated`: runs that spare the idle tasks reach such states only.
-/

namespace TaterTOS.Sched

open Function List

variable {smp : Smp} {s : State} {added : Set Slot} {l : ℕ → List Slot} {cpu now : ℕ} {i : Slot}
  {a : Action} {c : Config}

def Owned (s : State) : Prop := ∀ d i, s.current d = some (.task i) → (s.procs i).cpu = d

def Busy (s : State) (cpu : ℕ) : Prop :=
  (s.rq cpu).head = none → ∃ i idle, s.current cpu = some (.task i) ∧
    (s.procs i).state ≠ .running ∧ s.idleTask cpu = some idle ∧ i ≠ idle

/-! ### One tick -/

theorem Filled.sameCpus {s' : State} (h : Filled s l cpu (some s')) : SameCpus s s' := by
  cases h with
  | full => exact ⟨rfl, rfl⟩
  | idle => exact ⟨rfl, rfl⟩

theorem Inv.not_ends (h : Inv smp s added l) (hbusy : Busy s cpu) : ¬ Filled s l cpu none := by
  intro hends
  cases hends with
  | ends hnil hno =>
    have hhead : (s.rq cpu).head = none := by rw [h.lined.head_eq, hnil, List.head?_nil]
    obtain ⟨i, idle, hcur, hstop, hidle, hne⟩ := hbusy hhead
    have hr : s.runs (some (.task i)) = false := by simpa [State.runs] using hstop
    exact hne (Runner.task.inj (hno _ _ hcur hidle hr))

theorem Filled.wakeSleepers_sameCpus {s' : State} (h : Filled s l cpu (some s')) :
    SameCpus s (Sched.wakeSleepers smp s' now) :=
  h.sameCpus.trans (scan_sameCpus
    (f := Sched.wakeTask smp Task.clearExpired Task.expiredResult)
    (fun _ _ => ⟨rfl, rfl⟩) _ none s')

theorem Inv.schedTick_exclusive (h : Inv smp s added l) (howned : Owned s) (hbusy : Busy s cpu)
    (now : ℕ) : ∃ l' next, Leads smp s added l
      (Sched.schedTick smp s cpu now) added l' ∧ next ∈ l' cpu ∧
      ((Sched.schedTick smp s cpu now).procs next).state = .running ∧
      (Sched.schedTick smp s cpu now).current cpu = some (.task next) ∧
      ∀ d ≠ cpu, (Sched.schedTick smp s cpu now).current d ≠ some (.task next) := by
  obtain ⟨_, l', next, hfill, hnext, hlead, -, -, hcur⟩ := (h.schedTick_cases cpu now).resolve_left
    fun hends => h.not_ends hbusy hends.1
  rw [hfill.wakeSleepers_sameCpus.1] at hcur
  obtain ⟨hadd, hrun, hcpu⟩ := hlead.1.mem cpu next hnext
  refine ⟨l', next, hlead, hnext, hrun, ?_, fun d hd hother => ?_⟩
  · rw [hcur, update_self]
  · -- a task that another CPU runs belongs there, and the tick moves no task
    rw [hcur, update_of_ne hd] at hother
    have hstep := (h.taskStep (.tick cpu now) next).cpu (h.cpu_lt next hadd)
      fun c hc => (h.idle c next hc).2
    change ((Sched.schedTick smp s cpu now).procs next).cpu = _ at hstep
    rw [hcpu, howned d next hother] at hstep
    exact hd hstep.symm

/-! ### Ticks without timers -/

theorem wakeSleepers_eq (hexp : ∀ j, (s.procs j).expired now = false) :
    wakeSleepers smp s now = s := by
  have hnone : (slots.filter fun i => (s.procs i).expired now) = [] := by
    rw [filter_eq_nil_iff]
    intro i _
    rw [hexp i]
    exact Bool.false_ne_true
  unfold wakeSleepers
  rw [(wakeTask_edits _ _ _).scanned fun p => p.expired now, hnone]
  rfl

theorem Inv.schedTick_rotate (h : Inv smp s added l) {is : List Slot} (hl : l cpu = i :: is)
    (hcur : s.current cpu = some (.task i)) (hseen : s.firstUserSwitchSeen = true)
    (hexp : ∀ j, (s.procs j).expired now = false) :
    Inv smp (Sched.schedTick smp s cpu now) added (update l cpu (is ++ [i])) ∧
      (Sched.schedTick smp s cpu now).procs = s.procs ∧
      (Sched.schedTick smp s cpu now).firstUserSwitchSeen = true ∧
      (Sched.schedTick smp s cpu now).current cpu = (is ++ [i]).head?.map .task := by
  have hhead : (s.rq cpu).head = some i := by rw [h.lined.head_eq, hl, List.head?_cons]
  have hrun : s.runs (s.current cpu) = true := by
    rw [hcur]
    simpa [State.runs] using (h.mem cpu i (hl ▸ mem_cons_self)).2.1
  have hempty : Sched.tickEmpty s cpu = some s := by
    unfold Sched.tickEmpty
    rw [hhead]
  have hturn : Sched.tickTurn smp s cpu = Sched.rotate s cpu := by
    have hq := rotate_onlyQueues s cpu
    unfold Sched.tickTurn
    rw [if_pos hrun]
    rw [if_neg]
    rw [hq.seen, hseen]
    exact fun h => absurd h.2 (by simp)
  have hq := rotate_onlyQueues s cpu
  have hrot := (h.rotate hl).1
  obtain ⟨next, rest, hnext⟩ : ∃ next rest, is ++ [i] = next :: rest := by
    cases is with
    | nil => exact ⟨i, [], rfl⟩
    | cons j js => exact ⟨j, js ++ [i], rfl⟩
  have hpick := tickPick_eq (hturn ▸ hrot) (by rw [update_self, hnext])
  unfold Sched.schedTick
  rw [hempty]
  dsimp only
  rw [wakeSleepers_eq hexp, hpick, hturn, hnext]
  split_ifs with hsame
  · rw [← hnext]
    refine ⟨hrot, hq.procs, by rw [hq.seen, hseen], ?_⟩
    rw [hsame, hnext]
    rfl
  · rw [← hnext]
    refine ⟨(hrot.switchTo cpu next).1, hq.procs, ?_, ?_⟩
    · change ((Sched.rotate s cpu).firstUserSwitchSeen || _) = true
      rw [hq.seen, hseen, Bool.true_or]
    · rw [hnext]
      exact update_self _ _ _

def ticks (smp : Smp) (cpu : ℕ) (s : State) (times : List ℕ) : State :=
  times.foldl (fun s now => schedTick smp s cpu now) s

theorem ticks_rotate : ∀ (times : List ℕ) {s : State} {l : ℕ → List Slot},
    Inv smp s added l → l cpu ≠ [] → s.current cpu = (l cpu).head?.map .task →
    s.firstUserSwitchSeen = true → (∀ now ∈ times, ∀ j, (s.procs j).expired now = false) →
    (ticks smp cpu s times).current cpu = ((l cpu).rotate times.length).head?.map .task
  | [], s, l, _, _, hcur, _, _ => by
    rw [length_nil, rotate_zero]
    exact hcur
  | now :: times, s, l, h, hne, hcur, hseen, hexp => by
    cases hl : l cpu with
    | nil => exact absurd hl hne
    | cons i is =>
      rw [hl] at hcur
      obtain ⟨h', hprocs, hseen', hcur'⟩ := h.schedTick_rotate hl hcur hseen
        (hexp now mem_cons_self)
      have hrest := ticks_rotate times h' (by rw [update_self]; simp)
        (by rw [update_self]; exact hcur') hseen' (fun t ht j => by
          rw [hprocs]
          exact hexp t (mem_cons_of_mem now ht) j)
      rw [update_self] at hrest
      rw [length_cons, rotate_cons_succ]
      exact hrest

theorem rotate_head_unique {q : List Slot} (hnd : q.Nodup) (hi : i ∈ q) :
    ∃! k, k < q.length ∧ (q.rotate (k + 1)).head? = some i := by
  obtain ⟨m, hm, hmi⟩ := getElem_of_mem hi
  have hpos : 0 < q.length := by omega
  have hhead : ∀ k, (q.rotate (k + 1)).head? = some i ↔ (k + 1) % q.length = m := by
    intro k
    have hlt : (k + 1) % q.length < q.length := Nat.mod_lt _ hpos
    rw [← rotate_mod, List.head?_rotate hlt, ← hmi, ← List.getElem?_eq_getElem hm]
    exact List.getElem?_inj hlt hnd
  refine ⟨if m = 0 then q.length - 1 else m - 1, ⟨?_, (hhead _).mpr ?_⟩, ?_⟩
  · split_ifs <;> omega
  · split_ifs with h0
    · rw [Nat.sub_add_cancel hpos, Nat.mod_self, h0]
    · rw [Nat.sub_add_cancel (by omega), Nat.mod_eq_of_lt hm]
  · rintro k ⟨hk, hki⟩
    have hmod := (hhead k).mp hki
    by_cases hlast : k + 1 = q.length
    · rw [hlast, Nat.mod_self] at hmod
      rw [if_pos hmod.symm]
      omega
    · rw [Nat.mod_eq_of_lt (by omega)] at hmod
      rw [if_neg (by omega)]
      omega

theorem ticks_once (h : Inv smp s added l) (hcur : s.current cpu = (l cpu).head?.map .task)
    (hseen : s.firstUserSwitchSeen = true) {times : List ℕ} (hlen : times.length = (l cpu).length)
    (hexp : ∀ now ∈ times, ∀ j, (s.procs j).expired now = false) (hi : i ∈ l cpu) :
    ∃! k, k < (l cpu).length ∧
      (ticks smp cpu s (times.take (k + 1))).current cpu = some (.task i) := by
  have hturn : ∀ k, (k < (l cpu).length ∧
      (ticks smp cpu s (times.take (k + 1))).current cpu = some (.task i)) ↔
      k < (l cpu).length ∧ ((l cpu).rotate (k + 1)).head? = some i := by
    intro k
    refine and_congr_right fun hk => ?_
    rw [ticks_rotate (times.take (k + 1)) h (ne_nil_of_mem hi) hcur hseen
      (fun now hnow => hexp now (mem_of_mem_take hnow)), length_take, hlen,
      min_eq_left hk]
    cases ((l cpu).rotate (k + 1)).head? with
    | none => exact iff_of_false nofun nofun
    | some j =>
      rw [Option.map_some, Option.some.injEq, Option.some.injEq, Runner.task.injEq]
  simp only [hturn]
  exact rotate_head_unique (h.lined.nodup cpu) hi

/-! ### Runs that spare the idle tasks -/

def Call.stops : Call → Option ℕ
  | .removeWithState pid _ | .sleep _ pid _ | .block pid | .blockPoll pid _ => some pid
  | .blockFutex pid _ _ _ _ _ => some pid
  | _ => none

/-- No call stops an idle task, futex words are steady, and no new task gets the slot of a task that
some CPU still runs. -/
def Careful (s : State) : Action → Prop
  | .call a => Steady s (.call a) ∧
    ∀ pid ∈ a.stops, ∀ d i, s.idleTask d = some i → (s.procs i).pid ≠ pid
  | .create i => ∀ d, s.current d ≠ some (.task i)
  | _ => True

theorem Careful.steady {s : State} (h : Careful s a) : Steady s a := by
  cases a with
  | call a => exact h.1
  | add | create | outside => trivial

/-- The idle tasks run, and every CPU runs its boot context or a task of its own that was added. -/
structure Seated (c : Config) : Prop where
  idle : ∀ d i, c.sched.idleTask d = some i → (c.sched.procs i).state = .running
  own : ∀ d i, c.sched.current d = some (.task i) → i ∈ c.added ∧ (c.sched.procs i).cpu = d

theorem TaskStep.running {j : Slot} {a : Call} {p : Task} (h : TaskStep smp s j a p)
    (hrun : (s.procs j).state = .running) (hpid : ∀ pid ∈ a.stops, (s.procs j).pid ≠ pid) :
    p.state = .running := by
  cases h with
  | same => exact hrun
  | remove | sleep | block | blockPoll | blockFutex => exact absurd rfl (hpid _ rfl)
  | recheck | interrupt | wake | wakeSignal | wakePoll | wakeFutex | expire | idle => rfl
  | requeue => exact hrun

theorem Seated.call (h : Seated c) (hinv : Inv smp c.sched c.added l) {a : Call}
    (hok : Careful c.sched (.call a)) :
    Seated ⟨exec smp c.sched a, c.added⟩ := by
  have hstep := fun j => hinv.taskStep a j
  have hcpu : ∀ j ∈ c.added, ((exec smp c.sched a).procs j).cpu = (c.sched.procs j).cpu :=
    fun j hj => (hstep j).cpu (hinv.cpu_lt j hj) fun d hd => (hinv.idle d j hd).2
  have hidle : ∀ d i, c.sched.idleTask d = some i →
      ((exec smp c.sched a).procs i).state = .running :=
    fun d i hd => (hstep i).running (h.idle d i hd) fun pid hpid => hok.2 pid hpid d i hd
  have hown : ∀ d i, c.sched.current d = some (.task i) →
      i ∈ c.added ∧ ((exec smp c.sched a).procs i).cpu = d := by
    intro d i hd
    obtain ⟨hadd, hown⟩ := h.own d i hd
    exact ⟨hadd, (hcpu i hadd).trans hown⟩
  by_cases htick : ∃ cpu now, a = .tick cpu now
  · obtain ⟨cpu, now, rfl⟩ := htick
    rcases hinv.schedTick_cases cpu now with ⟨-, hsame⟩ |
      ⟨_, l', next, hfill, hnext, hlead, -, hidles, hcur⟩
    · change Seated ⟨schedTick smp c.sched cpu now, c.added⟩
      rw [hsame]
      exact h
    · rw [hfill.wakeSleepers_sameCpus.2] at hidles
      rw [hfill.wakeSleepers_sameCpus.1] at hcur
      refine ⟨fun d i hd => hidle d i (hidles ▸ hd), fun d i hd => ?_⟩
      change (schedTick smp c.sched cpu now).current d = _ at hd
      rw [hcur] at hd
      rcases update_eq_some hd with ⟨rfl, ho⟩ | hd
      · obtain ⟨hadd, -, hc⟩ := hlead.1.mem d next hnext
        exact Runner.task.inj (Option.some.inj ho) ▸ ⟨hadd, hc⟩
      · exact hown d i hd
  · have hsame := (hinv.steps fun cpu now ha => htick ⟨cpu, now, ha⟩).cpus
    exact ⟨fun d i hd => hidle d i (hsame.2 ▸ hd), fun d i hd => hown d i (hsame.1 ▸ hd)⟩

theorem Step.seated {c' : Config} (hstep : Step smp Careful a c c')
    (hinv : Inv smp c.sched c.added l) (h : Seated c) : Seated c' := by
  cases hstep with
  | call a _ hok => exact h.call hinv hok
  | @add _ pid i hi hnew =>
    have hsame := schedAdd_sameCpus smp c.sched pid
    have hother : ∀ j ∈ c.added, (schedAdd smp c.sched pid).procs j = c.sched.procs j :=
      fun j hj => schedAdd_procs hi fun hji => hnew (hji ▸ hj)
    refine ⟨fun d j hd => ?_, fun d j hd => ?_⟩
    · have hd := hsame.2 ▸ hd
      rw [hother j (hinv.idle d j hd).1]
      exact h.idle d j hd
    · obtain ⟨hadd, hcpu⟩ := h.own d j (hsame.1 ▸ hd)
      rw [hother j hadd]
      exact ⟨Set.mem_insert_of_mem i hadd, hcpu⟩
  | @create _ i s' hs hidle hok cpu isKernel isLinux failed handlers sigBlocked =>
    obtain ⟨-, rfl⟩ := procAlloc_spec hs
    have hother : ∀ j ≠ i, ∀ p, ((claimSlot c.sched i).setTask i p).procs j = c.sched.procs j := by
      intro j hj p
      rw [setTask_of_ne _ _ hj, claimSlot_of_ne _ hj]
    refine ⟨fun d j hd => ?_, fun d j hd => ?_⟩
    · rw [hother j fun hji => hidle d (hji ▸ hd)]
      exact h.idle d j hd
    · have hji : j ≠ i := fun hji => hok d (hji ▸ hd)
      rw [hother j hji]
      exact ⟨⟨(h.own d j hd).1, hji⟩, (h.own d j hd).2⟩
  | @outside _ s' hout =>
    have hidles : s'.idleTask = c.sched.idleTask := by rw [hout.eq]
    have hcur : s'.current = c.sched.current := by rw [hout.eq]
    refine ⟨fun d j hd => ?_, fun d j hd => ?_⟩
    · have hd := hidles ▸ hd
      have hrun := h.idle d j hd
      exact ((hout.state j).resolve_right fun hs => hs.2 ⟨(hinv.idle d j hd).1, hrun⟩).trans hrun
    · obtain ⟨hadd, hcpu⟩ := h.own d j (hcur ▸ hd)
      exact ⟨hadd, (hout.cpu j).trans hcpu⟩

theorem Reachable.seated (h : Reachable smp Careful c) : Seated c := by
  obtain ⟨idle, hrun⟩ := h
  induction hrun with
  | refl =>
    obtain ⟨l, hinv, -⟩ := schedInit_inv smp idle
    refine ⟨fun d i hd => schedInit_idle hd, fun d i hd => ?_⟩
    exact hinv.idle d i (schedInit_current hd)
  | tail hrun hstep ih =>
    obtain ⟨l, hinv, -⟩ := Reachable.inv ⟨idle, hrun⟩
    obtain ⟨a, hstep⟩ := hstep
    exact hstep.seated hinv ih

theorem Seated.busy (h : Seated c) (hinv : Inv smp c.sched c.added l)
    (hfull : Complete c.sched c.added l) (hidle : c.sched.idleTask cpu ≠ none) :
    Busy c.sched cpu := by
  intro hhead
  obtain ⟨i, hi⟩ := Option.ne_none_iff_exists'.mp hidle
  obtain ⟨hadd, hcpu⟩ := hinv.idle cpu i hi
  have hmem := hfull i hadd (h.idle cpu i hi)
  rw [hinv.lined.head_eq, List.head?_eq_none_iff] at hhead
  rw [hcpu, hhead] at hmem
  exact absurd hmem not_mem_nil

/-- **A blocked task never keeps the CPU, and the queue goes round.** From every state with the
runqueue invariant in which every CPU runs a context of its own and the CPU is busy, a tick leaves
the CPU with a running task of its queue that no other CPU runs. As many ticks without expiring
timers as tasks are queued make each of them current once. In runs that spare the idle tasks every
state that is reached is of this kind, as long as each CPU has its idle task. -/
theorem tick_current (smp : Smp) :
    (∀ s added l, Inv smp s added l → Complete s added l → Owned s → ∀ cpu now, Busy s cpu →
      ∃ l' i, Inv smp (schedTick smp s cpu now) added l' ∧
        Complete (schedTick smp s cpu now) added l' ∧
        (schedTick smp s cpu now).current cpu = some (.task i) ∧
        ((schedTick smp s cpu now).procs i).state = .running ∧ i ∈ l' cpu ∧
        ∀ d ≠ cpu, (schedTick smp s cpu now).current d ≠ some (.task i)) ∧
    (∀ s added l, Inv smp s added l → ∀ cpu, s.current cpu = (l cpu).head?.map .task →
      s.firstUserSwitchSeen = true → ∀ times : List ℕ, times.length = (l cpu).length →
      (∀ now ∈ times, ∀ j, (s.procs j).expired now = false) →
      ∀ i ∈ l cpu, ∃! k, k < (l cpu).length ∧
        (ticks smp cpu s (times.take (k + 1))).current cpu = some (.task i)) ∧
    ∀ c, Reachable smp Careful c → (∀ cpu < smp.count, c.sched.idleTask cpu ≠ none) →
      (∃ l, Inv smp c.sched c.added l ∧ Complete c.sched c.added l) ∧ Owned c.sched ∧
        ∀ cpu < smp.count, Busy c.sched cpu := by
  refine ⟨?_, ?_, ?_⟩
  · intro s added l h hfull howned cpu now hbusy
    obtain ⟨l', i, hlead, hi, hrun, hcur, hother⟩ := h.schedTick_exclusive howned hbusy now
    exact ⟨l', i, hlead.1, hlead.2 hfull, hcur, hrun, hi, hother⟩
  · intro s added l h cpu hcur hseen times hlen hexp i hi
    exact ticks_once h hcur hseen hlen hexp hi
  · intro c h hidle
    obtain ⟨l, hinv, hfull⟩ := h.inv
    have hfull := hfull fun _ _ hok => hok.steady
    refine ⟨⟨l, hinv, hfull⟩, fun d i hd => (h.seated.own d i hd).2, fun cpu hcpu => ?_⟩
    exact h.seated.busy hinv hfull (hidle cpu hcpu)

theorem tick_current_oneTask :
    (∃ i, (schedTick oneCpu oneTask.sched 0 0).current 0 = some (.task i) ∧
      ((schedTick oneCpu oneTask.sched 0 0).procs i).state = .running) ∧
    ∃ l : List Slot, 1 ∈ l ∧ ∀ i ∈ l, ∃! k, k < l.length ∧
      (ticks oneCpu 0 (schedTick oneCpu oneTask.sched 0 0) ([0, 0].take (k + 1))).current 0 =
        some (.task i) := by
  obtain ⟨hone, hround, hseated⟩ := tick_current oneCpu
  have hidle : ∀ cpu < oneCpu.count, oneTask.sched.idleTask cpu ≠ none := by decide +kernel
  obtain ⟨⟨l, hinv, hfull⟩, howned, hbusy⟩ := hseated oneTask
    (oneTask_reachable Careful fun d hd => oneTask_not_idle d (schedInit_current hd)) hidle
  obtain ⟨l', i, hinv', hfull', hcur, hrun, -, -⟩ :=
    hone _ _ _ hinv hfull howned 0 0 (hbusy 0 (by decide))
  have hcpu : ((schedTick oneCpu oneTask.sched 0 0).procs 1).cpu = 0 := by decide +kernel
  have hmem : 1 ∈ l' ((schedTick oneCpu oneTask.sched 0 0).procs 1).cpu :=
    hfull' 1 (Set.mem_insert _ _) (by decide +kernel)
  rw [hcpu] at hmem
  refine ⟨⟨i, hcur, hrun⟩, l' 0, hmem, ?_⟩
  · have hhead := hinv'.lined.head_eq 0
    have hlen := (hinv'.lined.holds 0).count
    rw [length_map] at hlen
    refine hround _ _ l' hinv' 0 ?_ ?_ [0, 0] ?_ ?_
    · rw [← hhead]
      decide +kernel
    · decide +kernel
    · rw [← hlen]
      decide +kernel
    · decide +kernel

/-- **A blocked idle task keeps the CPU.** After `sched_sleep` on the idle task of a CPU that runs
it, a tick leaves it current although it waits. -/
theorem tick_blocked_idle : ∃ c, Reachable oneCpu Steady c ∧
    (∃ l, Inv oneCpu c.sched c.added l ∧ Complete c.sched c.added l) ∧
    (∀ cpu < oneCpu.count, c.sched.idleTask cpu ≠ none) ∧
    ∃ i, (schedTick oneCpu c.sched 0 0).current 0 = some (.task i) ∧
      ((schedTick oneCpu c.sched 0 0).procs i).state = .waiting := by
  have hinit : Reachable oneCpu Steady (Config.init oneCpu fun _ => true) :=
    ⟨fun _ => true, Relation.ReflTransGen.refl⟩
  have hrun := (hinit.call (.tick 0 0) trivial trivial).call (.sleep 0 1 1000) trivial trivial
  obtain ⟨l, hinv, hfull⟩ := hrun.inv
  refine ⟨_, hrun, ⟨l, hinv, hfull fun _ _ h => h⟩, ?_, 0, ?_, ?_⟩
  · decide +kernel
  · decide +kernel
  · decide +kernel

end TaterTOS.Sched
