import TaterTOS.Sched.Calls

/-!
# Runs of the scheduler
-/

namespace TaterTOS.Sched

open Function Lib List

variable {smp : Smp} {l : ℕ → List Slot}

/-! ### Creating tasks -/

variable {s' : State} {i : Slot} {d : ℕ}

theorem procAlloc_spec {s : State} (h : procAlloc s = some (i, s')) :
    ((s.procs i).state = .unused ∨ (s.procs i).state = .dead) ∧ s' = claimSlot s i := by
  obtain ⟨j, hfind, hj⟩ := Option.map_eq_some_iff.mp h
  obtain ⟨rfl, rfl⟩ := Prod.mk.inj hj
  have hfree := List.find?_some hfind
  rw [Bool.or_eq_true, beq_iff_eq, beq_iff_eq] at hfree
  exact ⟨hfree, rfl⟩

@[simp] theorem claimSlot_self (s : State) (i : Slot) :
    ((claimSlot s i).procs i).state = .running :=
  congrArg Task.state (setTask_self s i _)

theorem claimSlot_of_ne (s : State) {j : Slot} (h : j ≠ i) :
    (claimSlot s i).procs j = s.procs j := setTask_of_ne s _ h

section

variable {smp : Smp} {s : State} {added : Set Slot} {l : ℕ → List Slot}

theorem Inv.create (h : Inv smp s added l) (hs : procAlloc s = some (i, s'))
    (hidle : ∀ c, s.idleTask c ≠ some i) {p : Task} (hp : p.state ≠ .waiting) :
    Leads smp s added l (s'.setTask i p) (added \ {i}) l := by
  obtain ⟨hfree, rfl⟩ := procAlloc_spec hs
  have hout : ∀ d, i ∉ l d := by
    apply h.not_mem
    rcases hfree with hf | hf <;> rw [hf] <;> exact nofun
  have hl : Lined ((claimSlot s i).setTask i p) l := by
    refine ⟨fun c => (h.lined.holds c).congr fun x hx => ?_, h.lined.apart⟩
    obtain ⟨j, hj, rfl⟩ := mem_map.mp hx
    refine update_of_ne ?_ _ _
    rintro hji
    cases hji
    exact hout c hj
  have hgone : i ∉ added \ {i} := fun hi => hi.2 rfl
  obtain ⟨hinv, hfull⟩ := h.change hl rfl (setTask_self _ i p)
    (fun j hj => (setTask_of_ne _ p hj).trans (claimSlot_of_ne s hj))
    (fun j hj => and_iff_left hj) (fun _ _ _ => Iff.rfl) (fun d hd => absurd hd (hout d))
    (fun hi => absurd hi hgone) (fun hw => absurd hw hp) (fun d hd => absurd hd (hidle d))
  exact ⟨hinv, hfull fun hi => absurd hi hgone⟩

end

/-! ### The start -/

structure Starting (smp : Smp) (s : State) (c : ℕ) : Prop where
  inv : ∃ l, Inv smp s {i | ∃ d, s.idleTask d = some i} l ∧
    Complete s {i | ∃ d, s.idleTask d = some i} l ∧ ∀ d, c ≤ d → l d = []
  running : ∀ d i, s.idleTask d = some i → (s.procs i).state = .running
  below : ∀ d, c ≤ d → s.rq d = ⟨none, none, 0⟩ ∧ s.idleTask d = none
  current : ∀ d i, s.current d = some (.task i) → s.idleTask d = some i

theorem Starting.boot (smp : Smp) : Starting smp bootState 0 := by
  refine ⟨⟨fun _ => [], ⟨⟨⟨fun c => Queue.Holds.empty, ?_⟩, ?_, ?_⟩, ?_, ?_⟩, ?_, fun _ _ => rfl⟩,
    ?_, fun d _ => ⟨rfl, rfl⟩, ?_⟩
  · intro c d i hi
    exact absurd hi not_mem_nil
  · intro c i hi
    exact absurd hi not_mem_nil
  · rintro i ⟨d, hd⟩
    exact nomatch hd
  · intro i hw
    exact nomatch hw
  · intro c i hi
    exact nomatch hi
  · rintro i ⟨d, hd⟩
    exact nomatch hd
  · intro d i hi
    exact nomatch hi
  · intro d i hi
    exact nomatch hi

theorem Inv.setIdle {s : State} {added : Set Slot}
    (h : Inv smp s added l) {c : ℕ} (hi : i ∈ added) (hcpu : (s.procs i).cpu = c) :
    Inv smp { s with idleTask := update s.idleTask c (some i) } added l := by
  refine ⟨⟨h.lined.congr rfl rfl, h.mem, h.cpu_lt⟩, h.waits, fun d j hd => ?_⟩
  rcases update_eq_some hd with ⟨rfl, ho⟩ | hd
  · exact Option.some.inj ho ▸ ⟨hi, hcpu⟩
  · exact h.idle d j hd

theorem idle_insert {idle : ℕ → Option Slot} {c : ℕ} (hc : idle c = none) (i : Slot) :
    {j | ∃ d, update idle c (some i) d = some j} = insert i {j | ∃ d, idle d = some j} := by
  ext j
  constructor
  · rintro ⟨d, hd⟩
    rcases update_eq_some hd with ⟨-, hd⟩ | hd
    · exact .inl (Option.some.inj hd).symm
    · exact .inr ⟨d, hd⟩
  · rintro (rfl | ⟨d, hd⟩)
    · exact ⟨c, update_self _ _ _⟩
    · refine ⟨d, ?_⟩
      rw [update_of_ne, hd]
      rintro rfl
      rw [hc] at hd
      exact nomatch hd

section

variable {smp : Smp} {s : State} {c : ℕ} (h : Starting smp s c)
include h

theorem Starting.mono {c' : ℕ} (hle : c ≤ c') : Starting smp s c' := by
  obtain ⟨l, hinv, hfull, hempty⟩ := h.inv
  exact ⟨⟨l, hinv, hfull, fun d hd => hempty d (hle.trans hd)⟩, h.running,
    fun d hd => h.below d (hle.trans hd), h.current⟩

theorem Starting.reset : Starting smp
    { s with rq := update s.rq c ⟨none, none, 0⟩, current := update s.current c none } c := by
  obtain ⟨l, hinv, hfull, hempty⟩ := h.inv
  -- the queue is empty already
  have hreset : update s.rq c ⟨none, none, 0⟩ = s.rq :=
    update_eq_self_iff.mpr (h.below c le_rfl).1.symm
  rw [hreset]
  refine ⟨⟨l, { hinv with lined := { hinv.lined with } }, hfull, hempty⟩, h.running, h.below,
    fun d i hd => ?_⟩
  rcases update_eq_some hd with ⟨-, hd⟩ | hd
  · exact nomatch hd
  · exact h.current d i hd

theorem Starting.create (hs : procAlloc s = some (i, s')) {p : Task} (hp : p.state ≠ .waiting) :
    Starting smp (s'.setTask i p) c ∧ ∀ d, s'.idleTask d ≠ some i := by
  obtain ⟨l, hinv, hfull, hempty⟩ := h.inv
  obtain ⟨hfree, rfl⟩ := procAlloc_spec hs
  have hnot : ∀ d, s.idleTask d ≠ some i := by
    intro d hd
    rw [h.running d i hd] at hfree
    exact hfree.elim nofun nofun
  have hnew := hinv.create hs hnot hp
  rw [Set.sdiff_singleton_eq_self fun hi => hi.elim hnot] at hnew
  refine ⟨⟨⟨l, hnew.1, hnew.2 hfull, hempty⟩, fun d j hd => ?_, h.below, h.current⟩, hnot⟩
  have hj : j ≠ i := fun hji => hnot d (hji ▸ hd)
  rw [setTask_of_ne _ _ hj, claimSlot_of_ne s hj]
  exact h.running d j hd

theorem Starting.idle (hc : c < smp.count) (hnot : ∀ d, s.idleTask d ≠ some i)
    (hstate : (s.procs i).state = .running) (hcpu : (s.procs i).cpu = c) : Starting smp
    { rqPush { s with idleTask := update s.idleTask c (some i) } c i with
      current := update s.current c (some (.task i)) } (c + 1) := by
  obtain ⟨l, hinv, hfull, hempty⟩ := h.inv
  have hself : s.setTask i (s.procs i) = s := by
    unfold State.setTask
    rw [update_eq_self]
  have hout : ∀ d, i ∉ l d := fun d hi => (hinv.mem d i hi).1.elim hnot
  have hent := hinv.enter hout hstate (hcpu.symm ▸ hc) fun d hd => absurd hd (hnot d)
  rw [hself, hcpu] at hent
  have hset := hent.1.setIdle (Set.mem_insert i _) hcpu
  have hfull1 := hent.2 hfull
  rw [← idle_insert (h.below c le_rfl).2 i] at hset hfull1
  refine ⟨⟨appendTo l c i, { hset with lined := { hset.lined with } }, hfull1, fun d hd => ?_⟩,
    fun d j hd => ?_, fun d hd => ?_, fun d j hd => ?_⟩
  · have hdc : d ≠ c := by omega
    exact (update_of_ne hdc _ _).trans (hempty d (Nat.le_of_succ_le hd))
  · rcases update_eq_some hd with ⟨-, hd⟩ | hd
    · cases hd
      exact hstate
    · exact h.running d j hd
  · have hdc : d ≠ c := by omega
    have hold := h.below d (Nat.le_of_succ_le hd)
    exact ⟨(update_of_ne hdc _ _).trans hold.1, (update_of_ne hdc _ _).trans hold.2⟩
  · change update s.current c (some (.task i)) d = some (.task j) at hd
    change update s.idleTask c (some i) d = some j
    by_cases hdc : d = c
    · rw [hdc, update_self] at hd ⊢
      cases hd
      rfl
    · rw [update_of_ne hdc] at hd ⊢
      exact h.current d j hd

theorem Starting.initCpu (hc : c < smp.count) (ok : ℕ → Bool) :
    Starting smp (initCpu ok s c) (c + 1) := by
  have h0 := h.reset
  have hle : smp.count ≤ 64 := smp.count_le
  have hmod : c % 256 = c := Nat.mod_eq_of_lt (by omega)
  unfold Sched.initCpu
  generalize { s with
    rq := update s.rq c ⟨none, none, 0⟩, current := update s.current c none } = s0 at h0 ⊢
  dsimp only
  cases halloc : procAlloc s0 with
  | none => exact h0.mono c.le_succ
  | some r =>
    obtain ⟨i, s1⟩ := r
    have hstate : (s1.procs i).state = .running := by
      rw [(procAlloc_spec halloc).2]
      exact claimSlot_self s0 i
    rw [hmod]
    split_ifs
    · have hp : ({ s1.procs i with isKernel := true, cpu := c } : Task).state ≠ .waiting :=
        hstate.trans_ne nofun
      obtain ⟨hnew, hnot⟩ := h0.create halloc hp
      refine hnew.idle hc hnot ?_ ?_
      · rw [setTask_self]
        exact hstate
      · rw [setTask_self]
    · have hp : ({ s1.procs i with isKernel := true, state := .dead } : Task).state ≠ .waiting :=
        nofun
      exact (h0.create halloc hp).1.mono c.le_succ

end

theorem Starting.foldl (ok : ℕ → Bool) : ∀ {n : ℕ}, n ≤ smp.count →
    Starting smp ((List.range n).foldl (Sched.initCpu ok) bootState) n
  | 0, _ => Starting.boot smp
  | n + 1, hn => by
    rw [range_succ, foldl_append]
    exact (Starting.foldl ok (Nat.le_of_succ_le hn)).initCpu hn ok

theorem schedInit_eq (smp : Smp) (ok : ℕ → Bool) : ∃ s, Starting smp s smp.count ∧
    schedInit smp ok = { s with
      current := update s.current smp.bsp (some .boot), schedNextCpu := 0 } := by
  have hmin : min smp.count maxCpus = smp.count := min_eq_left smp.count_le
  refine ⟨_, Starting.foldl ok (le_refl smp.count), ?_⟩
  unfold schedInit
  rw [hmin]

theorem schedInit_inv (smp : Smp) (ok : ℕ → Bool) :
    ∃ l, Inv smp (schedInit smp ok) {i | ∃ d, (schedInit smp ok).idleTask d = some i} l ∧
      Complete (schedInit smp ok) {i | ∃ d, (schedInit smp ok).idleTask d = some i} l := by
  obtain ⟨s, hs, heq⟩ := schedInit_eq smp ok
  obtain ⟨l, hinv, hfull, -⟩ := hs.inv
  rw [heq]
  exact ⟨l, { hinv with lined := { hinv.lined with } }, hfull⟩

theorem schedInit_current {ok : ℕ → Bool} (h : (schedInit smp ok).current d = some (.task i)) :
    (schedInit smp ok).idleTask d = some i := by
  obtain ⟨s, hs, heq⟩ := schedInit_eq smp ok
  rw [heq] at h ⊢
  rcases update_eq_some h with ⟨-, h⟩ | h
  · exact nomatch h
  · exact hs.current d i h

theorem schedInit_idle {ok : ℕ → Bool} (h : (schedInit smp ok).idleTask d = some i) :
    ((schedInit smp ok).procs i).state = .running := by
  obtain ⟨s, hs, heq⟩ := schedInit_eq smp ok
  rw [heq] at h ⊢
  exact hs.running d i h

/-! ### Steps -/

inductive Call
  | removeWithState (pid : ℕ) (state : ProcState)
  | sleep (now pid ms : ℕ)
  | block (pid : ℕ)
  | blockPoll (pid wakeTimeMs : ℕ)
  | blockFutex (pid : ℕ) (word : Option (ℕ × ℕ)) (expected key wakeTimeMs bitset : ℕ)
  | wake (pid : ℕ)
  | wakeSignal (pid : ℕ)
  | wakePollWaiters
  | wakeFutex (key maxWake bitset : ℕ) (result : ℤ)
  | requeueFutex (keyFrom keyTo maxRequeue : ℕ)
  | tick (cpu now : ℕ)

def exec (smp : Smp) (s : State) : Call → State
  | .removeWithState pid state => schedRemoveWithState smp s pid state
  | .sleep now pid ms => schedSleep smp s now pid ms
  | .block pid => schedBlock smp s pid
  | .blockPoll pid wakeTimeMs => schedBlockPoll smp s pid wakeTimeMs
  | .blockFutex pid word expected key wakeTimeMs bitset =>
    (schedBlockFutex smp s pid word expected key wakeTimeMs bitset).2
  | .wake pid => schedWake smp s pid
  | .wakeSignal pid => (schedWakeSignal smp s pid).2
  | .wakePollWaiters => (schedWakePollWaiters smp s).2
  | .wakeFutex key maxWake bitset result => (schedWakeFutex smp s key maxWake bitset result).2
  | .requeueFutex keyFrom keyTo maxRequeue => (schedRequeueFutex s keyFrom keyTo maxRequeue).2
  | .tick cpu now => schedTick smp s cpu now

structure Config where
  sched : State
  added : Set Slot

/-- What callers see to: a task that is removed does not go on running, and a task waits on a futex
only after it was added. -/
def Call.Allowed (c : Config) : Call → Prop
  | .removeWithState _ state => state ≠ .running
  | .blockFutex pid _ _ _ _ _ =>
    ∀ i, (c.sched.procs i).pid = pid → (c.sched.procs i).state = .running → i ∈ c.added
  | _ => True

/-- What the rest of the kernel does to tasks: it ends those that do not run, it clears futex keys,
and it sets the fields that the scheduler only reads. -/
structure Outside (c : Config) (s' : State) : Prop where
  eq : s' = { c.sched with procs := s'.procs }
  pid : ∀ i, (s'.procs i).pid = (c.sched.procs i).pid
  cpu : ∀ i, (s'.procs i).cpu = (c.sched.procs i).cpu
  state : ∀ i, (s'.procs i).state = (c.sched.procs i).state ∨
    ((s'.procs i).state = .zombie ∨ (s'.procs i).state = .dead) ∧
      ¬ (i ∈ c.added ∧ (c.sched.procs i).state = .running)
  key : ∀ i, (s'.procs i).waitFutexKey = (c.sched.procs i).waitFutexKey ∨
    (s'.procs i).waitFutexKey = 0

inductive Action
  | call (a : Call)
  | add (pid : ℕ)
  | create (i : Slot)
  | outside

variable {c c' : Config} {ok : State → Action → Prop} {a : Action}

/-- A step that satisfies `ok`: a call, a new task, or a change by the rest of the kernel. -/
inductive Step (smp : Smp) (ok : State → Action → Prop) : Action → Config → Config → Prop
  | call {c : Config} (a : Call) (hallowed : a.Allowed c) (hok : ok c.sched (.call a)) :
      Step smp ok (.call a) c ⟨exec smp c.sched a, c.added⟩
  | add {c : Config} {pid : ℕ} {i : Slot} (hi : slots.find? (fun i =>
      (c.sched.procs i).pid == pid && (c.sched.procs i).state == .running) = some i)
      (hnew : i ∉ c.added) : Step smp ok (.add pid) c ⟨schedAdd smp c.sched pid, insert i c.added⟩
  | create {c : Config} {i : Slot} {s' : State} (hs : procAlloc c.sched = some (i, s'))
      (hidle : ∀ d, c.sched.idleTask d ≠ some i) (hok : ok c.sched (.create i)) (cpu : ℕ)
      (isKernel isLinux failed : Bool) (handlers : Option (ℕ → ℕ)) (sigBlocked : ℕ) :
      Step smp ok (.create i) c ⟨s'.setTask i { s'.procs i with
        state := if failed then .dead else .running, cpu := cpu, isKernel := isKernel,
        isLinux := isLinux, handlers := handlers, sigBlocked := sigBlocked }, c.added \ {i}⟩
  | outside {c : Config} {s' : State} (h : Outside c s') : Step smp ok .outside c ⟨s', c.added⟩

def Config.init (smp : Smp) (idle : ℕ → Bool) : Config :=
  ⟨schedInit smp idle, {i | ∃ d, (schedInit smp idle).idleTask d = some i}⟩

def Reachable (smp : Smp) (ok : State → Action → Prop) (c : Config) : Prop :=
  ∃ idle, Relation.ReflTransGen (fun c c' => ∃ a, Step smp ok a c c') (Config.init smp idle) c

theorem Reachable.step (h : Reachable smp ok c) (hstep : Step smp ok a c c') :
    Reachable smp ok c' := by
  obtain ⟨idle, hrun⟩ := h
  exact ⟨idle, hrun.tail ⟨a, hstep⟩⟩

theorem Reachable.call (h : Reachable smp ok c) (a : Call) (ha : a.Allowed c)
    (hok : ok c.sched (.call a)) :
    Reachable smp ok ⟨exec smp c.sched a, c.added⟩ := h.step (Step.call a ha hok)

def Steady (_ : State) : Action → Prop
  | .call (.blockFutex _ word expected _ _ _) => ∀ v ∈ word, v.1 = expected → v.2 = expected
  | _ => True

theorem Step.steady (hok : ∀ s a, ok s a → Steady s a) (hstep : Step smp ok a c c') :
    Steady c.sched a := by
  cases hstep with
  | call a _ h => exact hok _ _ h
  | add | create | outside => trivial

theorem Inv.exec (h : Inv smp c.sched c.added l) {a : Call} (hallowed : a.Allowed c) :
    ∃ l', Inv smp (exec smp c.sched a) c.added l' ∧ (Steady c.sched (.call a) →
      Complete c.sched c.added l → Complete (exec smp c.sched a) c.added l') := by
  have hsteady : ∀ {s'}, (∃ l', Leads smp c.sched c.added l s' c.added l') →
      ∃ l', Inv smp s' c.added l' ∧ (Steady c.sched (.call a) →
        Complete c.sched c.added l → Complete s' c.added l') :=
    fun ⟨l', hl'⟩ => ⟨l', hl'.1, fun _ => hl'.2⟩
  cases a with
  | removeWithState pid state =>
    unfold Sched.exec schedRemoveWithState
    exact hsteady (h.unlinkTask pid _ (fun _ => hallowed) fun _ => rfl)
  | sleep now pid ms =>
    unfold Sched.exec schedSleep
    exact hsteady (h.unlinkTask pid _ (fun _ => nofun) fun _ => rfl)
  | block pid =>
    exact hsteady (h.unlinkTask pid _ (fun _ => nofun) fun _ => rfl)
  | blockPoll pid wakeTimeMs =>
    unfold Sched.exec schedBlockPoll
    exact hsteady (h.unlinkTask pid _ (fun _ => nofun) fun _ => rfl)
  | blockFutex pid word expected key wakeTimeMs bitset =>
    exact h.blockFutex pid word expected key wakeTimeMs bitset hallowed
  | wake pid => exact hsteady (h.schedWake pid)
  | wakeSignal pid => exact hsteady (h.schedWakeSignal pid)
  | wakePollWaiters => exact hsteady h.schedWakePollWaiters
  | wakeFutex key maxWake bitset result =>
    exact hsteady (h.schedWakeFutex key maxWake bitset result)
  | requeueFutex keyFrom keyTo maxRequeue =>
    exact hsteady ⟨l, h.schedRequeueFutex keyFrom keyTo maxRequeue⟩
  | tick cpu now => exact hsteady (h.schedTick cpu now)

theorem Step.inv (hstep : Step smp ok a c c') (h : Inv smp c.sched c.added l) :
    ∃ l', Inv smp c'.sched c'.added l' ∧ (Steady c.sched a → Complete c.sched c.added l →
      Complete c'.sched c'.added l') := by
  cases hstep with
  | call a hallowed _ => exact h.exec hallowed
  | add hi hnew =>
    obtain ⟨l', hl'⟩ := h.add hi hnew
    exact ⟨l', hl'.1, fun _ => hl'.2⟩
  | @create _ i s' hs hidle _ cpu isKernel isLinux failed handlers sigBlocked =>
    have hnew := h.create hs hidle (p := { s'.procs i with
      state := if failed then .dead else .running, cpu := cpu, isKernel := isKernel,
      isLinux := isLinux, handlers := handlers, sigBlocked := sigBlocked })
      (by cases failed <;> exact nofun)
    exact ⟨l, hnew.1, fun _ => hnew.2⟩
  | @outside _ s' hout =>
    have hrun : ∀ j ∈ c.added, ((s'.procs j).state = .running ↔
        (c.sched.procs j).state = .running) := by
      intro j hj
      rcases hout.state j with hs | ⟨hs, hno⟩
      · rw [hs]
      · refine iff_of_false (fun hr => ?_) fun hr => hno ⟨hj, hr⟩
        rw [hr] at hs
        exact hs.elim nofun nofun
    refine ⟨l, h.edit ?_ ?_ ?_ (fun j _ => hout.cpu j) (fun d j hj => ?_) fun j hw => ?_,
      fun _ hfull => hfull.edit (fun j _ => hout.cpu j) fun j hj => (hrun j hj).mp⟩
    · rw [hout.eq]
    · rw [hout.eq]
    · rw [hout.eq]
    · obtain ⟨hadd, hr, -⟩ := h.mem d j hj
      exact (hrun j hadd).mpr hr
    · rcases hout.state j with hs | ⟨hs, -⟩
      · exact h.waits j (hs ▸ hw)
      · rw [hw] at hs
        exact absurd hs (not_or.mpr ⟨nofun, nofun⟩)

theorem Reachable.inv (h : Reachable smp ok c) : ∃ l, Inv smp c.sched c.added l ∧
      ((∀ s a, ok s a → Steady s a) → Complete c.sched c.added l) := by
  obtain ⟨idle, hrun⟩ := h
  induction hrun with
  | refl =>
    obtain ⟨l, hinv, hfull⟩ := schedInit_inv smp idle
    exact ⟨l, hinv, fun _ => hfull⟩
  | tail _ hstep ih =>
    obtain ⟨a, hstep⟩ := hstep
    obtain ⟨l, hinv, hfull⟩ := ih
    obtain ⟨l', hinv', hfull'⟩ := hstep.inv hinv
    exact ⟨l', hinv', fun hsteady => hfull' (hstep.steady hsteady) (hfull hsteady)⟩

/-! ### The runqueues in every run -/

/-- **Runqueue consistency.** While the futex words are steady, in every state that a run reaches
each queue is a list that ends, with its last node and its length; a running task that was added is
once in the queue of its CPU and in no other; no task in another state is in a queue. -/
theorem reachable_runqueues {smp : Smp} {c : Config} (h : Reachable smp Steady c) :
    ∃ l : ℕ → List Slot,
      (∀ q, Chain c.sched.next none (c.sched.rq q).head ((l q).map some) ∧ (l q).Nodup ∧
        (c.sched.rq q).tail = (l q).getLast? ∧ ((c.sched.rq q).tail = none ↔ l q = []) ∧
        (c.sched.rq q).count = (l q).length) ∧
      (∀ i ∈ c.added, (c.sched.procs i).state = .running →
        ∀ q, i ∈ l q ↔ q = (c.sched.procs i).cpu) ∧
      ∀ i, (c.sched.procs i).state ≠ .running → ∀ q, i ∉ l q := by
  obtain ⟨l, hinv, hfull⟩ := h.inv
  have hfull := hfull fun _ _ h => h
  refine ⟨l, fun q => ?_, fun i hi hr q => ?_, fun i hi q => hinv.not_mem hi q⟩
  · have hq := hinv.lined.holds q
    have htail : (c.sched.rq q).tail = (l q).getLast? := by
      rw [hq.tail, List.getLast?_map]
      cases (l q).getLast? <;> rfl
    refine ⟨hq.chain, hinv.lined.nodup q, htail, ?_, ?_⟩
    · rw [htail, List.getLast?_eq_none_iff]
    · rw [hq.count, length_map]
  · constructor
    · exact fun hmem => (hinv.mem q i hmem).2.2.symm
    · rintro rfl
      exact hfull i hi hr

def oneCpu : Smp := ⟨1, 0, by decide⟩

def oneTask : Config :=
  let s := claimSlot (schedInit oneCpu fun _ => true) 1
  let s := s.setTask 1 { s.procs 1 with
    state := .running, cpu := 0, isKernel := false, isLinux := false, handlers := none,
    sigBlocked := 0 }
  ⟨schedAdd oneCpu s 2, insert 1 ((Config.init oneCpu fun _ => true).added \ {1})⟩

theorem oneTask_not_idle (d : ℕ) : (schedInit oneCpu fun _ => true).idleTask d ≠ some 1 := by
  intro hd
  have hr := schedInit_idle hd
  revert hr
  decide +kernel

theorem oneTask_reachable (ok : State → Action → Prop)
    (hok : ok (schedInit oneCpu fun _ => true) (.create 1)) : Reachable oneCpu ok oneTask := by
  have halloc : procAlloc (schedInit oneCpu fun _ => true) =
      some (1, claimSlot (schedInit oneCpu fun _ => true) 1) := by
    have hfind :
        slots.find? (fun i => ((schedInit oneCpu fun _ => true).procs i).state == .unused ||
        ((schedInit oneCpu fun _ => true).procs i).state == .dead) = some 1 := by
      decide +kernel
    unfold procAlloc
    rfl
  refine ⟨fun _ => true, Relation.ReflTransGen.tail (Relation.ReflTransGen.single
    ⟨_, Step.create halloc oneTask_not_idle hok 0 false false false none 0⟩) ⟨_,
    Step.add (i := 1) ?_ ?_⟩⟩
  · decide +kernel
  · exact fun hmem => hmem.2 rfl

theorem reachable_runqueues_oneTask : ∃ l : ℕ → List Slot,
    (∀ i ∈ oneTask.added, (oneTask.sched.procs i).state = .running →
      ∀ q, i ∈ l q ↔ q = (oneTask.sched.procs i).cpu) ∧
    ∀ i, (oneTask.sched.procs i).state ≠ .running → ∀ q, i ∉ l q := by
  obtain ⟨l, -, hl⟩ := reachable_runqueues (oneTask_reachable Steady trivial)
  exact ⟨l, hl⟩

theorem oneTask_allowed (word : Option (ℕ × ℕ)) (expected key wakeTimeMs bitset : ℕ) :
    (Call.blockFutex 2 word expected key wakeTimeMs bitset).Allowed oneTask := by
  intro i hpid _
  have hi : i = 1 := by
    revert i
    decide +kernel
  rw [hi]
  exact Set.mem_insert _ _

def recheckedTask : State := exec oneCpu oneTask.sched (.blockFutex 2 (some (5, 6)) 5 64 1000 1)

/-- **A futex word that changes between the two reads** leaves its task running and in no queue. -/
theorem blockFutex_unlinked : ∃ c, Reachable oneCpu (fun _ _ => True) c ∧
    ∃ i ∈ c.added, (c.sched.procs i).state = .running ∧
      ∀ l : List Slot, Chain c.sched.next none (c.sched.rq (c.sched.procs i).cpu).head
        (l.map some) → i ∉ l := by
  have hrun := (oneTask_reachable (fun _ _ => True) trivial).call _
    (oneTask_allowed (some (5, 6)) 5 64 1000 1) trivial
  refine ⟨_, hrun, 1, Set.mem_insert _ _, ?_, ?_⟩
  · decide +kernel
  · intro l hl hmem
    -- only the idle task is left in the queue
    have hchain : Chain recheckedTask.next none
        (recheckedTask.rq (recheckedTask.procs 1).cpu).head [some 0] := by
      refine ⟨?_, nofun, Chain.nil_iff.mpr ?_⟩ <;> decide +kernel
    have hlist := hl.unique hchain
    have : some (1 : Slot) ∈ l.map some := mem_map_of_mem hmem
    rw [hlist] at this
    exact absurd this (by decide)

end TaterTOS.Sched
