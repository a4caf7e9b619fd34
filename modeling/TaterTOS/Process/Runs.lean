import TaterTOS.Process.Calls

/-!
# Runs of the process table

* `Step`, `Reachable`: tasks are created, run, end and are joined, in any order; `act` says what a
  running task can do to what its process holds and to the rest of the kernel;
* `Reachable.inv`: every run keeps the invariant of the table.
-/

namespace TaterTOS.Process

open Function Lib Sched

variable {σ γ : Type} {y : System σ γ} {t : Table σ} {i k : Slot} {cpu : Cpu}

def syscallThreadExitCurrent (R : Resources σ γ) (y : System σ γ) (cpu : Cpu) (i : Slot) :
    System σ γ :=
  let p := y.table.procs i
  if p.pid = p.tgid then processExitGroup R y cpu p.tgid else syscallThreadExit R y cpu p.pid

def Scheduled (state state' : ProcState) : Prop :=
  state' = state ∨ (state = .running ∨ state = .waiting) ∧ (state' = .running ∨ state' = .waiting)

/-- A step of the system; tasks are created while there are pids below the limit. -/
inductive Step (R : Resources σ γ) (act : Table σ → Slot → γ → σ → γ → Prop) (limit : ℕ) :
    System σ γ → System σ γ → Prop
  | createUser {y : System σ γ} (hpid : y.table.nextPid < limit) (cr3 : ℕ) (stack : Bool) :
      Step R act limit y ⟨(processCreateUser R y.table cr3 stack).2, y.world⟩
  | createKernel {y : System σ γ} (hpid : y.table.nextPid < limit) (stack : Bool) :
      Step R act limit y ⟨(processCreateKernel R y.table stack).2, y.world⟩
  | createThread {y : System σ γ} (hpid : y.table.nextPid < limit) {parent : Slot}
      (hlive : (y.table.procs parent).live = true) (stack : Bool) :
      Step R act limit y ⟨(processCreateUserThread R y.table parent stack).2, y.world⟩
  | exitGroup {y : System σ γ} {cpu : Cpu} {i : Slot} (hlive : (y.table.procs i).live = true)
      (hsafe : Safe y.table cpu (y.table.procs i).tgid) :
      Step R act limit y (processExitGroup R y cpu (y.table.procs i).tgid)
  | threadExit {y : System σ γ} {cpu : Cpu} {i : Slot} (hlive : (y.table.procs i).live = true)
      (hsafe : Safe y.table cpu (y.table.procs i).tgid) :
      Step R act limit y (syscallThreadExitCurrent R y cpu i)
  | join {y : System σ γ} (cpu : Cpu) (cur : Slot) (tid : ℕ) :
      Step R act limit y (processThreadJoin R y cpu cur tid)
  | schedule {y : System σ γ} (state : Slot → ProcState)
      (h : ∀ i, Scheduled (y.table.procs i).state (state i)) : Step R act limit y
        ⟨{ y.table with procs := fun i => { y.table.procs i with state := state i } }, y.world⟩
  | act {y : System σ γ} {i k : Slot} {d : σ} {w : γ} (hrun : (y.table.procs i).state = .running)
      (hk : (y.table.procs i).shared = some k) (hact : act y.table i y.world d w) :
      Step R act limit y ⟨y.table.hold k d, w⟩

def Reachable (R : Resources σ γ) (act : Table σ → Slot → γ → σ → γ → Prop) (limit : ℕ)
    (kernelPml4 : ℕ) (world : γ) (y : System σ γ) : Prop :=
  Relation.ReflTransGen (Step R act limit) ⟨processInit R kernelPml4, world⟩ y

variable {R : Resources σ γ} {act : Table σ → Slot → γ → σ → γ → Prop} {limit : ℕ}

/-- What is shown of every call: the invariant holds again, and at most `n` pids were used. -/
structure Goes (n : ℕ) (y y' : System σ γ) : Prop where
  inv : Inv y'.table
  next : y'.table.nextPid ≤ y.table.nextPid + n

theorem Goes.refl (h : Inv y.table) (n : ℕ) : Goes n y y := ⟨h, Nat.le_add_right _ n⟩

/-! ### Creation -/

theorem procAlloc_eq {t' : Table σ} (h : procAlloc R t = some (i, t'))
    (hpid : t.nextPid + 1 < 2 ^ 32) :
    (t.procs i).live = false ∧ t' = t.put i (clearedProc R t.nextPid) := by
  unfold procAlloc at h
  rw [Option.map_eq_some_iff] at h
  obtain ⟨j, hj, heq⟩ := h
  have hfree := List.find?_some hj
  cases heq
  refine ⟨by simpa using hfree, ?_⟩
  unfold Table.put u32
  rw [Nat.mod_eq_of_lt hpid]

theorem Table.put_set (t : Table σ) (i : Slot) (p q : Proc σ) :
    (t.put i p).set i q = t.put i q := by
  unfold Table.put Table.set
  rw [update_idem]

theorem startTask_put (t : Table σ) (i : Slot) (p q : Proc σ) (stack : Bool) :
    (startTask (t.put i p) i q stack).2 =
      t.put i (if stack then q else { q with shared := none, state := .dead }) := by
  unfold startTask
  split_ifs <;> exact t.put_set i _ _

theorem Inv.createUser (h : Inv y.table) (hpid : y.table.nextPid + 1 < 2 ^ 32) (cr3 : ℕ)
    (stack : Bool) :
    Goes 1 y ⟨(processCreateUser R y.table cr3 stack).2, y.world⟩ := by
  unfold processCreateUser
  cases hs : procAlloc R y.table with
  | none => exact Goes.refl h _
  | some r =>
    obtain ⟨i, t⟩ := r
    obtain ⟨hfree, rfl⟩ := procAlloc_eq hs hpid
    rw [startTask_put, Table.put_self]
    cases stack with
    | true =>
      exact ⟨h.put hfree rfl fun _ => ⟨rfl, Or.inr ⟨rfl, rfl, rfl, rfl⟩⟩, le_rfl⟩
    | false => exact ⟨h.put hfree rfl nofun, le_rfl⟩

theorem Inv.createKernel (h : Inv y.table) (hpid : y.table.nextPid + 1 < 2 ^ 32) (stack : Bool) :
    Goes 1 y ⟨(processCreateKernel R y.table stack).2, y.world⟩ := by
  unfold processCreateKernel
  cases hs : procAlloc R y.table with
  | none => exact Goes.refl h _
  | some r =>
    obtain ⟨i, t⟩ := r
    obtain ⟨hfree, rfl⟩ := procAlloc_eq hs hpid
    rw [startTask_put, Table.put_self]
    cases stack with
    | true =>
      exact ⟨h.put hfree rfl fun _ => ⟨rfl, Or.inl rfl⟩, le_rfl⟩
    | false => exact ⟨h.put hfree rfl nofun, le_rfl⟩

theorem nextPid_retain (t : Table σ) (k : Slot) : (retain t k).nextPid = t.nextPid := by
  unfold retain
  dsimp only
  split_ifs <;> rfl

theorem Inv.createThread (h : Inv y.table) (hpid : y.table.nextPid + 1 < 2 ^ 32) {parent : Slot}
    (hlive : (y.table.procs parent).live = true) (stack : Bool) :
    Goes 1 y ⟨(processCreateUserThread R y.table parent stack).2, y.world⟩ := by
  unfold processCreateUserThread
  dsimp only
  split
  next k hkernel hk =>
    cases hs : procAlloc R y.table with
    | none => exact Goes.refl h _
    | some r =>
      obtain ⟨i, t⟩ := r
      obtain ⟨hfree, rfl⟩ := procAlloc_eq hs hpid
      cases stack with
      | true =>
        simp only [startTask, if_true]
        rw [Table.put_self, Table.put_set]
        refine ⟨h.putThread hfree hlive hk rfl rfl rfl rfl rfl rfl, ?_⟩
        rw [nextPid_retain]
        exact le_rfl
      | false =>
        simp only [startTask, Bool.false_eq_true, if_false]
        rw [Table.put_self, Table.put_set]
        exact ⟨h.put hfree rfl nofun, le_rfl⟩
  next => exact Goes.refl h _

/-! ### The end of tasks -/

section

variable (h : Inv y.table) (hlive : (y.table.procs i).live = true)
    (hsafe : Safe y.table cpu (y.table.procs i).tgid)
include h hlive hsafe

theorem Inv.exitGroup :
    Goes 0 y (processExitGroup R y cpu (y.table.procs i).tgid) := by
  obtain ⟨y1, k, he, hlive1, -, hf⟩ := h.exitGroup_freed (R := R) hlive hsafe
  refine ⟨hf.inv he.inv hlive1, ?_⟩
  rw [hf.procs.2.2.1, he.nextPid]
  exact le_rfl

theorem Inv.threadExit :
    Goes 0 y (syscallThreadExitCurrent R y cpu i) := by
  unfold syscallThreadExitCurrent
  by_cases hpid : (y.table.procs i).pid = (y.table.procs i).tgid
  · rw [if_pos hpid]
    exact h.exitGroup hlive hsafe
  · have huser : (y.table.procs i).isKernel = false := by
      cases hs : (y.table.procs i).shared with
      | none => exact absurd (h.alone i hlive hs).symm hpid
      | some k => exact (h.belongs i k hlive hs).user
    have hfind :
        slots.find? (fun j => (y.table.procs j).pid == (y.table.procs i).pid) = some i := by
      cases hf : slots.find? fun j => (y.table.procs j).pid == (y.table.procs i).pid with
      | none => exact absurd (List.find?_eq_none.mp hf i (List.mem_finRange i)) (by simp)
      | some j =>
        have hj : (y.table.procs j).pid = (y.table.procs i).pid := by
          simpa using List.find?_some hf
        rw [h.pid_inj j i hj (hj ▸ h.pid_pos i hlive)]
    have hexit : processThreadExit y.table (y.table.procs i).pid =
        some (y.table.set i { y.table.procs i with state := .zombie }) := by
      unfold processThreadExit
      rw [hfind]
      simp [hlive, huser, hpid]
    rw [if_neg hpid]
    unfold syscallThreadExit
    rw [hexit]
    exact ⟨h.same (same_set rfl rfl hlive.symm rfl rfl rfl rfl rfl), le_rfl⟩

end

theorem Inv.join (h : Inv y.table) (cpu : Cpu) (cur : Slot) (tid : ℕ) :
    Goes 0 y (processThreadJoin R y cpu cur tid) := by
  unfold processThreadJoin
  cases hfind : slots.find? fun i => (y.table.procs i).pid == tid && (y.table.procs i).live with
  | none => exact Goes.refl h _
  | some i =>
    have hi := List.find?_some hfind
    simp only [Bool.and_eq_true, beq_iff_eq] at hi
    obtain ⟨rfl, hlive⟩ := hi
    dsimp only
    split_ifs with hrefuse hzombie
    · exact Goes.refl h _
    · simp only [Bool.or_eq_true, beq_iff_eq, not_or] at hrefuse
      have hself := h.thread hlive hrefuse.2
      cases hb : blockedFree y.table cpu (y.table.procs i) with
      | true =>
        have hstay : procFree R y cpu (y.table.procs i).pid = y := by
          unfold procFree
          rw [hfind]
          dsimp only
          rw [hb, if_pos rfl]
        rw [hstay]
        exact Goes.refl h _
      | false =>
        have hf := h.procFree_freed (R := R) hlive hb fun hk => absurd hk hself
        exact ⟨hf.inv h hlive, hf.procs.2.2.1.le⟩
    · exact Goes.refl h _

/-! ### Runs -/

theorem Scheduled.live {state state' : ProcState} (h : Scheduled state state') :
    (state' != .unused && state' != .dead) = (state != .unused && state != .dead) := by
  rcases h with rfl | ⟨rfl | rfl, rfl | rfl⟩ <;> rfl

theorem Inv.schedule (h : Inv y.table) {state : Slot → ProcState}
    (hs : ∀ i, Scheduled (y.table.procs i).state (state i)) : Goes 0 y
      ⟨{ y.table with procs := fun i => { y.table.procs i with state := state i } }, y.world⟩ := by
  have hlive := fun i => (hs i).live
  refine ⟨h.same ⟨rfl, ?_, ?_, hlive, ?_, ?_, ?_, ?_, ?_⟩, le_rfl⟩ <;> exact fun _ => rfl

theorem Inv.action (h : Inv y.table) (d : σ) (w : γ) : Goes 0 y ⟨y.table.hold k d, w⟩ :=
  ⟨h.same (same_set rfl rfl rfl rfl rfl rfl rfl rfl), le_rfl⟩

theorem Step.goes {y' : System σ γ} (hstep : Step R act limit y y') (h : Inv y.table)
    (hlimit : limit < 2 ^ 32) (hle : y.table.nextPid ≤ limit) :
    Inv y'.table ∧ y'.table.nextPid ≤ limit := by
  have hnone : Goes 0 y y' → Inv y'.table ∧ y'.table.nextPid ≤ limit :=
    fun hg => ⟨hg.inv, hg.next.trans hle⟩
  have hone : y.table.nextPid < limit → Goes 1 y y' → Inv y'.table ∧ y'.table.nextPid ≤ limit :=
    fun hlt hg => ⟨hg.inv, hg.next.trans hlt⟩
  cases hstep with
  | createUser hpid cr3 stack => exact hone hpid (h.createUser (by omega) cr3 stack)
  | createKernel hpid stack => exact hone hpid (h.createKernel (by omega) stack)
  | createThread hpid hlive stack => exact hone hpid (h.createThread (by omega) hlive stack)
  | exitGroup hlive hsafe => exact hnone (h.exitGroup hlive hsafe)
  | threadExit hlive hsafe => exact hnone (h.threadExit hlive hsafe)
  | join cpu cur tid => exact hnone (h.join cpu cur tid)
  | schedule state hs => exact hnone (h.schedule hs)
  | act => exact hnone (h.action _ _)

theorem processInit_inv (kernelPml4 : ℕ) : Inv (processInit R kernelPml4) where
  pid_lt _ := Nat.zero_lt_one
  pid_inj _ _ _ h := absurd rfl h
  pid_pos _ h := absurd h nofun
  belongs _ _ h := absurd h nofun
  alone _ h := absurd h nofun
  refs _ h := absurd h.1 nofun

theorem Reachable.inv {kernelPml4 : ℕ} {world : γ} (hlimit : limit < 2 ^ 32) (hpos : 0 < limit)
    (h : Reachable R act limit kernelPml4 world y) :
    Inv y.table ∧ y.table.nextPid ≤ limit := by
  induction h with
  | refl => exact ⟨processInit_inv kernelPml4, hpos⟩
  | tail _ hstep ih => exact hstep.goes ih.1 hlimit ih.2

/-! ### Groups -/

def bare : Resources Unit Unit := ⟨(), (), fun _ _ _ => ((), ())⟩

def BareRun (limit : ℕ) : System Unit Unit → Prop :=
  Reachable bare (fun _ _ _ _ _ => False) limit 0 ()

def oneProcess : System Unit Unit :=
  ⟨(processCreateUser bare (processInit bare 0) 0x5000 true).2, ()⟩

theorem oneProcess_reachable (h : 1 < limit) : BareRun limit oneProcess :=
  Relation.ReflTransGen.single (Step.createUser h 0x5000 true)

theorem procMax_pos : 0 < Sched.procMax := by decide

/-- A process with a second thread, and another process. -/
def twoProcesses : System Unit Unit :=
  let t := (processCreateUserThread bare oneProcess.table ⟨0, procMax_pos⟩ true).2
  ⟨(processCreateUser bare t 0x6000 true).2, ()⟩

theorem twoProcesses_reachable (h : 3 < limit) : BareRun limit twoProcesses := by
  have hlive : (oneProcess.table.procs 0).live = true := by decide +kernel
  have hone : oneProcess.table.nextPid = 2 := by decide +kernel
  have htwo :
      (processCreateUserThread bare oneProcess.table 0 true).2.nextPid = 3 := by decide +kernel
  refine ((oneProcess_reachable (by omega)).tail
    (Step.createThread (by omega) hlive true)).tail (Step.createUser ?_ 0x6000 true)
  exact htwo.trans_lt h

def noCpu : Cpu := ⟨none, false, 0⟩

theorem noCpu_safe (t : Table σ) (tgid : ℕ) : Safe t noCpu tgid := fun _ _ _ => rfl

section

variable {kernelPml4 tgid : ℕ} {world : γ} (hlimit : limit < 2 ^ 32) (hpos : 0 < limit)
  (h : Reachable R act limit kernelPml4 world y) (hi : (y.table.procs i).live = true)
  (ht : (y.table.procs i).tgid = tgid)
include hlimit hpos h hi ht

/-- **The tasks of the group end, and all others stay**, up to scheduling. -/
theorem exitGroup_exact (hsafe : Safe y.table cpu tgid) (j : Slot) :
    ((y.table.procs j).tgid = tgid → ((processExitGroup R y cpu tgid).table.procs j).live = false) ∧
    ((y.table.procs j).tgid ≠ tgid → ∃ s, Scheduled (y.table.procs j).state s ∧
      { y.table.procs j with state := s }.Like
      ((processExitGroup R y cpu tgid).table.procs j)) := by
  subst ht
  have h := (h.inv hlimit hpos).1
  obtain ⟨y1, k, he, hl1, hk, hf⟩ := h.exitGroup_freed (R := R) hi hsafe
  obtain ⟨hdead, -, -, -, hlike⟩ := hf.procs
  have htk : (y.table.procs k).tgid = (y.table.procs i).tgid := by
    rcases hk with ⟨-, rfl⟩ | hs
    · rfl
    have hb := h.belongs i k hi hs
    exact (h.belongs k k hb.leads.1 hb.leads.2).tgid.trans hb.tgid.symm
  -- the leader is the last of its group
  have hgone := fun j hl hj => he.gone j (List.mem_finRange j) hl ((he.live j hl).tgid.trans hj)
  constructor <;> intro hj
  · by_cases hjk : j = k
    · exact hjk ▸ hdead
    rw [(hlike j hjk).live, Bool.eq_false_iff]
    exact fun hl => hjk (he.inv.pid_inj j k ((hgone j hl hj).trans (hgone k hl1 htk).symm)
      (he.inv.pid_pos j hl))
  · exact ⟨_, .inl rfl, (he.stay j fun hn => hj hn.2.1).trans (hlike j fun hjk => hj (hjk ▸ htk))⟩

end

/-- The two threads end, and the other process stays. -/
theorem twoProcesses_exits :
    ((processExitGroup bare twoProcesses noCpu 1).table.procs 0).live = false ∧
    ((processExitGroup bare twoProcesses noCpu 1).table.procs 1).live = false ∧
    ∃ s, Scheduled (twoProcesses.table.procs 2).state s ∧
      { twoProcesses.table.procs 2 with state := s }.Like
        ((processExitGroup bare twoProcesses noCpu 1).table.procs 2) := by
  have h := exitGroup_exact (i := 1) (by decide) four_pos (twoProcesses_reachable (by norm_num))
    (by rfl) (by rfl) (noCpu_safe _ 1)
  exact ⟨(h 0).1 (by rfl), (h 1).1 (by rfl), (h 2).2 (by decide +kernel)⟩

end TaterTOS.Process
