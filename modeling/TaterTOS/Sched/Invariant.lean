import TaterTOS.Sched.Queues

/-!
# The runqueue invariant

* `Inv.enter`, `Inv.leave`, `Inv.edit`, `Inv.reorder`: the four ways in which calls change the tasks
  and the queues, each with the lemma that says when it keeps the queues complete. Every call is a
  sequence of them.
-/

namespace TaterTOS.Sched

open Function Lib

/-- **The runqueues hold running tasks that were added**, each in the queue of its CPU. -/
structure Queued (smp : Smp) (s : State) (added : Set Slot) (l : ℕ → List Slot) : Prop where
  lined : Lined s l
  mem : ∀ c i, i ∈ l c → i ∈ added ∧ (s.procs i).state = .running ∧ (s.procs i).cpu = c
  cpu_lt : ∀ i ∈ added, (s.procs i).cpu < smp.count

/-- **Every running task that was added is in the queue of its CPU.** -/
def Complete (s : State) (added : Set Slot) (l : ℕ → List Slot) : Prop :=
  ∀ i ∈ added, (s.procs i).state = .running → i ∈ l (s.procs i).cpu

structure Inv (smp : Smp) (s : State) (added : Set Slot) (l : ℕ → List Slot) : Prop extends
    Queued smp s added l where
  waits : ∀ i, (s.procs i).state = .waiting → i ∈ added
  idle : ∀ c i, s.idleTask c = some i → i ∈ added ∧ (s.procs i).cpu = c

def Leads (smp : Smp) (s : State) (added : Set Slot) (l : ℕ → List Slot) (s' : State)
    (added' : Set Slot) (l' : ℕ → List Slot) : Prop :=
  Inv smp s' added' l' ∧ (Complete s added l → Complete s' added' l')

/-! ### What the operations leave alone -/

variable {l1 l2 : ℕ → List Slot} {c d : ℕ} {s' : State} {i j : Slot}

theorem update_eq_some {α : Type} {f : ℕ → Option α} {o : Option α} {x : α}
    (h : update f c o d = some x) : d = c ∧ o = some x ∨ f d = some x := by
  by_cases hd : d = c
  · rw [hd, update_self] at h
    exact .inl ⟨hd, h⟩
  · rw [update_of_ne hd] at h
    exact .inr h

@[simp] theorem setTask_self (s : State) (i : Slot) (p : Task) : (s.setTask i p).procs i = p :=
  update_self _ _ _

theorem setTask_of_ne (s : State) (p : Task) (h : j ≠ i) :
    (s.setTask i p).procs j = s.procs j := update_of_ne h _ _

@[simp] theorem setTask_setTask (s : State) (i : Slot) (p q : Task) :
    (s.setTask i p).setTask i q = s.setTask i q := by
  unfold State.setTask
  simp only [update_idem]

@[simp] theorem rqPush_procs (s : State) (c : ℕ) (i : Slot) : (rqPush s c i).procs = s.procs := rfl

def Task.woken (smp : Smp) (p : Task) (result : ℤ) : Task :=
  { p with
    state := .running, wakeTimeMs := 0, waitPoll := false, waitResult := result
    cpu := if smp.count ≤ p.cpu then smp.bsp % 256 else p.cpu }

theorem wakeRunnableLocked_eq (smp : Smp) (s : State) (i : Slot) (result : ℤ) :
    wakeRunnableLocked smp s i result = rqPush (s.setTask i ((s.procs i).woken smp result))
      ((s.procs i).woken smp result).cpu i := rfl

theorem Task.woken_cpu_lt (smp : Smp) (p : Task) (result : ℤ) :
    (p.woken smp result).cpu < smp.count := by
  have hbsp := smp.bsp_lt
  change (if smp.count ≤ p.cpu then smp.bsp % 256 else p.cpu) < smp.count
  split_ifs with h
  · exact lt_of_le_of_lt (Nat.mod_le _ _) hbsp
  · exact not_le.mp h

theorem Task.woken_cpu_of_lt (smp : Smp) {p : Task} (result : ℤ) (h : p.cpu < smp.count) :
    (p.woken smp result).cpu = p.cpu := if_neg (not_le.mpr h)

/-! ### Changes of the tasks and the queues -/

def appendTo (l : ℕ → List Slot) (c : ℕ) (i : Slot) : ℕ → List Slot :=
  update l c (l c ++ [i])

def Longer (l l' : ℕ → List Slot) : Prop := ∀ c, l c <+: l' c

theorem Longer.ne_nil {l l' : ℕ → List Slot} (h : Longer l l') (hc : l c ≠ []) : l' c ≠ [] := by
  intro hnil
  have := h c
  rw [hnil] at this
  exact hc (List.prefix_nil.mp this)

theorem mem_appendTo {l : ℕ → List Slot} {c d : ℕ} :
    j ∈ appendTo l c i d ↔ j ∈ l d ∨ j = i ∧ d = c := by
  unfold appendTo
  by_cases hd : d = c
  · subst hd
    simp
  · simp [hd]

theorem Lined.mem_erase {s : State} {l : ℕ → List Slot} (h : Lined s l) (hi : i ∈ l c) :
    j ∈ update l c ((l c).erase i) d ↔ j ∈ l d ∧ j ≠ i := by
  by_cases hd : d = c
  · subst hd
    rw [update_self, (h.nodup d).mem_erase_iff, and_comm]
  · rw [update_of_ne hd]
    exact ⟨fun hj => ⟨hj, fun hji => h.not_mem hd hi (hji ▸ hj)⟩, And.left⟩

section

variable {smp : Smp} {s : State} {added : Set Slot} {l : ℕ → List Slot} {i : Slot} {p : Task}

theorem Queued.not_mem (h : Queued smp s added l) (hi : (s.procs i).state ≠ .running) (c : ℕ) :
    i ∉ l c := fun hmem => hi (h.mem c i hmem).2.1

theorem Leads.refl (h : Inv smp s added l) : Leads smp s added l s added l := ⟨h, id⟩

theorem Leads.trans {s1 s2 : State} {added1 added2 : Set Slot}
    (h1 : Leads smp s added l s1 added1 l1) (h2 : Leads smp s1 added1 l1 s2 added2 l2) :
    Leads smp s added l s2 added2 l2 := ⟨h2.1, h2.2 ∘ h1.2⟩

section

variable (h : Inv smp s added l)
include h

/-- One task and its place in the queues change. -/
theorem Inv.change {added' : Set Slot} {l' : ℕ → List Slot}
    (hl : Lined s' l') (hidle : s'.idleTask = s.idleTask) (hp : s'.procs i = p)
    (hprocs : ∀ j ≠ i, s'.procs j = s.procs j) (hadded : ∀ j ≠ i, (j ∈ added' ↔ j ∈ added))
    (hmem : ∀ d, ∀ j ≠ i, (j ∈ l' d ↔ j ∈ l d))
    (hself : ∀ d, i ∈ l' d → i ∈ added' ∧ p.state = .running ∧ p.cpu = d)
    (hcpu : i ∈ added' → p.cpu < smp.count) (hwait : p.state = .waiting → i ∈ added')
    (hown : ∀ d, s.idleTask d = some i → i ∈ added' ∧ p.cpu = d) :
    Inv smp s' added' l' ∧ ((i ∈ added' → p.state = .running → i ∈ l' p.cpu) →
      Complete s added l → Complete s' added' l') := by
  subst hp
  refine ⟨⟨⟨hl, fun d j hj => ?_, fun j hj => ?_⟩, fun j hw => ?_, fun d j hd => ?_⟩,
    fun hrun hfull j hj hr => ?_⟩ <;> obtain rfl | hji := eq_or_ne j i
  · exact hself d hj
  · rw [hprocs j hji]
    obtain ⟨hadd, hrest⟩ := h.mem d j ((hmem d j hji).mp hj)
    exact ⟨(hadded j hji).mpr hadd, hrest⟩
  · exact hcpu hj
  · rw [hprocs j hji]
    exact h.cpu_lt j ((hadded j hji).mp hj)
  · exact hwait hw
  · exact (hadded j hji).mpr (h.waits j (hprocs j hji ▸ hw))
  · exact hown d (hidle ▸ hd)
  · rw [hprocs j hji]
    obtain ⟨hadd, hc⟩ := h.idle d j (hidle ▸ hd)
    exact ⟨(hadded j hji).mpr hadd, hc⟩
  · exact hrun hj hr
  · rw [hprocs j hji] at hr ⊢
    exact (hmem _ j hji).mpr (hfull j ((hadded j hji).mp hj) hr)

theorem Inv.enter (hout : ∀ d, i ∉ l d) (hstate : p.state = .running)
    (hcpu : p.cpu < smp.count) (hidle : ∀ d, s.idleTask d = some i → p.cpu = d) :
    Leads smp s added l (rqPush (s.setTask i p) p.cpu i) (insert i added)
      (appendTo l p.cpu i) := by
  have hmem : ∀ d, i ∈ appendTo l p.cpu i d ↔ d = p.cpu := by simp [mem_appendTo, hout]
  have hin := Set.mem_insert i added
  have hl : Lined (rqPush (s.setTask i p) p.cpu i) (appendTo l p.cpu i) :=
    (h.lined.setTask i p).push hout
  obtain ⟨hinv, hfull⟩ := h.change hl rfl (setTask_self s i p) (fun j hj => setTask_of_ne s p hj)
    (fun j hj => Set.mem_insert_iff.trans (or_iff_right hj))
    (fun d j hj => by simp [mem_appendTo, hj])
    (fun d hd => ⟨hin, hstate, ((hmem d).mp hd).symm⟩) (fun _ => hcpu) (fun _ => hin)
    (fun d hd => ⟨hin, hidle d hd⟩)
  exact ⟨hinv, hfull fun _ _ => (hmem _).mpr rfl⟩

theorem Inv.wake (hi : i ∈ added) (hout : ∀ d, i ∉ l d)
    (hp : p.cpu = (s.procs i).cpu) (result : ℤ) :
    Leads smp s added l (wakeRunnableLocked smp (s.setTask i p) i result) added
      (appendTo l (p.woken smp result).cpu i) := by
  have hcpu : (p.woken smp result).cpu = (s.procs i).cpu := by
    rw [Task.woken_cpu_of_lt smp result (by rw [hp]; exact h.cpu_lt i hi), hp]
  have hent := h.enter hout (p := p.woken smp result) rfl (p.woken_cpu_lt smp result)
    (fun d hd => hcpu.trans (h.idle d i hd).2)
  rw [Set.insert_eq_of_mem hi] at hent
  rw [wakeRunnableLocked_eq, setTask_self, setTask_setTask]
  exact hent

theorem Inv.leave {next : Option Slot → Option Slot} {rq : ℕ → Queue (Option Slot)} (hi : i ∈ l c)
    (hl : Lined { s with next := next, rq := rq } (update l c ((l c).erase i)))
    (hcpu : p.cpu = (s.procs i).cpu) :
    Inv smp (State.setTask { s with next := next, rq := rq } i p) added
      (update l c ((l c).erase i)) ∧
    (p.state ≠ .running → Complete s added l →
      Complete (State.setTask { s with next := next, rq := rq } i p) added
        (update l c ((l c).erase i))) := by
  have hin := (h.mem c i hi).1
  obtain ⟨hinv, hfull⟩ := h.change (hl.setTask i p) rfl (setTask_self _ i p)
    (fun j hj => setTask_of_ne _ p hj) (fun _ _ => Iff.rfl)
    (fun d j hj => (h.lined.mem_erase hi).trans (and_iff_left hj))
    (fun d hd => absurd rfl ((h.lined.mem_erase hi).mp hd).2) (fun _ => hcpu ▸ h.cpu_lt i hin)
    (fun _ => hin) (fun d hd => ⟨hin, hcpu.trans (h.idle d i hd).2⟩)
  exact ⟨hinv, fun hstate => hfull fun _ hr => absurd hr hstate⟩

/-- A task that is in no queue changes. -/
theorem Inv.edit_out (hi : i ∈ added) (hout : ∀ d, i ∉ l d)
    (hcpu : p.cpu = (s.procs i).cpu) : Inv smp (s.setTask i p) added l ∧
      (p.state ≠ .running → Complete s added l → Complete (s.setTask i p) added l) := by
  obtain ⟨hinv, hfull⟩ := h.change (h.lined.setTask i p) rfl (setTask_self s i p)
    (fun j hj => setTask_of_ne _ p hj) (fun _ _ => Iff.rfl) (fun _ _ _ => Iff.rfl)
    (fun d hd => absurd hd (hout d)) (fun _ => hcpu ▸ h.cpu_lt i hi) (fun _ => hi)
    (fun d hd => ⟨hi, hcpu.trans (h.idle d i hd).2⟩)
  exact ⟨hinv, fun hstate => hfull fun _ hr => absurd hr hstate⟩

theorem Inv.edit (hrq : s'.rq = s.rq) (hnext : s'.next = s.next)
    (hidle : s'.idleTask = s.idleTask) (hcpu : ∀ j ∈ added, (s'.procs j).cpu = (s.procs j).cpu)
    (hrun : ∀ c, ∀ j ∈ l c, (s'.procs j).state = .running)
    (hwait : ∀ j, (s'.procs j).state = .waiting → j ∈ added) : Inv smp s' added l := by
  refine ⟨⟨h.lined.congr hrq hnext, fun c j hj => ?_, fun j hj => ?_⟩, hwait, fun c j hc => ?_⟩
  · obtain ⟨hadd, -, hc⟩ := h.mem c j hj
    exact ⟨hadd, hrun c j hj, (hcpu j hadd).trans hc⟩
  · rw [hcpu j hj]
    exact h.cpu_lt j hj
  · rw [hidle] at hc
    obtain ⟨hj, hjc⟩ := h.idle c j hc
    exact ⟨hj, (hcpu j hj).trans hjc⟩

end

theorem Complete.edit (h : Complete s added l)
    (hcpu : ∀ j ∈ added, (s'.procs j).cpu = (s.procs j).cpu)
    (hrun : ∀ j ∈ added, (s'.procs j).state = .running → (s.procs j).state = .running) :
    Complete s' added l := by
  intro j hj hr
  rw [hcpu j hj]
  exact h j hj (hrun j hj hr)

theorem Inv.reorder (h : Inv smp s added l) {l' : List Slot} (hl : Lined s' (update l c l'))
    (hperm : l'.Perm (l c)) (hprocs : s'.procs = s.procs) (hidle : s'.idleTask = s.idleTask) :
    Leads smp s added l s' added (update l c l') := by
  have hmem : ∀ d j, j ∈ update l c l' d ↔ j ∈ l d := by
    intro d j
    by_cases hd : d = c
    · subst hd
      rw [update_self]
      exact hperm.mem_iff
    · rw [update_of_ne hd]
  refine ⟨⟨⟨hl, fun d j hj => ?_, ?_⟩, ?_, ?_⟩, fun hfull j hj hr => ?_⟩
  · rw [hprocs]
    exact h.mem d j ((hmem d j).mp hj)
  · rw [hprocs]
    exact h.cpu_lt
  · rw [hprocs]
    exact h.waits
  · rw [hprocs, hidle]
    exact h.idle
  · rw [hprocs] at hr ⊢
    exact (hmem _ j).mpr (hfull j hj hr)

end

end TaterTOS.Sched
