import TaterTOS.Process.Life

/-!
# What the calls do to processes
-/

namespace TaterTOS.Process

open Sched List

variable {σ γ : Type} {R : Resources σ γ}
  {t t' : Table σ} {k i : Slot} {y y' : System σ γ} {cpu : Cpu} {is : List Slot}

/-! ### Freeing a task -/

theorem Inv.find_pid (h : Inv t) (hi : (t.procs i).live = true) :
    slots.find? (fun j => (t.procs j).pid == (t.procs i).pid && (t.procs j).live) = some i := by
  cases hfind : slots.find? fun j => (t.procs j).pid == (t.procs i).pid && (t.procs j).live with
  | none =>
    have hnone := List.find?_eq_none.mp hfind i (mem_finRange i)
    rw [hi, beq_self_eq_true] at hnone
    exact absurd rfl hnone
  | some j =>
    have hj := List.find?_some hfind
    simp only [Bool.and_eq_true, beq_iff_eq] at hj
    rw [h.pid_inj j i hj.1 (h.pid_pos j hj.2)]

theorem schedRemove_self (t : Table σ) (i : Slot) :
    ∃ state, (schedRemove t i).procs i = { t.procs i with state := state } := by
  unfold schedRemove
  split_ifs
  · exact ⟨_, t.set_self i _⟩
  · exact ⟨(t.procs i).state, rfl⟩

theorem schedRemove_of_ne (t : Table σ) {j : Slot} (h : j ≠ i) :
    (schedRemove t i).procs j = t.procs j := by
  unfold schedRemove
  split_ifs
  · exact t.set_of_ne _ h
  · rfl

theorem schedRemove_set (t : Table σ) (i : Slot) (p : Proc σ) :
    (schedRemove t i).set i p = t.set i p := by
  unfold schedRemove
  split_ifs
  · exact t.set_set i _ p
  · rfl

theorem schedRemove_pid (t : Table σ) (i : Slot) :
    ((schedRemove t i).procs i).pid = (t.procs i).pid := by
  obtain ⟨state, hself⟩ := schedRemove_self t i
  rw [hself]

theorem Table.hold_self (t : Table σ) (k : Slot) (d : σ) :
    (t.hold k d).procs k = { t.procs k with owned := { (t.procs k).owned with data := d } } :=
  t.set_self k _

def Table.last (t : Table σ) (i : Slot) : Table σ := (schedRemove t i).count i 0

def Table.leave (t : Table σ) (i k : Slot) : Table σ :=
  (schedRemove t i).count k ((t.procs k).owned.refcount - 1)

inductive Freed (R : Resources σ γ) (y : System σ γ) (i : Slot) : System σ γ → Prop
  | alone (h : (y.table.procs i).shared = none) : Freed R y i ⟨(schedRemove y.table i).set i
      (((schedRemove y.table i).procs i).ended false), y.world⟩
  | thread {k : Slot} (h : (y.table.procs i).shared = some k) (hki : k ≠ i) :
      Freed R y i ⟨(y.table.leave i k).set i (((y.table.leave i k).procs i).ended false), y.world⟩
  | last (h : (y.table.procs i).shared = some i) (hlast : members y.table i = {i}) (t : Table σ)
      (ht : t = (y.table.last i).hold i (R.release (y.table.last i) i y.world).1) :
      Freed R y i ⟨t.set i ((t.procs i).ended true), (R.release (y.table.last i) i y.world).2⟩

theorem Inv.procFree_freed (h : Inv y.table) (hi : (y.table.procs i).live = true)
    (hsafe : blockedFree y.table cpu (y.table.procs i) = false)
    (hlast : (y.table.procs i).shared = some i → members y.table i = {i}) :
    Freed R y i (procFree R y cpu (y.table.procs i).pid) := by
  obtain ⟨state, hself⟩ := schedRemove_self y.table i
  have hshared :
      ((schedRemove y.table i).procs i).shared = (y.table.procs i).shared := by rw [hself]
  unfold procFree
  rw [h.find_pid hi]
  dsimp only
  rw [hsafe, if_neg Bool.false_ne_true]
  unfold sharedRelease
  rw [hshared]
  cases hk : (y.table.procs i).shared with
  | none =>
    have hkeep : isUserGroupLeader (y.table.procs i) = false := by simp [isUserGroupLeader, hk]
    rw [hkeep]
    exact Freed.alone hk
  | some k =>
    have hb := h.belongs i k hi hk
    dsimp only
    by_cases hki : k = i
    · subst hki
      have hcount : ((schedRemove y.table k).procs k).owned.refcount = 1 := by
        rw [hself]
        rw [h.refs k hb.leads, hlast hk, Finset.card_singleton]
      have hkeep : isUserGroupLeader (y.table.procs k) = true := by
        simp [isUserGroupLeader, hk, hb.user, hb.tgid]
      rw [hcount, hkeep]
      exact Freed.last hk (hlast hk) _ rfl
    · have hmem : 2 ≤ (members y.table k).card := by
        rw [Nat.succ_le_iff, Finset.one_lt_card]
        exact ⟨i, mem_members.mpr ⟨hi, hk⟩, k, mem_members.mpr hb.leads, Ne.symm hki⟩
      have hkeep : isUserGroupLeader (y.table.procs i) = false := by
        have hpid : (y.table.procs i).pid ≠ (y.table.procs k).pid :=
          fun hp => hki (h.pid_inj i k hp (h.pid_pos i hi)).symm
        simp [isUserGroupLeader, hb.tgid, hpid]
      rw [schedRemove_of_ne y.table hki, if_pos (by rw [h.refs k hb.leads]; omega), hkeep]
      exact Freed.thread hk hki

theorem leave_set (t : Table σ) (h : k ≠ i) (p : Proc σ) :
    (t.leave i k).set i p = (t.count k ((t.procs k).owned.refcount - 1)).set i p := by
  unfold Table.leave Table.count
  rw [Table.set_comm _ h, schedRemove_set, schedRemove_of_ne t h, Table.set_comm _ h.symm]

theorem leave_pid (t : Table σ) (h : k ≠ i) : ((t.leave i k).procs i).pid = (t.procs i).pid := by
  unfold Table.leave
  rw [Table.count_of_ne _ _ h.symm, schedRemove_pid]

theorem last_pid (t : Table σ) (i : Slot) : ((t.last i).procs i).pid = (t.procs i).pid := by
  unfold Table.last
  rw [Table.count_self]
  exact schedRemove_pid t i

theorem last_hold_set (t : Table σ) (i : Slot) (d : σ) (p : Proc σ) :
    ((t.last i).hold i d).set i p = t.set i p := by
  unfold Table.last
  rw [Table.hold, Table.set_set, Table.count, Table.set_set, schedRemove_set]

def Proc.Like (p p' : Proc σ) : Prop :=
  p' = { p with owned := { p.owned with refcount := p'.owned.refcount } }

theorem Proc.Like.trans {p1 p2 p3 : Proc σ} (h1 : p1.Like p2) (h2 : p2.Like p3) : p1.Like p3 := by
  rw [h1] at h2
  exact h2

section

variable {p p' : Proc σ}

theorem Proc.Like.pid (h : p.Like p') : p'.pid = p.pid := by rw [h]

theorem Proc.Like.tgid (h : p.Like p') : p'.tgid = p.tgid := by rw [h]

theorem Proc.Like.shared (h : p.Like p') : p'.shared = p.shared := by rw [h]

theorem Proc.Like.live (h : p.Like p') : p'.live = p.live := by
  rw [h]
  rfl

theorem Proc.Like.blockedFree (h : p.Like p') (ht : t'.kernelPml4 = t.kernelPml4) :
    blockedFree t' cpu p' = blockedFree t cpu p := by
  unfold Process.blockedFree
  rw [h, ht]

end

theorem like_count (t : Table σ) (k : Slot) (n : ℕ) (j : Slot) :
    (t.procs j).Like ((t.count k n).procs j) := by
  by_cases hj : j = k
  · subst hj
    rw [Table.count_self]
    rfl
  · rw [Table.count_of_ne t n hj]
    rfl

theorem Freed.procs (h : Freed R y i y') :
    (y'.table.procs i).live = false ∧ (y'.table.procs i).pid = (y.table.procs i).pid ∧
      y'.table.nextPid = y.table.nextPid ∧ y'.table.kernelPml4 = y.table.kernelPml4 ∧
      ∀ j ≠ i, (y.table.procs j).Like (y'.table.procs j) := by
  cases h with
  | alone =>
    rw [schedRemove_set, Table.set_self]
    refine ⟨rfl, schedRemove_pid y.table i, rfl, rfl, fun j hj => ?_⟩
    rw [Table.set_of_ne _ _ hj]
    rfl
  | @thread k _ hki =>
    rw [leave_set _ hki, Table.set_self]
    refine ⟨rfl, leave_pid y.table hki, rfl, rfl, fun j hj => ?_⟩
    rw [Table.set_of_ne _ _ hj]
    exact like_count _ _ _ _
  | last _ _ t ht =>
    subst ht
    rw [last_hold_set, Table.set_self]
    refine ⟨rfl, ?_, rfl, rfl, fun j hj => ?_⟩
    · rw [Table.hold_self]
      exact last_pid y.table i
    · rw [Table.set_of_ne _ _ hj]
      rfl

theorem Freed.inv (hf : Freed R y i y') (h : Inv y.table) (hi : (y.table.procs i).live = true) :
    Inv y'.table := by
  have hpid := hf.procs.2.1
  cases hf with
  | alone hk =>
    rw [schedRemove_set] at hpid ⊢
    rw [Table.set_self] at hpid
    apply h.kill rfl hpid
    · exact fun j _ => h.not_shared (fun hl => absurd (hk.symm.trans hl.2) nofun) j
    · exact fun k _ hk' => absurd (hk.symm.trans hk') nofun
  | @thread k hk hki =>
    rw [leave_set _ hki] at hpid ⊢
    rw [Table.set_self] at hpid
    exact h.killThread hi hk hki rfl hpid
  | last hk hlast t ht =>
    subst ht
    rw [last_hold_set] at hpid ⊢
    rw [Table.set_self] at hpid
    apply h.kill rfl hpid
    · intro j hj hlive hshared
      have hmem : j ∈ members y.table i := mem_members.mpr ⟨hlive, hshared⟩
      rw [hlast, Finset.mem_singleton] at hmem
      exact hj hmem
    · exact fun k _ hk' => (Option.some.inj (hk.symm.trans hk')).symm

/-! ### The end of a process -/

structure Emptied (tgid : ℕ) (is : List Slot) (y y' : System σ γ) : Prop where
  inv : Inv y'.table
  nextPid : y'.table.nextPid = y.table.nextPid
  kernelPml4 : y'.table.kernelPml4 = y.table.kernelPml4
  pid : ∀ j, (y'.table.procs j).pid = (y.table.procs j).pid
  live : ∀ j, (y'.table.procs j).live = true → (y.table.procs j).Like (y'.table.procs j)
  gone : ∀ j ∈ is, (y'.table.procs j).live = true → (y'.table.procs j).tgid = tgid →
    (y'.table.procs j).pid = tgid
  stay : ∀ j, ¬ ((y.table.procs j).live = true ∧ (y.table.procs j).tgid = tgid ∧
    (y.table.procs j).pid ≠ tgid) → (y.table.procs j).Like (y'.table.procs j)

variable {tgid : ℕ}

theorem Emptied.refl (h : Inv y.table) : Emptied tgid [] y y where
  inv := h
  nextPid := rfl
  kernelPml4 := rfl
  pid _ := rfl
  live _ _ := rfl
  gone _ hj := absurd hj not_mem_nil
  stay _ _ := rfl

theorem Emptied.trans {js : List Slot} {y1 y2 y3 : System σ γ}
    (h1 : Emptied tgid is y1 y2) (h2 : Emptied tgid js y2 y3) : Emptied tgid (is ++ js) y1 y3 where
  inv := h2.inv
  nextPid := h2.nextPid.trans h1.nextPid
  kernelPml4 := h2.kernelPml4.trans h1.kernelPml4
  pid j := (h2.pid j).trans (h1.pid j)
  live j hj := by
    have hlike := h2.live j hj
    exact (h1.live j (hlike.live.symm.trans hj)).trans hlike
  gone j hj hlive htgid := by
    have hlike := h2.live j hlive
    rcases mem_append.mp hj with hj | hj
    · rw [hlike.pid]
      exact h1.gone j hj (hlike.live.symm.trans hlive) (hlike.tgid.symm.trans htgid)
    · exact h2.gone j hj hlive htgid
  stay j hj := by
    have hlike := h1.stay j hj
    refine hlike.trans (h2.stay j ?_)
    rwa [hlike.live, hlike.tgid, hlike.pid]

theorem Inv.thread (h : Inv t) (hi : (t.procs i).live = true)
    (hne : (t.procs i).pid ≠ (t.procs i).tgid) : (t.procs i).shared ≠ some i := by
  intro hk
  exact hne (h.belongs i i hi hk).tgid.symm

theorem Freed.emptied (hf : Freed R y i y') (h : Inv y.table)
    (hi : (y.table.procs i).live = true) (htgid : (y.table.procs i).tgid = tgid)
    (hne : (y.table.procs i).pid ≠ tgid) : Emptied tgid [i] y y' := by
  obtain ⟨hdead, hpid, hnext, hkernel, hlike⟩ := hf.procs
  refine ⟨hf.inv h hi, hnext, hkernel, fun j => ?_, fun j hj => ?_, ?_, ?_⟩
  · by_cases hji : j = i
    · rw [hji, hpid]
    · exact (hlike j hji).pid
  · apply hlike j
    rintro rfl
    exact absurd (hj.symm.trans hdead) nofun
  · intro j hj hlive
    rw [mem_singleton.mp hj] at hlive
    exact absurd (hlive.symm.trans hdead) nofun
  · intro j hj
    apply hlike j
    rintro rfl
    exact hj ⟨hi, htgid, hne⟩

def Safe (t : Table σ) (cpu : Cpu) (tgid : ℕ) : Prop :=
  ∀ i, (t.procs i).live = true → (t.procs i).tgid = tgid → blockedFree t cpu (t.procs i) = false

theorem Emptied.safe (h : Emptied tgid is y y') (hs : Safe y.table cpu tgid) :
    Safe y'.table cpu tgid := by
  intro i hi htgid
  have hlike := h.live i hi
  rw [hlike.blockedFree h.kernelPml4]
  exact hs i (hlike.live.symm.trans hi) (hlike.tgid.symm.trans htgid)

theorem Inv.freeThreads_emptied : ∀ (is : List Slot) {y : System σ γ},
    Inv y.table → Safe y.table cpu tgid → Emptied tgid is y (freeThreads R y cpu tgid is)
  | [], _, h, _ => Emptied.refl h
  | i :: is, y, h, hs => by
    have hone : Emptied tgid [i] y (freeThreads R y cpu tgid [i]) := by
      unfold freeThreads
      rw [foldl_cons, foldl_nil]
      dsimp only
      split_ifs with hcond
      · simp only [Bool.and_eq_true, beq_iff_eq, bne_iff_ne] at hcond
        obtain ⟨⟨hi, htgid⟩, hne⟩ := hcond
        have hself := h.thread hi (htgid ▸ hne)
        exact (h.procFree_freed hi (hs i hi htgid) fun hk => absurd hk hself).emptied h hi htgid hne
      · refine ⟨h, rfl, rfl, fun _ => rfl, fun _ _ => rfl, ?_, fun _ _ => rfl⟩
        intro j hj hlive htgid
        by_contra hne
        rw [mem_singleton.mp hj] at hlive htgid hne
        exact hcond (by simp [hlive, htgid, hne])
    exact hone.trans (Inv.freeThreads_emptied is hone.inv (hone.safe hs))

/-- **The end of a process**, or of a kernel task: its threads go first, its leader last. -/
theorem Inv.exitGroup_freed (h : Inv y.table) (hi : (y.table.procs i).live = true)
    (hs : Safe y.table cpu (y.table.procs i).tgid) :
    ∃ y1 k, Emptied (y.table.procs i).tgid slots y y1 ∧ (y1.table.procs k).live = true ∧
      ((y.table.procs i).shared = none ∧ k = i ∨ (y.table.procs i).shared = some k) ∧
      Freed R y1 k (processExitGroup R y cpu (y.table.procs i).tgid) := by
  set tgid := (y.table.procs i).tgid with htgid
  -- the leader: the task itself when it is alone, else the slot with the shared part
  obtain ⟨k, hk, hkpid, hktgid, hself⟩ : ∃ k, (y.table.procs k).live = true ∧
      (y.table.procs k).pid = tgid ∧ (y.table.procs k).tgid = tgid ∧
      ((y.table.procs i).shared = none ∧ k = i ∨ (y.table.procs i).shared = some k) := by
    cases hsh : (y.table.procs i).shared with
    | none => exact ⟨i, hi, (h.alone i hi hsh).symm, rfl, Or.inl ⟨rfl, rfl⟩⟩
    | some k =>
      have hb := h.belongs i k hi hsh
      have hbk := h.belongs k k hb.leads.1 hb.leads.2
      exact ⟨k, hb.leads.1, hb.tgid.symm, hbk.tgid.trans hb.tgid.symm, Or.inr rfl⟩
  have he := Inv.freeThreads_emptied (R := R) slots h hs
  set y1 := freeThreads R y cpu tgid slots with hy1
  have hlike := he.stay k fun hn => hn.2.2 hkpid
  have hlive1 : (y1.table.procs k).live = true := hlike.live.trans hk
  have hfreed : Freed R y1 k (procFree R y1 cpu (y1.table.procs k).pid) := by
    apply he.inv.procFree_freed hlive1
    · exact he.safe hs k hlive1 (hlike.tgid.trans hktgid)
    · intro hlead
      ext j
      rw [mem_members, Finset.mem_singleton]
      constructor
      · -- a task that is left has the pid of the group
        rintro ⟨hj, hjk⟩
        have hb := he.inv.belongs j k hj hjk
        have hjt : (y1.table.procs j).tgid = tgid := by rw [hb.tgid, hlike.pid, hkpid]
        have hjp := he.gone j (mem_finRange j) hj hjt
        exact he.inv.pid_inj j k (hjp.trans (hlike.pid.trans hkpid).symm) (he.inv.pid_pos j hj)
      · rintro rfl
        exact ⟨hlive1, hlead⟩
  have hzero : tgid ≠ 0 := hkpid ▸ h.pid_pos k hk
  refine ⟨y1, k, he, hlive1, hself, ?_⟩
  unfold processExitGroup
  rw [if_neg hzero]
  rwa [hlike.pid, hkpid] at hfreed

end TaterTOS.Process
