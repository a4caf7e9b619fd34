import TaterTOS.Process.Model

/-!
# Process lifetimes
-/

namespace TaterTOS.Process

open Function Sched

variable {σ : Type} {i j k : Slot} {t t' : Table σ} {p : Proc σ}

/-! ### The table -/

@[simp] theorem Table.set_self (t : Table σ) (i : Slot) (p : Proc σ) : (t.set i p).procs i = p := by
  dsimp only [Table.set]
  rw [update_self]

theorem Table.set_of_ne (t : Table σ) (p : Proc σ) (h : j ≠ i) :
    (t.set i p).procs j = t.procs j := by
  dsimp only [Table.set]
  rw [update_of_ne h]

@[simp] theorem Table.set_set (t : Table σ) (i : Slot) (p q : Proc σ) :
    (t.set i p).set i q = t.set i q := by
  unfold Table.set
  rw [update_idem]

theorem Table.set_comm (t : Table σ) (h : i ≠ j) (p q : Proc σ) :
    (t.set i p).set j q = (t.set j q).set i p := by
  unfold Table.set
  rw [update_comm h]

def members (t : Table σ) (k : Slot) : Finset Slot :=
  Finset.univ.filter fun i => (t.procs i).live = true ∧ (t.procs i).shared = some k

theorem mem_members : i ∈ members t k ↔ (t.procs i).live = true ∧ (t.procs i).shared = some k := by
  simp [members]

theorem card_members_le (t : Table σ) (k : Slot) : (members t k).card ≤ procMax := by
  have h := Finset.card_le_univ (members t k)
  rwa [Fintype.card_fin] at h

def Table.Leads (t : Table σ) (k : Slot) : Prop :=
  (t.procs k).live = true ∧ (t.procs k).shared = some k

structure Belongs (t : Table σ) (i k : Slot) : Prop where
  leads : t.Leads k
  owner : (t.procs k).owned.ownerPid = (t.procs k).pid
  tgid : (t.procs i).tgid = (t.procs k).pid
  cr3 : (t.procs i).cr3 = (t.procs k).cr3
  user : (t.procs i).isKernel = false

/-- **The invariant of the process table.** -/
structure Inv (t : Table σ) : Prop where
  pid_lt : ∀ i, (t.procs i).pid < t.nextPid
  pid_inj : ∀ i j, (t.procs i).pid = (t.procs j).pid → (t.procs i).pid ≠ 0 → i = j
  pid_pos : ∀ i, (t.procs i).live = true → (t.procs i).pid ≠ 0
  belongs : ∀ i k, (t.procs i).live = true → (t.procs i).shared = some k → Belongs t i k
  alone : ∀ i, (t.procs i).live = true → (t.procs i).shared = none →
    (t.procs i).tgid = (t.procs i).pid
  refs : ∀ k, t.Leads k → (t.procs k).owned.refcount = (members t k).card

structure Same (t t' : Table σ) : Prop where
  nextPid : t'.nextPid = t.nextPid
  pid : ∀ i, (t'.procs i).pid = (t.procs i).pid
  tgid : ∀ i, (t'.procs i).tgid = (t.procs i).tgid
  live : ∀ i, (t'.procs i).live = (t.procs i).live
  cr3 : ∀ i, (t'.procs i).cr3 = (t.procs i).cr3
  isKernel : ∀ i, (t'.procs i).isKernel = (t.procs i).isKernel
  shared : ∀ i, (t'.procs i).shared = (t.procs i).shared
  ownerPid : ∀ i, (t'.procs i).owned.ownerPid = (t.procs i).owned.ownerPid
  refcount : ∀ i, (t'.procs i).owned.refcount = (t.procs i).owned.refcount

theorem Same.members (h : Same t t') (k : Slot) : members t' k = members t k := by
  ext i
  rw [mem_members, mem_members, h.live, h.shared]

theorem Same.leads (h : Same t t') : t'.Leads k ↔ t.Leads k := by
  unfold Table.Leads
  rw [h.live, h.shared]

theorem Inv.same (h : Inv t) (hs : Same t t') : Inv t' where
  pid_lt i := by
    rw [hs.pid, hs.nextPid]
    exact h.pid_lt i
  pid_inj i j hij hpos := by
    rw [hs.pid] at hij hpos
    rw [hs.pid] at hij
    exact h.pid_inj i j hij hpos
  pid_pos i hi := by
    rw [hs.pid]
    exact h.pid_pos i (hs.live i ▸ hi)
  belongs i k hi hk := by
    have hb := h.belongs i k (hs.live i ▸ hi) (hs.shared i ▸ hk)
    refine ⟨hs.leads.mpr hb.leads, ?_, ?_, ?_, ?_⟩
    · rw [hs.ownerPid, hs.pid, hb.owner]
    · rw [hs.tgid, hs.pid, hb.tgid]
    · rw [hs.cr3, hs.cr3, hb.cr3]
    · rw [hs.isKernel, hb.user]
  alone i hi hk := by
    rw [hs.tgid, hs.pid]
    exact h.alone i (hs.live i ▸ hi) (hs.shared i ▸ hk)
  refs k hk := by
    rw [hs.refcount, hs.members]
    exact h.refs k (hs.leads.mp hk)

theorem same_set (hpid : p.pid = (t.procs i).pid) (htgid : p.tgid = (t.procs i).tgid)
    (hlive : p.live = (t.procs i).live) (hcr3 : p.cr3 = (t.procs i).cr3)
    (hkernel : p.isKernel = (t.procs i).isKernel) (hshared : p.shared = (t.procs i).shared)
    (howner : p.owned.ownerPid = (t.procs i).owned.ownerPid)
    (hcount : p.owned.refcount = (t.procs i).owned.refcount) : Same t (t.set i p) := by
  have hcases : ∀ j, (j = i ∧ (t.set i p).procs j = p) ∨ (t.set i p).procs j = t.procs j := by
    intro j
    by_cases hj : j = i
    · exact .inl ⟨hj, by rw [hj, Table.set_self]⟩
    · exact .inr (Table.set_of_ne t p hj)
  constructor <;> first
    | rfl
    | (intro j
       rcases hcases j with ⟨rfl, hj⟩ | hj <;> rw [hj]
       assumption)

/-! ### A task comes or goes -/

structure Apart (t t' : Table σ) (i : Slot) : Prop where
  pid : ∀ j ≠ i, (t'.procs j).pid = (t.procs j).pid
  tgid : ∀ j ≠ i, (t'.procs j).tgid = (t.procs j).tgid
  live : ∀ j ≠ i, (t'.procs j).live = (t.procs j).live
  cr3 : ∀ j ≠ i, (t'.procs j).cr3 = (t.procs j).cr3
  isKernel : ∀ j ≠ i, (t'.procs j).isKernel = (t.procs j).isKernel
  shared : ∀ j ≠ i, (t'.procs j).shared = (t.procs j).shared
  ownerPid : ∀ j ≠ i, (t'.procs j).owned.ownerPid = (t.procs j).owned.ownerPid

theorem apart_of_eq (h : ∀ j ≠ i, t'.procs j = t.procs j) : Apart t t' i := by
  constructor <;> intro j hj <;> rw [h j hj]

theorem Apart.leads (h : Apart t t' i) (hk : k ≠ i) : t'.Leads k ↔ t.Leads k := by
  unfold Table.Leads
  rw [h.live k hk, h.shared k hk]

theorem Apart.members (h : Apart t t' i) (k : Slot) :
    members t' k = if (t'.procs i).live = true ∧ (t'.procs i).shared = some k
      then insert i (members t k) else (members t k).erase i := by
  ext j
  by_cases hj : j = i
  · subst hj
    rw [mem_members]
    split_ifs with hp <;> simp [hp]
  · rw [mem_members, h.live j hj, h.shared j hj, ← mem_members]
    split_ifs <;> simp [hj]

theorem Apart.belongs (h : Apart t t' i) (hj : j ≠ i) (hk : k ≠ i) (hb : Belongs t j k) :
    Belongs t' j k := by
  refine ⟨(h.leads hk).mpr hb.leads, ?_, ?_, ?_, ?_⟩
  · rw [h.ownerPid k hk, h.pid k hk, hb.owner]
  · rw [h.tgid j hj, h.pid k hk, hb.tgid]
  · rw [h.cr3 j hj, h.cr3 k hk, hb.cr3]
  · rw [h.isKernel j hj, hb.user]

/-- How the pid of the slot fits: the task ended, or it is a new one with the next pid. -/
def Numbered (t t' : Table σ) (i : Slot) : Prop :=
  ((t'.procs i).live = false ∧ (t'.procs i).pid = (t.procs i).pid ∧ t'.nextPid = t.nextPid) ∨
    ((t'.procs i).pid = t.nextPid ∧ t'.nextPid = t.nextPid + 1)

/-- **One slot changes.** No other task points to the slot, and a living task in it is alone or
belongs to a process. -/
theorem Inv.change (h : Inv t) (ha : Apart t t' i) (hpid : Numbered t t' i)
    (hnone : ∀ j ≠ i, (t.procs j).live = true → (t.procs j).shared ≠ some i)
    (halone : (t'.procs i).live = true → (t'.procs i).shared = none →
      (t'.procs i).tgid = (t'.procs i).pid)
    (hbelongs : ∀ k, (t'.procs i).live = true → (t'.procs i).shared = some k → Belongs t' i k)
    (hrefs : ∀ k, t'.Leads k → (t'.procs k).owned.refcount = (members t' k).card) : Inv t' := by
  have hle : t.nextPid ≤ t'.nextPid := by
    rcases hpid with ⟨-, -, hn⟩ | ⟨-, hn⟩ <;> omega
  have hother : ∀ j ≠ i, (t'.procs j).pid = (t'.procs i).pid → (t'.procs j).pid = 0 := by
    intro j hj hji
    rw [ha.pid j hj] at hji ⊢
    by_contra h0
    rcases hpid with ⟨-, hp, -⟩ | ⟨hp, -⟩
    · exact hj (h.pid_inj j i (hji.trans hp) h0)
    · exact absurd (hji.trans hp) (h.pid_lt j).ne
  refine ⟨?_, ?_, ?_, ?_, ?_, hrefs⟩
  · intro j
    by_cases hj : j = i
    · subst hj
      have := h.pid_lt j
      rcases hpid with ⟨-, hp, hn⟩ | ⟨hp, hn⟩ <;> omega
    · rw [ha.pid j hj]
      exact (h.pid_lt j).trans_le hle
  · intro j k hjk hj0
    by_cases hj : j = i <;> by_cases hk : k = i
    · rw [hj, hk]
    · exact absurd (hjk.trans (hother k hk (hjk.symm.trans (by rw [hj])))) hj0
    · exact absurd (hother j hj (hjk.trans (by rw [hk]))) hj0
    · rw [ha.pid j hj] at hjk hj0
      rw [ha.pid k hk] at hjk
      exact h.pid_inj j k hjk hj0
  · intro j hj
    by_cases hji : j = i
    · subst hji
      rcases hpid with ⟨hdead, -, -⟩ | ⟨hp, -⟩
      · exact absurd (hj.symm.trans hdead) nofun
      · have := h.pid_lt j
        omega
    · rw [ha.live j hji] at hj
      rw [ha.pid j hji]
      exact h.pid_pos j hj
  · intro j k hj hk
    by_cases hji : j = i
    · subst hji
      exact hbelongs k hj hk
    · rw [ha.live j hji] at hj
      rw [ha.shared j hji] at hk
      have hki : k ≠ i := by
        rintro rfl
        exact hnone j hji hj hk
      exact ha.belongs hji hki (h.belongs j k hj hk)
  · intro j hj hk
    by_cases hji : j = i
    · subst hji
      exact halone hj hk
    · rw [ha.live j hji] at hj
      rw [ha.shared j hji] at hk
      rw [ha.tgid j hji, ha.pid j hji]
      exact h.alone j hj hk

theorem Inv.not_shared (h : Inv t) (hi : ¬ t.Leads i) (j : Slot) (hj : (t.procs j).live = true) :
    (t.procs j).shared ≠ some i :=
  fun hk => hi (h.belongs j i hj hk).leads

/-! ### New tasks -/

def Table.put (t : Table σ) (i : Slot) (p : Proc σ) : Table σ :=
  { t.set i p with nextPid := t.nextPid + 1 }

@[simp] theorem Table.put_self (t : Table σ) (i : Slot) (p : Proc σ) : (t.put i p).procs i = p :=
  t.set_self i p

theorem Table.put_of_ne (t : Table σ) (p : Proc σ) (h : j ≠ i) :
    (t.put i p).procs j = t.procs j := t.set_of_ne p h

theorem not_leads_of_free (h : (t.procs i).live = false) :
    ¬ t.Leads i := fun hl => absurd (hl.1.symm.trans h) nofun

theorem Inv.put (h : Inv t) (hfree : (t.procs i).live = false) (hpid : p.pid = t.nextPid)
    (hnew : p.live = true → p.tgid = p.pid ∧ (p.shared = none ∨ (p.shared = some i ∧
      p.owned.ownerPid = p.pid ∧ p.owned.refcount = 1 ∧ p.isKernel = false))) :
    Inv (t.put i p) := by
  have ha : Apart t (t.put i p) i := apart_of_eq fun j hj => t.put_of_ne p hj
  have hnot := h.not_shared (not_leads_of_free hfree)
  refine h.change ha (.inr ⟨?_, rfl⟩) (fun j _ => hnot j) ?_ ?_ ?_
  · rw [Table.put_self, hpid]
  · rw [Table.put_self]
    exact fun hlive _ => (hnew hlive).1
  · rw [Table.put_self]
    intro k hlive hk
    obtain ⟨htgid, hnone | ⟨hself, howner, -, hkernel⟩⟩ := hnew hlive
    · exact absurd (hnone.symm.trans hk) nofun
    · obtain rfl := Option.some.inj (hself.symm.trans hk)
      refine ⟨⟨?_, ?_⟩, ?_, ?_, rfl, ?_⟩ <;> rw [Table.put_self] <;> assumption
  · intro k hk
    rw [ha.members, Table.put_self]
    by_cases hki : k = i
    · -- no task can point to a slot that was free
      subst hki
      obtain ⟨hlive, hself⟩ := hk
      rw [Table.put_self] at hlive hself ⊢
      obtain ⟨-, hnone | ⟨-, -, hcount, -⟩⟩ := hnew hlive
      · exact absurd (hnone.symm.trans hself) nofun
      · have hempty : members t k = ∅ :=
          Finset.eq_empty_of_forall_notMem fun j hj =>
            hnot j (mem_members.mp hj).1 (mem_members.mp hj).2
        rw [if_pos ⟨hlive, hself⟩, hempty, hcount]
        rfl
    · have hnew' : ¬ (p.live = true ∧ p.shared = some k) := by
        rintro ⟨hlive, hk'⟩
        obtain ⟨-, hnone | ⟨hself, -⟩⟩ := hnew hlive
        · exact absurd (hnone.symm.trans hk') nofun
        · exact hki (Option.some.inj (hk'.symm.trans hself))
      have hmem : i ∉ members t k := fun hm => absurd ((mem_members.mp hm).1.symm.trans hfree) nofun
      rw [if_neg hnew', Finset.erase_eq_of_notMem hmem, Table.put_of_ne t p hki]
      exact h.refs k ((ha.leads hki).mp hk)

theorem Table.count_self (t : Table σ) (k : Slot) (n : ℕ) :
    (t.count k n).procs k = { t.procs k with owned := { (t.procs k).owned with refcount := n } } :=
  t.set_self k _

theorem Table.count_of_ne (t : Table σ) (n : ℕ) (h : j ≠ k) :
    (t.count k n).procs j = t.procs j := t.set_of_ne _ h

theorem retain_eq (h : (t.procs k).owned.refcount ≤ procMax) :
    retain t k = t.count k ((t.procs k).owned.refcount + 1) := by
  unfold retain
  have hmax : procMax = 256 := rfl
  rw [if_pos]
  rw [bne_iff_ne]
  omega

theorem Apart.trans {t1 t2 t3 : Table σ} (h1 : Apart t1 t2 i) (h2 : Apart t2 t3 i) :
    Apart t1 t3 i where
  pid j hj := (h2.pid j hj).trans (h1.pid j hj)
  tgid j hj := (h2.tgid j hj).trans (h1.tgid j hj)
  live j hj := (h2.live j hj).trans (h1.live j hj)
  cr3 j hj := (h2.cr3 j hj).trans (h1.cr3 j hj)
  isKernel j hj := (h2.isKernel j hj).trans (h1.isKernel j hj)
  shared j hj := (h2.shared j hj).trans (h1.shared j hj)
  ownerPid j hj := (h2.ownerPid j hj).trans (h1.ownerPid j hj)

theorem apart_count (t : Table σ) (k : Slot) (n : ℕ) (i : Slot) : Apart t (t.count k n) i := by
  constructor <;> intro j _ <;> by_cases hj : j = k
  all_goals first
    | rw [hj, Table.count_self]
    | rw [Table.count_of_ne t n hj]
  all_goals rfl

theorem refcount_count (t : Table σ) (k : Slot) (n : ℕ) (j : Slot) :
    ((t.count k n).procs j).owned.refcount =
      if j = k then n else (t.procs j).owned.refcount := by
  by_cases hj : j = k
  · rw [if_pos hj, hj, Table.count_self]
  · rw [if_neg hj, Table.count_of_ne t n hj]

theorem Inv.putThread (h : Inv t) {parent : Slot} (hfree : (t.procs i).live = false)
    (hparent : (t.procs parent).live = true) (hk : (t.procs parent).shared = some k)
    (hpid : p.pid = t.nextPid) (hlive : p.live = true) (hshared : p.shared = some k)
    (htgid : p.tgid = (t.procs parent).tgid) (hcr3 : p.cr3 = (t.procs parent).cr3)
    (hkernel : p.isKernel = false) :
    Inv (retain (t.put i p) k) := by
  have hb := h.belongs parent k hparent hk
  have hki : k ≠ i := by
    rintro rfl
    exact not_leads_of_free hfree hb.leads
  have hcount : ((t.put i p).procs k).owned.refcount = (members t k).card := by
    rw [Table.put_of_ne t p hki, h.refs k hb.leads]
  rw [retain_eq (hcount ▸ card_members_le t k), hcount]
  set t' := (t.put i p).count k ((members t k).card + 1) with ht'
  have hself : t'.procs i = p := by rw [Table.count_of_ne _ _ hki.symm, Table.put_self]
  have ha : Apart t t' i :=
    (apart_of_eq fun j hj => t.put_of_ne p hj).trans (apart_count _ _ _ _)
  have hb' := ha.leads hki |>.mpr hb.leads
  refine h.change ha (.inr ⟨?_, rfl⟩) (fun j _ => h.not_shared (not_leads_of_free hfree) j) ?_ ?_ ?_
  · rw [hself, hpid]
  · rw [hself, hshared]
    exact fun _ hnone => absurd hnone nofun
  · rw [hself, hshared]
    intro q _ hq
    obtain rfl := Option.some.inj hq
    refine ⟨hb', ?_, ?_, ?_, ?_⟩
    · rw [ha.ownerPid k hki, ha.pid k hki, hb.owner]
    · rw [hself, ha.pid k hki, htgid, hb.tgid]
    · rw [hself, ha.cr3 k hki, hcr3, hb.cr3]
    · rw [hself, hkernel]
  · intro q hq
    have hmem : i ∉ members t q := fun hm => absurd ((mem_members.mp hm).1.symm.trans hfree) nofun
    rw [ha.members, hself, refcount_count]
    by_cases hqk : q = k
    · rw [if_pos hqk, hqk, if_pos ⟨hlive, hshared⟩, Finset.card_insert_of_notMem (hqk ▸ hmem)]
    · have hqi : q ≠ i := by
        rintro rfl
        have := hself ▸ hq.2
        exact hki (Option.some.inj (hshared.symm.trans this))
      have hne : ¬ (p.live = true ∧ p.shared = some q) :=
        fun hp => hqk (Option.some.inj (hp.2.symm.trans hshared))
      rw [if_neg hqk, if_neg hne, Finset.erase_eq_of_notMem hmem, Table.put_of_ne t p hqi]
      exact h.refs q ((ha.leads hqi).mp hq)

/-! ### Tasks that end -/

theorem Inv.ends (h : Inv t) (ha : Apart t t' i) (hself : t'.procs i = p) (hdead : p.live = false)
    (hpid : p.pid = (t.procs i).pid) (hnext : t'.nextPid = t.nextPid)
    (hnone : ∀ j ≠ i, (t.procs j).live = true → (t.procs j).shared ≠ some i)
    (hrefs : ∀ k ≠ i, t.Leads k → (t'.procs k).owned.refcount = ((members t k).erase i).card) :
    Inv t' := by
  have hnot : ∀ {q : Prop}, (t'.procs i).live = true → q := fun hlive => by
    rw [hself, hdead] at hlive
    exact absurd hlive nofun
  refine h.change ha (.inl ⟨by rw [hself, hdead], by rw [hself, hpid], hnext⟩) hnone hnot
    (fun _ => hnot) fun k hk => ?_
  have hki : k ≠ i := by
    rintro rfl
    exact hnot hk.1
  rw [ha.members, if_neg fun hp => hnot hp.1]
  exact hrefs k hki ((ha.leads hki).mp hk)

theorem Inv.kill (h : Inv t) (hdead : p.live = false) (hpid : p.pid = (t.procs i).pid)
    (hnone : ∀ j ≠ i, (t.procs j).live = true → (t.procs j).shared ≠ some i)
    (hown : ∀ k, (t.procs i).live = true → (t.procs i).shared = some k → k = i) :
    Inv (t.set i p) := by
  refine h.ends (apart_of_eq fun j hj => t.set_of_ne p hj) (t.set_self i p) hdead hpid rfl hnone
    fun k hki hk => ?_
  have hmem : i ∉ members t k := fun hm =>
    hki (hown k (mem_members.mp hm).1 (mem_members.mp hm).2)
  rw [Finset.erase_eq_of_notMem hmem, Table.set_of_ne t p hki]
  exact h.refs k hk

theorem Inv.killThread (h : Inv t) (hlive : (t.procs i).live = true)
    (hk : (t.procs i).shared = some k) (hki : k ≠ i) (hdead : p.live = false)
    (hpid : p.pid = (t.procs i).pid) :
    Inv ((t.count k ((t.procs k).owned.refcount - 1)).set i p) := by
  have hb := h.belongs i k hlive hk
  have hnleads : ¬ t.Leads i := fun hl => hki (Option.some.inj (hk.symm.trans hl.2))
  refine h.ends ((apart_count t k _ i).trans (apart_of_eq fun j hj => Table.set_of_ne _ p hj))
    (Table.set_self _ i p) hdead hpid rfl (fun j _ => h.not_shared hnleads j) fun q hqi hq => ?_
  rw [Table.set_of_ne _ p hqi, refcount_count]
  by_cases hqk : q = k
  · rw [if_pos hqk, hqk, h.refs k hb.leads, Finset.card_erase_of_mem (mem_members.mpr ⟨hlive, hk⟩)]
  · have hmem : i ∉ members t q := fun hm =>
      hqk (Option.some.inj ((mem_members.mp hm).2.symm.trans hk))
    rw [if_neg hqk, Finset.erase_eq_of_notMem hmem]
    exact h.refs q hq

end TaterTOS.Process
