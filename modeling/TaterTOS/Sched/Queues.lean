import TaterTOS.Sched.Model

/-!
# Runqueues as lists
-/

namespace TaterTOS.Sched

open Function Lib List

structure Lined (s : State) (l : ℕ → List Slot) : Prop where
  holds : ∀ c, (s.rq c).Holds s.next none ((l c).map some)
  apart : ∀ c d i, i ∈ l c → i ∈ l d → c = d

namespace Lined

variable {s s' : State} {l : ℕ → List Slot} {c : ℕ} {i : Slot}

section

variable (h : Lined s l)
include h

theorem congr (hrq : s'.rq = s.rq) (hnext : s'.next = s.next) : Lined s' l := by
  refine ⟨fun c => ?_, h.apart⟩
  rw [hrq, hnext]
  exact h.holds c

theorem setTask (i : Slot) (p : Task) : Lined (s.setTask i p) l :=
  h.congr rfl rfl

theorem nodup (c : ℕ) : (l c).Nodup := (h.holds c).nodup.of_map _

theorem length_le (c : ℕ) : (l c).length ≤ procMax := by
  have := (h.nodup c).length_le_card
  rwa [Fintype.card_fin] at this

theorem head_eq (c : ℕ) : (s.rq c).head = (l c).head? := by
  rw [(h.holds c).head_eq]
  cases l c with
  | nil => rfl
  | cons i is => rfl

theorem updated {r : (Option Slot → Option Slot) × Queue (Option Slot)}
    {l' : List Slot} (hc : r.2.Holds r.1 none (l'.map some))
    (hlinks : ∀ d ≠ c, ∀ i ∈ l d, r.1 (some i) = s.next (some i))
    (hapart : ∀ d ≠ c, ∀ i ∈ l', i ∉ l d) :
    Lined { s with next := r.1, rq := update s.rq c r.2 } (update l c l') := by
  constructor
  · intro d
    by_cases hd : d = c
    · subst hd
      simpa only [update_self] using hc
    · simp only [update_of_ne hd]
      apply (h.holds d).congr
      intro x hx
      obtain ⟨i, hi, rfl⟩ := mem_map.mp hx
      exact hlinks d hd i hi
  · intro d e i hd he
    by_cases hdc : d = c <;> by_cases hec : e = c
    · exact hdc.trans hec.symm
    · subst hdc
      rw [update_self] at hd
      rw [update_of_ne hec] at he
      exact absurd he (hapart e hec i hd)
    · subst hec
      rw [update_of_ne hdc] at hd
      rw [update_self] at he
      exact absurd hd (hapart d hdc i he)
    · rw [update_of_ne hdc] at hd
      rw [update_of_ne hec] at he
      exact h.apart d e i hd he

theorem not_mem {d : ℕ} (hd : d ≠ c) (hi : i ∈ l c) : i ∉ l d :=
  fun hmem => hd (h.apart d c i hmem hi)

theorem push (hi : ∀ d, i ∉ l d) :
    Lined (rqPush s c i) (update l c (l c ++ [i])) := by
  have hout : some i ∉ (l c).map some := by simpa using hi c
  apply h.updated
  · rw [map_append]
    exact (h.holds c).push (Option.some_ne_none i) hout
  · intro d hd j hj
    refine (h.holds c).push_next (fun hji => ?_) (fun hmem => ?_)
    · cases hji
      exact hi d hj
    · exact h.not_mem hd (by simpa using hmem) hj
  · intro d hd j hj
    rcases mem_append.mp hj with hj | hj
    · exact h.not_mem hd hj
    · rw [mem_singleton.mp hj]
      exact hi d

end

theorem pop {is : List Slot} (h : Lined s l) (hc : l c = i :: is) :
    (rqPop s c).1 = some i ∧ Lined (rqPop s c).2 (update l c is) := by
  have hholds := h.holds c
  rw [hc] at hholds
  have hmem : ∀ j ∈ i :: is, j ∈ l c := fun j hj => hc ▸ hj
  refine ⟨hholds.chain.1, ?_⟩
  apply h.updated hholds.pop
  · intro d hd j hj
    refine hholds.pop_next fun hji => ?_
    cases hji
    exact h.not_mem hd (hmem i mem_cons_self) hj
  · intro d hd j hj
    exact h.not_mem hd (hmem j (mem_cons_of_mem i hj))

theorem rotate {is : List Slot} (h : Lined s l) (hc : l c = i :: is) :
    Lined (rotate s c) (update l c (is ++ [i])) := by
  obtain ⟨hfst, hpop⟩ := h.pop hc
  have hsplit : rqPop s c = (some i, (rqPop s c).2) := Prod.ext hfst rfl
  have hout : ∀ d, i ∉ update l c is d := by
    intro d
    by_cases hd : d = c
    · subst hd
      rw [update_self]
      exact (nodup_cons.mp (hc ▸ h.nodup d)).1
    · rw [update_of_ne hd]
      exact h.not_mem hd (hc ▸ mem_cons_self)
  have hpush := hpop.push (c := c) hout
  rw [update_self, update_idem] at hpush
  unfold Sched.rotate
  rw [hsplit]
  exact hpush

theorem promote (h : Lined s l) (c : ℕ) :
    ∃ l', l'.Perm (l c) ∧ Lined (rqPromoteFirstUser s c) (update l c l') := by
  have hsame : Lined s (update l c (l c)) := by rwa [update_eq_self]
  have hhead := h.head_eq c
  unfold rqPromoteFirstUser
  rw [hhead]
  cases hc : l c with
  | nil =>
    refine ⟨[], List.Perm.refl _, ?_⟩
    rw [hc] at hsame
    exact hsame
  | cons i is =>
    simp only [List.head?_cons]
    split_ifs
    · exact ⟨i :: is, List.Perm.refl _, hc ▸ hsame⟩
    · have hholds := h.holds c
      rw [hc] at hholds
      have hlen : (is.map some).length < queueFuel := by
        have := h.length_le c
        rw [hc, length_cons] at this
        rw [length_map]
        unfold queueFuel
        omega
      obtain ⟨m, hperm, hm, hlinks⟩ := hholds.promote s.isUser hlen
      rw [← map_cons] at hperm hlinks
      -- the nodes of the new list are tasks, as they are those of the old one
      have hrange : m ∈ Set.range (List.map (some : Slot → Option Slot)) := by
        rw [Set.range_list_map]
        intro x hx
        obtain ⟨j, -, hj⟩ := mem_map.mp (hperm.subset hx)
        exact ⟨j, hj⟩
      obtain ⟨m, rfl⟩ := hrange
      have hperm' : m.Perm (i :: is) :=
        (map_perm_map_iff (Option.some_injective _)).mp hperm
      refine ⟨m, hperm', h.updated hm ?_ ?_⟩
      · intro d hd j hj
        refine hlinks (some j) fun hmem => h.not_mem hd ?_ hj
        rw [hc]
        exact (mem_map_of_injective (Option.some_injective _)).mp hmem
      · intro d hd j hj
        exact h.not_mem hd (hc ▸ hperm'.subset hj)

theorem take {a b : List Slot} (h : Lined s l) (hc : l c = a ++ i :: b) : Lined { s with
        next := ((s.rq c).take s.next none ((a.map some).getLast?.getD none) (some i)).1
        rq := update s.rq c
          ((s.rq c).take s.next none ((a.map some).getLast?.getD none) (some i)).2 }
      (update l c ((l c).erase i)) := by
  have hholds := h.holds c
  have hnd := h.nodup c
  rw [hc, map_append] at hholds
  have herase : (l c).erase i = a ++ b := by
    have hi : i ∉ a := by
      rw [hc] at hnd
      exact fun hi => (nodup_cons.mp (nodup_middle.mp hnd)).1 (mem_append_left b hi)
    rw [hc, erase_append_right _ hi, erase_cons_head]
  rw [herase]
  apply h.updated
  · rw [map_append]
    exact hholds.take
  · intro d hd j hj
    refine hholds.take_next (fun hmem => ?_) (Option.some_ne_none j)
    rw [← map_cons, ← map_append, ← hc] at hmem
    exact h.not_mem hd (by simpa using hmem) hj
  · intro d hd j hj
    apply h.not_mem hd
    rw [hc]
    rcases mem_append.mp hj with hj | hj
    · exact mem_append_left _ hj
    · exact mem_append_right a (mem_cons_of_mem i hj)

end Lined

/-- **What `remove_from_runqueue` does**: nothing, or it takes one task with this pid out of its
queue and leaves the tasks and everything else as they are. -/
inductive Removed (smp : Smp) (s : State) (l : ℕ → List Slot) (pid : ℕ) : Option Slot × State → Prop
  | absent (h : ∀ c < smp.count, ∀ i ∈ l c, (s.procs i).pid ≠ pid) : Removed smp s l pid (none, s)
  | found {c : ℕ} {i : Slot} {next : Option Slot → Option Slot} {rq : ℕ → Queue (Option Slot)}
      (hc : c < smp.count) (hi : i ∈ l c) (hpid : (s.procs i).pid = pid)
      (hl : Lined { s with next := next, rq := rq } (update l c ((l c).erase i))) :
      Removed smp s l pid (some i, { s with next := next, rq := rq })

theorem Lined.removeLoop {smp : Smp} {s : State} {l : ℕ → List Slot} (h : Lined s l) (pid : ℕ) :
    ∀ cs : List ℕ, (∀ c ∈ cs, c < smp.count) → (∀ c < smp.count, c ∉ cs →
      ∀ i ∈ l c, (s.procs i).pid ≠ pid) → Removed smp s l pid (removeLoop s pid cs)
  | [], _, hall => Removed.absent fun c hc => hall c hc (not_mem_nil)
  | c :: cs, hcs, hall => by
    have hlen : ((l c).map some).length < queueFuel := by
      rw [length_map]
      exact Nat.lt_succ_of_le (h.length_le c)
    unfold Sched.removeLoop
    rcases walk_spec (s.hasPid pid) none (h.holds c).chain hlen with
      ⟨hw, hno⟩ | ⟨l1, x, l2, hsplit, hx, hw⟩
    · rw [hw]
      apply h.removeLoop pid cs (fun d hd => hcs d (mem_cons_of_mem c hd))
      intro d hd hmem i hi
      by_cases hdc : d = c
      · subst hdc
        have := hno (some i) (mem_map_of_mem hi)
        simpa [State.hasPid] using this
      · exact hall d hd (by simp [hdc, hmem]) i hi
    · rw [hw]
      obtain ⟨a, b, hc, rfl, hb⟩ := map_eq_append_iff.mp hsplit
      obtain ⟨i, b, rfl, rfl, rfl⟩ := map_eq_cons_iff.mp hb
      refine Removed.found (hcs c mem_cons_self) ?_ ?_ (h.take hc)
      · rw [hc]
        exact mem_append_right a mem_cons_self
      · simpa [State.hasPid] using hx

theorem Lined.removed {s : State} {l : ℕ → List Slot} (h : Lined s l) (smp : Smp) (pid : ℕ) :
    Removed smp s l pid (removeFromRunqueue smp s pid) := by
  have hmin : min smp.count maxCpus = smp.count := min_eq_left smp.count_le
  unfold removeFromRunqueue
  rw [hmin]
  apply h.removeLoop
  · intro c hc
    exact mem_range.mp hc
  · intro c hc hmem
    exact absurd (mem_range.mpr hc) hmem

end TaterTOS.Sched
