import TaterTOS.Lib.Word

/-!
# Mutexes and condition variables on futexes

A model of `fry_mutex_lock`, `fry_mutex_trylock`, `fry_mutex_unlock`, `fry_cond_wait`,
`fry_cond_signal` and `fry_cond_broadcast` in `user/libc/libc.c`, for any number of threads that
share one mutex and one condition variable. Each atomic access to one of the two words, each
`futex_wait` and each `futex_wake` is one step. A wake takes the first waiters of the table, as
`sched_wake_futex` does.

* `mutex_correct`: mutual exclusion, and no wakeup is lost.

Ghost data: `incs` counts the increments of `seq`, and a thread remembers how many there were when
it read the word; `finished` lists the numbers of the increments whose broadcasts are done.
-/

namespace TaterTOS.Libc.Mutex

open Function Lib List

/-! ### Threads -/

/-- Where a thread is. The read of `seq` is a value `v` after `r` increments. -/
inductive Pc
  /-- Outside, without the mutex. -/
  | idle
  /-- Outside, with the mutex. -/
  | holding
  /-- In `fry_mutex_lock`, before its compare-and-swap. -/
  | lock
  /-- In the loop of `fry_mutex_lock`, before its exchange; `woken` if a wake brought it there. -/
  | swap (woken : Bool)
  /-- In the loop of `fry_mutex_lock`, before its wait. -/
  | wait (woken : Bool)
  /-- Blocked on the word of the mutex. -/
  | blocked
  /-- In `fry_cond_wait`, before the exchange of its unlock. -/
  | condUnlock (v r : ℕ)
  /-- In `fry_mutex_unlock`, before its wake. -/
  | wake
  /-- In the unlock of `fry_cond_wait`, before its wake. -/
  | wakeCond (v r : ℕ)
  /-- In `fry_cond_wait`, before its wait. -/
  | condWait (v r : ℕ)
  /-- Blocked on `seq`, since there were `e` increments. -/
  | condBlocked (r e : ℕ)
  /-- Before the wake of the signal or broadcast that made increment number `i`. -/
  | condWake (held : Bool) (max i : ℕ)
  deriving DecidableEq, Repr

def Pc.holds : Pc → Bool
  | .holding => true
  | .condUnlock _ _ => true
  | .condWake held _ _ => held
  | _ => false

def Pc.woken : Pc → Bool
  | .swap w => w
  | .wait w => w
  | _ => false

def Pc.waking : Pc → Bool
  | .wake => true
  | .wakeCond _ _ => true
  | _ => false

def Pc.inCond : Pc → Bool
  | .condBlocked _ _ => true
  | _ => false

/-! ### The state -/

structure Sync (n : ℕ) where
  word : ℕ
  seq : ℕ
  pc : Fin n → Pc
  incs : ℕ
  finished : List ℕ

variable {n : ℕ}

def init (n : ℕ) : Sync n := ⟨0, 0, fun _ => .idle, 0, []⟩

def Sync.set (s : Sync n) (t : Fin n) (p : Pc) : Sync n :=
  { s with pc := update s.pc t p }

def firstAt (s : Sync n) (max : ℕ) (at_ : Pc → Bool) : List (Fin n) :=
  ((List.finRange n).filter fun t => at_ (s.pc t)).take max

def futexWake (s : Sync n) (max : ℕ) (at_ : Pc → Bool) (next : Pc) : Sync n :=
  { s with pc := fun t => if t ∈ firstAt s max at_ then next else s.pc t }

def compareAndSwap (s : Sync n) (t : Fin n) (other : Pc) : Sync n :=
  if s.word = 0 then { s.set t .holding with word := 1 } else s.set t other

/-- The exchange of `fry_mutex_unlock`; the thread goes on at `next`, after the wake if there is
one. For a free mutex the call returns an error. -/
def exchangeUnlock (s : Sync n) (t : Fin n) (waking next : Pc) : Sync n :=
  { s.set t (if s.word = 0 then .idle else if s.word = 2 then waking else next) with word := 0 }

def uint32Max : ℕ := 2 ^ 32 - 1

def fetchAndAdd (s : Sync n) (t : Fin n) (held : Bool) (max : ℕ) : Sync n :=
  { s.set t (.condWake held max s.incs) with seq := u32 (s.seq + 1), incs := s.incs + 1 }

inductive Act
  | lock
  | trylock
  | unlock
  | condWait
  | signal
  | broadcast
  | go
  deriving DecidableEq, Repr

def notify (s : Sync n) (t : Fin n) (max : ℕ) : Option (Sync n) :=
  match s.pc t with
  | .idle => some (fetchAndAdd s t false max)
  | .holding => some (fetchAndAdd s t true max)
  | _ => none

def goOn (s : Sync n) (t : Fin n) : Option (Sync n) :=
  match s.pc t with
  | .lock => some (compareAndSwap s t (.swap false))
  | .swap w =>
    some { s.set t (if s.word = 0 then .holding else .wait w) with word := 2 }
  | .wait w => some (s.set t (if s.word = 2 then .blocked else .swap w))
  | .condUnlock v r => some (exchangeUnlock s t (.wakeCond v r) (.condWait v r))
  | .wake => some ((futexWake s 1 (· == .blocked) (.swap true)).set t .idle)
  | .wakeCond v r => some ((futexWake s 1 (· == .blocked) (.swap true)).set t (.condWait v r))
  | .condWait v r => some (s.set t (if s.seq = v then .condBlocked r s.incs else .lock))
  | .condWake held max i =>
    some { (futexWake s max Pc.inCond .lock).set t (if held then .holding else .idle) with
      finished := if max = uint32Max then i :: s.finished else s.finished }
  | _ => none

def exec (s : Sync n) (t : Fin n) : Act → Option (Sync n)
  | .lock => if s.pc t = .idle then some (compareAndSwap s t (.swap false)) else none
  | .trylock => if s.pc t = .idle then some (compareAndSwap s t .idle) else none
  | .unlock => if s.pc t = .holding then some (exchangeUnlock s t .wake .idle) else none
  | .condWait => if s.pc t = .holding then some (s.set t (.condUnlock s.seq s.incs)) else none
  | .signal => notify s t 1
  | .broadcast => notify s t uint32Max
  | .go => goOn s t

inductive Reachable : Sync n → Prop
  | init : Reachable (init n)
  | step {s s' : Sync n} {t : Fin n} {a : Act} (h : Reachable s) (he : exec s t a = some s') :
      Reachable s'

/-! ### What a step can do -/

inductive Moves (s : Sync n) : Pc → ℕ → Pc → Prop
  | acquire {p : Pc} (hp : p = .idle ∨ p = .lock) (hw : s.word = 0) : Moves s p 1 .holding
  | refused : Moves s .idle s.word .idle
  | contend {p : Pc} (hp : p = .idle ∨ p = .lock) : Moves s p s.word (.swap false)
  | seize {b : Bool} (hw : s.word = 0) : Moves s (.swap b) 2 .holding
  | mark {b : Bool} (hw : s.word ≠ 0) : Moves s (.swap b) 2 (.wait b)
  | block {b : Bool} (hw : s.word = 2) : Moves s (.wait b) s.word .blocked
  | again {b : Bool} (hw : s.word ≠ 2) : Moves s (.wait b) s.word (.swap b)
  | notOwner {p : Pc} (hp : p.holds = true) (hw : s.word = 0) : Moves s p 0 .idle
  | unlock (hw : s.word ≠ 2) : Moves s .holding 0 .idle
  | unlockWake : Moves s .holding 0 .wake
  | condUnlock {v r : ℕ} (hw : s.word ≠ 2) : Moves s (.condUnlock v r) 0 (.condWait v r)
  | condUnlockWake {v r : ℕ} : Moves s (.condUnlock v r) 0 (.wakeCond v r)
  | read : Moves s .holding s.word (.condUnlock s.seq s.incs)
  | condBlock {v r : ℕ} (hs : s.seq = v) : Moves s (.condWait v r) s.word (.condBlocked r s.incs)
  | condAgain {v r : ℕ} : Moves s (.condWait v r) s.word .lock

inductive Step (s : Sync n) (t : Fin n) : Sync n → Prop
  | move {w : ℕ} {q : Pc} (hm : Moves s (s.pc t) w q) : Step s t { s.set t q with word := w }
  | notify {held : Bool} (max : ℕ) (hp : s.pc t = if held then .holding else .idle) :
      Step s t (fetchAndAdd s t held max)
  | wake {q : Pc} (hp : s.pc t = .wake ∧ q = .idle ∨
      ∃ v r, s.pc t = .wakeCond v r ∧ q = .condWait v r) :
      Step s t ((futexWake s 1 (· == .blocked) (.swap true)).set t q)
  | condWake {held : Bool} {max i : ℕ} (hp : s.pc t = .condWake held max i) :
      Step s t { (futexWake s max Pc.inCond .lock).set t (if held then .holding else .idle) with
        finished := if max = uint32Max then i :: s.finished else s.finished }

section

variable {s s' : Sync n} {t : Fin n}

theorem compareAndSwap_step {other : Pc} (hp : s.pc t = .idle ∨ s.pc t = .lock)
    (ho : other = .swap false ∨ other = .idle ∧ s.pc t = .idle) :
    Step s t (compareAndSwap s t other) := by
  unfold compareAndSwap
  split_ifs with hw
  · exact .move (.acquire hp hw)
  · rcases ho with rfl | ⟨rfl, hi⟩
    · exact .move (.contend hp)
    · exact .move (by rw [hi]; exact .refused)

theorem notify_step {max : ℕ} (h : notify s t max = some s') : Step s t s' := by
  unfold notify at h
  split at h
  · next hp =>
    rw [← Option.some.inj h]
    exact .notify max hp
  · next hp =>
    rw [← Option.some.inj h]
    exact .notify max hp
  · cases h

theorem goOn_step (h : goOn s t = some s') : Step s t s' := by
  unfold goOn at h
  split at h <;> (try cases h) <;> rename_i hp
  · exact compareAndSwap_step (.inr hp) (.inl rfl)
  · split_ifs with hw
    · exact .move (hp ▸ Moves.seize hw)
    · exact .move (hp ▸ Moves.mark hw)
  · split_ifs with hw
    · exact .move (hp ▸ Moves.block hw)
    · exact .move (hp ▸ Moves.again hw)
  · unfold exchangeUnlock
    split_ifs with hw hw2
    · exact .move (hp ▸ Moves.notOwner rfl hw)
    · exact .move (hp ▸ Moves.condUnlockWake)
    · exact .move (hp ▸ Moves.condUnlock hw2)
  · exact .wake (.inl ⟨hp, rfl⟩)
  · exact .wake (.inr ⟨_, _, hp, rfl⟩)
  · split_ifs with hs
    · exact .move (hp ▸ Moves.condBlock hs)
    · exact .move (hp ▸ Moves.condAgain)
  · exact .condWake hp

theorem exec_step {a : Act} (h : exec s t a = some s') : Step s t s' := by
  cases a with
  | lock =>
    obtain ⟨hp, rfl⟩ := Option.ite_some_none_eq_some.mp h
    exact compareAndSwap_step (.inl hp) (.inl rfl)
  | trylock =>
    obtain ⟨hp, rfl⟩ := Option.ite_some_none_eq_some.mp h
    exact compareAndSwap_step (.inl hp) (.inr ⟨rfl, hp⟩)
  | unlock =>
    obtain ⟨hp, rfl⟩ := Option.ite_some_none_eq_some.mp h
    unfold exchangeUnlock
    split_ifs with hw hw2
    · exact .move (hp ▸ Moves.notOwner rfl hw)
    · exact .move (hp ▸ Moves.unlockWake)
    · exact .move (hp ▸ Moves.unlock hw2)
  | condWait =>
    obtain ⟨hp, rfl⟩ := Option.ite_some_none_eq_some.mp h
    exact .move (hp ▸ Moves.read)
  | signal | broadcast => exact notify_step h
  | go => exact goOn_step h

end

/-! ### Wakes -/

section

variable {s : Sync n} {t : Fin n} {max : ℕ} {at_ : Pc → Bool} {next : Pc}

theorem at_of_mem_firstAt (h : t ∈ firstAt s max at_) : at_ (s.pc t) = true :=
  (mem_filter.mp (mem_of_mem_take h)).2

theorem mem_firstAt (hn : n ≤ max) (ht : at_ (s.pc t) = true) : t ∈ firstAt s max at_ := by
  have hlen : ((List.finRange n).filter fun u => at_ (s.pc u)).length ≤ max :=
    (length_filter_le _ _).trans (by simpa using hn)
  rw [firstAt, take_of_length_le hlen]
  exact mem_filter.mpr ⟨mem_finRange t, ht⟩

theorem exists_mem_firstAt (hmax : max ≠ 0) (ht : at_ (s.pc t) = true) :
    ∃ u, u ∈ firstAt s max at_ := by
  refine exists_mem_of_ne_nil _ fun hnil => ?_
  rcases take_eq_nil_iff.mp hnil with h | h
  · exact hmax h
  · have hmem : t ∈ (List.finRange n).filter fun u => at_ (s.pc u) :=
      mem_filter.mpr ⟨mem_finRange t, ht⟩
    rw [h] at hmem
    exact not_mem_nil hmem

theorem futexWake_pc (u : Fin n) : (futexWake s max at_ next).pc u =
    if u ∈ firstAt s max at_ then next else s.pc u := rfl

theorem futexWake_congr {α : Type*} (f : Pc → α) (hf : ∀ p, at_ p = true → f next = f p)
    (u : Fin n) : f ((futexWake s max at_ next).pc u) = f (s.pc u) := by
  rw [futexWake_pc]
  split_ifs with hu
  · exact hf _ (at_of_mem_firstAt hu)
  · rfl

end

/-! ### Mutual exclusion -/

structure Excl (s : Sync n) : Prop where
  le : s.word ≤ 2
  free : s.word = 0 → ∀ t, (s.pc t).holds = false
  held : s.word ≠ 0 → ∃ t, (s.pc t).holds = true
  one : ∀ t u, (s.pc t).holds = true → (s.pc u).holds = true → t = u

section

variable {s s' : Sync n} {t : Fin n} {w : ℕ} {p q : Pc}

theorem Moves.holds (h : Moves s p w q) (hle : s.word ≤ 2) :
    (q.holds = p.holds ∧ (w = 0 ↔ s.word = 0) ∧ w ≤ 2) ∨
    (q.holds = true ∧ s.word = 0 ∧ w ≠ 0 ∧ w ≤ 2) ∨
    (p.holds = true ∧ q.holds = false ∧ w = 0) := by
  cases h with
  | acquire _ hw | seize hw => exact .inr (.inl ⟨rfl, hw, by omega, by omega⟩)
  | contend hp =>
    refine .inl ⟨?_, Iff.rfl, hle⟩
    rcases hp with rfl | rfl <;> rfl
  | mark hw => exact .inl ⟨rfl, by omega, le_rfl⟩
  | refused | block hw | again hw | read | condBlock hs | condAgain =>
    exact .inl ⟨rfl, Iff.rfl, hle⟩
  | notOwner hp hw => exact .inr (.inr ⟨hp, rfl, rfl⟩)
  | unlock hw | unlockWake | condUnlock hw | condUnlockWake =>
    exact .inr (.inr ⟨rfl, rfl, rfl⟩)

theorem Excl.congr (h : Excl s) (hw : s'.word = 0 ↔ s.word = 0) (hle : s'.word ≤ 2)
    (hp : ∀ u, (s'.pc u).holds = (s.pc u).holds) : Excl s' := by
  refine ⟨hle, fun hz u => ?_, fun hz => ?_, fun u v hu hv => ?_⟩
  · rw [hp]
    exact h.free (hw.mp hz) u
  · obtain ⟨u, hu⟩ := h.held fun hs => hz (hw.mpr hs)
    exact ⟨u, (hp u).trans hu⟩
  · exact h.one u v ((hp u).symm.trans hu) ((hp v).symm.trans hv)

theorem holds_set (hq : q.holds = (s.pc t).holds) (u : Fin n) :
    ((s.set t q).pc u).holds = (s.pc u).holds := by
  by_cases hu : u = t
  · subst hu
    exact (congrArg Pc.holds (update_self _ _ _)).trans hq
  · exact congrArg Pc.holds (update_of_ne hu _ _)

theorem Excl.move (h : Excl s) (hm : Moves s (s.pc t) w q) : Excl { s.set t q with word := w } := by
  have hne : ∀ u, u ≠ t → update s.pc t q u = s.pc u :=
    fun u hu => update_of_ne hu _ _
  have heq : update s.pc t q t = q := update_self _ _ _
  rcases hm.holds h.le with ⟨hq, hw, hle⟩ | ⟨hq, hz, hw, hle⟩ | ⟨hp, hq, hw⟩
  · exact h.congr hw hle (holds_set hq)
  · have hnone := h.free hz
    have honly : ∀ u, (update s.pc t q u).holds = true → u = t := by
      intro u hu
      by_contra hut
      rw [hne u hut, hnone u] at hu
      cases hu
    refine ⟨hle, fun hw0 => absurd hw0 hw, fun _ => ⟨t, (congrArg Pc.holds heq).trans hq⟩, ?_⟩
    exact fun u v hu hv => (honly u hu).trans (honly v hv).symm
  · have hnone : ∀ u, (update s.pc t q u).holds = false := by
      intro u
      by_cases hu : u = t
      · subst hu
        exact (congrArg Pc.holds heq).trans hq
      · rw [hne u hu]
        by_contra hh
        exact hu (h.one u t (by simpa using hh) hp)
    refine ⟨hw ▸ Nat.zero_le 2, fun _ => hnone, fun hw0 => absurd hw hw0, ?_⟩
    exact fun u v hu _ => absurd ((hnone u).symm.trans hu) Bool.false_ne_true

theorem Excl.step (h : Excl s) (hs : Step s t s') : Excl s' := by
  cases hs with
  | move hm => exact h.move hm
  | @notify held max hp =>
    refine h.congr Iff.rfl h.le fun u => holds_set ?_ u
    rw [hp]
    cases held <;> rfl
  | @wake q hp =>
    have hwake : ∀ u, ((futexWake s 1 (· == .blocked) (.swap true)).pc u).holds =
        (s.pc u).holds := futexWake_congr Pc.holds fun p hp => by
      rw [eq_of_beq hp]
      rfl
    refine h.congr Iff.rfl h.le fun u => (holds_set ?_ u).trans (hwake u)
    rw [hwake t]
    rcases hp with ⟨hp, rfl⟩ | ⟨v, r, hp, rfl⟩ <;> rw [hp] <;> rfl
  | @condWake held max i hp =>
    have hwake : ∀ u, ((futexWake s max Pc.inCond .lock).pc u).holds = (s.pc u).holds :=
      futexWake_congr Pc.holds fun p hp => by cases p <;> first | rfl | cases hp
    refine h.congr Iff.rfl h.le fun u => (holds_set ?_ u).trans (hwake u)
    rw [hwake t, hp]
    cases held <;> rfl

end

/-! ### Wakeups of the mutex -/

/-- If a thread is blocked on the word, the word says so, or somebody is about to wake it, or
somebody was woken and is about to mark the word again. -/
def NoLost (s : Sync n) : Prop :=
  (∃ t, s.pc t = .blocked) → s.word = 2 ∨ (∃ t, (s.pc t).waking = true) ∨ ∃ t, (s.pc t).woken = true

section

variable {s s' : Sync n} {t : Fin n} {w : ℕ} {p q : Pc}

theorem Moves.wakes (h : Moves s p w q) :
    w = 2 ∨ q.waking = true ∨ (s.word = 2 → w = 2) ∧ (p.woken = true → q.woken = true) ∧
      p.waking = false ∧ q ≠ .blocked := by
  cases h with
  | acquire hp hw =>
    refine .inr (.inr ⟨by omega, ?_, ?_, by simp⟩)
    · rcases hp with rfl | rfl <;> simp [Pc.woken]
    · rcases hp with rfl | rfl <;> rfl
  | contend hp =>
    refine .inr (.inr ⟨id, ?_, ?_, by simp⟩)
    · rcases hp with rfl | rfl <;> simp [Pc.woken]
    · rcases hp with rfl | rfl <;> rfl
  | seize hw => exact .inl rfl
  | mark hw => exact .inl rfl
  | block hw => exact .inl hw
  | again hw => exact .inr (.inr ⟨id, id, rfl, by simp⟩)
  | notOwner hp hw =>
    refine .inr (.inr ⟨by omega, ?_, ?_, by simp⟩)
    · cases p <;> simp_all [Pc.holds, Pc.woken]
    · cases p <;> simp_all [Pc.holds, Pc.waking]
  | unlock hw | condUnlock hw =>
    exact .inr (.inr ⟨fun h => absurd h hw, fun hb => absurd hb (by simp [Pc.woken]), rfl, by simp⟩)
  | unlockWake | condUnlockWake => exact .inr (.inl rfl)
  | refused | read | condBlock hs | condAgain =>
    exact .inr (.inr ⟨id, fun hb => absurd hb (by simp [Pc.woken]), rfl, by simp⟩)

theorem NoLost.updated (h : NoLost s) (hw : s.word = 2 → s'.word = 2)
    (hpc : s'.pc = update s.pc t q) (hwoken : (s.pc t).woken = true → q.woken = true)
    (hwaking : (s.pc t).waking = false) (hq : q ≠ .blocked) : NoLost s' := by
  have hne : ∀ u, u ≠ t → s'.pc u = s.pc u := fun u hu => by
    rw [hpc, update_of_ne hu]
  have heq : s'.pc t = q := by rw [hpc, update_self]
  rintro ⟨u, hu⟩
  have hut : u ≠ t := by
    rintro rfl
    exact hq (heq.symm.trans hu)
  rcases h ⟨u, (hne u hut).symm.trans hu⟩ with hs | ⟨v, hv⟩ | ⟨v, hv⟩
  · exact .inl (hw hs)
  · have hvt : v ≠ t := by
      rintro rfl
      rw [hwaking] at hv
      cases hv
    exact .inr (.inl ⟨v, (congrArg Pc.waking (hne v hvt)).trans hv⟩)
  · refine .inr (.inr ⟨v, ?_⟩)
    by_cases hvt : v = t
    · subst hvt
      rw [heq]
      exact hwoken hv
    · rw [hne v hvt]
      exact hv

theorem NoLost.step (h : NoLost s) (hs : Step s t s') : NoLost s' := by
  cases hs with
  | @move w q hm =>
    rcases hm.wakes with hw | hq | ⟨hw, hwoken, hwaking, hq⟩
    · exact fun _ => .inl hw
    · exact fun _ => .inr (.inl ⟨t, (congrArg Pc.waking (update_self _ _ _)).trans hq⟩)
    · exact h.updated hw rfl hwoken hwaking hq
  | @notify held max hp =>
    refine h.updated id rfl ?_ ?_ (by simp)
    · rw [hp]
      cases held <;> simp [Pc.woken]
    · rw [hp]
      cases held <;> rfl
  | @wake q hp =>
    have hq : q ≠ .blocked ∧ s.pc t ≠ .blocked := by
      rcases hp with ⟨hp, rfl⟩ | ⟨v, r, hp, rfl⟩ <;> simp [hp]
    rintro ⟨u, hu⟩
    have hut : u ≠ t := by
      rintro rfl
      exact hq.1 ((update_self _ _ _).symm.trans hu)
    have hub : s.pc u = .blocked := by
      have hu' := (update_of_ne hut _ _).symm.trans hu
      rw [futexWake_pc] at hu'
      split_ifs at hu' with hmem
      exact hu'
    -- the first of the blocked threads is woken
    obtain ⟨v, hv⟩ := @exists_mem_firstAt n s u 1 (· == .blocked) one_ne_zero (by rw [hub]; rfl)
    have hvt : v ≠ t := by
      rintro rfl
      exact hq.2 (eq_of_beq (at_of_mem_firstAt hv))
    refine .inr (.inr ⟨v, ?_⟩)
    refine (congrArg Pc.woken (update_of_ne hvt _ _)).trans ?_
    rw [futexWake_pc, if_pos hv]
    rfl
  | @condWake held max i hp =>
    have hsame {α : Type} (f : Pc → α) (hf : ∀ r e, f .lock = f (.condBlocked r e)) (u : Fin n) :
        f ((futexWake s max Pc.inCond .lock).pc u) = f (s.pc u) :=
      futexWake_congr f (fun p hp => by cases p <;> first | exact hf _ _ | cases hp) u
    have hmid : NoLost (futexWake s max Pc.inCond .lock) := by
      rintro ⟨u, hu⟩
      have hub := hsame (· == .blocked) (fun _ _ => rfl) u
      rw [hu] at hub
      rcases h ⟨u, eq_of_beq hub.symm⟩ with hw | ⟨v, hv⟩ | ⟨v, hv⟩
      · exact .inl hw
      · exact .inr (.inl ⟨v, (hsame Pc.waking (fun _ _ => rfl) v).trans hv⟩)
      · exact .inr (.inr ⟨v, (hsame Pc.woken (fun _ _ => rfl) v).trans hv⟩)
    refine hmid.updated id rfl ?_ ?_ ?_
    · rw [hsame Pc.woken (fun _ _ => rfl) t, hp]
      simp [Pc.woken]
    · rw [hsame Pc.waking (fun _ _ => rfl) t, hp]
      rfl
    · cases held <;> simp

end

/-! ### Wakeups of the condition variable -/

def Pc.reads : Pc → Option (ℕ × ℕ)
  | .condUnlock v r => some (v, r)
  | .wakeCond v r => some (v, r)
  | .condWait v r => some (v, r)
  | _ => none

/-- What is known of a thread at `p`. One that is blocked on `seq` has seen the increments of all
finished broadcasts. -/
structure Knows (s : Sync n) (p : Pc) : Prop where
  reads : ∀ x, p.reads = some x → x.1 = u32 x.2 ∧ x.2 ≤ s.incs
  number : ∀ held max i, p = .condWake held max i → i < s.incs
  seen : n < 2 ^ 32 → ∀ r e, p = .condBlocked r e → e < r + 2 ^ 32 → ∀ i ∈ s.finished, i < r

structure CondInv (s : Sync n) : Prop where
  seq : s.seq = u32 s.incs
  finished : ∀ i ∈ s.finished, i < s.incs
  knows : ∀ t, Knows s (s.pc t)

section

variable {s s' : Sync n} {t : Fin n} {w : ℕ} {p q : Pc}

theorem Moves.reads (h : Moves s p w q) :
    q.reads = none ∨ q.reads = p.reads ∨ q.reads = some (s.seq, s.incs) := by
  cases h with
  | condUnlock hw | condUnlockWake => exact .inr (.inl rfl)
  | read => exact .inr (.inr rfl)
  | _ => exact .inl rfl

theorem Moves.ne_condWake (h : Moves s p w q) (held : Bool) (max i : ℕ) :
    q ≠ .condWake held max i := by
  cases h <;> simp

theorem Moves.condBlocked (h : Moves s p w q) {r e : ℕ} (hq : q = .condBlocked r e) :
    p.reads = some (s.seq, r) ∧ e = s.incs := by
  cases h <;> simp_all [Pc.reads]

theorem Knows.mono (h : Knows s p) (hincs : s.incs ≤ s'.incs) (hfin : s'.finished = s.finished) :
    Knows s' p := by
  refine ⟨fun x hx => ?_, fun held max i hp => (h.number held max i hp).trans_le hincs, ?_⟩
  · obtain ⟨hv, hr⟩ := h.reads x hx
    exact ⟨hv, hr.trans hincs⟩
  · rw [hfin]
    exact h.seen

theorem CondInv.updated (h : CondInv s) (hpc : s'.pc = update s.pc t q)
    (hseq : s'.seq = u32 s'.incs) (hincs : s.incs ≤ s'.incs) (hfin : s'.finished = s.finished)
    (hq : Knows s' q) : CondInv s' := by
  refine ⟨hseq, fun i hi => (h.finished i (hfin ▸ hi)).trans_le hincs, fun u => ?_⟩
  rw [hpc]
  by_cases hut : u = t
  · subst hut
    rw [update_self]
    exact hq
  · rw [update_of_ne hut]
    exact (h.knows u).mono hincs hfin

theorem eq_of_u32_eq {i r : ℕ} (h : u32 i = u32 r) (hle : r ≤ i) (hlt : i < r + 2 ^ 32) :
    i = r := by
  unfold u32 at h
  omega

theorem CondInv.move (h : CondInv s) (hm : Moves s (s.pc t) w q) :
    CondInv { s.set t q with word := w } := by
  refine h.updated rfl h.seq le_rfl rfl ⟨fun x hx => ?_, fun held max i hq => ?_, fun _ => ?_⟩
  · rcases hm.reads with hq | hq | hq
    · rw [hq] at hx
      cases hx
    · exact (h.knows t).reads x (hq.symm.trans hx)
    · rw [hq] at hx
      cases hx
      exact ⟨h.seq, le_rfl⟩
  · exact absurd hq (hm.ne_condWake held max i)
  · intro r e hq hlt i hi
    obtain ⟨hread, rfl⟩ := hm.condBlocked hq
    obtain ⟨hv, hr⟩ := (h.knows t).reads _ hread
    have heq : s.incs = r := eq_of_u32_eq (h.seq.symm.trans hv) hr hlt
    exact heq ▸ h.finished i hi

theorem CondInv.futexWake (h : CondInv s) {max : ℕ} {at_ : Pc → Bool} {next : Pc}
    (hnext : Knows s next) : CondInv (futexWake s max at_ next) := by
  refine ⟨h.seq, h.finished, fun u => ?_⟩
  rw [futexWake_pc]
  split_ifs
  · exact { hnext with }
  · exact { h.knows u with }

theorem futexWake_inCond (hn : n < 2 ^ 32) (u : Fin n) :
    ((futexWake s uint32Max Pc.inCond .lock).pc u).inCond = false := by
  rw [futexWake_pc]
  split_ifs with hu
  · rfl
  · by_contra hc
    have hmax : n ≤ uint32Max := by
      unfold uint32Max
      omega
    exact hu (mem_firstAt hmax (by simpa using hc))

theorem CondInv.step (h : CondInv s) (hs : Step s t s') : CondInv s' := by
  cases hs with
  | move hm => exact h.move hm
  | @notify held max hp =>
    refine h.updated rfl ?_ (Nat.le_succ _) rfl ⟨nofun, ?_, fun _ => nofun⟩
    · change u32 (s.seq + 1) = u32 (s.incs + 1)
      rw [h.seq]
      unfold u32
      omega
    · rintro held max i hq
      cases hq
      exact Nat.lt_succ_self _
  | @wake q hp =>
    have hmid : CondInv (Mutex.futexWake s 1 (· == .blocked) (.swap true)) :=
      h.futexWake ⟨nofun, nofun, fun _ => nofun⟩
    refine hmid.updated rfl h.seq le_rfl rfl ?_
    rcases hp with ⟨hp, rfl⟩ | ⟨v, r, hp, rfl⟩
    · exact ⟨nofun, nofun, fun _ => nofun⟩
    · exact ⟨fun x hx => (h.knows t).reads x (by rw [hp]; exact hx), nofun, fun _ => nofun⟩
  | @condWake held max i hp =>
    have hmid : CondInv (Mutex.futexWake s max Pc.inCond .lock) :=
      h.futexWake ⟨nofun, nofun, fun _ => nofun⟩
    have hset : CondInv ((Mutex.futexWake s max Pc.inCond .lock).set t
        (if held then .holding else .idle)) := by
      refine hmid.updated rfl h.seq le_rfl rfl ?_
      cases held <;> exact ⟨nofun, nofun, fun _ => nofun⟩
    have hi := (h.knows t).number held max i hp
    refine ⟨hset.seq, fun j hj => ?_, fun u => { hset.knows u with
      seen := fun hn r e hu hlt j hj => ?_ }⟩
    · dsimp only at hj
      split_ifs at hj
      · rcases mem_cons.mp hj with rfl | hj
        · exact hi
        · exact h.finished j hj
      · exact h.finished j hj
    · dsimp only at hj
      split_ifs at hj with hmax
      · -- a broadcast leaves nobody of whom this is to be shown
        subst hmax
        have hnone : Pc.inCond (((Mutex.futexWake s uint32Max Pc.inCond .lock).set t
            (if held then .holding else .idle)).pc u) = false := by
          by_cases hut : u = t
          · subst hut
            refine (congrArg Pc.inCond (update_self _ _ _)).trans ?_
            cases held <;> rfl
          · exact (congrArg Pc.inCond (update_of_ne hut _ _)).trans
              (futexWake_inCond hn u)
        rw [show _ = Pc.condBlocked r e from hu] at hnone
        cases hnone
      · exact (hset.knows u).seen hn r e hu hlt j hj

end

/-! ### All interleavings -/

theorem Reachable.inv {s : Sync n} (h : Reachable s) : Excl s ∧ NoLost s ∧ CondInv s := by
  induction h with
  | init =>
    refine ⟨⟨Nat.zero_le 2, fun _ _ => rfl, fun h => absurd rfl h, nofun⟩, ?_,
      ⟨rfl, nofun, fun _ => ⟨nofun, nofun, fun _ => nofun⟩⟩⟩
    rintro ⟨t, ht⟩
    cases ht
  | step _ he ih =>
    have hs := exec_step he
    exact ⟨ih.1.step hs, ih.2.1.step hs, ih.2.2.step hs⟩

/-- **The mutex excludes and loses no wakeup.** At most one thread has it. If a thread is blocked
on its word, somebody has it, or has yet to execute the wake of an unlock, or was woken and is
still inside `fry_mutex_lock`. Of a thread that is blocked in `fry_cond_wait`, and whose wait came
fewer than `2^32` increments after its read, no broadcast that incremented `seq` after the read is
over; and the wake of a broadcast wakes it. -/
theorem mutex_correct {s : Sync n} (h : Reachable s) :
    (∀ t u, (s.pc t).holds = true → (s.pc u).holds = true → t = u) ∧
    ((∃ t, s.pc t = .blocked) → (∃ t, (s.pc t).holds = true) ∨ (∃ t, (s.pc t).waking = true) ∨
        ∃ t, (s.pc t).woken = true) ∧
    (n < 2 ^ 32 → ∀ t r e, s.pc t = .condBlocked r e → (e < r + 2 ^ 32 → ∀ i ∈ s.finished, i < r) ∧
      ∀ u held i s', s.pc u = .condWake held uint32Max i → exec s u .go = some s' →
        s'.pc t = .lock) := by
  obtain ⟨hexcl, hlost, hcond⟩ := h.inv
  refine ⟨hexcl.one, fun hb => ?_, fun hn t r e ht => ⟨(hcond.knows t).seen hn r e ht, ?_⟩⟩
  · rcases hlost hb with hw | hw
    · exact .inl (hexcl.held (by omega))
    · exact .inr hw
  · intro u held i s' hu hs'
    simp only [exec, goOn, hu, Option.some.injEq] at hs'
    have htu : t ≠ u := by
      rintro rfl
      rw [ht] at hu
      cases hu
    have hmem : t ∈ firstAt s uint32Max Pc.inCond :=
      mem_firstAt (by unfold uint32Max; omega) (by rw [ht]; rfl)
    rw [← hs']
    refine (update_of_ne htu _ _).trans ?_
    rw [futexWake_pc, if_pos hmem]

def run (s : Sync n) : List (Fin n × Act) → Option (Sync n)
  | [] => some s
  | (t, a) :: as => (exec s t a).bind fun s => run s as

theorem Reachable.run {s s' : Sync n} (h : Reachable s) :
    ∀ {as : List (Fin n × Act)}, run s as = some s' → Reachable s'
  | [], he => Option.some.inj he ▸ h
  | (t, a) :: as, he => by
    obtain ⟨s1, h1, he⟩ := Option.bind_eq_some_iff.mp he
    exact (h.step h1).run he

def contention : List (Fin 3 × Act) :=
  [(2, .lock), (2, .condWait), (2, .go), (2, .go), (0, .lock), (1, .lock), (1, .go), (1, .go),
    (0, .broadcast)]

theorem mutex_correct_contention :
    ∃ s : Sync 3, Reachable s ∧ s.pc 1 = .blocked ∧ (∃ t, (s.pc t).holds = true) ∧
      s.pc 2 = .condBlocked 0 0 ∧ ∃ s', exec s 0 .go = some s' ∧ s'.pc 2 = .lock := by
  obtain ⟨s, hs⟩ : ∃ s, run (init 3) contention = some s := ⟨_, rfl⟩
  have hreach : Reachable s := Reachable.init.run hs
  obtain ⟨hone, hblocked, hcond⟩ := mutex_correct hreach
  cases hs
  refine ⟨_, hreach, rfl, ⟨0, rfl⟩, rfl, _, rfl, ?_⟩
  exact (hcond (by norm_num) 2 0 0 rfl).2 0 true 0 _ rfl rfl

/-! ### More waiters than a wake takes -/

def waiting (n k : ℕ) : Sync n :=
  { init n with pc := fun t => if t.val < k then .condBlocked 0 0 else .idle }

theorem waiting_reachable {k : ℕ} (hk : k ≤ n) : Reachable (waiting n k) := by
  induction k with
  | zero => exact Reachable.init
  | succ k ih =>
    have hpc : update (waiting n k).pc ⟨k, hk⟩ (.condBlocked 0 0) = (waiting n (k + 1)).pc := by
      funext t
      simp only [update_apply, Fin.ext_iff, waiting]
      split_ifs <;> first | rfl | omega
    have hrun : run (waiting n k) [(⟨k, hk⟩, .lock), (⟨k, hk⟩, .condWait), (⟨k, hk⟩, .go),
        (⟨k, hk⟩, .go)] = some { waiting n k with
          pc := update (waiting n k).pc ⟨k, hk⟩ (.condBlocked 0 0) } := by
      simp [run, exec, goOn, compareAndSwap, exchangeUnlock, Sync.set, waiting, init]
    rw [hpc] at hrun
    exact (ih (by omega)).run hrun

theorem exists_not_mem_firstAt {max k : ℕ} {s : Sync n} (at_ : Pc → Bool) (hk : k ≤ n)
    (hmax : max < k) : ∃ t : Fin n, t.val < k ∧ t ∉ firstAt s max at_ := by
  by_contra hall
  push Not at hall
  have hsub : (Finset.univ.map (Fin.castLEEmb hk)) ⊆ (firstAt s max at_).toFinset := by
    intro t ht
    obtain ⟨u, -, rfl⟩ := Finset.mem_map.mp ht
    exact mem_toFinset.mpr (hall _ u.isLt)
  have hcard := (Finset.card_le_card hsub).trans (toFinset_card_le _)
  rw [Finset.card_map, Finset.card_univ, Fintype.card_fin] at hcard
  have hlen : (firstAt s max at_).length ≤ max := length_take_le _ _
  omega

theorem broadcast_leaves {m : ℕ} (hm : uint32Max < m) :
    ∃ (s s' : Sync (m + 1)) (t u : Fin (m + 1)), Reachable s ∧ s.pc t = .condBlocked 0 0 ∧
      s.pc u = .condWake false uint32Max 0 ∧ exec s u .go = some s' ∧
      s'.pc t = .condBlocked 0 0 := by
  have hidle : (waiting (m + 1) m).pc (Fin.last m) = .idle := if_neg (lt_irrefl m)
  have hreach : Reachable (fetchAndAdd (waiting (m + 1) m) (Fin.last m) false uint32Max) := by
    refine (waiting_reachable (Nat.le_succ m)).step (t := Fin.last m) (a := .broadcast) ?_
    rw [exec, notify, hidle]
  obtain ⟨t, ht, hleft⟩ := exists_not_mem_firstAt
    (s := fetchAndAdd (waiting (m + 1) m) (Fin.last m) false uint32Max) Pc.inCond
    (Nat.le_succ m) hm
  have hne : t ≠ Fin.last m := fun h => lt_irrefl m (by rw [h] at ht; exact ht)
  have hu : (fetchAndAdd (waiting (m + 1) m) (Fin.last m) false uint32Max).pc (Fin.last m) =
      .condWake false uint32Max 0 := update_self _ _ _
  have hpc : (fetchAndAdd (waiting (m + 1) m) (Fin.last m) false uint32Max).pc t =
      .condBlocked 0 0 := (update_of_ne hne _ _).trans (if_pos ht)
  refine ⟨_, _, t, Fin.last m, hreach, hpc, hu, by rw [exec, goOn, hu], ?_⟩
  refine (update_of_ne hne _ _).trans ?_
  rw [futexWake_pc, if_neg hleft, hpc]

/-- With `2 ^ 32 + 1` threads. -/
theorem waiter_left : ∃ (s s' : Sync (2 ^ 32 + 1)) (t u : Fin (2 ^ 32 + 1)), Reachable s ∧
      s.pc t = .condBlocked 0 0 ∧ s.pc u = .condWake false uint32Max 0 ∧
      exec s u .go = some s' ∧ s'.pc t = .condBlocked 0 0 :=
  broadcast_leaves (by unfold uint32Max; norm_num)

end TaterTOS.Libc.Mutex
