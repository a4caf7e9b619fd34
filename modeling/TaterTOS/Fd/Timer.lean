import TaterTOS.Lib.Word
import Mathlib.Order.Interval.Set.Nat

/-!
# Timer descriptors

The `timerfd` objects of `syscall.c`: arming one, polling it, and reading its expirations.

* **`expirations_exact`**: reads deliver the expirations that are due.
-/

namespace TaterTOS.Fd.Timer

open Lib

inductive Errno
  | badf
  | fault
  | again
  deriving DecidableEq

structure TimerfdCb where
  itValueMs : ℕ
  itIntervalMs : ℕ
  deadlineMs : ℕ
  expirations : ℕ
  used : Bool
  deriving DecidableEq

def timerfdUpdateExpirations (tm : TimerfdCb) (nowMs : ℕ) : TimerfdCb :=
  if !tm.used ∨ tm.itValueMs = 0 ∨ tm.deadlineMs = 0 then tm
  else if nowMs < tm.deadlineMs then tm
  else if tm.itIntervalMs = 0 then
    { tm with expirations := u64 (tm.expirations + 1), itValueMs := 0, deadlineMs := 0 }
  else
    let count := u64 (1 + (nowMs - tm.deadlineMs) / tm.itIntervalMs)
    { tm with
      expirations := u64 (tm.expirations + count)
      deadlineMs := u64 (tm.deadlineMs + u64 (count * tm.itIntervalMs)) }

structure Itimerspec where
  valueSec : ℕ
  valueNsec : ℕ
  intervalSec : ℕ
  intervalNsec : ℕ

def toMs (sec nsec : ℕ) : ℕ := u64 (u64 (sec * 1000) + nsec / 1000000)

inductive NewValue
  | null
  | unmapped
  | spec (v : Itimerspec)

/-- The branch of `TFD_TIMER_ABSTIME`, where no expiration is pending. -/
def armAbsolute (tm : TimerfdCb) (value nowMs : ℕ) : TimerfdCb :=
  let deadline :=
    if value ≤ nowMs ∧ 0 < tm.itIntervalMs then u64 (nowMs + tm.itIntervalMs) else value
  { tm with
    deadlineMs := deadline
    expirations := if value ≤ nowMs then 1 else tm.expirations
    itValueMs := if nowMs < deadline then deadline - nowMs else 0 }

def timerfdSettime (tm : TimerfdCb) (tflags : ℕ) (a3 : NewValue) (nowMs : ℕ) :
    Except Errno TimerfdCb :=
  if !tm.used then .error .badf
  else match a3 with
    | .null => .ok { tm with itValueMs := 0, deadlineMs := 0, expirations := 0 }
    | .unmapped => .error .fault
    | .spec v =>
      let value := toMs v.valueSec v.valueNsec
      let tm := { tm with
        itIntervalMs := toMs v.intervalSec v.intervalNsec
        expirations := 0 }
      if value = 0 then .ok { tm with itValueMs := 0, deadlineMs := 0 }
      else if tflags &&& 1 ≠ 0 then .ok (armAbsolute tm value nowMs)
      else .ok { tm with itValueMs := value, deadlineMs := u64 (nowMs + value) }

def timerfdRead (tm : TimerfdCb) (nowMs : ℕ) : Except Errno ℕ × TimerfdCb :=
  if !tm.used then (.error .badf, tm)
  else
    let tm := timerfdUpdateExpirations tm nowMs
    if tm.expirations = 0 then (.error .again, tm)
    else (.ok tm.expirations, { tm with expirations := 0 })

/-- The timer's part of `poll_check_fd`: whether the descriptor is readable. -/
def timerfdPoll (tm : TimerfdCb) (nowMs : ℕ) : Option Bool × TimerfdCb :=
  if !tm.used then (none, tm)
  else
    let tm := timerfdUpdateExpirations tm nowMs
    (some (0 < tm.expirations), tm)

inductive Event
  | poll (t : ℕ)
  | read (t : ℕ)

def Event.time : Event → ℕ
  | .poll t | .read t => t

def step (tm : TimerfdCb) : Event → ℕ × TimerfdCb
  | .poll t => (0, (timerfdPoll tm t).2)
  | .read t => ((timerfdRead tm t).1.toOption.getD 0, (timerfdRead tm t).2)

def run (tm : TimerfdCb) : List Event → ℕ × TimerfdCb
  | [] => (0, tm)
  | e :: es => ((step tm e).1 + (run (step tm e).2 es).1, (run (step tm e).2 es).2)

/-! ### Counting -/

/-- The expirations up to `t` of a timer with the first deadline `d` and the period `p`. -/
def due (d p t : ℕ) : Set ℕ := {k | d + k * p ≤ t ∧ (p = 0 → k = 0)}

structure Counts (d p t got : ℕ) (tm : TimerfdCb) : Prop where
  used : tm.used = true
  interval : tm.itIntervalMs = p
  counted : due d p t = Set.Iio (got + tm.expirations)
  idle : p = 0 → got + tm.expirations ≠ 0 → tm.itValueMs = 0
  armed : (p = 0 → got + tm.expirations = 0) →
    tm.itValueMs ≠ 0 ∧ tm.deadlineMs = d + (got + tm.expirations) * p

variable {d p t t' got n : ℕ} {tm : TimerfdCb}

theorem due_zero (h : d ≤ t) : due d 0 t = Set.Iio 1 := by
  ext k
  simp [due, h]

theorem due_none (h : t < d) : due d p t = Set.Iio 0 := by
  ext k
  simp only [due, Set.mem_ofPred_eq, Set.mem_Iio]
  omega

theorem due_before (hn : due d p t = Set.Iio n) (htt : t ≤ t') (ht : t' < d + n * p) :
    due d p t' = Set.Iio n := by
  ext k
  constructor
  · rintro ⟨hk, -⟩
    by_contra hnk
    have := Nat.mul_le_mul_right p (not_lt.mp hnk)
    omega
  · intro hk
    rw [← hn] at hk
    exact ⟨hk.1.trans htt, hk.2⟩

theorem due_after (hp : 0 < p) (ht : d + n * p ≤ t) :
    due d p t = Set.Iio (n + (1 + (t - (d + n * p)) / p)) := by
  ext k
  have hq : k < n + (1 + (t - (d + n * p)) / p) ↔ k - n ≤ (t - (d + n * p)) / p := by
    generalize (t - (d + n * p)) / p = q
    omega
  rw [Set.mem_Iio, hq, Nat.le_div_iff_mul_le hp, Nat.sub_mul]
  simp only [due, Set.mem_ofPred_eq]
  omega

theorem le_of_due (hd : 0 < d) (h : due d p t = Set.Iio n) (hn : n ≠ 0) : n ≤ t := by
  have hmem : n - 1 ∈ due d p t := by
    rw [h]
    exact Nat.pred_lt hn
  obtain ⟨hle, h0⟩ := hmem
  rcases Nat.eq_zero_or_pos p with rfl | hp
  · omega
  · have := Nat.le_mul_of_pos_right (n - 1) hp
    omega

theorem Counts.update (hd : 0 < d) (h : Counts d p t got tm) (htt : t ≤ t')
    (hfit : t' + p < 2 ^ 64) : Counts d p t' got (timerfdUpdateExpirations tm t') := by
  obtain ⟨hused, rfl, hdue, hidle, harmed⟩ := h
  unfold timerfdUpdateExpirations
  by_cases hone : tm.itIntervalMs = 0 ∧ got + tm.expirations ≠ 0
  · -- a timer without a period has expired: it stays as it is
    have h0 : 0 ∈ due d tm.itIntervalMs t := by
      rw [hdue]
      exact Nat.pos_of_ne_zero hone.2
    have hdt : d ≤ t := by simpa using h0.1
    rw [if_pos (.inr (.inl (hidle hone.1 hone.2)))]
    refine ⟨hused, rfl, ?_, hidle, harmed⟩
    rw [← hdue, hone.1, due_zero hdt, due_zero (hdt.trans htt)]
  have hn : tm.itIntervalMs = 0 → got + tm.expirations = 0 := by tauto
  obtain ⟨hvalue, hdl⟩ := harmed hn
  have hpos : tm.deadlineMs ≠ 0 := by omega
  rw [if_neg (by simp [hused, hvalue, hpos])]
  split_ifs with hbefore hp
  · exact ⟨hused, rfl, due_before hdue htt (hdl ▸ hbefore), hidle, harmed⟩
  · have hdt : d ≤ t' := by
      omega
    have hzero := hn hp
    have hexp : u64 (tm.expirations + 1) = tm.expirations + 1 := u64_of_lt (by omega)
    refine ⟨hused, rfl, ?_, fun _ _ => rfl, fun hno => ?_⟩
    · rw [hp, due_zero hdt, hexp, ← add_assoc, hzero]
    · have := hno hp
      simp only [hexp] at this
      omega
  · have hle : d + (got + tm.expirations) * tm.itIntervalMs ≤ t' := by omega
    have hdue' := due_after (Nat.pos_of_ne_zero hp) hle
    have hcount : (1 + (t' - tm.deadlineMs) / tm.itIntervalMs) * tm.itIntervalMs ≤
        t' - tm.deadlineMs + tm.itIntervalMs := by
      rw [add_mul, one_mul, add_comm]
      exact Nat.add_le_add_right (Nat.div_mul_le_self _ _) _
    rw [← hdl] at hdue'
    have hlast := le_of_due hd hdue' (by simp)
    generalize 1 + (t' - tm.deadlineMs) / tm.itIntervalMs = count at hdue' hlast hcount ⊢
    have hc : u64 count = count := u64_of_lt (by omega)
    have hexp : u64 (tm.expirations + count) = tm.expirations + count := u64_of_lt (by omega)
    have hmul : u64 (count * tm.itIntervalMs) = count * tm.itIntervalMs := u64_of_lt (by omega)
    simp only [hc, hexp, hmul]
    refine ⟨hused, rfl, ?_, fun h0 => absurd h0 hp, fun _ => ⟨hvalue, ?_⟩⟩
    · rw [hdue', add_assoc]
    · rw [u64_of_lt (by omega), hdl]
      ring

theorem Counts.step (hd : 0 < d) (h : Counts d p t got tm) (e : Event) (htt : t ≤ e.time)
    (hfit : e.time + p < 2 ^ 64) :
    Counts d p e.time (got + (step tm e).1) (step tm e).2 := by
  have hup := h.update hd htt hfit
  cases e with
  | poll t => simpa [Timer.step, timerfdPoll, h.used, Event.time] using hup
  | read t =>
    simp only [Event.time] at hup
    simp only [Timer.step, timerfdRead, h.used, Event.time]
    by_cases h0 : (timerfdUpdateExpirations tm t).expirations = 0
    · simpa [h0, Except.toOption] using hup
    · obtain ⟨hused, hint, hdue, hidle, harmed⟩ := hup
      simp only [h0]
      exact ⟨hused, hint, hdue, hidle, harmed⟩

theorem Counts.run (hd : 0 < d) (h : Counts d p t got tm) (es : List Event)
    (hsort : (t :: es.map Event.time ++ [t']).Pairwise (· ≤ ·)) (hfit : t' + p < 2 ^ 64) :
    ∃ t₁ ≤ t', Counts d p t₁ (got + (run tm es).1) (run tm es).2 := by
  induction es generalizing t got tm with
  | nil => exact ⟨t, by simpa using hsort, h⟩
  | cons e es ih =>
    simp only [List.map_cons, List.cons_append, List.pairwise_cons] at hsort
    have hlast : e.time ≤ t' := hsort.2.1 t' (by simp)
    have hs := h.step hd e (hsort.1 _ List.mem_cons_self) (by omega)
    have hr := ih hs (by simpa using hsort.2)
    rwa [add_assoc] at hr

theorem run_append (tm : TimerfdCb) (es fs : List Event) :
    (run tm (es ++ fs)).1 = (run tm es).1 + (run (run tm es).2 fs).1 := by
  induction es generalizing tm with
  | nil => simp [Timer.run]
  | cons e es ih => simp [Timer.run, ih, add_assoc]

/-! ### Arming -/

def ms (sec nsec : ℕ) : ℕ := sec * 1000 + nsec / 1000000

def Itimerspec.period (v : Itimerspec) : ℕ := ms v.intervalSec v.intervalNsec

def Itimerspec.deadline (v : Itimerspec) (tflags nowMs : ℕ) : ℕ :=
  (if tflags &&& 1 ≠ 0 then 0 else nowMs) + ms v.valueSec v.valueNsec

theorem toMs_eq {sec nsec : ℕ} (h : ms sec nsec < 2 ^ 64) : toMs sec nsec = ms sec nsec := by
  have hsec : u64 (sec * 1000) = sec * 1000 := u64_of_lt ((Nat.le_add_right _ _).trans_lt h)
  unfold toMs
  rw [hsec]
  exact u64_of_lt h

def TimerfdCb.Armed (tm : TimerfdCb) : Prop := tm.itValueMs ≠ 0 ∧ tm.deadlineMs ≠ 0

variable {tflags nowMs : ℕ} {v : Itimerspec}

theorem timerfdSettime_counts (hused : tm.used = true) (hvalue : ms v.valueSec v.valueNsec ≠ 0)
    (hlate : tflags &&& 1 ≠ 0 → v.period ≠ 0 → nowMs ≤ v.deadline tflags nowMs)
    (hd : v.deadline tflags nowMs < 2 ^ 64) (hp : nowMs + v.period < 2 ^ 64) :
    ∃ tm', timerfdSettime tm tflags (.spec v) nowMs = .ok tm' ∧
      Counts (v.deadline tflags nowMs) v.period nowMs 0 tm' := by
  have hval : toMs v.valueSec v.valueNsec = ms v.valueSec v.valueNsec :=
    toMs_eq ((Nat.le_add_left _ _).trans_lt hd)
  have hint : toMs v.intervalSec v.intervalNsec = v.period :=
    toMs_eq ((Nat.le_add_left _ _).trans_lt hp)
  simp only [timerfdSettime, hused, hval, hint, hvalue, Bool.not_true, Bool.false_eq_true,
    if_false]
  unfold Itimerspec.deadline at hd hlate ⊢
  generalize ms v.valueSec v.valueNsec = value at *
  generalize v.period = p at *
  split_ifs at hd hlate ⊢ with habs
  · simp only [zero_add] at hd hlate ⊢
    refine ⟨_, rfl, ?_⟩
    unfold armAbsolute
    rcases lt_or_ge nowMs value with hlt | hle
    · have hnot : ¬value ≤ nowMs := not_le.mpr hlt
      simp only [hnot]
      exact ⟨rfl, rfl, due_none hlt, fun _ h => absurd rfl h, fun _ => by simp; omega⟩
    rcases Nat.eq_zero_or_pos p with rfl | hpos
    · simp only [hle, lt_irrefl, and_false, not_lt.mpr hle, if_false]
      exact ⟨rfl, rfl, due_zero hle, fun _ _ => rfl, fun h => absurd (h rfl) (by simp)⟩
    · -- a period needs the deadline to be the time itself
      obtain rfl : nowMs = value := le_antisymm (hlate habs hpos.ne') hle
      simp only [hpos, u64_of_lt hp]
      refine ⟨rfl, rfl, ?_, fun h => absurd h hpos.ne', fun _ => by simp; omega⟩
      simpa using due_after (d := nowMs) (n := 0) (t := nowMs) hpos (by simp)
  · refine ⟨_, rfl, rfl, rfl, due_none (by omega), fun _ h => absurd rfl h, fun _ => ?_⟩
    simp only [u64_of_lt hd]
    simpa using hvalue

/-- **A timer whose value is a whole millisecond or more, that is not late with a period, and whose
times fit: the expirations that reads deliver up to `t` are those that are due, whatever happened in
between, and the timer stays armed before its first deadline.** -/
theorem expirations_exact (tm : TimerfdCb) (tflags nowMs t : ℕ) (v : Itimerspec)
    (es : List Event) (hused : tm.used = true) (hvalue : ms v.valueSec v.valueNsec ≠ 0)
    (hlate : tflags &&& 1 ≠ 0 → v.period ≠ 0 → nowMs ≤ v.deadline tflags nowMs)
    (hd : v.deadline tflags nowMs < 2 ^ 64) (hp : t + v.period < 2 ^ 64)
    (hsort : (nowMs :: es.map Event.time ++ [t]).Pairwise (· ≤ ·)) :
    ∃ tm', timerfdSettime tm tflags (.spec v) nowMs = .ok tm' ∧
      (run tm' (es ++ [.read t])).1 = (due (v.deadline tflags nowMs) v.period t).ncard ∧
      (t < v.deadline tflags nowMs → (run tm' es).2.Armed) := by
  have hnow : nowMs ≤ t := (List.pairwise_cons.mp hsort).1 t (by simp)
  have hpos : 0 < v.deadline tflags nowMs :=
    (Nat.pos_of_ne_zero hvalue).trans_le (Nat.le_add_left _ _)
  obtain ⟨tm', hset, hc⟩ := timerfdSettime_counts hused hvalue hlate hd (by omega)
  obtain ⟨t₁, ht1, hrun⟩ := hc.run hpos es hsort hp
  simp only [zero_add] at hrun
  refine ⟨tm', hset, ?_, fun hbefore => ?_⟩
  · have hread := hrun.step hpos (.read t) ht1 hp
    have hnone : (step (run tm' es).2 (.read t)).2.expirations = 0 := by
      simp only [step, timerfdRead, hrun.used]
      simp only [ite_not_true]
      split_ifs with h0
      · exact h0
      · rfl
    have hcount := hread.counted
    rw [hnone] at hcount
    change due _ _ t = _ at hcount
    rw [run_append, hcount, Set.ncard_Iio_nat]
    rfl
  · have hzero : 0 = (run tm' es).1 + (run tm' es).2.expirations :=
      Set.Iio_injective ((due_none (ht1.trans_lt hbefore)).symm.trans hrun.counted)
    obtain ⟨hval, hdl⟩ := hrun.armed fun _ => hzero.symm
    exact ⟨hval, by omega⟩

def fresh : TimerfdCb := ⟨0, 0, 0, 0, true⟩

theorem expirations_exact_periodic :
    ∃ tm', timerfdSettime fresh 0 (.spec ⟨0, 2000000, 0, 3000000⟩) 10 = .ok tm' ∧
      (run tm' ([.poll 11, .read 16] ++ [.read 30])).1 = (due 12 3 30).ncard ∧
      (30 < 12 → (run tm' [.poll 11, .read 16]).2.Armed) :=
  expirations_exact fresh 0 10 30 ⟨0, 2000000, 0, 3000000⟩ [.poll 11, .read 16] rfl (by decide)
    (by decide) (by decide) (by decide) (by decide)

/-- A nanosecond disarms the timer, and a late timer with a period delivers one expiration for the
ten that are due. -/
theorem expirations_lost :
    timerfdSettime fresh 0 (.spec ⟨0, 1, 0, 0⟩) 10 = .ok fresh ∧ ¬fresh.Armed ∧
      timerfdSettime fresh 1 (.spec ⟨0, 1000000, 0, 1000000⟩) 10 = .ok ⟨1, 1, 11, 1, true⟩ ∧
      (run ⟨1, 1, 11, 1, true⟩ [.read 10]).1 = 1 ∧ (due 1 1 10).ncard = 10 := by
  refine ⟨by decide, by simp [fresh, TimerfdCb.Armed], by decide, by decide, ?_⟩
  have h := due_after (d := 1) (p := 1) (n := 0) (t := 10) (by decide) (by decide)
  rw [h, Set.ncard_Iio_nat]

end TaterTOS.Fd.Timer
