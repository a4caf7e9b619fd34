import TaterTOS.Process.FutexKey

/-!
# User buffers

* **`buffer_exact`**: the check of a user buffer ends, and it accepts the buffers whose pages are
  all reached by leaf entries with the bits that are asked for.
-/

namespace TaterTOS.Process

open Lib Vmm

variable {vm : Vmm.State} {cr3 last va m virt : ℕ} {w : Bool}

/-! ### Leaf entries -/

/-- The entry of page `n`, reached through present entries and no large page. -/
def Leaf (vm : Vmm.State) (cr3 n entry : ℕ) : Prop :=
  let pml4e := vm.mem cr3 (n / 2 ^ 27 % 512)
  let pdpe := vm.mem (frameOf pml4e) (n / 2 ^ 18 % 512)
  let pde := vm.mem (frameOf pdpe) (n / 2 ^ 9 % 512)
  entry = vm.mem (frameOf pde) (n % 512) ∧ pml4e.testBit 0 = true ∧
    (pdpe.testBit 0 = true ∧ pdpe.testBit 7 = false) ∧
    (pde.testBit 0 = true ∧ pde.testBit 7 = false) ∧ entry.testBit 0 = true

/-- Page `n` is reached by an entry with the bits of an access. -/
def Granted (vm : Vmm.State) (cr3 : ℕ) (w : Bool) (n : ℕ) : Prop :=
  ∃ entry, Leaf vm cr3 n entry ∧ entry.testBit 2 = true ∧ (w = true → entry.testBit 1 = true)

theorem and_two_pow_ne_zero (e i : ℕ) : e &&& 2 ^ i ≠ 0 ↔ e.testBit i = true := by
  rw [Nat.and_two_pow]
  cases e.testBit i <;> simp

theorem queryUserFlags_testBit (hcr3 : cr3 ≠ 0) (hv : virt < Vmm.userVaTop) {i : ℕ} (hi : i < 12) :
    (vmmQueryUserFlags vm cr3 virt).testBit i = true ↔
      ∃ entry, Leaf vm cr3 (virt / 4096) entry ∧ entry.testBit i = true := by
  have hmask : Vmm.pteFlagMask.testBit i = true := by
    interval_cases i <;> decide
  have hpath := (Vmm.path_eq virt).1
  have hslot := (Vmm.path_eq virt).2
  simp only [Vmm.path, Vmm.slot] at hpath hslot
  unfold Leaf vmmQueryUserFlags vmmLookupUserPte
  rw [if_neg (not_or.mpr ⟨hcr3, not_le.mpr hv⟩)]
  simp only [isPresent_eq, isLarge_eq]
  split_ifs <;> simp_all [Nat.testBit_and]

/-! ### The loop -/

/-- One turn of the loop: its answer, or none when it goes on. -/
def pageTurn (vm : Vmm.State) (cr3 : ℕ) (w : Bool) (last va : ℕ) : Option Bool :=
  let flags := vmmQueryUserFlags vm cr3 va
  if flags &&& Vmm.flagPresent = 0 then some false
  else if flags &&& Vmm.flagUser = 0 then some false
  else if w = true ∧ flags &&& Vmm.flagWrite = 0 then some false
  else if va = last then some true
  else if userTop - pageSize < va then some false
  else none

/-- The answer of the loop if it ends within `fuel` turns. -/
def pagesWithin (vm : Vmm.State) (cr3 : ℕ) (w : Bool) (last : ℕ) : ℕ → ℕ → Option Bool
  | 0, _ => none
  | fuel + 1, va =>
    (pageTurn vm cr3 w last va).or (pagesWithin vm cr3 w last fuel (u64 (va + pageSize)))

/-- The answer of `user_buf_accessible` if its loop ends within `fuel` turns. -/
def accessibleWithin (fuel : ℕ) (vm : Vmm.State) (cr3 ptr len : ℕ) (w : Bool) : Option Bool :=
  if cr3 = 0 then some false
  else if !userPtrOk ptr len then some false
  else if len = 0 then some true
  else pagesWithin vm cr3 w (alignDown (ptr + len - 1) pageSize) fuel (alignDown ptr pageSize)

theorem pagesAccessible_succ (fuel : ℕ) : pagesAccessible vm cr3 w last (fuel + 1) va =
    (pageTurn vm cr3 w last va).getD
    (pagesAccessible vm cr3 w last fuel (u64 (va + pageSize))) := by
  unfold pageTurn
  rw [pagesAccessible]
  dsimp only
  split_ifs <;> rfl

/-- A turn refuses a page that is not granted. -/
theorem pageTurn_eq (hcr3 : cr3 ≠ 0) (hva : va + pageSize ≤ userTop) :
    (Granted vm cr3 w (va / 4096) ∧
      pageTurn vm cr3 w last va = if va = last then some true else none) ∨
      ¬Granted vm cr3 w (va / 4096) ∧ pageTurn vm cr3 w last va = some false := by
  have hv : va < Vmm.userVaTop := lt_of_lt_of_le (Nat.lt_add_of_pos_right (by decide)) hva
  have hbit {i : ℕ} (hi : i < 12) := @queryUserFlags_testBit vm cr3 va hcr3 hv i hi
  have hgranted : Granted vm cr3 w (va / 4096) ↔
      vmmQueryUserFlags vm cr3 va &&& Vmm.flagPresent ≠ 0 ∧
      vmmQueryUserFlags vm cr3 va &&& Vmm.flagUser ≠ 0 ∧
      (w = true → vmmQueryUserFlags vm cr3 va &&& Vmm.flagWrite ≠ 0) := by
    rw [show Vmm.flagPresent = 2 ^ 0 from rfl, show Vmm.flagUser = 2 ^ 2 from rfl,
      show Vmm.flagWrite = 2 ^ 1 from rfl, and_two_pow_ne_zero, and_two_pow_ne_zero,
      and_two_pow_ne_zero, hbit (by norm_num), hbit (by norm_num), hbit (by norm_num)]
    constructor
    · rintro ⟨e, hl, hu, hw⟩
      exact ⟨⟨e, hl, hl.2.2.2.2⟩, ⟨e, hl, hu⟩, fun h => ⟨e, hl, hw h⟩⟩
    · rintro ⟨-, ⟨e, hl, hu⟩, hw⟩
      refine ⟨e, hl, hu, fun h => ?_⟩
      obtain ⟨e', hl', hw'⟩ := hw h
      rwa [hl.1, ← hl'.1]
  unfold pageTurn
  dsimp only
  by_cases hg : Granted vm cr3 w (va / 4096)
  · obtain ⟨h1, h2, h3⟩ := hgranted.mp hg
    refine .inl ⟨hg, ?_⟩
    rw [if_neg h1, if_neg h2, if_neg fun h => h3 h.1 h.2,
      if_neg (show ¬userTop - pageSize < va by omega)]
  · refine .inr ⟨hg, ?_⟩
    split_ifs with h1 h2 h3
    all_goals first
      | rfl
      | exact absurd (hgranted.mpr ⟨h1, h2, fun hw h => h3 ⟨hw, h⟩⟩) hg

/-- The loop over `m + 1` pages ends within as many turns, and accepts if all are granted. -/
theorem pagesWithin_eq (hcr3 : cr3 ≠ 0) (hlast : last + 4096 ≤ userTop) :
    ∀ (m : ℕ) {va fuel : ℕ}, last = va + m * 4096 → m < fuel →
      pagesWithin vm cr3 w last fuel va = some (pagesAccessible vm cr3 w last (m + 1) va) ∧
      (pagesAccessible vm cr3 w last (m + 1) va = true ↔
        ∀ j ≤ m, Granted vm cr3 w (va / 4096 + j))
  | m, va, 0, _, hfuel => absurd hfuel (Nat.not_lt_zero m)
  | m, va, fuel + 1, hm, hfuel => by
    rw [pagesWithin, pagesAccessible_succ]
    rcases @pageTurn_eq vm cr3 last va w hcr3 (by rw [pageSize]; omega) with ⟨hg, ht⟩ | ⟨hg, ht⟩
    · cases m with
      | zero =>
        rw [ht, if_pos (by omega)]
        simpa using hg
      | succ m =>
        have htop : userTop < 2 ^ 64 := by decide
        have hnext : u64 (va + pageSize) = va + 4096 := u64_of_lt (by rw [pageSize]; omega)
        rw [ht, if_neg (by omega), Option.none_or, Option.getD_none, hnext]
        obtain ⟨hend, hall⟩ := @pagesWithin_eq hcr3 hlast m (va + 4096) fuel (by omega)
          (Nat.lt_of_succ_lt_succ hfuel)
        refine ⟨hend, hall.trans ⟨fun h j hj => ?_, fun h j hj => ?_⟩⟩
        · cases j with
          | zero => exact hg
          | succ j =>
            have := h j (by omega)
            rwa [show (va + 4096) / 4096 + j = va / 4096 + (j + 1) by omega] at this
        · rw [show (va + 4096) / 4096 + j = va / 4096 + (j + 1) by omega]
          exact h (j + 1) (by omega)
    · rw [ht]
      simp only [Option.some_or, Option.getD_some, Bool.false_eq_true, false_iff, true_and]
      exact fun h => hg (h 0 (Nat.zero_le m))

theorem userPtrOk_iff (ptr len : UInt64) : userPtrOk ptr.toNat len.toNat = true ↔
    ptr.toNat < userTop ∧ ptr.toNat + len.toNat < 2 ^ 64 ∧ ptr.toNat + len.toNat ≤ userTop := by
  have hptr := ptr.toNat_lt
  have hlen := len.toNat_lt
  unfold userPtrOk u64
  split_ifs <;> simp <;> omega

/-- **The check of a user buffer is exact**: it ends, and it accepts the buffers below the top of
user space whose pages are all granted. -/
theorem buffer_exact (vm : Vmm.State) {cr3 : ℕ} (hcr3 : cr3 ≠ 0) (ptr len : UInt64) (w : Bool) :
    (∃ n, ∀ fuel ≥ n, accessibleWithin fuel vm cr3 ptr.toNat len.toNat w =
      some (userBufAccessible vm cr3 ptr.toNat len.toNat w)) ∧
    (userBufAccessible vm cr3 ptr.toNat len.toNat w = true ↔
      ptr.toNat < userTop ∧ ptr.toNat + len.toNat < 2 ^ 64 ∧ ptr.toNat + len.toNat ≤ userTop ∧
        ∀ x, ptr.toNat ≤ x → x < ptr.toNat + len.toNat → Granted vm cr3 w (x / 4096)) := by
  have htop : userTop = 2 ^ 35 * 4096 := rfl
  rw [← and_assoc, ← and_assoc, and_assoc (a := ptr.toNat < userTop), ← userPtrOk_iff]
  unfold accessibleWithin userBufAccessible
  simp only [if_neg hcr3]
  cases hok : userPtrOk ptr.toNat len.toNat with
  | false => exact ⟨⟨0, fun _ _ => rfl⟩, by simp⟩
  | true =>
    obtain ⟨-, -, hle⟩ := (userPtrOk_iff ptr len).mp hok
    simp only [true_and]
    by_cases h0 : len.toNat = 0
    · rw [h0]
      exact ⟨⟨0, fun _ _ => rfl⟩, by simp; omega⟩
    · have hdown {v : ℕ} (hv : v < userTop) : alignDown v pageSize = v / 4096 * 4096 :=
        alignDown_two_pow (k := 12) (by norm_num) (by omega)
      simp only [if_neg h0, hdown (show ptr.toNat < userTop by omega),
        hdown (show ptr.toNat + len.toNat - 1 < userTop by omega)]
      generalize ptr.toNat = p at *
      generalize len.toNat = n at *
      have hcount : ((p + n - 1) / 4096 * 4096 - p / 4096 * 4096) / pageSize =
          (p + n - 1) / 4096 - p / 4096 := by
        rw [pageSize]
        omega
      have hlast : (p + n - 1) / 4096 * 4096 + 4096 ≤ userTop := by omega
      have hloop {fuel : ℕ} := @pagesWithin_eq vm cr3 _ w hcr3 hlast
        ((p + n - 1) / 4096 - p / 4096) (p / 4096 * 4096) fuel (by omega)
      rw [hcount]
      refine ⟨⟨_, fun fuel hf => (hloop (Nat.lt_of_succ_le hf)).1⟩,
        (hloop (Nat.lt_succ_self _)).2.trans ?_⟩
      rw [Nat.mul_div_cancel _ (by norm_num)]
      constructor
      · intro h x hx hx'
        rw [show x / 4096 = p / 4096 + (x / 4096 - p / 4096) by omega]
        exact h _ (by omega)
      · intro h j hj
        rw [show p / 4096 + j = max p ((p / 4096 + j) * 4096) / 4096 by omega]
        exact h _ (le_max_left _ _) (by omega)

theorem buffer_exact_mapped :
    userBufAccessible mappedEverywhere 0x5000 0x1FFE 4 true = true ∧
      ∀ x, 0x1FFE ≤ x → x < 0x1FFE + 4 → Granted mappedEverywhere 0x5000 true (x / 4096) := by
  have h : userBufAccessible mappedEverywhere 0x5000 0x1FFE 4 true = true := by decide +kernel
  exact ⟨h, ((buffer_exact mappedEverywhere (by decide) 0x1FFE 4 true).2.mp h).2.2.2⟩

end TaterTOS.Process
