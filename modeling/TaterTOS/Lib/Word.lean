import Mathlib.Tactic

/-!
# Machine words

An unsigned C integer is a natural number; the operations that can leave its width truncate
explicitly.
-/

namespace Lib

def u64 (n : ℕ) : ℕ := n % 2 ^ 64

def u32 (n : ℕ) : ℕ := n % 2 ^ 32

def not64 (n : ℕ) : ℕ := 2 ^ 64 - 1 - n

def not32 (n : ℕ) : ℕ := 2 ^ 32 - 1 - n

def sub64 (a b : ℕ) : ℕ := u64 (a + 2 ^ 64 - b)

def alignDown (v a : ℕ) : ℕ := v &&& not64 (a - 1)

def alignUp (v a : ℕ) : ℕ := u64 (v + a - 1) &&& not64 (a - 1)

/-- The test `if (!ok)` after a call that succeeded. -/
theorem ite_not_true {α : Type*} (a b : α) : (if (!true) = true then a else b) = b := rfl

theorem u64_lt (n : ℕ) : u64 n < 2 ^ 64 := Nat.mod_lt _ (by norm_num)

theorem u64_of_lt {n : ℕ} (h : n < 2 ^ 64) : u64 n = n := Nat.mod_eq_of_lt h

theorem u32_of_lt {n : ℕ} (h : n < 2 ^ 32) : u32 n = n := Nat.mod_eq_of_lt h

theorem sub64_of_le {a b : ℕ} (hb : b ≤ a) (ha : a < 2 ^ 64) : sub64 a b = a - b := by
  unfold sub64 u64
  omega

theorem testBit_not64 (n i : ℕ) (hn : n < 2 ^ 64) :
    (not64 n).testBit i = (decide (i < 64) && !n.testBit i) := by
  unfold not64
  rw [Nat.sub_sub, add_comm 1 n, Nat.testBit_two_pow_sub_succ hn]

theorem and_not64_two_pow (v : ℕ) {k : ℕ} (hk : k ≤ 64) (hv : v < 2 ^ 64) :
    v &&& not64 (2 ^ k - 1) = v / 2 ^ k * 2 ^ k := by
  have hm : 2 ^ k - 1 < 2 ^ 64 :=
    lt_of_lt_of_le (Nat.sub_lt (by positivity) one_pos) (Nat.pow_le_pow_right (by norm_num) hk)
  refine Nat.eq_of_testBit_eq fun i => ?_
  simp only [Nat.testBit_and, testBit_not64 _ _ hm,
    Nat.testBit_mul_two_pow, Nat.testBit_div_two_pow]
  rcases lt_or_ge i k with h | h
  · simp [h]
  rcases lt_or_ge i 64 with h64 | h64
  · simp [h, h64]
  · have hz : v.testBit i = false :=
      Nat.testBit_lt_two_pow (hv.trans_le (Nat.pow_le_pow_right (by norm_num) h64))
    simp [hz, Nat.sub_add_cancel h]

theorem and_not64_page {v : ℕ} (hv : v < 2 ^ 64) : v &&& not64 0xFFF = v / 4096 * 4096 :=
  and_not64_two_pow (k := 12) v (by norm_num) hv

variable {v k : ℕ}

theorem alignDown_two_pow (hk : k ≤ 64) (hv : v < 2 ^ 64) :
    alignDown v (2 ^ k) = v / 2 ^ k * 2 ^ k := and_not64_two_pow v hk hv

theorem alignUp_two_pow (hk : k ≤ 64) (hv : v + 2 ^ k - 1 < 2 ^ 64) :
    alignUp v (2 ^ k) = (v + 2 ^ k - 1) / 2 ^ k * 2 ^ k := by
  unfold alignUp
  rw [u64_of_lt hv, and_not64_two_pow _ hk hv]

theorem alignUp_le_iff (hk : k ≤ 64) (hv : v + 2 ^ k - 1 < 2 ^ 64) {m : ℕ}
    (hm : 2 ^ k ∣ m) : alignUp v (2 ^ k) ≤ m ↔ v ≤ m := by
  obtain ⟨c, rfl⟩ := hm
  have hp : 0 < 2 ^ k := by positivity
  rw [alignUp_two_pow hk hv, mul_comm (2 ^ k) c, Nat.mul_le_mul_right_iff hp,
    Nat.div_le_iff_le_mul hp]
  omega

theorem alignUp_spec (hk : k ≤ 64) (hv : v + 2 ^ k - 1 < 2 ^ 64) :
    v ≤ alignUp v (2 ^ k) ∧ alignUp v (2 ^ k) < v + 2 ^ k ∧ 2 ^ k ∣ alignUp v (2 ^ k) := by
  have hd : 2 ^ k ∣ alignUp v (2 ^ k) := by
    rw [alignUp_two_pow hk hv]
    exact Nat.dvd_mul_left _ _
  refine ⟨(alignUp_le_iff hk hv hd).mp le_rfl, ?_, hd⟩
  rw [alignUp_two_pow hk hv]
  have := Nat.div_mul_le_self (v + 2 ^ k - 1) (2 ^ k)
  omega

end Lib
