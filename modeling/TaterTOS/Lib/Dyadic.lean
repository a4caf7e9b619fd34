import Mathlib.Tactic
import Mathlib.Data.Nat.Bitwise

/-!
# Dyadic blocks

A block of order `k` starts at a multiple `a` of `2 ^ k` and spans `[a, a + 2 ^ k)`.
-/

namespace Lib

variable {i a b j k : ℕ}

theorem add_two_pow_le (ha : 2 ^ i ∣ a) (hb : 2 ^ i ∣ b) (h : a < b) : a + 2 ^ i ≤ b := by
  obtain ⟨c, rfl⟩ := ha
  obtain ⟨d, rfl⟩ := hb
  have hcd : c < d := lt_of_mul_lt_mul_left h (Nat.zero_le _)
  calc 2 ^ i * c + 2 ^ i = 2 ^ i * (c + 1) := by ring
    _ ≤ 2 ^ i * d := Nat.mul_le_mul_left _ hcd

theorem dvd_of_order_le (hij : i ≤ j) (ha : 2 ^ j ∣ a) : 2 ^ i ∣ a :=
  (Nat.pow_dvd_pow 2 hij).trans ha

theorem nested_or_disjoint (hij : i ≤ j) (ha : 2 ^ i ∣ a) (hb : 2 ^ j ∣ b) :
    a + 2 ^ i ≤ b ∨ b + 2 ^ j ≤ a ∨ b ≤ a ∧ a + 2 ^ i ≤ b + 2 ^ j := by
  rcases lt_or_ge a b with h | h
  · exact .inl (add_two_pow_le ha (dvd_of_order_le hij hb) h)
  rcases lt_or_ge a (b + 2 ^ j) with h' | h'
  · exact .inr
      (.inr ⟨h, add_two_pow_le ha ((dvd_of_order_le hij hb).add (Nat.pow_dvd_pow 2 hij)) h'⟩)
  · exact .inr (.inl h')

theorem buddy_cases (ha : 2 ^ k ∣ a) : 2 ^ (k + 1) ∣ a ∧ a ^^^ 2 ^ k = a + 2 ^ k ∨
      (a ^^^ 2 ^ k) + 2 ^ k = a ∧ 2 ^ (k + 1) ∣ a ^^^ 2 ^ k := by
  obtain ⟨q, rfl⟩ := ha
  have hx : 2 ^ k * q ^^^ 2 ^ k = 2 ^ k * (q ^^^ 1) := by
    have := Nat.shiftLeft_xor_distrib (a := q) (b := 1) (i := k)
    simpa [Nat.shiftLeft_eq, mul_comm] using this.symm
  rw [hx]
  rcases Nat.even_or_odd q with hq | hq
  · obtain ⟨c, rfl⟩ := even_iff_two_dvd.mp hq
    left
    rw [Nat.xor_one_of_even hq]
    exact ⟨⟨c, by ring⟩, by ring⟩
  · obtain ⟨c, rfl⟩ := hq
    right
    rw [Nat.xor_one_of_odd ⟨c, rfl⟩, Nat.add_sub_cancel]
    exact ⟨by ring, ⟨c, by ring⟩⟩

theorem buddy_ne (ha : 2 ^ k ∣ a) : a ^^^ 2 ^ k ≠ a := by
  rcases buddy_cases ha with ⟨-, h⟩ | ⟨h, -⟩ <;> omega

theorem dvd_buddy (ha : 2 ^ k ∣ a) : 2 ^ k ∣ a ^^^ 2 ^ k := by
  rcases buddy_cases ha with ⟨-, h⟩ | ⟨-, h⟩
  · rw [h]; exact ha.add dvd_rfl
  · exact dvd_of_order_le (Nat.le_succ k) h

theorem buddy_buddy (k a : ℕ) : a ^^^ 2 ^ k ^^^ 2 ^ k = a := by
  rw [Nat.xor_assoc, Nat.xor_self, Nat.xor_zero]

end Lib
