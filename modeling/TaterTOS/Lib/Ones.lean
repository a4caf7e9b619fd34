import Mathlib.Tactic

/-!
# Ones'-complement sums of sixteen bits

A sum with end-around carry depends only on the unbounded sum: it is that sum modulo `0xFFFF`, with
`0` for an empty sum and `0xFFFF` for every other multiple.
-/

namespace Lib.Ones

def add (a b : ℕ) : ℕ := (a + b) % 2 ^ 16 + (a + b) / 2 ^ 16

def sum (ws : List ℕ) : ℕ := ws.foldl add 0

/-- The value of sixteen bits that stands for an unbounded sum. -/
def rep (n : ℕ) : ℕ := if n = 0 then 0 else (n - 1) % 0xFFFF + 1

theorem rep_le (n : ℕ) : rep n ≤ 0xFFFF := by
  unfold rep
  split_ifs <;> omega

theorem rep_of_lt {n : ℕ} (h : n < 2 ^ 16) : rep n = n := by
  unfold rep
  split_ifs <;> omega

theorem add_rep (n : ℕ) {w : ℕ} (hw : w < 2 ^ 16) : add (rep n) w = rep (n + w) := by
  unfold add rep
  split_ifs <;> omega

theorem rep_carry (n : ℕ) : rep (n % 2 ^ 16 + n / 2 ^ 16) = rep n := by
  unfold rep
  split_ifs <;> omega

/-- A sum and the complement of its value together give all ones. -/
theorem rep_complement (n : ℕ) : rep (n + (0xFFFF - rep n)) = 0xFFFF := by
  unfold rep
  split_ifs <;> omega

theorem sum_eq_rep {ws : List ℕ} (h : ∀ w ∈ ws, w < 2 ^ 16) : sum ws = rep ws.sum := by
  suffices ∀ n, ws.foldl add (rep n) = rep (n + ws.sum) by simpa [sum, rep] using this 0
  induction ws with
  | nil => simp
  | cons w ws ih =>
    intro n
    rw [List.foldl_cons, add_rep n (h w (by simp)), ih fun v hv => h v (by simp [hv]),
      List.sum_cons, add_assoc]

end Lib.Ones
