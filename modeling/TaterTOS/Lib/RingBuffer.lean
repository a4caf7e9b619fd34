import Mathlib.Tactic

/-!
# Ring buffers

A ring of `n` cells with the index of the next cell to read and of the next cell to write. One cell
stays free, so that equal indices mean an empty ring.
-/

namespace Lib

open Function List

variable {α : Type*}

structure RingBuffer (α : Type*) where
  buf : ℕ → α
  head : ℕ
  tail : ℕ

namespace RingBuffer

variable (n : ℕ)

def size (r : RingBuffer α) : ℕ :=
  if r.head ≤ r.tail then r.tail - r.head else n - r.head + r.tail

def contents (r : RingBuffer α) : List α :=
  (List.range (r.size n)).map fun i => r.buf ((r.head + i) % n)

def push (r : RingBuffer α) (x : α) : RingBuffer α :=
  { r with buf := update r.buf r.tail x, tail := (r.tail + 1) % n }

def pop (r : RingBuffer α) : RingBuffer α := { r with head := (r.head + 1) % n }

def read : ℕ → RingBuffer α → List α × RingBuffer α
  | 0, r => ([], r)
  | len + 1, r =>
    if r.head = r.tail then ([], r)
    else
      let next := read len (r.pop n)
      (r.buf r.head :: next.1, next.2)

def write : List α → RingBuffer α → ℕ × RingBuffer α
  | [], r => (0, r)
  | x :: xs, r =>
    if n - 1 - r.size n = 0 then (0, r)
    else
      let next := write xs (r.push n x)
      (next.1 + 1, next.2)

structure Valid (r : RingBuffer α) : Prop where
  head_lt : r.head < n
  tail_lt : r.tail < n

variable {n} {r : RingBuffer α}

theorem size_eq_zero (h : r.Valid n) : r.size n = 0 ↔ r.head = r.tail := by
  have := h.head_lt
  unfold size
  split_ifs <;> omega

theorem Valid.size_lt (h : r.Valid n) : r.size n < n := by
  have := h.tail_lt
  unfold size
  split_ifs <;> omega

theorem length_contents : (r.contents n).length = r.size n := by
  rw [contents, length_map, length_range]

theorem succ_mod {i : ℕ} (h : i < n) : (i + 1) % n = if i + 1 = n then 0 else i + 1 := by
  split_ifs with hi
  · rw [hi, Nat.mod_self]
  · exact Nat.mod_eq_of_lt (by omega)

section

variable (h : r.Valid n)
include h

theorem Valid.tail_eq : r.tail = (r.head + r.size n) % n := by
  have hh := h.head_lt
  have ht := h.tail_lt
  unfold size
  split_ifs with hle
  · rw [Nat.add_sub_cancel' hle, Nat.mod_eq_of_lt ht]
  · have hsum : r.head + (n - r.head + r.tail) = r.tail + n := by omega
    rw [hsum, Nat.add_mod_right, Nat.mod_eq_of_lt ht]

/-! ### One element -/

theorem Valid.push (x : α) : (r.push n x).Valid n :=
  ⟨h.head_lt, Nat.mod_lt _ (Nat.zero_lt_of_lt h.tail_lt)⟩

theorem Valid.pop : (r.pop n).Valid n :=
  ⟨Nat.mod_lt _ (Nat.zero_lt_of_lt h.head_lt), h.tail_lt⟩

theorem Valid.size_push (hfree : r.size n + 1 < n) (x : α) :
    (r.push n x).size n = r.size n + 1 := by
  have ht := h.tail_lt
  have hhead : (r.push n x).head = r.head := rfl
  have htail : (r.push n x).tail = if r.tail + 1 = n then 0 else r.tail + 1 := succ_mod ht
  simp only [size, htail] at hfree ⊢
  split_ifs at hfree ⊢ <;> omega

theorem Valid.size_pop (hne : r.head ≠ r.tail) :
    (r.pop n).size n + 1 = r.size n := by
  have hh := h.head_lt
  have ht := h.tail_lt
  have hhead : (r.pop n).head = if r.head + 1 = n then 0 else r.head + 1 := succ_mod hh
  have htail : (r.pop n).tail = r.tail := rfl
  simp only [size, hhead]
  split_ifs <;> omega

theorem Valid.index_ne_tail {i : ℕ} (hi : i < r.size n) :
    (r.head + i) % n ≠ r.tail := by
  have hh := h.head_lt
  have hs := h.size_lt
  unfold size at hi hs
  by_cases hwrap : r.head + i < n
  · rw [Nat.mod_eq_of_lt hwrap]
    split_ifs at hi hs <;> omega
  · have hsub : (r.head + i) % n = r.head + i - n := by
      rw [Nat.mod_eq_sub_mod (by omega), Nat.mod_eq_of_lt (by omega)]
    split_ifs at hi hs <;> omega

theorem Valid.contents_push (hfree : r.size n + 1 < n) (x : α) :
    (r.push n x).contents n = r.contents n ++ [x] := by
  unfold contents
  rw [h.size_push hfree, range_succ, map_append, map_singleton]
  congr 1
  · apply map_congr_left
    intro i hi
    exact update_of_ne (h.index_ne_tail (mem_range.mp hi)) _ _
  · dsimp only [RingBuffer.push]
    rw [← h.tail_eq, update_self]

theorem Valid.contents_pop (hne : r.head ≠ r.tail) :
    r.contents n = r.buf r.head :: (r.pop n).contents n := by
  unfold contents
  rw [← h.size_pop hne, range_succ_eq_map, map_cons, map_map, add_zero,
    Nat.mod_eq_of_lt h.head_lt]
  congr 1
  apply map_congr_left
  intro i _
  dsimp only [comp, RingBuffer.pop]
  rw [Nat.mod_add_mod]
  congr 2
  omega

end

/-! ### Several elements -/

theorem Valid.read_spec (len : ℕ) : ∀ {r : RingBuffer α}, r.Valid n → (r.read n len).2.Valid n ∧
    (r.read n len).1 = (r.contents n).take len ∧
    (r.read n len).2.contents n = (r.contents n).drop len := by
  induction len with
  | zero => exact fun h => ⟨h, rfl, rfl⟩
  | succ len ih =>
    intro r h
    unfold read
    by_cases hempty : r.head = r.tail
    · have hnil : r.contents n = [] := by
        rw [← length_eq_zero_iff, length_contents, size_eq_zero h]
        exact hempty
      rw [if_pos hempty]
      refine ⟨h, ?_, ?_⟩
      · rw [hnil, take_nil]
      · rw [hnil, drop_nil]
    · obtain ⟨hvalid, htaken, hrest⟩ := ih h.pop
      rw [if_neg hempty, h.contents_pop hempty]
      dsimp only
      rw [htaken, hrest]
      exact ⟨hvalid, rfl, rfl⟩

theorem Valid.write_spec : ∀ (xs : List α) {r : RingBuffer α}, r.Valid n →
    (r.write n xs).2.Valid n ∧ (r.write n xs).1 = min xs.length (n - 1 - r.size n) ∧
    (r.write n xs).2.contents n = r.contents n ++ xs.take (r.write n xs).1
  | [], r, h => ⟨h, by simp [write], by simp [write]⟩
  | x :: xs, r, h => by
    unfold write
    by_cases hfull : n - 1 - r.size n = 0
    · rw [if_pos hfull, hfull]
      exact ⟨h, by simp, by simp⟩
    · have hfree : r.size n + 1 < n := by omega
      obtain ⟨hvalid, hcount, hadded⟩ := Valid.write_spec xs (h.push x)
      rw [if_neg hfull]
      refine ⟨hvalid, ?_, ?_⟩
      · dsimp only
        rw [hcount, h.size_push hfree, length_cons]
        omega
      · dsimp only
        rw [hadded, h.contents_push hfree, append_assoc, take_succ_cons, singleton_append]

end RingBuffer

end Lib
