import Mathlib.Data.List.FinRange

/-!
# Tables of slots

A table gives a content to each slot; a content covers some points and gives each of them a value.
When no two slots cover a common point, the table stands for a partial function on points.
-/

namespace Lib.Slots

open Function

variable {ι β α P : Type*} {cov : β → P → Prop} {val : β → P → α} {t t' : ι → β} {i : ι} {b : β}
  {n : P} {a : α}

def Apart (cov : β → P → Prop) (t : ι → β) : Prop :=
  ∀ i j n, cov (t i) n → cov (t j) n → i = j

/-- The point `n` is covered by a slot that gives it the value `a`. -/
def At (cov : β → P → Prop) (val : β → P → α) (t : ι → β) (n : P) (a : α) : Prop :=
  ∃ i, cov (t i) n ∧ val (t i) n = a

theorem Apart.unique (h : Apart cov t) {a' : α} (h1 : At cov val t n a) (h2 : At cov val t n a') :
    a = a' := by
  obtain ⟨i, hi, rfl⟩ := h1
  obtain ⟨j, hj, rfl⟩ := h2
  rw [h i j n hi hj]

theorem at_of_cov (h : cov (t i) n) : At cov val t n (val (t i) n) := ⟨i, h, rfl⟩

/-! ### Writing a slot -/

section

variable [DecidableEq ι]

theorem Apart.updated (h : Apart cov t) (hb : ∀ n, cov b n → ∀ j, j ≠ i → ¬ cov (t j) n) :
    Apart cov (update t i b) := by
  intro j k n hj hk
  by_cases hji : j = i
  · subst hji
    by_cases hkj : k = j
    · exact hkj.symm
    · rw [update_self] at hj
      rw [update_of_ne hkj] at hk
      exact absurd hk (hb n hj k hkj)
  · rw [update_of_ne hji] at hj
    by_cases hki : k = i
    · subst hki
      rw [update_self] at hk
      exact absurd hj (hb n hk j hji)
    · rw [update_of_ne hki] at hk
      exact h j k n hj hk

/-- **Writing a slot** gives the points of the new content their values and takes away the old. -/
theorem at_update (h : Apart cov t) : At cov val (update t i b) n a ↔
    (cov b n ∧ val b n = a) ∨ (¬ cov (t i) n ∧ At cov val t n a) := by
  constructor
  · rintro ⟨j, hj, hv⟩
    by_cases hji : j = i
    · subst hji
      rw [update_self] at hj hv
      exact .inl ⟨hj, hv⟩
    · rw [update_of_ne hji] at hj hv
      exact .inr ⟨fun hi => hji (h j i n hj hi), j, hj, hv⟩
  · rintro (⟨hb, hv⟩ | ⟨hi, j, hj, hv⟩)
    · refine ⟨i, ?_⟩
      rw [update_self]
      exact ⟨hb, hv⟩
    · have hji : j ≠ i := by
        rintro rfl
        exact hi hj
      refine ⟨j, ?_⟩
      rw [update_of_ne hji]
      exact ⟨hj, hv⟩

end

/-! ### Losing points -/

section

variable {keep : P → Prop} (hc : ∀ i n, cov (t' i) n ↔ cov (t i) n ∧ keep n)
  (hv : ∀ i n, cov (t' i) n → val (t' i) n = val (t i) n)

include hc in
theorem Apart.restrict (h : Apart cov t) : Apart cov t' := fun i j n hi hj =>
  h i j n ((hc i n).mp hi).1 ((hc j n).mp hj).1

include hc hv in
theorem at_restrict : At cov val t' n a ↔ keep n ∧ At cov val t n a := by
  constructor
  · rintro ⟨i, hi, rfl⟩
    exact ⟨((hc i n).mp hi).2, i, ((hc i n).mp hi).1, (hv i n hi).symm⟩
  · rintro ⟨hk, i, hi, rfl⟩
    have hi' := (hc i n).mpr ⟨hi, hk⟩
    exact ⟨i, hi', hv i n hi'⟩

end

/-! ### The partial function -/

section

variable {m : ℕ} {t : Fin m → β}

def look (cov : β → P → Prop) [∀ b n, Decidable (cov b n)] (val : β → P → α) (t : Fin m → β)
    (n : P) : Option α :=
  ((List.finRange m).find? fun i => cov (t i) n).map fun i => val (t i) n

variable [∀ b n, Decidable (cov b n)]

theorem look_eq_some_iff (h : Apart cov t) : look cov val t n = some a ↔ At cov val t n a := by
  unfold look
  constructor
  · intro hl
    obtain ⟨i, hi, hv⟩ := Option.map_eq_some_iff.mp hl
    exact ⟨i, by simpa using List.find?_some hi, hv⟩
  · rintro ⟨i, hi, hv⟩
    cases hf : (List.finRange m).find? fun i => decide (cov (t i) n) with
    | none =>
      have := List.find?_eq_none.mp hf i (List.mem_finRange i)
      simp [hi] at this
    | some j =>
      have hj : cov (t j) n := by simpa using List.find?_some hf
      rw [Option.map_some, h j i n hj hi, hv]

theorem look_eq_none_iff : look cov val t n = none ↔ ∀ i, ¬ cov (t i) n := by
  unfold look
  simp

end

end Lib.Slots
