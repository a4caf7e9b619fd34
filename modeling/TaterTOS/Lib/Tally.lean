import Mathlib.Tactic

/-!
# Tallies

How often a function on a finite type takes a value.
-/

namespace Lib

open Function

variable {α β : Type*} [Fintype α] [DecidableEq β] {g : α → β} {b c : β} {a : α}

def tally (g : α → β) (b : β) : ℕ := (Finset.univ.filter fun a => g a = b).card

theorem tally_eq_zero : tally g b = 0 ↔ ∀ a, g a ≠ b := by
  unfold tally
  simp

theorem tally_pos (h : g a = b) : 0 < tally g b := by
  rw [Nat.pos_iff_ne_zero, Ne, tally_eq_zero]
  exact fun hall => hall a h

variable [DecidableEq α]

theorem tally_update (g : α → β) (a : α) (b c : β) :
    tally (update g a b) c + (if g a = c then 1 else 0) = tally g c + if b = c then 1 else 0 := by
  have hsplit : ∀ g' : α → β, tally g' c =
      ((Finset.univ.filter fun x => g' x = c).erase a).card + if g' a = c then 1 else 0 := by
    intro g'
    unfold tally
    by_cases ha : g' a = c
    · rw [if_pos ha, Finset.card_erase_add_one (by simpa using ha)]
    · rw [if_neg ha, Finset.erase_eq_of_notMem (by simpa using ha), add_zero]
  have hrest : (Finset.univ.filter fun x => update g a b x = c).erase a =
      (Finset.univ.filter fun x => g x = c).erase a := by
    ext x
    by_cases hx : x = a
    · simp [hx]
    · simp [hx]
  rw [hsplit g, hsplit (update g a b), hrest, update_self]
  omega

theorem tally_update_of_ne (ha : g a ≠ c) (hb : b ≠ c) : tally (update g a b) c = tally g c := by
  have h := tally_update g a b c
  rwa [if_neg ha, if_neg hb] at h

theorem tally_leave (ha : g a = c) (hb : b ≠ c) : tally (update g a b) c = tally g c - 1 := by
  have h := tally_update g a b c
  rw [if_pos ha, if_neg hb] at h
  omega

theorem tally_enter (ha : g a ≠ b) : tally (update g a b) b = tally g b + 1 := by
  have h := tally_update g a b b
  rwa [if_neg ha, if_pos rfl] at h

end Lib
