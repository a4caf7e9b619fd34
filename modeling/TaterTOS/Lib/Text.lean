import Mathlib.Data.List.Infix

/-!
# Byte strings

C strings as the bytes before their end, and comparisons that ignore the case of ASCII letters.
-/

namespace Lib

open List

abbrev Text := List UInt8

namespace Text

def ofString (s : String) : Text := s.toList.map fun c => c.toNat.toUInt8

def lower (c : UInt8) : UInt8 := if 65 ≤ c ∧ c ≤ 90 then c + 32 else c

def fold (s : Text) : Text := s.map lower

variable {s t : Text} {n : ℕ}

@[simp] theorem fold_nil : fold [] = [] := rfl

@[simp] theorem fold_cons (c : UInt8) (s : Text) : fold (c :: s) = lower c :: fold s := rfl

@[simp] theorem fold_length (s : Text) : (fold s).length = s.length := length_map _

theorem fold_drop (s : Text) (n : ℕ) : fold (s.drop n) = (fold s).drop n := map_drop

def strncasecmp : Text → Text → ℕ → Bool
  | _, _, 0 => true
  | a :: s, b :: t, n + 1 => lower a == lower b && strncasecmp s t n
  | [], [], _ + 1 => true
  | [], _ :: _, _ + 1 => false
  | _ :: _, [], _ + 1 => false

theorem strncasecmp_iff : strncasecmp s t n = true ↔ (fold s).take n = (fold t).take n := by
  induction n generalizing s t with
  | zero => cases s <;> cases t <;> simp [strncasecmp]
  | succ n ih => cases s <;> cases t <;> simp [strncasecmp, ih]

theorem strncasecmp_prefix_iff : strncasecmp s t t.length = true ↔ fold t <+: fold s := by
  rw [strncasecmp_iff, take_of_length_le (fold_length t).le, List.prefix_iff_eq_take, fold_length]
  exact eq_comm

theorem strncasecmp_eq_iff (hs : s.length ≤ n) (ht : t.length ≤ n) :
    strncasecmp s t n = true ↔ fold s = fold t := by
  rw [strncasecmp_iff, take_of_length_le (by simpa using hs), take_of_length_le (by simpa using ht)]

def endsWith (s t : Text) : Bool :=
  !decide (s.length < t.length) && strncasecmp (s.drop (s.length - t.length)) t t.length

theorem endsWith_iff : endsWith s t = true ↔ fold t <:+ fold s := by
  unfold endsWith
  rw [Bool.and_eq_true, strncasecmp_iff, fold_drop, Bool.not_eq_true', decide_eq_false_iff_not,
    not_lt, take_of_length_le (fold_length t).le]
  constructor
  · rintro ⟨hle, h⟩
    rw [take_of_length_le (by simp; omega)] at h
    exact h ▸ List.drop_suffix _ _
  · intro h
    have hle : t.length ≤ s.length := by simpa using h.length_le
    refine ⟨hle, ?_⟩
    rw [take_of_length_le (by simp; omega)]
    have hdrop := List.suffix_iff_eq_drop.mp h
    rw [fold_length, fold_length] at hdrop
    exact hdrop.symm

end Text

end Lib
