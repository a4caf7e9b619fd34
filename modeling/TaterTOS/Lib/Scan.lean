import Mathlib.Tactic

/-!
# Bounded scans

A scan walks over a list of items and acts on those that it selects, up to a limit.
-/

namespace Lib

open List

variable {σ ι : Type*} {select : σ → ι → Bool} {act : σ → ι → σ} {max : Option ℕ} {n : ℕ}

def goesOn : Option ℕ → ℕ → Bool
  | none, _ => true
  | some max, n => n < max

/-- Act on the selected items of the list, at most `max` of them in all. -/
def scan (select : σ → ι → Bool) (act : σ → ι → σ) (max : Option ℕ) (s : σ) (n : ℕ) : List ι → ℕ × σ
  | [] => (n, s)
  | i :: is =>
    if goesOn max n then
      if select s i then scan select act max (act s i) (n + 1) is
      else scan select act max s n is
    else (n, s)

theorem scan_keeps {P : σ → Prop} (hact : ∀ s i, P s → P (act s i)) (max : Option ℕ) :
    ∀ {s : σ}, P s → ∀ {n : ℕ} {is : List ι},
    P (scan select act max s n is).2
  | _, h, _, [] => h
  | s, h, n, i :: is => by
    unfold scan
    split_ifs
    · exact scan_keeps hact max (hact s i h)
    · exact scan_keeps hact max h
    · exact h

def chosen (max : Option ℕ) (n : ℕ) (is : List ι) : List ι :=
  match max with
  | none => is
  | some max => is.take (max - n)

theorem chosen_cons (h : goesOn max n = true) (i : ι) (is : List ι) :
    chosen max n (i :: is) = i :: chosen max (n + 1) is := by
  cases max with
  | none => rfl
  | some m =>
    have hm : m - n = (m - (n + 1)) + 1 := by
      have : n < m := by simpa [goesOn] using h
      omega
    unfold chosen
    dsimp only
    rw [hm, take_succ_cons]

theorem chosen_of_not (h : goesOn max n = false) (is : List ι) : chosen max n is = [] := by
  cases max with
  | none => exact absurd h nofun
  | some m =>
    have : m ≤ n := by simpa [goesOn] using h
    unfold chosen
    dsimp only
    rw [Nat.sub_eq_zero_of_le this, take_zero]

theorem chosen_sublist (max : Option ℕ) (n : ℕ) (is : List ι) : (chosen max n is).Sublist is := by
  cases max with
  | none => exact List.Sublist.refl is
  | some m => exact take_sublist _ is

theorem scan_eq (hact : ∀ s i j, j ≠ i → select (act s i) j = select s j) (max : Option ℕ) :
    ∀ {is : List ι}, is.Nodup → ∀ (s : σ) (n : ℕ), scan select act max s n is =
      (n + (chosen max n (is.filter (select s))).length,
        (chosen max n (is.filter (select s))).foldl act s)
  | [], _, s, n => by
    have hnil : chosen max n ([] : List ι) = [] := by cases max <;> simp [chosen]
    simp [scan, hnil]
  | i :: is, hnd, s, n => by
    obtain ⟨hi, hnd⟩ := nodup_cons.mp hnd
    by_cases hgo : goesOn max n = true
    · by_cases hsel : select s i = true
      · -- acting on `i` does not change what is selected further on
        have hrest : is.filter (select (act s i)) = is.filter (select s) := by
          apply filter_congr
          intro j hj
          apply hact
          rintro rfl
          exact hi hj
        rw [scan, if_pos hgo, if_pos hsel, scan_eq hact max hnd, hrest,
          filter_cons_of_pos hsel, chosen_cons hgo, length_cons, foldl_cons,
          Nat.add_right_comm, add_assoc]
      · rw [scan, if_pos hgo, if_neg hsel, scan_eq hact max hnd, filter_cons_of_neg hsel]
    · rw [scan, if_neg hgo, chosen_of_not (by simpa using hgo)]
      rfl

/-! ### Folds under which a number grows -/

theorem le_foldl_of_mem {f : σ → ι → σ} {g : σ → ℕ} (hf : ∀ s i, g s ≤ g (f s i)) {x : ℕ} {i : ι}
    {l : List ι} (hi : i ∈ l) (hx : ∀ s, x ≤ g (f s i)) (s : σ) : x ≤ g (l.foldl f s) := by
  induction l generalizing s with
  | nil => cases hi
  | cons a l ih =>
    rcases mem_cons.mp hi with rfl | hi
    · exact foldlRecOn l f (motive := fun s => x ≤ g s) (hx s) fun s hs a _ => hs.trans (hf s a)
    · exact ih hi _

end Lib
