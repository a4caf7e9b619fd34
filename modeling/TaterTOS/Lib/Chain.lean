import Mathlib.Tactic

/-!
# Singly linked lists threaded through an array

A list is given by a head and a map `next`; the value `nil` ends it.
-/

namespace Lib

open Function List

variable {α : Type*}

def Chain (next : α → α) (nil : α) : α → List α → Prop
  | h, [] => h = nil
  | h, x :: xs => h = x ∧ x ≠ nil ∧ Chain next nil (next x) xs

namespace Chain

variable {next : α → α} {nil h x p : α} {l l1 l2 : List α}

@[simp] theorem nil_iff : Chain next nil h [] ↔ h = nil := Iff.rfl

theorem unique : ∀ {h : α} {l l' : List α}, Chain next nil h l → Chain next nil h l' → l = l'
  | _, [], [], _, _ => rfl
  | _, [], _ :: _, h1, h2 => absurd (h2.1.symm.trans h1) h2.2.1
  | _, _ :: _, [], h1, h2 => absurd (h1.1.symm.trans h2) h1.2.1
  | _, x :: _, y :: _, h1, h2 => by
    obtain rfl : x = y := h1.1.symm.trans h2.1
    rw [unique h1.2.2 h2.2.2]

theorem ne_nil : ∀ {h : α} {l : List α}, Chain next nil h l → ∀ x ∈ l, x ≠ nil
  | _, y :: l, hc, x, hx => by
    rcases mem_cons.mp hx with rfl | hx
    · exact hc.2.1
    · exact ne_nil hc.2.2 x hx

theorem suffix : ∀ {h : α} {l1 : List α}, Chain next nil h (l1 ++ x :: l2) →
    Chain next nil x (x :: l2)
  | _, [], hc => ⟨rfl, hc.2⟩
  | _, _ :: _, hc => suffix hc.2.2

theorem nodup : ∀ {h : α} {l : List α}, Chain next nil h l → l.Nodup
  | _, [], _ => nodup_nil
  | _, x :: l, hc => by
    refine nodup_cons.mpr ⟨fun hx => ?_, nodup hc.2.2⟩
    obtain ⟨l1, l2, rfl⟩ := append_of_mem hx
    -- the chain from `x` would be both the whole list and a proper part of it
    have h1 : Chain next nil x (x :: (l1 ++ x :: l2)) := ⟨rfl, hc.2⟩
    have h2 : Chain next nil x (x :: l2) := suffix hc.2.2
    have := congrArg List.length (unique h1 h2)
    simp at this
    omega

theorem congr {next' : α → α} : ∀ {h : α} {l : List α}, (∀ x ∈ l, next' x = next x) →
    Chain next nil h l → Chain next' nil h l
  | _, [], _, hc => hc
  | _, x :: l, hn, hc => by
    refine ⟨hc.1, hc.2.1, ?_⟩
    rw [hn x mem_cons_self]
    exact congr (fun y hy => hn y (mem_cons_of_mem _ hy)) hc.2.2

theorem splice {next' : α → α} {l3 : List α} : ∀ {h : α} {l1 : List α},
    Chain next nil h (l1 ++ p :: l2) → (∀ x ∈ l1, next' x = next x) →
      Chain next' nil (next' p) l3 → Chain next' nil h (l1 ++ p :: l3)
  | _, [], hc, _, h3 => ⟨hc.1, hc.2.1, h3⟩
  | _, x :: l1, hc, hn, h3 => by
    refine ⟨hc.1, hc.2.1, ?_⟩
    rw [hn x mem_cons_self]
    exact splice hc.2.2 (fun y hy => hn y (mem_cons_of_mem x hy)) h3

theorem length_le {next : ℕ → ℕ} {nil h n : ℕ} {l : List ℕ} (hc : Chain next nil h l)
    (hl : ∀ x ∈ l, x < n) : l.length ≤ n := by
  have hs : l.toFinset ⊆ Finset.range n := fun x hx =>
    Finset.mem_range.mpr (hl x (mem_toFinset.mp hx))
  have := Finset.card_le_card hs
  rwa [toFinset_card_of_nodup hc.nodup, Finset.card_range] at this

end Chain

/-! ### Searching a list -/

/-- Walk the list from `cur` up to the first node that satisfies `ok`, carrying the node before
it. The result is `none` when the fuel runs out, `some none` when no node satisfies `ok`. -/
def walk [DecidableEq α] (next : α → α) (nil : α) (ok : α → Bool) :
    ℕ → α → α → Option (Option (α × α))
  | 0, _, _ => none
  | fuel + 1, prev, cur =>
    if cur = nil then some none
    else if ok cur then some (some (prev, cur))
    else walk next nil ok fuel cur (next cur)

section

variable [DecidableEq α] {next : α → α} {nil : α} (ok : α → Bool)

/-- The same walk, which on a list without such a node ends at `nil` with the last node before it.
-/
def seek (next : α → α) (nil : α) (ok : α → Bool) : ℕ → α → α → Option (α × α)
  | 0, _, _ => none
  | fuel + 1, prev, cur =>
    if cur = nil then some (prev, nil)
    else if ok cur then some (prev, cur)
    else seek next nil ok fuel cur (next cur)

theorem seek_spec {fuel : ℕ} (prev : α) {cur : α} {l : List α} (hc : Chain next nil cur l)
    (hf : l.length < fuel) :
    (seek next nil ok fuel prev cur = some (l.getLast?.getD prev, nil) ∧ ∀ x ∈ l, ok x = false) ∨
      ∃ l1 x l2, l = l1 ++ x :: l2 ∧ ok x = true ∧
        seek next nil ok fuel prev cur = some (l1.getLast?.getD prev, x) := by
  induction fuel generalizing prev cur l with
  | zero => omega
  | succ fuel ih =>
    cases l with
    | nil => exact .inl ⟨by simp [seek, Chain.nil_iff.mp hc], by simp⟩
    | cons y l =>
      obtain ⟨rfl, hne, hc'⟩ := hc
      by_cases hok : ok cur = true
      · exact .inr ⟨[], cur, l, rfl, hok, by simp [seek, hne, hok]⟩
      have hstep : seek next nil ok (fuel + 1) prev cur = seek next nil ok fuel cur (next cur) := by
        simp [seek, hne, hok]
      rw [hstep]
      rcases ih cur hc' (Nat.lt_of_succ_lt_succ hf) with ⟨hs, hall⟩ | ⟨l1, x, l2, rfl, hx, hs⟩
      · refine .inl ⟨by rw [hs, List.getLast?_cons, Option.getD_some], fun x hx => ?_⟩
        rcases mem_cons.mp hx with rfl | hx
        · simpa using hok
        · exact hall x hx
      · exact .inr ⟨cur :: l1, x, l2, rfl, hx, by
          rw [hs, List.getLast?_cons, Option.getD_some]⟩

theorem walk_eq (fuel : ℕ) (prev cur : α) : walk next nil ok fuel prev cur =
    (seek next nil ok fuel prev cur).map fun r => if r.2 = nil then none else some r := by
  induction fuel generalizing prev cur with
  | zero => rfl
  | succ fuel ih =>
    unfold walk seek
    split_ifs with hnil hok
    · simp
    · simp [hnil]
    · exact ih _ _

/-- With fuel for the whole list, `walk` finds the first node that satisfies `ok` together with
the node before it, or reports that there is none. -/
theorem walk_spec {fuel : ℕ} (prev : α) {cur : α} {l : List α} (hc : Chain next nil cur l)
    (hf : l.length < fuel) :
    (walk next nil ok fuel prev cur = some none ∧ ∀ x ∈ l, ok x = false) ∨
      ∃ l1 x l2, l = l1 ++ x :: l2 ∧ ok x = true ∧
        walk next nil ok fuel prev cur = some (some (l1.getLast?.getD prev, x)) := by
  rw [walk_eq]
  rcases seek_spec ok prev hc hf with ⟨hs, hall⟩ | ⟨l1, x, l2, rfl, hx, hs⟩
  · exact .inl ⟨by simp [hs], hall⟩
  · exact .inr ⟨l1, x, l2, rfl, hx, by simp [hs, hc.ne_nil x (by simp)]⟩

end

/-! ### Taking a node out -/

section

variable [DecidableEq α]

def unlinkNext (next : α → α) (nil prev cur : α) : α → α :=
  update (if prev = nil then next else update next prev (next cur)) cur nil

def unlinkHead (next : α → α) (nil prev cur head : α) : α :=
  if prev = nil then next cur else head

variable {next : α → α} {nil : α}

theorem unlinkNext_of_ne {prev cur y : α} (hc : y ≠ cur) (hp : y ≠ prev) :
    unlinkNext next nil prev cur y = next y := by
  unfold unlinkNext
  rw [update_of_ne hc]
  split_ifs
  · rfl
  · rw [update_of_ne hp]

theorem Chain.redirect {x p : α} {l2 : List α} : ∀ {h : α} {l1 : List α},
    Chain next nil h (l1 ++ p :: x :: l2) →
    Chain (update next p (next x)) nil h (l1 ++ p :: l2)
  | h, [], hc => by
    have hnd : (p :: x :: l2).Nodup := hc.nodup
    obtain ⟨rfl, hp, -, -, hc2⟩ := hc
    refine ⟨rfl, hp, ?_⟩
    rw [update_self]
    refine hc2.congr fun y hy => update_of_ne ?_ _ _
    rintro rfl
    simp [hy] at hnd
  | h, y :: l1, hc => by
    have hne : y ≠ p := by
      rintro rfl
      have := hc.nodup
      simp at this
    obtain ⟨rfl, hy, hc'⟩ := hc
    refine ⟨rfl, hy, ?_⟩
    rw [update_of_ne hne]
    exact Chain.redirect hc'

theorem Chain.unlink {h x : α} {l1 l2 : List α} (hc : Chain next nil h (l1 ++ x :: l2)) :
    Chain (unlinkNext next nil (l1.getLast?.getD nil) x) nil
      (unlinkHead next nil (l1.getLast?.getD nil) x h) (l1 ++ l2) := by
  have hnd := hc.nodup
  have hx : x ∉ l1 ++ l2 := by
    have := nodup_middle.mp hnd
    exact (nodup_cons.mp this).1
  rcases eq_nil_or_concat l1 with rfl | ⟨l0, p, rfl⟩
  · simp only [List.getLast?_nil, Option.getD_none, unlinkNext, unlinkHead] at hc hx ⊢
    obtain ⟨rfl, -, hc2⟩ := hc
    refine hc2.congr fun y hy => update_of_ne ?_ _ _
    rintro rfl
    exact hx hy
  · have hp : p ≠ nil := hc.ne_nil p (by simp)
    simp only [concat_eq_append, List.getLast?_append, List.getLast?_singleton,
      Option.some_or, Option.getD_some, unlinkNext, unlinkHead, if_neg hp] at hc hx ⊢
    rw [append_assoc] at hc ⊢
    refine hc.redirect.congr fun y hy => update_of_ne ?_ _ _
    rintro rfl
    exact hx (by simpa using hy)

theorem Chain.push {h x : α} {l : List α} (hc : Chain next nil h l) (hx : x ≠ nil)
    (hl : x ∉ l) : Chain (update next x h) nil x (x :: l) := by
  refine ⟨rfl, hx, ?_⟩
  rw [update_self]
  refine hc.congr fun y hy => update_of_ne ?_ _ _
  rintro rfl
  exact hl hy

end

end Lib
