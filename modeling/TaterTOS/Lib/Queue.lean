import TaterTOS.Lib.Chain

/-!
# Queues threaded through an array

A queue is a linked list with a pointer to its last node and a count of its nodes.
-/

namespace Lib

open Function List

variable {α : Type*} {next : α → α} {nil : α}

theorem Chain.snoc [DecidableEq α] {t x : α} (hx : x ≠ nil) : ∀ {h : α} {l : List α},
    Chain next nil h (l ++ [t]) → x ∉ l ++ [t] →
    Chain (update (update next x nil) t x) nil h (l ++ [t] ++ [x])
  | h, [], hc, hl => by
    have hne : x ≠ t := by simpa using hl
    obtain ⟨rfl, ht, -⟩ := hc
    refine ⟨rfl, ht, ?_, hx, ?_⟩
    · rw [update_self]
    · rw [update_of_ne hne, update_self]
      rfl
  | h, y :: l, hc, hl => by
    have hnd : (y :: (l ++ [t])).Nodup := hc.nodup
    have hyt : y ≠ t := by
      rintro rfl
      simp at hnd
    obtain ⟨rfl, hy, hc'⟩ := hc
    refine ⟨rfl, hy, ?_⟩
    rw [update_of_ne hyt, update_of_ne (by rintro rfl; simp at hl)]
    exact Chain.snoc hx hc' (fun hmem => hl (mem_cons_of_mem _ hmem))

structure Queue (α : Type*) where
  head : α
  tail : α
  count : ℕ

namespace Queue

structure Holds (next : α → α) (nil : α) (q : Queue α) (l : List α) : Prop where
  chain : Chain next nil q.head l
  tail : q.tail = l.getLast?.getD nil
  count : q.count = l.length

namespace Holds

variable {q : Queue α} {l l1 l2 : List α} {x : α}

theorem congr {next' : α → α} (h : Holds next nil q l) (hn : ∀ x ∈ l, next' x = next x) :
    Holds next' nil q l :=
  ⟨h.chain.congr hn, h.tail, h.count⟩

theorem nodup (h : Holds next nil q l) : l.Nodup := h.chain.nodup

theorem empty : Holds next nil ⟨nil, nil, 0⟩ [] := ⟨rfl, rfl, rfl⟩

theorem head_eq (h : Holds next nil q l) : q.head = l.head?.getD nil := by
  cases l with
  | nil => exact h.chain
  | cons x l => exact h.chain.1

theorem head_eq_nil_iff (h : Holds next nil q l) : q.head = nil ↔ l = [] := by
  cases l with
  | nil => exact iff_of_true h.chain rfl
  | cons x l =>
    refine iff_of_false ?_ (cons_ne_nil x l)
    rw [h.chain.1]
    exact h.chain.2.1

end Holds

variable [DecidableEq α]

def push (next : α → α) (nil : α) (q : Queue α) (x : α) : (α → α) × Queue α :=
  let next := update next x nil
  if q.head = nil then (next, ⟨x, x, q.count + 1⟩)
  else (update next q.tail x, { q with tail := x, count := q.count + 1 })

def pop (next : α → α) (nil : α) (q : Queue α) : (α → α) × Queue α :=
  if q.head = nil then (next, q)
  else
    let head := next q.head
    (update next q.head nil, ⟨head, if head = nil then nil else q.tail, q.count - 1⟩)

def take (next : α → α) (nil : α) (q : Queue α) (prev cur : α) : (α → α) × Queue α :=
  (unlinkNext next nil prev cur,
    ⟨unlinkHead next nil prev cur q.head, if q.tail = cur then prev else q.tail, q.count - 1⟩)

def promote (next : α → α) (nil : α) (ok : α → Bool) (fuel : ℕ) (q : Queue α) : (α → α) × Queue α :=
  match walk next nil ok fuel q.head (next q.head) with
  | some (some (prev, cur)) =>
    (update (update next prev (next cur)) cur q.head,
      { q with head := cur, tail := if q.tail = cur then prev else q.tail })
  | _ => (next, q)

section

variable {q : Queue α} {l l1 l2 : List α} {x : α}

theorem Holds.push (h : Holds next nil q l) (hx : x ≠ nil) (hl : x ∉ l) :
    Holds (q.push next nil x).1 nil (q.push next nil x).2 (l ++ [x]) := by
  rcases eq_nil_or_concat l with rfl | ⟨l0, t, rfl⟩
  · have hhead : q.head = nil := h.chain
    simp only [Queue.push, hhead]
    refine ⟨⟨rfl, hx, ?_⟩, rfl, ?_⟩
    · exact update_self _ _ _
    · exact congrArg (· + 1) h.count
  · rw [concat_eq_append] at h hl ⊢
    have hhead : q.head ≠ nil := fun he => by simpa using h.head_eq_nil_iff.mp he
    have htail : q.tail = t := by
      rw [h.tail]
      simp
    simp only [Queue.push, if_neg hhead, htail]
    refine ⟨h.chain.snoc hx hl, ?_, ?_⟩
    · simp
    · simp [h.count]

theorem Holds.push_next (h : Holds next nil q l) {y : α} (hy : y ≠ x) (hl : y ∉ l) :
    (q.push next nil x).1 y = next y := by
  unfold Queue.push
  split_ifs with hhead
  · exact update_of_ne hy _ _
  · have hne : y ≠ q.tail := by
      rintro rfl
      rcases eq_nil_or_concat l with rfl | ⟨l0, t, rfl⟩
      · exact hhead h.chain
      · apply hl
        rw [h.tail]
        simp
    change update (update next x nil) q.tail x y = next y
    rw [update_of_ne hne, update_of_ne hy]

theorem Holds.pop (h : Holds next nil q (x :: l)) :
    Holds (q.pop next nil).1 nil (q.pop next nil).2 l := by
  have hnd := h.nodup
  obtain ⟨⟨hhead, hx, hc⟩, htail, hcount⟩ := h
  simp only [Queue.pop, hhead, if_neg hx]
  refine ⟨hc.congr fun y hy => update_of_ne ?_ _ _, ?_, ?_⟩
  · rintro rfl
    exact (nodup_cons.mp hnd).1 hy
  · cases l with
    | nil => exact if_pos hc
    | cons y l =>
      have hy : next x ≠ nil := by
        rw [hc.1]
        exact hc.2.1
      rw [if_neg hy, htail, List.getLast?_cons_cons]
  · rw [hcount]
    rfl

theorem Holds.pop_next (h : Holds next nil q (x :: l)) {y : α} (hy : y ≠ x) :
    (q.pop next nil).1 y = next y := by
  simp only [Queue.pop, h.chain.1, if_neg h.chain.2.1]
  exact update_of_ne hy _ _

section

variable (h : Holds next nil q (l1 ++ x :: l2))
include h

theorem Holds.tail_without :
    (if q.tail = x then l1.getLast?.getD nil else q.tail) = (l1 ++ l2).getLast?.getD nil := by
  have hnd := h.nodup
  rw [h.tail]
  rcases eq_nil_or_concat l2 with rfl | ⟨l3, t, rfl⟩
  · simp
  · have ht : x ≠ t := by
      rintro rfl
      simp [nodup_append] at hnd
    simp [List.getLast?_cons, ht.symm]

theorem Holds.take :
    Holds (q.take next nil (l1.getLast?.getD nil) x).1 nil
      (q.take next nil (l1.getLast?.getD nil) x).2 (l1 ++ l2) := by
  refine ⟨h.chain.unlink, h.tail_without, ?_⟩
  change q.count - 1 = _
  rw [h.count]
  simp

theorem Holds.take_next {y : α}
    (hy : y ∉ l1 ++ x :: l2) (hn : y ≠ nil) :
    (q.take next nil (l1.getLast?.getD nil) x).1 y = next y := by
  apply unlinkNext_of_ne
  · rintro rfl
    simp at hy
  · rintro rfl
    rcases eq_nil_or_concat l1 with rfl | ⟨l0, t, rfl⟩
    · exact hn rfl
    · simp [concat_eq_append] at hy

end

theorem Holds.toFront {y p : α} (h : Holds next nil q (l1 ++ p :: x :: l2))
    (hy : q.head = y) : Holds (update (update next p (next x)) x y) nil
      ⟨x, if q.tail = x then p else q.tail, q.count⟩ (x :: (l1 ++ p :: l2)) := by
  have hx : x ≠ nil := h.chain.ne_nil x (by simp)
  have hnd := h.nodup
  have hout : x ∉ l1 ++ p :: l2 := by
    rw [append_cons] at hnd
    have := (nodup_cons.mp (nodup_middle.mp hnd)).1
    simpa [append_assoc] using this
  have hlast : Holds next nil q (l1 ++ [p] ++ x :: l2) := append_cons l1 p (x :: l2) ▸ h
  have htail := hlast.tail_without
  refine ⟨hy ▸ h.chain.redirect.push hx hout, ?_, ?_⟩
  · rw [List.getLast?_append, List.getLast?_singleton, Option.some_or, Option.getD_some] at htail
    rw [htail]
    simp [List.getLast?_cons]
  · rw [h.count]
    simp
    omega

theorem Holds.promote (ok : α → Bool) {fuel : ℕ} (h : Holds next nil q (x :: l))
    (hf : l.length < fuel) : ∃ l', l'.Perm (x :: l) ∧
      Holds (q.promote next nil ok fuel).1 nil (q.promote next nil ok fuel).2 l' ∧
      ∀ y ∉ x :: l, (q.promote next nil ok fuel).1 y = next y := by
  have hhead : q.head = x := h.chain.1
  unfold Queue.promote
  rw [hhead]
  rcases walk_spec ok x h.chain.2.2 hf with ⟨hw, -⟩ | ⟨l1, z, l2, rfl, -, hw⟩
  · rw [hw]
    exact ⟨x :: l, List.Perm.refl _, h, fun y _ => rfl⟩
  · rw [hw]
    -- the nodes up to the one found, with the last of them singled out
    have hsplit : ∃ l0 p, x :: l1 = l0 ++ [p] ∧ l1.getLast?.getD x = p := by
      rcases eq_nil_or_concat l1 with rfl | ⟨l0, p, rfl⟩
      · exact ⟨[], x, rfl, rfl⟩
      · exact ⟨x :: l0, p, by simp, by simp⟩
    obtain ⟨l0, p, hl, hp⟩ := hsplit
    have hlist : x :: (l1 ++ z :: l2) = l0 ++ p :: z :: l2 := by
      rw [← cons_append, hl, append_assoc]
      rfl
    rw [hp]
    refine ⟨z :: (l0 ++ p :: l2), ?_, ?_, fun y hy => ?_⟩
    · rw [hlist, append_cons, append_cons l0 p (z :: l2)]
      exact perm_middle.symm
    · exact (hlist ▸ h).toFront hhead
    · rw [hlist] at hy
      have hyz : y ≠ z := by
        rintro rfl
        simp at hy
      have hyp : y ≠ p := by
        rintro rfl
        simp at hy
      change update (update next p (next z)) z x y = next y
      rw [update_of_ne hyz, update_of_ne hyp]

end

end Queue

end Lib
