import Mathlib.Tactic

/-!
# Doubly linked lists

Lists whose elements know the element after them and the one before.

* `Seg next prev b l e`: the list `l` is linked, with `b` before it and `e` after it.
-/

namespace Lib.DList

open Function List

variable {α : Type*} {next prev next' prev' : α → Option α} {b e : Option α} {xs ys : List α}
  {a : α} {f : α → Option α} {o v : Option α}

def Seg (next prev : α → Option α) : Option α → List α → Option α → Prop
  | _, [], _ => True
  | b, a :: l, e => prev a = b ∧ next a = l.head?.or e ∧ Seg next prev (some a) l e

theorem seg_append : Seg next prev b (xs ++ ys) e ↔
    Seg next prev b xs (ys.head?.or e) ∧ Seg next prev (xs.getLast?.or b) ys e := by
  induction xs generalizing b with
  | nil => simp [Seg]
  | cons a xs ih =>
    have hlast : (a :: xs).getLast?.or b = xs.getLast?.or (some a) := by
      rw [List.getLast?_cons]
      cases xs.getLast? <;> rfl
    rw [cons_append, Seg, Seg, ih, hlast, List.head?_append, Option.or_assoc]
    tauto

theorem Seg.congr (h : Seg next prev b xs e) (hn : ∀ x ∈ xs, next' x = next x)
    (hp : ∀ x ∈ xs, prev' x = prev x) : Seg next' prev' b xs e := by
  induction xs generalizing b with
  | nil => trivial
  | cons a xs ih =>
    refine ⟨(hp a (by simp)).trans h.1, (hn a (by simp)).trans h.2.1, ih h.2.2 ?_ ?_⟩
    · exact fun x hx => hn x (mem_cons_of_mem _ hx)
    · exact fun x hx => hp x (mem_cons_of_mem _ hx)

theorem Seg.links (h : Seg next prev none (xs ++ a :: ys) none) :
    next a = ys.head? ∧ prev a = xs.getLast? := by
  have hmid := (seg_append.mp h).2
  exact ⟨by simpa using hmid.2.1, by simpa using hmid.1⟩

theorem getLast?_not_mem_right (hd : (xs ++ ys).Nodup) :
    ∀ x ∈ ys, xs.getLast? ≠ some x := fun _ hx h =>
  disjoint_of_nodup_append hd (mem_of_getLast? h) hx

theorem head?_not_mem_left (hd : (xs ++ ys).Nodup) : ∀ x ∈ xs, ys.head? ≠ some x := fun _ hx h =>
  disjoint_of_nodup_append hd hx (mem_of_head? h)

variable [DecidableEq α]

def put (f : α → Option α) (o v : Option α) : α → Option α := match o with
  | none => f
  | some q => update f q v

theorem put_of_ne (h : o ≠ some a) : put f o v a = f a := by
  cases o with
  | none => rfl
  | some q => exact update_of_ne (fun hq => h (congrArg some hq.symm)) _ _

theorem put_update {w : Option α} (h : o ≠ some a) :
    put (update f a w) o v = update (put f o v) a w := by
  cases o with
  | none => rfl
  | some q => exact update_comm (fun hq => h (congrArg some hq.symm)) _ _ _

section

variable (h : Seg next prev b xs e)
include h

theorem Seg.setEnd {e' : Option α} (hd : xs.Nodup) :
    Seg (put next xs.getLast? e') prev b xs e' := by
  rcases eq_nil_or_concat' xs with rfl | ⟨zs, z, rfl⟩
  · trivial
  · rw [List.getLast?_concat]
    have hz : ∀ x ∈ zs, x ≠ z := fun x hx hxz =>
      disjoint_of_nodup_append hd hx (by simp [hxz])
    rw [seg_append] at h ⊢
    refine ⟨h.1.congr (fun x hx => update_of_ne (hz x hx) _ _) fun _ _ => rfl, h.2.1, ?_, trivial⟩
    exact update_self _ _ _

theorem Seg.setStart {b' : Option α} (hd : xs.Nodup) :
    Seg next (put prev xs.head? b') b' xs e := by
  cases xs with
  | nil => trivial
  | cons a xs =>
    have ha : ∀ x ∈ xs, x ≠ a := fun x hx hxa => (nodup_cons.mp hd).1 (hxa ▸ hx)
    exact ⟨update_self _ _ _, h.2.1,
      h.2.2.congr (fun _ _ => rfl) fun x hx => update_of_ne (ha x hx) _ _⟩

theorem Seg.updated (ha : a ∉ xs) (n p : Option α) :
    Seg (update next a n) (update prev a p) b xs e := by
  have hne : ∀ x ∈ xs, x ≠ a := fun x hx hxa => ha (hxa ▸ hx)
  exact h.congr (fun x hx => update_of_ne (hne x hx) _ _)
    fun x hx => update_of_ne (hne x hx) _ _

theorem Seg.put {o' : Option α} (ho : ∀ x ∈ xs, o ≠ some x)
    (ho' : ∀ x ∈ xs, o' ≠ some x) (n p : Option α) :
    Seg (put next o n) (put prev o' p) b xs e :=
  h.congr (fun x hx => put_of_ne (ho x hx)) fun x hx => put_of_ne (ho' x hx)

end

theorem Seg.redirect {n p : Option α} (hd : (xs ++ ys).Nodup) (hx : Seg next prev none xs e)
    (hy : Seg next prev b ys none) :
    Seg (DList.put next xs.getLast? n) (DList.put prev ys.head? p) none xs n ∧
      Seg (DList.put next xs.getLast? n) (DList.put prev ys.head? p) p ys none := by
  have hxs := hd.of_append_left
  have hys := hd.of_append_right
  refine ⟨(hx.setEnd hxs).congr (fun _ _ => rfl) ?_, (hy.setStart hys).congr ?_ fun _ _ => rfl⟩
  · exact fun x h => put_of_ne (head?_not_mem_left hd x h)
  · exact fun x h => put_of_ne (getLast?_not_mem_right hd x h)

theorem Seg.remove (h : Seg next prev none (xs ++ a :: ys) none) (hd : (xs ++ a :: ys).Nodup) :
    Seg (DList.put next xs.getLast? ys.head?) (DList.put prev ys.head? xs.getLast?) none
      (xs ++ ys) none := by
  have hd' : (xs ++ ys).Nodup := hd.sublist (by simp)
  obtain ⟨hx, -, -, hy⟩ := seg_append.mp h
  obtain ⟨hx', hy'⟩ := Seg.redirect hd' hx hy
  rw [seg_append]
  exact ⟨by simpa using hx', by simpa using hy'⟩

theorem Seg.insert (h : Seg next prev none (xs ++ ys) none) (hd : (xs ++ a :: ys).Nodup) :
    Seg (update (DList.put next xs.getLast? (some a)) a ys.head?)
      (update (DList.put prev ys.head? (some a)) a xs.getLast?) none
      (xs ++ a :: ys) none := by
  have hd' : (xs ++ ys).Nodup := hd.sublist (by simp)
  have hax : a ∉ xs := fun hx => disjoint_of_nodup_append hd hx (by simp)
  have hay : a ∉ ys := (nodup_cons.mp hd.of_append_right).1
  obtain ⟨hx, hy⟩ := seg_append.mp h
  obtain ⟨hx', hy'⟩ := Seg.redirect hd' hx hy
  rw [seg_append]
  refine ⟨hx'.updated hax _ _, ?_, ?_, hy'.updated hay _ _⟩
  · simp
  · simp

end Lib.DList
