import Mathlib.Tactic

/-!
# Radix trees in a memory

A memory gives each node an entry for every index, and `child` reads the node that an entry points
to. Several trees may live in one memory; `ok` says which paths belong to them.

* `Sep.link`, `Sep.clear`, `Sep.root`: hanging an empty node into a tree, clearing a node outside
  the trees and a new tree keep the trees apart.
-/

namespace Lib.Radix

open Function List

variable {P I E : Type*} {child : E → Option P}

def node (child : E → Option P) (m : P → I → E) : P → List I → Option P
  | p, [] => some p
  | p, i :: l => (child (m p i)).bind fun q => node child m q l

@[simp] theorem node_nil (m : P → I → E) (p : P) : node child m p [] = some p := rfl

theorem node_append (m : P → I → E) (p : P) (l l' : List I) :
    node child m p (l ++ l') = (node child m p l).bind fun q => node child m q l' := by
  induction l generalizing p with
  | nil => rfl
  | cons i l ih =>
    simp only [cons_append, node]
    cases child (m p i) with
    | none => rfl
    | some q => exact ih q

theorem node_concat (m : P → I → E) (p : P) (l : List I) (i : I) :
    node child m p (l ++ [i]) = (node child m p l).bind fun q => child (m q i) := by
  rw [node_append]
  congr 1
  funext q
  simp only [node]
  cases child (m q i) <;> rfl

theorem node_congr {m m' : P → I → E} {r : P} {l : List I}
    (h : ∀ l' i, l' ++ [i] <+: l → ∀ q, node child m r l' = some q → m' q i = m q i) :
    node child m' r l = node child m r l := by
  induction l using List.reverseRecOn with
  | nil => rfl
  | append_singleton l i ih =>
    have hl : node child m' r l = node child m r l :=
      ih fun l' j hp => h l' j (hp.trans (List.prefix_append l [i]))
    rw [node_concat, node_concat, hl]
    cases hq : node child m r l with
    | none => rfl
    | some q =>
      simp only [Option.bind_some]
      rw [h l i (List.prefix_refl _) q hq]

/-! ### Separate trees -/

def Sep (child : E → Option P) (ok : List I → Prop) (R : Set P) (m : P → I → E) : Prop :=
  ∀ r ∈ R, ∀ r' ∈ R, ∀ l l', ok l → ok l' → ∀ q, node child m r l = some q →
    node child m r' l' = some q → r = r' ∧ l = l'

def Closed (ok : List I → Prop) : Prop := ∀ l i, ok (l ++ [i]) → ok l

theorem Closed.of_prefix {ok : List I → Prop} (h : Closed ok) {l l' : List I} (hp : l <+: l')
    (hl : ok l') : ok l := by
  obtain ⟨t, rfl⟩ := hp
  induction t using List.reverseRecOn with
  | nil => simpa using hl
  | append_singleton t i ih =>
    rw [← append_assoc] at hl
    exact ih (h _ _ hl)

def IsNode (child : E → Option P) (ok : List I → Prop) (R : Set P) (m : P → I → E) (q : P) : Prop :=
  ∃ r ∈ R, ∃ l, ok l ∧ node child m r l = some q

variable [DecidableEq P] [DecidableEq I] {ok : List I → Prop} {R : Set P} {m : P → I → E}
  {r r' c q : P} {l l' : List I} {i : I} {e : E}

def write (m : P → I → E) (p : P) (i : I) (e : E) : P → I → E :=
  update m p (update (m p) i e)

@[simp] theorem write_self (m : P → I → E) (p : P) (i : I) (e : E) : write m p i e p i = e := by
  simp [write]

theorem write_of_ne (m : P → I → E) {p q : P} {i j : I} (e : E) (h : ¬ (q = p ∧ j = i)) :
    write m p i e q j = m q j := by
  unfold write
  by_cases hq : q = p
  · subst hq
    rw [update_self, update_of_ne fun hj => h ⟨rfl, hj⟩]
  · rw [update_of_ne hq]

theorem write_of_ne_node (m : P → I → E) {p q : P} (i : I) (e : E) (h : q ≠ p) :
    write m p i e q = m q := update_of_ne h _ _

section

variable (hs : Sep child ok R m) (hc : Closed ok) (hr : r ∈ R) (hl : ok l)
    (hq : node child m r l = some q)
include hs hc hr hl hq

theorem node_write (hr' : r' ∈ R) (hl' : ok l')
    (hn : ¬ (r' = r ∧ l ++ [i] <+: l')) :
    node child (write m q i e) r' l' = node child m r' l' := by
  refine node_congr fun l1 j hp q' hq' => write_of_ne m e ?_
  rintro ⟨rfl, rfl⟩
  have hl1 : ok l1 := hc.of_prefix ((List.prefix_append l1 [j]).trans hp) hl'
  obtain ⟨rfl, rfl⟩ := hs r' hr' r hr l1 l hl1 hl q' hq' hq
  exact hn ⟨rfl, hp⟩

theorem node_write_prefix (hp : l' <+: l) :
    node child (write m q i e) r l' = node child m r l' := by
  refine node_write hs hc hr hl hq hr (hc.of_prefix hp hl) ?_
  rintro ⟨-, hp'⟩
  have h1 := hp'.length_le
  have h2 := hp.length_le
  simp only [length_append, length_singleton] at h1
  omega

end

omit [DecidableEq I] in
theorem node_update (hc : Closed ok) (hn : ¬ IsNode child ok R m c) (f : I → E) (hr : r ∈ R)
    (hl : ok l) : node child (update m c f) r l = node child m r l := by
  refine node_congr fun l' j hp q hq => ?_
  have hne : q ≠ c := by
    rintro rfl
    exact hn ⟨r, hr, l', hc.of_prefix ((List.prefix_append l' [j]).trans hp) hl, hq⟩
  rw [update_of_ne hne]

omit [DecidableEq I] in
theorem Sep.clear (hs : Sep child ok R m) (hc : Closed ok) (hn : ¬ IsNode child ok R m c)
    (f : I → E) : Sep child ok R (update m c f) := by
  intro r hr r' hr' l l' hl hl' q hq hq'
  rw [node_update hc hn f hr hl] at hq
  rw [node_update hc hn f hr' hl'] at hq'
  exact hs r hr r' hr' l l' hl hl' q hq hq'

omit [DecidableEq I] in
theorem isNode_update (hc : Closed ok) (hn : ¬ IsNode child ok R m c) (f : I → E) :
    IsNode child ok R (update m c f) q ↔ IsNode child ok R m q := by
  constructor
  · rintro ⟨r, hr, l, hl, hq⟩
    exact ⟨r, hr, l, hl, by rwa [node_update hc hn f hr hl] at hq⟩
  · rintro ⟨r, hr, l, hl, hq⟩
    exact ⟨r, hr, l, hl, by rwa [node_update hc hn f hr hl]⟩

/-! ### Hanging a node into a tree -/

section

variable (hs : Sep child ok R m) (hc : Closed ok) (hr : r ∈ R) (hl : ok l)
  (hq : node child m r l = some q) (he : child e = some c) (hn : ¬ IsNode child ok R m c)
  (hz : ∀ j, child (m c j) = none)

include hs hc hr hl hq he hn hz in
theorem node_link (t : List I) :
    node child (write m q i e) r (l ++ [i] ++ t) = if t = [] then some c else none := by
  have hqc : c ≠ q := by
    rintro rfl
    exact hn ⟨r, hr, l, hl, hq⟩
  rw [node_append, node_concat, node_write_prefix hs hc hr hl hq (List.prefix_refl l), hq]
  simp only [Option.bind_some, write_self, he]
  cases t with
  | nil => simp
  | cons j t => simp [node, write_of_ne_node m i e hqc, hz]

include hs hc hr hl hq he hn hz in
theorem node_link_cases (hr' : r' ∈ R) (hl' : ok l') {q' : P}
    (hq' : node child (write m q i e) r' l' = some q') :
    r' = r ∧ l' = l ++ [i] ∧ q' = c ∨ node child m r' l' = some q' := by
  by_cases hp : r' = r ∧ l ++ [i] <+: l'
  · obtain ⟨rfl, t, rfl⟩ := hp
    rw [node_link hs hc hr hl hq he hn hz t] at hq'
    split_ifs at hq' with ht
    subst ht
    exact Or.inl ⟨rfl, by simp, (Option.some_inj.mp hq').symm⟩
  · rw [node_write hs hc hr hl hq hr' hl' hp] at hq'
    exact Or.inr hq'

include hs hc hr hl hq he hn hz in
theorem Sep.link : Sep child ok R (write m q i e) := by
  intro r1 hr1 r2 hr2 l1 l2 hl1 hl2 q' hq1 hq2
  rcases node_link_cases hs hc hr hl hq he hn hz hr1 hl1 hq1 with ⟨rfl, rfl, rfl⟩ | h1
  · rcases node_link_cases hs hc hr hl hq he hn hz hr2 hl2 hq2 with ⟨rfl, rfl, -⟩ | h2
    · exact ⟨rfl, rfl⟩
    · exact absurd ⟨r2, hr2, l2, hl2, h2⟩ hn
  · rcases node_link_cases hs hc hr hl hq he hn hz hr2 hl2 hq2 with ⟨rfl, rfl, rfl⟩ | h2
    · exact absurd ⟨r1, hr1, l1, hl1, h1⟩ hn
    · exact hs r1 hr1 r2 hr2 l1 l2 hl1 hl2 q' h1 h2

end

theorem Sep.leaf (hs : Sep child ok R m) (hc : Closed ok) (hr : r ∈ R) (hl : ok l)
    (hq : node child m r l = some q) (hleaf : ¬ ok (l ++ [i])) (hr' : r' ∈ R) (hl' : ok l') :
    node child (write m q i e) r' l' = node child m r' l' :=
  node_write hs hc hr hl hq hr' hl' fun h => hleaf (hc.of_prefix h.2 hl')

omit [DecidableEq P] [DecidableEq I] in
theorem node_root (hz : ∀ j, ok [j] → child (m c j) = none) (hc : Closed ok) (hl : ok l)
    (hq : node child m c l = some q) : l = [] ∧ q = c := by
  cases l with
  | nil => exact ⟨rfl, (Option.some_inj.mp hq).symm⟩
  | cons j t =>
    have hj : ok [j] := hc.of_prefix ⟨t, rfl⟩ hl
    simp [node, hz j hj] at hq

omit [DecidableEq P] [DecidableEq I] in
theorem Sep.root (hs : Sep child ok R m) (hn : ¬ IsNode child ok R m c)
    (hz : ∀ j, ok [j] → child (m c j) = none) (hc : Closed ok) :
    Sep child ok (insert c R) m := by
  intro r1 hr1 r2 hr2 l1 l2 hl1 hl2 q hq1 hq2
  rcases Set.mem_insert_iff.mp hr1 with rfl | h1
  · obtain ⟨rfl, rfl⟩ := node_root hz hc hl1 hq1
    rcases Set.mem_insert_iff.mp hr2 with rfl | h2
    · exact ⟨rfl, (node_root hz hc hl2 hq2).1.symm⟩
    · exact absurd ⟨r2, h2, l2, hl2, hq2⟩ hn
  · rcases Set.mem_insert_iff.mp hr2 with rfl | h2
    · obtain ⟨rfl, rfl⟩ := node_root hz hc hl2 hq2
      exact absurd ⟨r1, h1, l1, hl1, hq1⟩ hn
    · exact hs r1 h1 r2 h2 l1 l2 hl1 hl2 q hq1 hq2

/-! ### Listings -/

structure Lists {α : Type*} (at_ : List ℕ → α → Prop) (l : List ℕ) (xs : List α) : Prop where
  mem : ∀ x, x ∈ xs ↔ ∃ t, at_ (l ++ t) x
  nodup : xs.Nodup

section

variable {α : Type*} {at_ : List ℕ → α → Prop} {l : List ℕ}

theorem Lists.nil (h : ∀ t x, ¬ at_ (l ++ t) x) : Lists at_ l [] :=
  ⟨fun x => ⟨fun hx => absurd hx not_mem_nil, fun ⟨t, ht⟩ => absurd ht (h t x)⟩, nodup_nil⟩

theorem Lists.node (hu : ∀ l l' x, at_ l x → at_ l' x → l = l') {x0 : α}
    (h0 : ∀ x, at_ l x ↔ x = x0) {n : ℕ} {f : ℕ → List α}
    (hf : ∀ i < n, Lists at_ (l ++ [i]) (f i)) (hn : ∀ i t x, at_ (l ++ i :: t) x → i < n) :
    Lists at_ l ((List.range n).flatMap f ++ [x0]) := by
  refine ⟨fun x => ?_, ?_⟩
  · simp only [mem_append, mem_flatMap, mem_range, mem_singleton]
    constructor
    · rintro (⟨i, hi, hx⟩ | rfl)
      · obtain ⟨t, ht⟩ := ((hf i hi).mem x).mp hx
        exact ⟨i :: t, by simpa using ht⟩
      · exact ⟨[], by simpa using (h0 x).mpr rfl⟩
    · rintro ⟨t, ht⟩
      cases t with
      | nil => exact .inr ((h0 x).mp (by simpa using ht))
      | cons i t =>
        have hi := hn i t x ht
        exact .inl ⟨i, hi, ((hf i hi).mem x).mpr ⟨t, by simpa using ht⟩⟩
  · refine nodup_append.mpr ⟨?_, nodup_singleton _, ?_⟩
    · refine nodup_flatMap.mpr ⟨fun i hi => (hf i (mem_range.mp hi)).nodup, ?_⟩
      refine List.Nodup.pairwise_of_forall_ne nodup_range fun i hi j hj hij => ?_
      intro x hxi hxj
      obtain ⟨t, ht⟩ := ((hf i (mem_range.mp hi)).mem x).mp hxi
      obtain ⟨t', ht'⟩ := ((hf j (mem_range.mp hj)).mem x).mp hxj
      have heq := hu _ _ _ ht ht'
      simp only [append_assoc, append_cancel_left_eq, cons_append, List.cons.injEq] at heq
      exact hij heq.1
    · intro x hx y hy hxy
      rw [mem_singleton.mp hy] at hxy
      obtain ⟨i, hi, hx⟩ := mem_flatMap.mp hx
      obtain ⟨t, ht⟩ := ((hf i (mem_range.mp hi)).mem x).mp hx
      have heq := hu _ _ _ ht ((h0 x).mpr hxy)
      simp at heq

end

end Lib.Radix
