import TaterTOS.Dom.Model
import TaterTOS.Lib.Reach

/-!
# The forest

What the links of the pool stand for, and how the link operations change it.
-/

namespace TaterTOS.Dom

open Function Lib DList Relation List

def Pool.Parent (d : Pool) (c p : ℕ) : Prop := d.used c = true ∧ d.parent c = some p

/-- **A family**: the nodes whose parent is `p` are a doubly linked list from the first to the last
child of `p`, each of them once. -/
structure Family (d : Pool) (p : ℕ) (l : List ℕ) : Prop where
  first : d.firstChild p = l.head?
  last : d.lastChild p = l.getLast?
  linked : Seg d.nextSibling d.prevSibling none l none
  nodup : l.Nodup
  child : ∀ c, d.Parent c p ↔ c ∈ l

/-- **A forest**: every used node has a family, parents are used, and no node is above itself. -/
structure Forest (d : Pool) (kids : ℕ → List ℕ) : Prop where
  bound : ∀ i, d.used i = true → i < maxNodes
  family : ∀ p, d.used p = true → Family d p (kids p)
  up : ∀ c p, d.Parent c p → d.used p = true
  acyclic : Acyclic d.Parent

theorem forest_empty : Forest Pool.empty fun _ => [] := by
  have hno : ∀ i, Pool.empty.used i ≠ true := fun i => Bool.false_ne_true
  refine ⟨fun i hi => absurd hi (hno i), fun p hp => absurd hp (hno p),
    fun c p hc => absurd hc.1 (hno c), fun a ha => ?_⟩
  obtain ⟨b, hab, -⟩ := TransGen.head'_iff.mp ha
  exact hno a hab.1

section

variable {d d' : Pool} {kids : ℕ → List ℕ} {p q c : ℕ} {l xs ys : List ℕ}

theorem Pool.Parent.unique (h : d.Parent c p) (h' : d.Parent c q) : p = q :=
  Option.some.inj (h.2.symm.trans h'.2)

theorem Family.frame (h : Family d q l) (hfirst : d'.firstChild q = d.firstChild q)
    (hlast : d'.lastChild q = d.lastChild q)
    (hlinked : Seg d'.nextSibling d'.prevSibling none l none)
    (hparent : ∀ c, d'.Parent c q ↔ d.Parent c q) : Family d' q l :=
  ⟨hfirst.trans h.first, hlast.trans h.last, hlinked, h.nodup,
    fun c => (hparent c).trans (h.child c)⟩

theorem clear_parent (d : Pool) (c a b : ℕ) : (clear d c).Parent a b ↔ d.Parent a b ∧ a ≠ c := by
  show d.used a = true ∧ update d.parent c none a = some b ↔ _
  by_cases hac : a = c
  · subst hac
    simp
  · simp [hac, Pool.Parent]

section

variable (h : Forest d kids)
include h

theorem Forest.not_mem_of_root (hp : d.used p = true) (hroot : d.parent c = none) : c ∉ kids p := by
  intro hm
  have hcp := ((h.family p hp).child c).mpr hm
  rw [Pool.Parent, hroot] at hcp
  cases hcp.2

theorem Forest.change (hused : d'.used = d.used) (hp : d.used p = true)
    (hfamily : Family d' p l) (hothers : ∀ q, q ≠ p → d.used q = true → Family d' q (kids q))
    (hup : ∀ c q, d'.Parent c q → q = p ∨ d.Parent c q) (hacyclic : Acyclic d'.Parent) :
    Forest d' (update kids p l) := by
  refine ⟨fun i hi => h.bound i (hused ▸ hi), fun q hq => ?_, fun c q hc => ?_, hacyclic⟩
  · rw [hused] at hq
    by_cases hqp : q = p
    · subst hqp
      rw [update_self]
      exact hfamily
    · rw [update_of_ne hqp]
      exact hothers q hqp hq
  · rw [hused]
    rcases hup c q hc with rfl | hc
    · exact hp
    · exact h.up c q hc

theorem Forest.not_mem (hp : d.used p = true) (hq : d.used q = true)
    (hqp : q ≠ p) {o : Option ℕ} (ho : ∀ x, o = some x → x ∈ kids p) :
    ∀ x ∈ kids q, o ≠ some x := fun x hx hox =>
  hqp (Pool.Parent.unique (((h.family q hq).child x).mpr hx)
    (((h.family p hp).child x).mpr (ho x hox)))

/-! ### A node leaves its parent -/

def Pool.without (d : Pool) (p : ℕ) (xs ys : List ℕ) : Pool :=
  { d with
    firstChild := update d.firstChild p (xs ++ ys).head?
    lastChild := update d.lastChild p (xs ++ ys).getLast?
    nextSibling := put d.nextSibling xs.getLast? ys.head?
    prevSibling := put d.prevSibling ys.head? xs.getLast? }

theorem tsDomGetNode_of_used (hp : d.used p = true) :
    tsDomGetNode d p = some p := by
  have hlt := h.bound p hp
  rw [tsDomGetNode, if_neg (by omega), Int.toNat_natCast, if_pos hp]

theorem Forest.unlink_eq (hp : d.used p = true) (hk : kids p = xs ++ c :: ys) :
    unlink d p c = d.without p xs ys := by
  have hf := h.family p hp
  have hd : (xs ++ c :: ys).Nodup := hk ▸ hf.nodup
  have hcx : c ∉ xs := fun hx => disjoint_of_nodup_append hd hx (by simp)
  have hcy : c ∉ ys := (nodup_cons.mp hd.of_append_right).1
  obtain ⟨hnext, hprev⟩ := Seg.links (hk ▸ hf.linked)
  have hfirst : (if d.firstChild p = some c then update d.firstChild p (d.nextSibling c)
      else d.firstChild) = update d.firstChild p (xs ++ ys).head? := by
    rw [hf.first, hk]
    cases xs with
    | nil => simp [hnext]
    | cons x xs =>
      have hxc : x ≠ c := fun hx => hcx (by simp [hx])
      rw [if_neg (by simpa using hxc)]
      exact (update_eq_self_iff.mpr (by rw [hf.first, hk]; rfl)).symm
  have hlast : (if d.lastChild p = some c then update d.lastChild p (d.prevSibling c)
      else d.lastChild) = update d.lastChild p (xs ++ ys).getLast? := by
    rw [hf.last, hk]
    rcases eq_nil_or_concat' ys with rfl | ⟨zs, z, rfl⟩
    · simp [hprev]
    · have hzc : z ≠ c := fun hz => hcy (by simp [hz])
      have hl : (xs ++ c :: (zs ++ [z])).getLast? = some z := by
        rw [← cons_append, ← append_assoc, List.getLast?_concat]
      have hl' : (xs ++ (zs ++ [z])).getLast? = some z := by
        rw [← append_assoc, List.getLast?_concat]
      rw [hl, hl', if_neg (by simpa using hzc)]
      exact (update_eq_self_iff.mpr (by rw [hf.last, hk, hl])).symm
  have hkeep : put d.nextSibling (d.prevSibling c) (d.nextSibling c) c = d.nextSibling c :=
    put_of_ne fun heq => hcx (mem_of_getLast? (hprev.symm.trans heq))
  unfold unlink
  rw [tsDomGetNode_of_used h hp, Option.isSome_some, if_pos rfl, hfirst, hlast]
  dsimp only
  rw [hkeep, hnext, hprev]
  rfl

theorem Forest.detach (hp : d.used p = true) (hk : kids p = xs ++ c :: ys) :
    Forest (clear (d.without p xs ys) c) (update kids p (xs ++ ys)) := by
  have hf := h.family p hp
  have hd : (xs ++ c :: ys).Nodup := hk ▸ hf.nodup
  have hcx : c ∉ xs ++ ys := by
    have := nodup_middle.mp hd
    exact (nodup_cons.mp this).1
  have hcp : d.Parent c p := (hf.child c).mpr (by simp [hk])
  have hparent : ∀ a b, (clear (d.without p xs ys) c).Parent a b ↔ d.Parent a b ∧ a ≠ c :=
    clear_parent (d.without p xs ys) c
  refine h.change rfl hp ⟨update_self _ _ _, update_self _ _ _, ?_,
    hd.sublist (by simp), fun a => ?_⟩ (fun q hqp hq => ?_) (fun a b hab => ?_) ?_
  · exact (Seg.remove (hk ▸ hf.linked) hd).updated hcx none none
  · rw [hparent, hf.child, hk]
    simp only [mem_append, mem_cons]
    constructor
    · rintro ⟨ha | rfl | ha, hne⟩
      · exact .inl ha
      · exact absurd rfl hne
      · exact .inr ha
    · intro ha
      refine ⟨by tauto, ?_⟩
      rintro rfl
      exact hcx (mem_append.mpr ha)
  · have hcq : c ∉ kids q := fun hc =>
      hqp (Pool.Parent.unique (((h.family q hq).child c).mpr hc) hcp)
    refine (h.family q hq).frame (update_of_ne hqp _ _) (update_of_ne hqp _ _)
      (((h.family q hq).linked.put ?_ ?_ _ _).updated hcq none none) fun a => ?_
    · exact h.not_mem hp hq hqp fun x hx => by simp [hk, mem_of_getLast? hx]
    · exact h.not_mem hp hq hqp fun x hx => by simp [hk, mem_of_head? hx]
    · rw [hparent, and_iff_left_iff_imp]
      rintro haq rfl
      exact hqp (Pool.Parent.unique haq hcp)
  · exact .inr ((hparent a b).mp hab).1
  · exact h.acyclic.mono fun a b hab => ((hparent a b).mp hab).1

/-! ### A node gets a parent -/

def Pool.within (d : Pool) (p : ℕ) (xs : List ℕ) (c : ℕ) (ys : List ℕ) : Pool :=
  { d with
    parent := update d.parent c (some p)
    firstChild := update d.firstChild p (xs ++ c :: ys).head?
    lastChild := update d.lastChild p (xs ++ c :: ys).getLast?
    nextSibling := update (put d.nextSibling xs.getLast? (some c)) c ys.head?
    prevSibling := update (put d.prevSibling ys.head? (some c)) c xs.getLast? }

theorem Forest.insertAt (hp : d.used p = true) (hc : d.used c = true)
    (hroot : d.parent c = none) (hk : kids p = xs ++ ys) (hup : ¬ ReflTransGen d.Parent p c) :
    Forest (d.within p xs c ys) (update kids p (xs ++ c :: ys)) := by
  have hf := h.family p hp
  have hnone : ∀ q, ¬ d.Parent c q := fun q hq => by
    rw [Pool.Parent, hroot] at hq
    cases hq.2
  have hd : (xs ++ c :: ys).Nodup := by
    rw [nodup_middle, nodup_cons]
    exact ⟨hk ▸ h.not_mem_of_root hp hroot, hk ▸ hf.nodup⟩
  have hparent : ∀ a b, (d.within p xs c ys).Parent a b ↔ d.Parent a b ∨ a = c ∧ b = p := by
    intro a b
    show d.used a = true ∧ update d.parent c (some p) a = some b ↔ _
    by_cases hac : a = c
    · subst hac
      simp [hc, hnone, eq_comm]
    · simp [hac, Pool.Parent]
  refine h.change rfl hp ⟨update_self _ _ _, update_self _ _ _, ?_, hd,
    fun a => ?_⟩ (fun q hqp hq => ?_) (fun a b hab => ?_) ?_
  · exact Seg.insert (hk ▸ hf.linked) hd
  · rw [hparent, hf.child, hk]
    simp only [mem_append, mem_cons]
    tauto
  · refine (h.family q hq).frame (update_of_ne hqp _ _) (update_of_ne hqp _ _)
      (((h.family q hq).linked.put ?_ ?_ _ _).updated (h.not_mem_of_root hq hroot) _ _) fun a => ?_
    · exact h.not_mem hp hq hqp fun x hx => by simp [hk, mem_of_getLast? hx]
    · exact h.not_mem hp hq hqp fun x hx => by simp [hk, mem_of_head? hx]
    · rw [hparent]
      simp [hqp]
  · rcases (hparent a b).mp hab with hab | ⟨-, rfl⟩
    · exact .inr hab
    · exact .inl rfl
  · exact h.acyclic.add (fun a b hab => (hparent a b).mp hab) hup

theorem Forest.link_eq (hp : d.used p = true) (hc : c ∉ kids p) :
    link d p c = d.within p (kids p) c [] := by
  have hf := h.family p hp
  have hlast : (kids p).getLast? ≠ some c := fun hl => hc (mem_of_getLast? hl)
  have hfirst : (if d.firstChild p = none then update d.firstChild p (some c)
      else d.firstChild) = update d.firstChild p (kids p ++ [c]).head? := by
    rw [hf.first]
    cases hk : kids p with
    | nil => rfl
    | cons x xs =>
      rw [if_neg (by simp)]
      exact (update_eq_self_iff.mpr (by rw [hf.first, hk]; rfl)).symm
  unfold link Pool.within
  dsimp only
  rw [hfirst, hf.last, put_update hlast, List.getLast?_concat]
  rfl

theorem Forest.linkBefore_eq (hp : d.used p = true) (hc : c ∉ kids p) {r : ℕ}
    (hk : kids p = xs ++ r :: ys) : linkBefore d p c r = d.within p xs c (r :: ys) := by
  have hf := h.family p hp
  have hd : (xs ++ r :: ys).Nodup := hk ▸ hf.nodup
  have hrc : r ≠ c := fun hrc => hc (by simp [hk, hrc])
  have hxc : xs.getLast? ≠ some c := fun hl => hc (by simp [hk, mem_of_getLast? hl])
  obtain ⟨-, hprev⟩ := Seg.links (hk ▸ hf.linked)
  have hfirst : (if d.firstChild p = some r then update d.firstChild p (some c)
      else d.firstChild) = update d.firstChild p (xs ++ c :: r :: ys).head? := by
    rw [hf.first, hk]
    cases xs with
    | nil => simp
    | cons x xs =>
      have hxr : x ≠ r := fun hx =>
        disjoint_of_nodup_append hd (a := x) (by simp) (by simp [hx])
      rw [if_neg (by simpa using hxr)]
      exact (update_eq_self_iff.mpr (by rw [hf.first, hk]; rfl)).symm
  have hlast : d.lastChild = update d.lastChild p (xs ++ c :: r :: ys).getLast? := by
    refine (update_eq_self_iff.mpr ?_).symm
    rw [hf.last, hk]
    simp
  unfold linkBefore Pool.within
  dsimp only
  rw [hfirst, ← hlast, update_of_ne hrc, hprev, put_update hxc, update_comm hrc.symm]
  rfl

end

theorem link_clear (d : Pool) (p c : ℕ) : link (clear d c) p c = link d p c := by
  unfold link clear
  rw [update_idem, update_idem, update_idem]

/-! ### A node is made -/

theorem Forest.fresh (h : Forest d kids) {i : ℕ} (hi : d.used i = false) (hlt : i < maxNodes)
    (kind : Kind) (tag : Lib.Text) :
    Forest (d.fresh i kind tag) (update kids i []) := by
  have hne : ∀ {a}, d.used a = true → a ≠ i := by
    rintro a ha rfl
    rw [hi] at ha
    cases ha
  have hused : ∀ {a}, (d.fresh i kind tag).used a = true → a = i ∨ d.used a = true := by
    intro a ha
    by_cases hai : a = i
    · exact .inl hai
    · exact .inr ((update_of_ne hai _ _).symm.trans ha)
  have hparent : ∀ a b, (d.fresh i kind tag).Parent a b ↔ d.Parent a b := by
    intro a b
    show update d.used i true a = true ∧ update d.parent i none a = some b ↔ _
    by_cases hai : a = i
    · subst hai
      simp [Pool.Parent, hi]
    · rw [update_of_ne hai, update_of_ne hai]
      rfl
  refine ⟨fun a ha => ?_, fun q hq => ?_, fun a b hab => ?_, ?_⟩
  · rcases hused ha with rfl | ha
    · exact hlt
    · exact h.bound a ha
  · by_cases hqi : q = i
    · subst hqi
      rw [update_self]
      refine ⟨update_self _ _ _, update_self _ _ _, trivial, nodup_nil, fun a => ?_⟩
      rw [hparent]
      simp only [not_mem_nil, iff_false]
      intro hab
      exact hne (h.up a q hab) rfl
    · have hq' := (hused hq).resolve_left hqi
      have hno : i ∉ kids q := fun hm => hne (((h.family q hq').child i).mpr hm).1 rfl
      rw [update_of_ne hqi]
      exact (h.family q hq').frame (update_of_ne hqi _ _) (update_of_ne hqi _ _)
        ((h.family q hq').linked.updated hno none none) fun a => hparent a q
  · have hb := h.up a b ((hparent a b).mp hab)
    exact (update_of_ne (hne hb) _ _).trans hb
  · exact h.acyclic.mono fun a b hab => (hparent a b).mp hab

/-! ### The nodes below a node are freed -/

def Pool.prune (d : Pool) (n : ℕ) (l : List ℕ) : Pool :=
  { d with
    used := fun i => d.used i && decide (i ∉ l)
    firstChild := update d.firstChild n none
    lastChild := update d.lastChild n none }

theorem Forest.prune (h : Forest d kids) {n : ℕ} (hn : n ∉ l)
    (hl : ∀ i, i ∈ l ↔ TransGen d.Parent i n) :
    Forest (d.prune n l) (update kids n []) := by
  have hused : ∀ {a}, (d.prune n l).used a = true ↔ d.used a = true ∧ a ∉ l := by
    intro a
    simp [Pool.prune]
  -- a node goes if its parent goes or is `n`
  have hgoes : ∀ {a b}, d.Parent a b → (a ∈ l ↔ b ∈ l ∨ b = n) := by
    intro a b hab
    rw [hl, hl]
    constructor
    · intro ha
      obtain ⟨b', hab', hb'⟩ := TransGen.head'_iff.mp ha
      obtain rfl := hab.unique hab'
      exact (reflTransGen_iff_eq_or_transGen.mp hb').elim (fun hb => .inr hb.symm) .inl
    · rintro (hb | rfl)
      · exact hb.head hab
      · exact .single hab
  have hparent : ∀ a b, (d.prune n l).Parent a b ↔ d.Parent a b ∧ a ∉ l := by
    intro a b
    rw [Pool.Parent, hused]
    exact and_right_comm
  refine ⟨fun a ha => h.bound a (hused.mp ha).1, fun q hq => ?_, fun a b hab => ?_, ?_⟩
  · obtain ⟨hq', hql⟩ := hused.mp hq
    by_cases hqn : q = n
    · subst hqn
      rw [update_self]
      refine ⟨update_self _ _ _, update_self _ _ _, trivial, nodup_nil, fun a => ?_⟩
      rw [hparent]
      simp only [not_mem_nil, iff_false, not_and, not_not]
      exact fun hab => (hgoes hab).mpr (.inr rfl)
    · rw [update_of_ne hqn]
      refine (h.family q hq').frame (update_of_ne hqn _ _) (update_of_ne hqn _ _)
        (h.family q hq').linked fun a => ?_
      rw [hparent, and_iff_left_iff_imp]
      exact fun hab hal => ((hgoes hab).mp hal).elim hql hqn
  · obtain ⟨hab, hal⟩ := (hparent a b).mp hab
    exact hused.mpr ⟨h.up a b hab, fun hbl => hal ((hgoes hab).mpr (.inl hbl))⟩
  · exact h.acyclic.mono fun a b hab => ((hparent a b).mp hab).1

end

end TaterTOS.Dom
