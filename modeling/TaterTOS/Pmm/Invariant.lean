import TaterTOS.Pmm.Model
import TaterTOS.Lib.Dyadic

/-!
# The representation of the buddy allocator

In the middle of an operation some pages `H` belong to no block, and the counter of used pages is
off by `e` of them.

* `InvOff s H e`: the representation invariant off the pages `H`; with `H = ∅` and `e = 0` it is
  `Inv`, the invariant between calls;
* `InvOff.take` (unlink a free block into `H`), `InvOff.open` (give up used or reserved blocks),
  `InvOff.insert` (link a part of `H` as a free block) and `InvOff.close` (mark `H` as one used
  block): the writes of the operations as steps between states with this invariant.
-/

namespace TaterTOS.Pmm

open Function Lib Finset

/-! ### Metadata bytes -/

inductive Kind
  | free
  | used
  | reserved
  deriving DecidableEq, Repr

def Kind.make : Kind → ℕ → ℕ
  | free => metaMakeFree
  | used => metaMakeUsed
  | reserved => metaMakeReserved

theorem make_facts : ∀ (t : Kind), ∀ k < 64, t.make k ≠ metaTail ∧ metaOrder (t.make k) = k ∧
    metaIsFree (t.make k) = decide (t = .free) ∧ metaIsUsed (t.make k) = decide (t = .used) := by
  intro t
  cases t <;> decide

variable {k : ℕ}

theorem make_ne_tail (t : Kind) (hk : k < 64) : t.make k ≠ metaTail :=
  (make_facts t k hk).1

@[simp] theorem metaOrder_make (t : Kind) (hk : k < 64) : metaOrder (t.make k) = k :=
  (make_facts t k hk).2.1

@[simp] theorem metaIsFree_make (t : Kind) (hk : k < 64) :
    metaIsFree (t.make k) = decide (t = .free) := (make_facts t k hk).2.2.1

@[simp] theorem metaIsUsed_make (t : Kind) (hk : k < 64) :
    metaIsUsed (t.make k) = decide (t = .used) := (make_facts t k hk).2.2.2

theorem make_inj {t t' : Kind} {k k' : ℕ} (hk : k < 64) (hk' : k' < 64)
    (h : t.make k = t'.make k') : t = t' ∧ k = k' := by
  have ho : k = k' := by rw [← metaOrder_make t hk, h, metaOrder_make t' hk']
  have hf : decide (t = .free) = decide (t' = .free) := by
    rw [← metaIsFree_make t hk, h, metaIsFree_make t' hk']
  have hu : decide (t = .used) = decide (t' = .used) := by
    rw [← metaIsUsed_make t hk, h, metaIsUsed_make t' hk']
  cases t <;> cases t' <;> simp_all

theorem metaMakeFree_inj {k k' : ℕ} (hk : k < 64) (hk' : k' < 64)
    (h : metaMakeFree k = metaMakeFree k') : k = k' :=
  (@make_inj .free .free k k' hk hk' h).2

theorem orderPages_eq (hk : k < 64) : orderPages k = 2 ^ k := by
  unfold orderPages
  rw [Nat.one_shiftLeft, u64_of_lt (Nat.pow_lt_pow_right (by norm_num) hk)]

/-! ### Blocks -/

/-- The pages of the block of order `k` at `a`. -/
abbrev block (a k : ℕ) : Finset ℕ := Ico a (a + 2 ^ k)

theorem mem_block (a k : ℕ) : a ∈ block a k :=
  left_mem_Ico.mpr (Nat.lt_add_of_pos_right (Nat.two_pow_pos k))

structure BlockAt (s : State) (t : Kind) (a k : ℕ) : Prop where
  order_lt : k < 64
  head : s.pageMeta a = t.make k
  dvd : 2 ^ k ∣ a
  le : a + 2 ^ k ≤ s.totalPages
  tail : ∀ p, a < p → p < a + 2 ^ k → s.pageMeta p = metaTail
  reserved : t = .reserved → k = 0

def PageIs (s : State) (t : Kind) (p : ℕ) : Prop :=
  ∃ a k, BlockAt s t a k ∧ a ≤ p ∧ p < a + 2 ^ k

namespace BlockAt

variable {s s' : State} {t t' : Kind} {a b k j p : ℕ}

section

variable (h : BlockAt s t a k)
include h

theorem start_lt : a < s.totalPages := by
  have := h.le
  have : 0 < 2 ^ k := by positivity
  omega

theorem eq_of_mem (hp : a ≤ p) (hp' : p < a + 2 ^ k) (hm : s.pageMeta p ≠ metaTail) : p = a := by
  by_contra hne
  exact hm (h.tail p (by omega) hp')

theorem eq_of_free (hp : p ∈ block a k) (hj : j < 64)
    (hm : s.pageMeta p = metaMakeFree j) : t = .free ∧ p = a ∧ j = k := by
  rw [mem_Ico] at hp
  obtain rfl := h.eq_of_mem hp.1 hp.2 (by rw [hm]; exact make_ne_tail .free hj)
  obtain ⟨rfl, rfl⟩ := @make_inj t .free k j h.order_lt hj (h.head.symm.trans hm)
  exact ⟨rfl, rfl, rfl⟩

theorem unique (h' : BlockAt s t' b j) (hp : a ≤ p) (hp' : p < a + 2 ^ k)
    (hq : b ≤ p) (hq' : p < b + 2 ^ j) : t = t' ∧ a = b ∧ k = j := by
  have hab : a = b := by
    rcases lt_trichotomy a b with hlt | he | hlt
    · have := h.eq_of_mem hlt.le (by omega) (by rw [h'.head]; exact make_ne_tail t' h'.order_lt)
      omega
    · exact he
    · have := h'.eq_of_mem hlt.le (by omega) (by rw [h.head]; exact make_ne_tail t h.order_lt)
      omega
  subst hab
  obtain ⟨rfl, rfl⟩ := make_inj h.order_lt h'.order_lt (h.head.symm.trans h'.head)
  exact ⟨rfl, rfl, rfl⟩

theorem congr (ht : s'.totalPages = s.totalPages)
    (hm : ∀ p, a ≤ p → p < a + 2 ^ k → s'.pageMeta p = s.pageMeta p) : BlockAt s' t a k := by
  have hpos : 0 < 2 ^ k := by positivity
  refine ⟨h.order_lt, ?_, h.dvd, ht ▸ h.le, fun p hp hp' => ?_, h.reserved⟩
  · rw [hm a le_rfl (by omega), h.head]
  · rw [hm p hp.le hp', h.tail p hp hp']

end

end BlockAt

theorem PageIs.unique {s : State} {t t' : Kind} {p : ℕ} (h : PageIs s t p) (h' : PageIs s t' p) :
    t = t' := by
  obtain ⟨a, k, hb, h₁, h₂⟩ := h
  obtain ⟨a', k', hb', h1', h2'⟩ := h'
  exact (hb.unique hb' h₁ h₂ h1' h2').1

/-! ### The effect of the writes -/

theorem foldl_update_apply (m : ℕ → ℕ) (a v : ℕ) : ∀ (n i p : ℕ),
    (List.range' i n).foldl (fun m j => update m (a + j) v) m p =
      if a + i ≤ p ∧ p < a + i + n then v else m p := by
  intro n
  induction n generalizing m with
  | zero => intro i p; rw [if_neg (by omega)]; rfl
  | succ n ih =>
    intro i p
    rw [List.range'_succ, List.foldl_cons, ih]
    by_cases hp : p = a + i
    · subst hp
      rw [if_neg (by omega), if_pos (by omega), update_self]
    · rw [update_of_ne hp]
      by_cases h : a + (i + 1) ≤ p ∧ p < a + (i + 1) + n
      · rw [if_pos h, if_pos (by omega)]
      · rw [if_neg h, if_neg (by omega)]

theorem setBlockMeta_apply (s : State) {a k : ℕ} (m p : ℕ) (hk : k < 64) :
    (setBlockMeta s a k m).pageMeta p =
      if p = a then m else if a < p ∧ p < a + 2 ^ k then metaTail else s.pageMeta p := by
  simp only [setBlockMeta]
  rw [foldl_update_apply, orderPages_eq hk]
  by_cases hp : p = a
  · subst hp
    rw [if_neg (by omega), if_pos rfl, update_self]
  · rw [if_neg hp, update_of_ne hp]
    by_cases h : a < p ∧ p < a + 2 ^ k
    · rw [if_pos (by omega), if_pos h]
    · rw [if_neg (by omega), if_neg h]

theorem setBlockMeta_of_notMem (s : State) {a k p : ℕ} (m : ℕ) (hk : k < 64)
    (hp : p ∉ block a k) : (setBlockMeta s a k m).pageMeta p = s.pageMeta p := by
  have hpos : 0 < 2 ^ k := by positivity
  rw [mem_Ico] at hp
  rw [setBlockMeta_apply s m p hk, if_neg (by omega), if_neg (by omega)]

theorem blockAt_setBlockMeta (s : State) (t : Kind) {a k : ℕ} (hk : k < 64) (hd : 2 ^ k ∣ a)
    (hle : a + 2 ^ k ≤ s.totalPages) (hr : t = .reserved → k = 0) :
    BlockAt (setBlockMeta s a k (t.make k)) t a k where
  order_lt := hk
  head := by rw [setBlockMeta_apply s _ _ hk, if_pos rfl]
  dvd := hd
  le := hle
  tail p hp hp' := by rw [setBlockMeta_apply s _ _ hk, if_neg (by omega), if_pos ⟨hp, hp'⟩]
  reserved := hr

/-! ### The invariant off a set of pages -/

def weight (m : ℕ) : ℕ := if metaIsFree m then 2 ^ metaOrder m else 0

@[simp] theorem weight_tail : weight metaTail = 0 := rfl

theorem weight_make (t : Kind) (hk : k < 64) :
    weight (t.make k) = if t = .free then 2 ^ k else 0 := by
  simp [weight, hk]

structure Geometry (s : State) : Prop where
  total_le : s.totalPages ≤ 2 ^ 52
  max_le : s.totalPages ≠ 0 → 2 ^ s.maxOrder ≤ s.totalPages
  lt_max : s.totalPages < 2 ^ (s.maxOrder + 1)
  max_lt : s.maxOrder < 53
  bound : s.totalPages ≠ 0 → s.metadataPhys ≠ 0

/-- The representation invariant off the pages `H`, of which `e` are to be accounted for. -/
structure InvOff (s : State) (H : Finset ℕ) (e : ℕ) : Prop where
  geometry : Geometry s
  tiled : ∀ p < s.totalPages, p ∉ H → ∃ t a k, BlockAt s t a k ∧ a ≤ p ∧ p < a + 2 ^ k ∧
    Disjoint (Ico a (a + 2 ^ k)) H
  lists : ∀ k ≤ s.maxOrder, ∃ l, Chain s.freeNext invalidPage (s.freeHeads k) l ∧
    ∀ p, p ∈ l ↔ p < s.totalPages ∧ p ∉ H ∧ s.pageMeta p = metaMakeFree k
  buddies : ∀ k < s.maxOrder, ∀ p < s.totalPages, p ∉ H → s.pageMeta p = metaMakeFree k →
    p ^^^ 2 ^ k < s.totalPages → p ^^^ 2 ^ k ∉ H → s.pageMeta (p ^^^ 2 ^ k) ≠ metaMakeFree k
  used : s.usedPages + ∑ p ∈ range s.totalPages \ H, weight (s.pageMeta p) + e = s.totalPages

def Inv (s : State) : Prop := InvOff s ∅ 0

namespace InvOff

variable {s : State} {H : Finset ℕ} {e a k j p : ℕ}

theorem order_lt (h : InvOff s H e) (hk : k ≤ s.maxOrder) : k < 64 := by
  have := h.geometry.max_lt
  omega

theorem blockAt (h : InvOff s H e) (hp : p < s.totalPages) (hH : p ∉ H)
    (hm : s.pageMeta p ≠ metaTail) :
    ∃ t k, BlockAt s t p k ∧ Disjoint (block p k) H := by
  obtain ⟨t, a, k, hb, h1, h2, hd⟩ := h.tiled p hp hH
  obtain rfl := hb.eq_of_mem h1 h2 hm
  exact ⟨t, k, hb, hd⟩

theorem blockAt_of_head (h : InvOff s H e) (hp : p < s.totalPages) (hH : p ∉ H) {t : Kind}
    (hk : k < 64) (hm : s.pageMeta p = t.make k) :
    BlockAt s t p k ∧ Disjoint (block p k) H := by
  obtain ⟨t', k', hb, hd⟩ := h.blockAt hp hH (by rw [hm]; exact make_ne_tail t hk)
  obtain ⟨rfl, rfl⟩ := make_inj hk hb.order_lt (hm.symm.trans hb.head)
  exact ⟨hb, hd⟩

theorem blockAt_of_isFree (h : InvOff s H e) (hp : p < s.totalPages) (hH : p ∉ H)
    (hf : metaIsFree (s.pageMeta p) = true) : BlockAt s .free p (metaOrder (s.pageMeta p)) := by
  have hm : s.pageMeta p ≠ metaTail := by
    intro hc
    rw [hc] at hf
    exact absurd hf (by decide)
  obtain ⟨t, k, hb, -⟩ := h.blockAt hp hH hm
  rw [hb.head, metaIsFree_make t hb.order_lt, decide_eq_true_eq] at hf
  subst hf
  rwa [hb.head, metaOrder_make _ hb.order_lt]

theorem order_le (h : InvOff s H e) {t : Kind} (hb : BlockAt s t a k) : k ≤ s.maxOrder := by
  have h1 := hb.le
  have h2 := h.geometry.lt_max
  by_contra hc
  have := Nat.pow_le_pow_right (show 0 < 2 by norm_num) (show s.maxOrder + 1 ≤ k by omega)
  omega

/-! ### Sums over blocks -/

theorem sum_weight_block {t : Kind} (hb : BlockAt s t a k) :
    ∑ p ∈ block a k, weight (s.pageMeta p) = if t = .free then 2 ^ k else 0 := by
  rw [Finset.sum_eq_single a, hb.head, weight_make t hb.order_lt]
  · intro p hp hne
    rw [mem_Ico] at hp
    rw [hb.tail p (by omega) hp.2, weight_tail]
  · intro hn
    exact absurd (mem_block a k) hn

theorem sum_sdiff_eq {f : ℕ → ℕ} {n : ℕ} {H I : Finset ℕ} (hI : I ⊆ range n) (hd : Disjoint I H) :
    ∑ p ∈ range n \ H, f p = ∑ p ∈ range n \ (H ∪ I), f p + ∑ p ∈ I, f p := by
  have hsub : I ⊆ range n \ H := fun p hp =>
    mem_sdiff.mpr ⟨hI hp, Finset.disjoint_left.mp hd hp⟩
  rw [← Finset.sum_sdiff hsub, sdiff_sdiff_left]
  rfl

theorem Ico_subset_range (hle : a + 2 ^ k ≤ s.totalPages) :
    block a k ⊆ range s.totalPages := fun p hp => by
  rw [mem_Ico] at hp
  exact mem_range.mpr (by omega)

theorem sum_weight_le (h : InvOff s H e) (X : Finset ℕ)
    (hX : ∀ a k, BlockAt s .free a k → Disjoint (block a k) X) :
    ∑ p ∈ range s.totalPages \ H, weight (s.pageMeta p) ≤ (range s.totalPages \ X).card := by
  set F := (range s.totalPages \ H).filter fun p => metaIsFree (s.pageMeta p) = true
  have hF : ∀ p ∈ F, BlockAt s .free p (metaOrder (s.pageMeta p)) := by
    intro p hp
    obtain ⟨hp, hf⟩ := mem_filter.mp hp
    obtain ⟨hpt, hpH⟩ := mem_sdiff.mp hp
    exact h.blockAt_of_isFree (mem_range.mp hpt) hpH hf
  have hsum : ∑ p ∈ range s.totalPages \ H, weight (s.pageMeta p) =
      ∑ p ∈ F, (Ico p (p + 2 ^ metaOrder (s.pageMeta p))).card := by
    rw [Finset.sum_filter]
    refine Finset.sum_congr rfl fun p _ => ?_
    unfold weight
    split_ifs <;> simp
  rw [hsum, ← Finset.card_biUnion]
  · refine Finset.card_le_card fun q hq => ?_
    obtain ⟨p, hp, hq⟩ := mem_biUnion.mp hq
    exact mem_sdiff.mpr ⟨Ico_subset_range (hF p hp).le hq,
      Finset.disjoint_left.mp (hX _ _ (hF p hp)) hq⟩
  · intro p hp q hq hpq
    refine Finset.disjoint_left.mpr fun r hr hr' => hpq ?_
    rw [mem_Ico] at hr hr'
    exact ((hF p hp).unique (hF q hq) hr.1 hr.2 hr'.1 hr'.2).2.1

/-! ### Steps between representations -/

theorem congr (h : InvOff s H e) (m : ℕ → ℕ) (hm : ∀ p ∉ H, m p = s.pageMeta p) :
    InvOff { s with pageMeta := m } H e where
  geometry := { h.geometry with }
  tiled p hp hH := by
    obtain ⟨t, a, k, hb, h1, h2, hd⟩ := h.tiled p hp hH
    refine ⟨t, a, k, hb.congr rfl fun q hq hq' => hm q ?_, h1, h2, hd⟩
    exact Finset.disjoint_left.mp hd (mem_Ico.mpr ⟨hq, hq'⟩)
  lists k hk := by
    obtain ⟨l, hc, hl⟩ := h.lists k hk
    refine ⟨l, hc, fun p => (hl p).trans ?_⟩
    refine and_congr_right fun _ => and_congr_right fun hH => ?_
    show _ ↔ m p = _
    rw [hm p hH]
  buddies k hk p hp hH hf hb hbH := by
    show m _ ≠ _
    rw [hm _ hbH]
    exact h.buddies k hk p hp hH ((hm p hH).symm.trans hf) hb hbH
  used := by
    have hs : ∑ p ∈ range s.totalPages \ H, weight (m p) =
        ∑ p ∈ range s.totalPages \ H, weight (s.pageMeta p) :=
      Finset.sum_congr rfl fun p hp => by rw [hm p (mem_sdiff.mp hp).2]
    rw [hs]
    exact h.used

theorem scratch (h : InvOff s H e) (hk : k < 64) (hI : block a k ⊆ H) (m : ℕ) :
    InvOff (setBlockMeta s a k m) H e :=
  h.congr _ fun _ hp => setBlockMeta_of_notMem s m hk fun hpI => hp (hI hpI)

theorem ne_of_lists {q : ℕ} (hk : k < 64) (hj : j < 64) (hkj : j ≠ k)
    (hp : s.pageMeta p = metaMakeFree k) (hq : s.pageMeta q = metaMakeFree j) : q ≠ p := by
  rintro rfl
  exact hkj (metaMakeFree_inj hj hk (hq.symm.trans hp))

theorem take (h : InvOff s H e) (hk : k ≤ s.maxOrder) {l1 l2 : List ℕ}
    (hc : Chain s.freeNext invalidPage (s.freeHeads k) (l1 ++ a :: l2))
    (hl : ∀ p, p ∈ l1 ++ a :: l2 ↔ p < s.totalPages ∧ p ∉ H ∧ s.pageMeta p = metaMakeFree k) :
    InvOff (unlink s k (l1.getLast?.getD invalidPage) a) (H ∪ block a k) (e + 2 ^ k) := by
  obtain ⟨ha, haH, ham⟩ := (hl a).mp (by simp)
  have hk6 := h.order_lt hk
  obtain ⟨hb, hd⟩ := h.blockAt_of_head (t := .free) ha haH hk6 ham
  refine ⟨{ h.geometry with }, ?_, ?_, ?_, ?_⟩
  · intro p hp hpH
    rw [mem_union, not_or] at hpH
    obtain ⟨t, b, j, hb', h1, h₂, hd'⟩ := h.tiled p hp hpH.1
    refine ⟨t, b, j, hb'.congr rfl fun _ _ _ => rfl, h1, h₂, ?_⟩
    rw [disjoint_union_right]
    refine ⟨hd', Finset.disjoint_left.mpr fun q hq hq' => hpH.2 ?_⟩
    rw [mem_Ico] at hq hq'
    obtain ⟨-, rfl, rfl⟩ := hb'.unique hb hq.1 hq.2 hq'.1 hq'.2
    exact mem_Ico.mpr ⟨h1, h₂⟩
  · intro j hj
    have hj6 := h.order_lt hj
    by_cases hjk : j = k
    · subst hjk
      refine ⟨l1 ++ l2, ?_, fun p => ?_⟩
      · simp only [unlink, update_self]
        exact hc.unlink
      · have hnd := List.nodup_cons.mp (List.nodup_middle.mp hc.nodup)
        have hmem : p ∈ l1 ++ l2 ↔ p ∈ l1 ++ a :: l2 ∧ p ≠ a := by grind
        rw [hmem, hl, mem_union, not_or]
        constructor
        · rintro ⟨⟨h1, h₂, h3⟩, hne⟩
          exact ⟨h1, ⟨h₂, fun hp => hne (hb.eq_of_free hp hj6 h3).2.1⟩, h3⟩
        · rintro ⟨h1, ⟨h₂, h2'⟩, h3⟩
          refine ⟨⟨h1, h₂, h3⟩, ?_⟩
          rintro rfl
          exact h2' (mem_block p j)
    · obtain ⟨l, hcl, hll⟩ := h.lists j hj
      refine ⟨l, ?_, fun p => (hll p).trans ?_⟩
      · simp only [unlink]
        rw [update_of_ne hjk]
        refine hcl.congr fun y hy => ?_
        obtain ⟨-, -, hym⟩ := (hll y).mp hy
        refine unlinkNext_of_ne (ne_of_lists hk6 hj6 hjk ham hym) ?_
        rcases List.eq_nil_or_concat l1 with rfl | ⟨l0, q, rfl⟩
        · exact hcl.ne_nil y hy
        · rw [List.concat_eq_append, List.getLast?_append, List.getLast?_singleton,
            Option.some_or]
          exact ne_of_lists hk6 hj6 hjk ((hl q).mp (by simp)).2.2 hym
      · rw [mem_union, not_or]
        refine and_congr_right fun _ => ⟨fun hp => ⟨⟨hp.1, fun hpI => ?_⟩, hp.2⟩, fun hp =>
          ⟨hp.1.1, hp.2⟩⟩
        exact hjk (hb.eq_of_free hpI hj6 hp.2).2.2
  · intro j hj p hp hpH hm hq hqH
    rw [mem_union, not_or] at hpH hqH
    exact h.buddies j hj p hp hpH.1 hm hq hqH.1
  · have hsum := sum_sdiff_eq (f := fun p => weight (s.pageMeta p)) (Ico_subset_range hb.le) hd
    rw [sum_weight_block hb, if_pos rfl] at hsum
    have := h.used
    show s.usedPages + ∑ p ∈ range s.totalPages \ (H ∪ _), weight (s.pageMeta p) + _ = s.totalPages
    omega

/-- **Linking a block.** A free block written inside `H` whose buddy off `H` is not free leaves
`H` through the head of its list. -/
theorem link (h : InvOff s H (e + 2 ^ k)) (hk : k ≤ s.maxOrder) (hb : BlockAt s .free a k)
    (hI : block a k ⊆ H)
    (hbuddy : k < s.maxOrder → a ^^^ 2 ^ k < s.totalPages → a ^^^ 2 ^ k ∉ H →
      s.pageMeta (a ^^^ 2 ^ k) ≠ metaMakeFree k) :
    InvOff { s with freeNext := update s.freeNext a (s.freeHeads k),
                    freeHeads := update s.freeHeads k a }
      (H \ block a k) e := by
  have haI := mem_block a k
  -- the pages outside the new `H` are the old ones and those of the block
  have hout : ∀ p, p ∉ H \ block a k ↔ p ∉ H ∨ p ∈ block a k := by
    intro p
    rw [mem_sdiff]
    tauto
  refine ⟨{ h.geometry with }, ?_, ?_, ?_, ?_⟩
  · intro p hp hpH
    rcases (hout p).mp hpH with hpH | hpI
    · obtain ⟨t, b, j, hb', h1, h2, hd⟩ := h.tiled p hp hpH
      exact ⟨t, b, j, hb'.congr rfl fun _ _ _ => rfl, h1, h2, hd.mono_right Finset.sdiff_subset⟩
    · exact ⟨.free, a, k, hb.congr rfl fun _ _ _ => rfl, (mem_Ico.mp hpI).1, (mem_Ico.mp hpI).2,
        Finset.disjoint_sdiff⟩
  · intro j hj
    have hj6 := h.order_lt hj
    obtain ⟨l, hcl, hll⟩ := h.lists j hj
    have hal : a ∉ l := fun hc => ((hll a).mp hc).2.1 (hI haI)
    by_cases hjk : j = k
    · subst hjk
      refine ⟨a :: l, ?_, fun p => ?_⟩
      · simp only [update_self]
        refine hcl.push ?_ hal
        have := hb.start_lt
        have := h.geometry.total_le
        unfold invalidPage
        omega
      · rw [List.mem_cons, hll, hout]
        constructor
        · rintro (rfl | ⟨h1, h2, h3⟩)
          · exact ⟨hb.start_lt, Or.inr haI, hb.head⟩
          · exact ⟨h1, Or.inl h2, h3⟩
        · rintro ⟨h1, h2 | h2, h3⟩
          · exact .inr ⟨h1, h2, h3⟩
          · exact .inl (hb.eq_of_free h2 hj6 h3).2.1
    · refine ⟨l, ?_, fun p => (hll p).trans ?_⟩
      · simp only [update_of_ne hjk]
        refine hcl.congr fun y hy => update_of_ne ?_ _ _
        rintro rfl
        exact hal hy
      · rw [hout]
        refine and_congr_right fun _ => ⟨fun hp => ⟨Or.inl hp.1, hp.2⟩, ?_⟩
        rintro ⟨hp | hp, hm⟩
        · exact ⟨hp, hm⟩
        · exact absurd (hb.eq_of_free hp hj6 hm).2.2 hjk
  · intro j hj p hp hpH hm hq hqH
    have hj6 := h.order_lt hj.le
    rw [hout] at hpH hqH
    intro hqm
    rcases hpH with hpH | hpI
    · rcases hqH with hqH | hqI
      · exact h.buddies j hj p hp hpH hm hq hqH hqm
      · -- the block is the buddy of `p`
        obtain ⟨-, hqa, rfl⟩ := hb.eq_of_free hqI hj6 hqm
        have hpa : p = a ^^^ 2 ^ j := by rw [← hqa, buddy_buddy]
        exact hbuddy hj (hpa ▸ hp) (hpa ▸ hpH) (hpa ▸ hm)
    · obtain ⟨-, rfl, rfl⟩ := hb.eq_of_free hpI hj6 hm
      have hqI : p ^^^ 2 ^ j ∉ block p j := by
        intro hc
        exact buddy_ne hb.dvd (hb.eq_of_free hc hj6 hqm).2.1
      exact hbuddy hj hq (hqH.resolve_right hqI) hqm
  · have hsum := sum_sdiff_eq (f := fun p => weight (s.pageMeta p))
      (H := H \ block a k) (Ico_subset_range hb.le) Finset.disjoint_sdiff
    rw [sum_weight_block hb, if_pos rfl, Finset.sdiff_union_of_subset hI] at hsum
    have := h.used
    show s.usedPages + ∑ p ∈ range s.totalPages \ (H \ _), weight (s.pageMeta p) + _ = s.totalPages
    omega

theorem insert (h : InvOff s H (e + 2 ^ k)) (hk : k ≤ s.maxOrder) (hd : 2 ^ k ∣ a)
    (hle : a + 2 ^ k ≤ s.totalPages) (hI : block a k ⊆ H)
    (hbuddy : k < s.maxOrder → a ^^^ 2 ^ k < s.totalPages → a ^^^ 2 ^ k ∉ H →
      s.pageMeta (a ^^^ 2 ^ k) ≠ metaMakeFree k) :
    InvOff (insertFreeBlock s a k) (H \ block a k) e := by
  have hk6 := h.order_lt hk
  refine (h.scratch hk6 hI (metaMakeFree k)).link hk
    (blockAt_setBlockMeta s .free hk6 hd hle (by simp)) hI fun hlt hq hqH => ?_
  rw [setBlockMeta_of_notMem s _ hk6 fun hc => hqH (hI hc)]
  exact hbuddy hlt hq hqH

theorem close (h : InvOff s (block a k) (2 ^ k)) (hk : k < 64) (hd : 2 ^ k ∣ a)
    (hle : a + 2 ^ k ≤ s.totalPages) :
    InvOff { setBlockMeta s a k (metaMakeUsed k) with usedPages := s.usedPages + 2 ^ k } ∅ 0 := by
  have h' := h.scratch hk subset_rfl (metaMakeUsed k)
  have hb : BlockAt (setBlockMeta s a k (metaMakeUsed k)) .used a k :=
    blockAt_setBlockMeta s .used hk hd hle (by simp)
  set s' := setBlockMeta s a k (metaMakeUsed k)
  have hnf : ∀ p j, j < 64 → p ∈ block a k → s'.pageMeta p ≠ metaMakeFree j := by
    intro p j hj hp hm
    exact absurd (hb.eq_of_free hp hj hm).1 (by decide)
  refine ⟨{ h.geometry with }, ?_, ?_, ?_, ?_⟩
  · intro p hp _
    by_cases hpI : p ∈ block a k
    · exact ⟨.used, a, k, hb.congr rfl fun _ _ _ => rfl, (mem_Ico.mp hpI).1, (mem_Ico.mp hpI).2,
        Finset.disjoint_empty_right _⟩
    · obtain ⟨t, b, j, hb', h1, h2, -⟩ := h'.tiled p hp hpI
      exact ⟨t, b, j, hb'.congr rfl fun _ _ _ => rfl, h1, h2, Finset.disjoint_empty_right _⟩
  · intro j hj
    obtain ⟨l, hcl, hll⟩ := h'.lists j hj
    refine ⟨l, hcl, fun p => (hll p).trans ?_⟩
    refine and_congr_right fun _ => ⟨fun hp => ⟨notMem_empty p, hp.2⟩, fun hp => ⟨fun hpI => ?_,
      hp.2⟩⟩
    exact hnf p j (h'.order_lt hj) hpI hp.2
  · intro j hj p hp _ hm hq _ hqm
    have hj6 := h'.order_lt hj.le
    exact h'.buddies j hj p hp (fun hc => hnf p j hj6 hc hm) hm hq
      (fun hc => hnf _ j hj6 hc hqm) hqm
  · have hsum := sum_sdiff_eq (f := fun p => weight (s'.pageMeta p))
      (H := ∅) (Ico_subset_range hb.le) (Finset.disjoint_empty_right _)
    rw [sum_weight_block hb, if_neg (by decide), Finset.empty_union] at hsum
    have hu : s.usedPages + ∑ p ∈ range s.totalPages \ block a k, weight (s'.pageMeta p) +
      2 ^ k = s.totalPages := h'.used
    show s.usedPages + 2 ^ k + ∑ p ∈ range s.totalPages \ ∅, weight (s'.pageMeta p) + 0 =
      s.totalPages
    have ht : s'.totalPages = s.totalPages := rfl
    rw [ht] at hsum
    omega

theorem «open» (h : InvOff s ∅ 0) (hle : a + 2 ^ k ≤ s.totalPages)
    (hI : ∀ p ∈ block a k, ∃ t b j, BlockAt s t b j ∧ t ≠ .free ∧ b ≤ p ∧ p < b + 2 ^ j ∧
      block b j ⊆ block a k) :
    2 ^ k ≤ s.usedPages ∧
      InvOff { s with usedPages := s.usedPages - 2 ^ k } (block a k) (2 ^ k) := by
  have hdisj : ∀ {t b j}, BlockAt s t b j → (∃ q, b ≤ q ∧ q < b + 2 ^ j ∧ q ∈ block a k) →
      t ≠ .free ∧ block b j ⊆ block a k := by
    rintro t b j hb ⟨q, hq, hq', hqI⟩
    obtain ⟨t', b', j', hb', ht', h1, h2, hsub⟩ := hI q hqI
    obtain ⟨rfl, rfl, rfl⟩ := hb.unique hb' hq hq' h1 h2
    exact ⟨ht', hsub⟩
  have hnf : ∀ p < s.totalPages, ∀ j < 64, s.pageMeta p = metaMakeFree j →
      p ∉ block a k := by
    intro p hp j hj hm hpI
    obtain ⟨hb, -⟩ := h.blockAt_of_head (t := .free) hp (notMem_empty p) hj hm
    have : 0 < 2 ^ j := by positivity
    exact (hdisj hb ⟨p, le_rfl, by omega, hpI⟩).1 rfl
  have hw : ∑ p ∈ block a k, weight (s.pageMeta p) = 0 := by
    refine Finset.sum_eq_zero fun p hp => ?_
    obtain ⟨t, b, j, hb, ht, h1, h2, -⟩ := hI p hp
    by_cases hpb : p = b
    · rw [hpb, hb.head, weight_make t hb.order_lt, if_neg ht]
    · rw [hb.tail p (by omega) h2, weight_tail]
  have hsum := sum_sdiff_eq (f := fun p => weight (s.pageMeta p)) (H := ∅)
    (Ico_subset_range hle) (Finset.disjoint_empty_right _)
  rw [hw, Finset.empty_union] at hsum
  have hused := h.used
  have hcard := h.sum_weight_le (block a k) fun b j hb =>
    Finset.disjoint_left.mpr fun q hq hqI =>
      (hdisj hb ⟨q, (mem_Ico.mp hq).1, (mem_Ico.mp hq).2, hqI⟩).1 rfl
  rw [Finset.card_sdiff_of_subset (Ico_subset_range hle), card_range, Nat.card_Ico] at hcard
  have hge : 2 ^ k ≤ s.usedPages := by omega
  refine ⟨hge, { h.geometry with }, ?_, ?_, ?_, ?_⟩
  · intro p hp hpI
    obtain ⟨t, b, j, hb, h1, h2, -⟩ := h.tiled p hp (notMem_empty p)
    refine ⟨t, b, j, hb.congr rfl fun _ _ _ => rfl, h1, h2,
      Finset.disjoint_left.mpr fun q hq hqI => hpI ?_⟩
    exact (hdisj hb ⟨q, (mem_Ico.mp hq).1, (mem_Ico.mp hq).2, hqI⟩).2 (mem_Ico.mpr ⟨h1, h2⟩)
  · intro j hj
    obtain ⟨l, hcl, hll⟩ := h.lists j hj
    refine ⟨l, hcl, fun p => (hll p).trans (and_congr_right fun hp => ?_)⟩
    exact ⟨fun hm => ⟨hnf p hp j (h.order_lt hj) hm.2, hm.2⟩, fun hm => ⟨notMem_empty p, hm.2⟩⟩
  · intro j hj p hp _ hm hq _
    exact h.buddies j hj p hp (notMem_empty p) hm hq (notMem_empty _)
  · show s.usedPages - 2 ^ k + ∑ p ∈ range s.totalPages \ block a k,
      weight (s.pageMeta p) + 2 ^ k = s.totalPages
    omega

end InvOff

end TaterTOS.Pmm
