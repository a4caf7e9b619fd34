import TaterTOS.Dom.Forest

/-!
# Freeing the nodes below a node

`ts_dom_free_node` walks down and along the links while it frees nodes. In a forest this walk ends,
and it frees exactly the nodes below the one it started from.
-/

namespace TaterTOS.Dom

open Function Lib DList Relation List

inductive Below (d : Pool) : Option ℕ → List ℕ → Prop
  | nil : Below d none []
  | cons {c : ℕ} {l l' : List ℕ} (hu : d.used c = true) (hlt : c < maxNodes)
      (down : Below d (d.firstChild c) l) (along : Below d (d.nextSibling c) l')
      (hd : (c :: (l ++ l')).Nodup) : Below d (some c) (c :: (l ++ l'))

def Pool.mark (d : Pool) (l : List ℕ) : Pool :=
  { d with used := fun i => d.used i && decide (i ∉ l) }

section

variable {d d1 : Pool} {kids : ℕ → List ℕ} {o : Option ℕ} {l : List ℕ}

theorem Below.nodup (h : Below d o l) : l.Nodup := by
  cases h with
  | nil => exact nodup_nil
  | cons _ _ _ _ hd => exact hd

theorem Below.bounded (h : Below d o l) : ∀ i ∈ l, i < maxNodes ∧ d.used i = true := by
  induction h with
  | nil => simp
  | cons hu hlt _ _ _ ih ih' =>
    intro i hi
    rcases mem_cons.mp hi with rfl | hi
    · exact ⟨hlt, hu⟩
    · exact (mem_append.mp hi).elim (ih i) (ih' i)

theorem Below.length_le (h : Below d o l) : l.length ≤ maxNodes := by
  have hsub : l ⊆ List.range maxNodes := fun i hi => mem_range.mpr (h.bounded i hi).1
  simpa using (subperm_of_subset h.nodup hsub).length_le

theorem freeChildren_eq (h : Below d o l) {fuel : ℕ} (hf : l.length < fuel)
    (hfirst : d1.firstChild = d.firstChild) (hnext : d1.nextSibling = d.nextSibling)
    (hused : ∀ i ∈ l, d1.used i = true) : freeChildren fuel d1 o = some (d1.mark l) := by
  induction h generalizing fuel d1 with
  | nil =>
    obtain ⟨fuel, rfl⟩ := Nat.exists_eq_succ_of_ne_zero (by omega : fuel ≠ 0)
    rw [freeChildren]
    simp [Pool.mark]
  | @cons c l l' hu hlt _ _ hd ih ih' =>
    obtain ⟨fuel, rfl⟩ := Nat.exists_eq_succ_of_ne_zero (by omega : fuel ≠ 0)
    simp only [length_cons, length_append] at hf
    obtain ⟨hc, hd⟩ := nodup_cons.mp hd
    have hget : tsDomGetNode d1 c = some c := by
      rw [tsDomGetNode, if_neg (by omega), Int.toNat_natCast, if_pos (hused c (by simp))]
    have hdown : freeChildren fuel d1 (d.firstChild c) = some (d1.mark l) :=
      ih (by omega) hfirst hnext fun i hi => hused i (by simp [hi])
    -- the later siblings are still used once `c` and the nodes below it are not
    have hrest : ∀ i ∈ l', update (d1.mark l).used c false i = true := by
      intro i hi
      have hic : i ≠ c := fun hic => hc (by simp [← hic, hi])
      have hil : i ∉ l := fun hil => disjoint_of_nodup_append hd hil hi
      rw [update_of_ne hic]
      simp [Pool.mark, hused i (by simp [hi]), hil]
    have halong : freeChildren fuel { d1.mark l with used := update (d1.mark l).used c false }
        (d.nextSibling c) = _ := ih' (by omega) hfirst hnext hrest
    simp only [freeChildren, hget, hfirst, hnext, hdown, Option.map_some, Option.bind_some, halong]
    congr 1
    unfold Pool.mark
    congr 1
    funext i
    by_cases hic : i = c
    · subst hic
      simp
    · simp [hic, Bool.and_assoc]

/-! ### The walk in a forest -/

theorem Forest.not_above (h : Forest d kids) {p c c' : ℕ} (hc : d.Parent c p)
    (hc' : d.Parent c' p) (hne : c ≠ c') : ¬ ReflTransGen d.Parent c c' := by
  intro hup
  rcases reflTransGen_iff_eq_or_transGen.mp hup with heq | hup
  · exact hne heq.symm
  · obtain ⟨q, hq, hup⟩ := TransGen.head'_iff.mp hup
    obtain rfl := hc.unique hq
    exact h.acyclic c' (.head' hc' hup)

theorem Forest.below_kids (h : Forest d kids) {p : ℕ} (hp : d.used p = true)
    (hdown : ∀ c, d.Parent c p → ∃ l, Below d (d.firstChild c) l ∧
      ∀ i, i ∈ l ↔ TransGen d.Parent i c) (ys : List ℕ) :
    ∀ xs, kids p = xs ++ ys → ∃ l, Below d ys.head? l ∧
      ∀ i, i ∈ l ↔ ∃ c ∈ ys, ReflTransGen d.Parent i c := by
  have hf := h.family p hp
  have huniq : Relator.RightUnique d.Parent := fun a b c => Pool.Parent.unique
  induction ys with
  | nil => exact fun _ _ => ⟨[], .nil, by simp⟩
  | cons c ys ih =>
    intro xs hk
    have hchild : ∀ {x}, x ∈ c :: ys → d.Parent x p := fun hx =>
      (hf.child _).mpr (by rw [hk]; exact mem_append_right _ hx)
    have hcp := hchild mem_cons_self
    have hcy : c ∉ ys := (nodup_cons.mp (hk ▸ hf.nodup).of_append_right).1
    obtain ⟨l, hl, hmem⟩ := hdown c hcp
    obtain ⟨l', hl', hmem'⟩ := ih (xs ++ [c]) (by simp [hk])
    obtain ⟨hnext, -⟩ := Seg.links (hk ▸ hf.linked)
    have hcl' : ∀ {i}, ReflTransGen d.Parent i c → i ∉ l' := by
      intro i hic hi
      obtain ⟨c', hc', hup⟩ := (hmem' i).mp hi
      have hne : c ≠ c' := fun hcc => hcy (hcc ▸ hc')
      rcases ReflTransGen.total_of_right_unique huniq hic hup with hab | hab
      · exact h.not_above hcp (hchild (mem_cons_of_mem _ hc')) hne hab
      · exact h.not_above (hchild (mem_cons_of_mem _ hc')) hcp hne.symm hab
    refine ⟨c :: (l ++ l'), .cons hcp.1 (h.bound c hcp.1) hl (by rw [hnext]; exact hl') ?_,
      fun i => ?_⟩
    · refine nodup_cons.mpr ⟨fun hc => ?_, nodup_append'.mpr ⟨hl.nodup, hl'.nodup, ?_⟩⟩
      · rcases mem_append.mp hc with hc | hc
        · exact h.acyclic c ((hmem c).mp hc)
        · exact hcl' .refl hc
      · exact fun i hi => hcl' ((hmem i).mp hi).to_reflTransGen
    · have hself : i = c ∨ TransGen d.Parent i c ↔ ReflTransGen d.Parent i c := by
        rw [reflTransGen_iff_eq_or_transGen, eq_comm]
      rw [mem_cons, mem_append, hmem, hmem', ← or_assoc, hself]
      simp

theorem Forest.below (h : Forest d kids) {p : ℕ} (hp : d.used p = true) :
    ∃ l, Below d (d.firstChild p) l ∧ ∀ i, i ∈ l ↔ TransGen d.Parent i p := by
  -- induction on the nodes below the node; there are finitely many, and no cycles
  have : Std.Irrefl fun a b : Fin maxNodes => TransGen d.Parent a b := ⟨fun a => h.acyclic a⟩
  have hwf := Finite.wellFounded_of_trans_of_irrefl fun a b : Fin maxNodes => TransGen d.Parent a b
  have hall : ∀ q : Fin maxNodes, d.used q = true →
      ∃ l, Below d (d.firstChild q) l ∧ ∀ i, i ∈ l ↔ TransGen d.Parent i q := by
    intro q
    induction q using hwf.induction with
    | _ q ih =>
      intro hq
      have hf := h.family q hq
      obtain ⟨l, hl, hmem⟩ := h.below_kids hq
        (fun c hc => ih ⟨c, h.bound c hc.1⟩ (.single hc) hc.1) (kids q) [] rfl
      refine ⟨l, by rw [hf.first]; exact hl, fun i => ?_⟩
      rw [hmem, TransGen.tail'_iff]
      exact exists_congr fun c => by rw [← hf.child, and_comm]
  exact hall ⟨p, h.bound p hp⟩ hp

end

end TaterTOS.Dom
