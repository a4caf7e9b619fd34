import TaterTOS.Pmm.Model

/-!
# Guard ranges
-/

namespace TaterTOS.Pmm

open Lib List

def PhysRange.Mem (x : ℕ) (r : PhysRange) : Prop := r.start ≤ x ∧ x < r.stop

def Covered (l : List PhysRange) (x : ℕ) : Prop := ∃ r ∈ l, PhysRange.Mem x r

def Aligned (v : ℕ) : Prop := v < 2 ^ 64 ∧ pageSize ∣ v

structure GuardsOk (gs : List PhysRange) : Prop where
  sorted : gs.Pairwise fun r r' => r.start ≤ r'.start
  nonempty : ∀ g ∈ gs, g.start < g.stop
  aligned : ∀ g ∈ gs, Aligned g.start ∧ Aligned g.stop

variable {l out guards : List PhysRange} {r : PhysRange} {stop size c start : ℕ}

theorem GuardsOk.uncons (h : GuardsOk (r :: l)) : (∀ r' ∈ l, r.start ≤ r'.start) ∧
    r.start < r.stop ∧ (Aligned r.start ∧ Aligned r.stop) ∧ GuardsOk l := by
  obtain ⟨hs1, hs2⟩ := pairwise_cons.mp h.sorted
  obtain ⟨hn1, hn2⟩ := forall_mem_cons.mp h.nonempty
  obtain ⟨ha1, ha2⟩ := forall_mem_cons.mp h.aligned
  exact ⟨hs1, hn1, ha1, hs2, hn2, ha2⟩

@[simp] theorem covered_nil (x : ℕ) : ¬ Covered [] x := by simp [Covered]

@[simp] theorem covered_cons (r : PhysRange) (l : List PhysRange) (x : ℕ) :
    Covered (r :: l) x ↔ PhysRange.Mem x r ∨ Covered l x := by simp [Covered]

theorem covered_reverse (l : List PhysRange) (x : ℕ) : Covered l.reverse x ↔ Covered l x := by
  simp [Covered]

theorem covered_perm {l' : List PhysRange} (h : l.Perm l') (x : ℕ) :
    Covered l x ↔ Covered l' x := by
  simp only [Covered, h.mem_iff]

/-! ### Sorting -/

theorem exchange_perm (x : PhysRange) (ys : List PhysRange) :
    ((exchange x ys).1 :: (exchange x ys).2).Perm (x :: ys) := by
  induction ys generalizing x with
  | nil => exact List.Perm.refl _
  | cons y ys ih =>
    unfold exchange
    split_ifs with h
    · exact (List.Perm.swap x _ _).trans ((ih y).cons x)
    · exact (List.Perm.swap y _ _).trans (((ih x).cons y).trans (List.Perm.swap x y ys))

theorem exchange_le (x : PhysRange) (ys : List PhysRange) : (exchange x ys).1.start ≤ x.start ∧
      ∀ z ∈ (exchange x ys).2, (exchange x ys).1.start ≤ z.start := by
  induction ys generalizing x with
  | nil => exact ⟨le_rfl, by simp [exchange]⟩
  | cons y ys ih =>
    unfold exchange
    split_ifs with h
    · obtain ⟨h1, h2⟩ := ih y
      refine ⟨h1.trans h.le, ?_⟩
      rintro z (_ | ⟨_, hz⟩)
      · exact h1.trans h.le
      · exact h2 z hz
    · obtain ⟨h1, h2⟩ := ih x
      refine ⟨h1, ?_⟩
      rintro z (_ | ⟨_, hz⟩)
      · exact h1.trans (not_lt.mp h)
      · exact h2 z hz

theorem sortRangesLoop_perm : ∀ (n : ℕ) (l : List PhysRange), (sortRangesLoop n l).Perm l
  | 0, _ => List.Perm.refl _
  | _ + 1, [] => List.Perm.refl _
  | n + 1, x :: xs => ((sortRangesLoop_perm n _).cons _).trans (exchange_perm x xs)

theorem sortRangesLoop_sorted : ∀ (n : ℕ) (l : List PhysRange), l.length ≤ n →
    (sortRangesLoop n l).Pairwise fun r r' => r.start ≤ r'.start
  | 0, l, hl => by
    obtain rfl : l = [] := length_eq_zero_iff.mp (Nat.le_zero.mp hl)
    exact List.Pairwise.nil
  | _ + 1, [], _ => List.Pairwise.nil
  | n + 1, x :: xs, hl => by
    have hlen : (exchange x xs).2.length ≤ n := by
      have := (exchange_perm x xs).length_eq
      simp only [length_cons] at this hl
      omega
    rw [sortRangesLoop, pairwise_cons]
    refine ⟨fun z hz => ?_, sortRangesLoop_sorted n _ hlen⟩
    exact (exchange_le x xs).2 z ((sortRangesLoop_perm n _).mem_iff.mp hz)

theorem sortRanges_perm (l : List PhysRange) : (sortRanges l).Perm l :=
  sortRangesLoop_perm l.length l

theorem sortRanges_sorted (l : List PhysRange) :
    (sortRanges l).Pairwise fun r r' => r.start ≤ r'.start :=
  sortRangesLoop_sorted l.length l le_rfl

/-! ### Merging -/

structure Merging (out l : List PhysRange) : Prop where
  sorted : out.Pairwise fun r r' => r'.start ≤ r.start
  before : ∀ r ∈ out, ∀ r' ∈ l, r.start ≤ r'.start

theorem Merging.step (h : Merging out (r :: l)) (hr : ∀ r' ∈ l, r.start ≤ r'.start) :
    Merging (normalizeStep out r) l := by
  have hb : ∀ o ∈ out, ∀ r' ∈ l, o.start ≤ r'.start := fun o ho r' hr' =>
    h.before o ho r' (mem_cons_of_mem _ hr')
  unfold normalizeStep
  split_ifs with he
  · exact ⟨h.sorted, hb⟩
  · match out, h, hb with
    | [], _, _ => exact ⟨by simp, by simpa using hr⟩
    | last :: rest, h, hb =>
      obtain ⟨hs1, hs2⟩ := pairwise_cons.mp h.sorted
      dsimp only
      split_ifs with h1 h2
      · refine ⟨pairwise_cons.mpr ⟨fun o ho => ?_, h.sorted⟩, fun o ho => ?_⟩
        · exact h.before o ho r mem_cons_self
        · rcases mem_cons.mp ho with rfl | ho
          · exact hr
          · exact hb o ho
      · refine ⟨pairwise_cons.mpr ⟨hs1, hs2⟩, fun o ho => ?_⟩
        rcases mem_cons.mp ho with rfl | ho
        · exact hb last mem_cons_self
        · exact hb o (mem_cons_of_mem _ ho)
      · exact ⟨h.sorted, hb⟩

theorem covered_normalizeStep (h : Merging out (r :: l)) (x : ℕ) :
    Covered (normalizeStep out r) x ↔ Covered out x ∨ PhysRange.Mem x r := by
  unfold normalizeStep
  split_ifs with he
  · have : ¬ PhysRange.Mem x r := by unfold PhysRange.Mem; omega
    simp [this]
  · match out, h with
    | [], _ => simp
    | last :: rest, h =>
      have hl := h.before last mem_cons_self r mem_cons_self
      dsimp only
      split_ifs with h1 h2
      · rw [covered_cons, or_comm]
      · have hm : PhysRange.Mem x { last with stop := r.stop } ↔
            PhysRange.Mem x last ∨ PhysRange.Mem x r := by
          simp only [PhysRange.Mem]
          omega
        rw [covered_cons, covered_cons]
        tauto
      · have hm : PhysRange.Mem x r → PhysRange.Mem x last := by
          simp only [PhysRange.Mem]
          omega
        tauto

theorem foldl_normalizeStep (l : List PhysRange) : ∀ out : List PhysRange, Merging out l →
    l.Pairwise (fun r r' => r.start ≤ r'.start) →
    (l.foldl normalizeStep out).Pairwise (fun r r' => r'.start ≤ r.start) ∧
      ∀ x, Covered (l.foldl normalizeStep out) x ↔ Covered out x ∨ Covered l x := by
  induction l with
  | nil => exact fun out h _ => ⟨h.sorted, fun x => by simp⟩
  | cons r l ih =>
    intro out h hs
    obtain ⟨hr, hs⟩ := pairwise_cons.mp hs
    obtain ⟨h1, h2⟩ := ih _ (h.step hr) hs
    refine ⟨h1, fun x => ?_⟩
    rw [foldl_cons, h2, covered_normalizeStep h, covered_cons, or_assoc]

theorem merging_nil (l : List PhysRange) : Merging [] l := ⟨by simp, by simp⟩

theorem normalizeRanges_sorted (l : List PhysRange) :
    (normalizeRanges l).Pairwise fun r r' => r.start ≤ r'.start :=
  pairwise_reverse.mpr
    (foldl_normalizeStep _ [] (merging_nil _) (sortRanges_sorted l)).1

theorem covered_normalizeRanges (l : List PhysRange) (x : ℕ) :
    Covered (normalizeRanges l) x ↔ Covered l x := by
  unfold normalizeRanges
  rw [covered_reverse, (foldl_normalizeStep _ [] (merging_nil _) (sortRanges_sorted l)).2,
    covered_perm (sortRanges_perm l)]
  simp

theorem forall_normalizeRanges {P : PhysRange → Prop} (hone : ∀ r ∈ l, r.start < r.stop → P r)
    (hmerge : ∀ r ∈ l, ∀ o, P o → o.stop < r.stop → P { o with stop := r.stop }) :
    ∀ r ∈ normalizeRanges l, P r := by
  have hstep : ∀ r ∈ l, ∀ out, (∀ o ∈ out, P o) → ∀ o ∈ normalizeStep out r, P o := by
    intro r hr out ho
    unfold normalizeStep
    split_ifs with he
    · exact ho
    · match out, ho with
      | [], _ => simpa using hone r hr (not_le.mp he)
      | last :: rest, ho =>
        obtain ⟨hl, hrest⟩ := forall_mem_cons.mp ho
        dsimp only
        split_ifs with h1 h2
        · exact forall_mem_cons.mpr ⟨hone r hr (not_le.mp he), ho⟩
        · exact forall_mem_cons.mpr ⟨hmerge r hr last hl h2, hrest⟩
        · exact ho
  have hf : ∀ (l' out : List PhysRange), (∀ r ∈ l', r ∈ l) → (∀ o ∈ out, P o) →
      ∀ o ∈ l'.foldl normalizeStep out, P o := by
    intro l'
    induction l' with
    | nil => exact fun out _ ho => ho
    | cons r l' ih =>
      intro out hl ho
      obtain ⟨hr, hl⟩ := forall_mem_cons.mp hl
      exact ih _ hl (hstep r hr out ho)
  intro r hr
  exact hf _ [] (fun _ => (sortRanges_perm l).mem_iff.mp) (by simp) r (mem_reverse.mp hr)

theorem normalizeRanges_ok (h : ∀ r ∈ l, Aligned r.start ∧ Aligned r.stop) :
    GuardsOk (normalizeRanges l) :=
  ⟨normalizeRanges_sorted l, forall_normalizeRanges (fun _ _ h => h) fun _ _ _ ho h => ho.trans h,
    forall_normalizeRanges (fun r hr _ => h r hr) fun r hr _ ho _ => ⟨ho.1, (h r hr).2⟩⟩

/-! ### First fit -/

structure Placed (stop size lo : ℕ) (guards : List PhysRange) (c : ℕ) : Prop where
  dvd : pageSize ∣ c
  lo_le : lo ≤ c
  le_stop : c + size ≤ stop
  clear : ∀ x, c ≤ x → x < c + size → ¬ Covered guards x

theorem pageSize_eq : pageSize = 2 ^ 12 := rfl

theorem alignUp_pageSize_of_dvd {v : ℕ} (hd : pageSize ∣ v) (hv : v < 2 ^ 64) :
    alignUp v pageSize = v := by
  obtain ⟨q, rfl⟩ := hd
  have hle : 2 ^ 12 * q + 2 ^ 12 - 1 < 2 ^ 64 := by
    rw [pageSize_eq] at hv
    omega
  rw [pageSize_eq, alignUp_two_pow (by norm_num) hle]
  omega

theorem findRegionLoop_spec (hstop : stop < 2 ^ 64) : ∀ (gs : List PhysRange)
    (cursor : ℕ), GuardsOk gs → pageSize ∣ cursor → cursor + size ≤ stop →
    ∀ c, findRegionLoop stop size cursor gs = some c → Placed stop size cursor gs c := by
  intro gs
  induction gs with
  | nil =>
    intro cursor _ hd hle c hc
    simp only [findRegionLoop] at hc
    split_ifs at hc
    obtain rfl : cursor = c := by simpa using hc
    exact ⟨hd, le_rfl, hle, by simp⟩
  | cons g gs ih =>
    intro cursor hg hd hle c hc
    obtain ⟨hs1, -, ⟨-, hg1, hgd⟩, hg2⟩ := hg.uncons
    -- a place that ends before `g` ends before every later guard
    have hbefore : cursor + size ≤ g.start → Placed stop size cursor (g :: gs) cursor := fun h =>
      ⟨hd, le_rfl, hle, fun x h1 h2 ⟨r, hr, hx, _⟩ => by
        rcases mem_cons.mp hr with rfl | hr
        · omega
        · have := hs1 r hr
          omega⟩
    rw [findRegionLoop] at hc
    dsimp only at hc
    split_ifs at hc with h1 h2 h3 h4 h5
    · obtain ⟨hcd, hlo, hst, hcl⟩ := ih cursor hg2 hd hle c hc
      refine ⟨hcd, hlo, hst, fun x hx hx' hcov => ?_⟩
      rcases (covered_cons _ _ _).mp hcov with ⟨-, hm⟩ | hcov
      · omega
      · exact hcl x hx hx' hcov
    · obtain rfl : cursor = c := by simpa using hc
      exact hbefore (hle.trans h2)
    · obtain rfl : cursor = c := by simpa using hc
      rw [u64_of_lt (by omega)] at h4
      exact hbefore h4
    · rw [alignUp_pageSize_of_dvd hgd hg1] at h5 hc
      obtain ⟨hcd, hlo, hst, hcl⟩ := ih g.stop hg2 hgd (by omega) c hc
      refine ⟨hcd, by omega, hst, fun x hx hx' hcov => ?_⟩
      rcases (covered_cons _ _ _).mp hcov with ⟨-, hm⟩ | hcov
      · omega
      · exact hcl x hx hx' hcov

theorem findRegionLoop_isSome (hsize : size ≠ 0) (hstop : stop < 2 ^ 64) :
    ∀ (gs : List PhysRange) (cursor : ℕ), GuardsOk gs → cursor ≤ c → c + size ≤ stop →
    (∀ x, c ≤ x → x < c + size → ¬ Covered gs x) →
    (findRegionLoop stop size cursor gs).isSome := by
  intro gs
  induction gs with
  | nil =>
    intro cursor _ hcur hle _
    rw [findRegionLoop, if_pos (by rw [u64_of_lt] <;> omega)]
    rfl
  | cons g gs ih =>
    intro cursor hg hcur hle hclear
    obtain ⟨-, hn1, ⟨-, hg1, hgd⟩, hg2⟩ := hg.uncons
    have hclear2 : ∀ x, c ≤ x → x < c + size → ¬ Covered gs x := fun x h1 h2 hx =>
      hclear x h1 h2 ((covered_cons _ _ _).mpr (.inr hx))
    rw [findRegionLoop, u64_of_lt (by omega)]
    dsimp only
    split_ifs with h1 h2 h3 h4 h5
    · exact ih cursor hg2 hcur hle hclear2
    · rfl
    · omega
    · rfl
    all_goals
      -- the guard stands before the place, since neither of the two is empty
      have hgc : g.stop ≤ c := by
        by_contra hc
        refine hclear (max c g.start) (le_max_left _ _) (by omega) ?_
        exact (covered_cons _ _ _).mpr (.inl ⟨le_max_right _ _, by omega⟩)
      rw [alignUp_pageSize_of_dvd hgd hg1] at *
    · omega
    · exact ih g.stop hg2 hgc hle hclear2

theorem alignDown_pageSize {v : ℕ} (hv : v < 2 ^ 64) :
    alignDown v pageSize = v / pageSize * pageSize := alignDown_two_pow (k := 12) (by norm_num) hv

theorem alignDown_pageSize_le {v : ℕ} (hv : v < 2 ^ 64) : alignDown v pageSize ≤ v := by
  rw [alignDown_pageSize hv]
  exact Nat.div_mul_le_self _ _

/-- **First fit** answers with a page-aligned place inside the region and off the guards. -/
theorem findRegionBase_spec (hstart : start + pageSize ≤ 2 ^ 64) (hstop : stop < 2 ^ 64)
    (hg : GuardsOk guards) (hc : findRegionBase start stop guards size = some c) :
    Placed stop size start guards c := by
  unfold findRegionBase at hc
  obtain ⟨hlo, -, hdvd⟩ : start ≤ alignUp start pageSize ∧ _ ∧ pageSize ∣ alignUp start pageSize :=
    alignUp_spec (k := 12) (by norm_num) (by rw [pageSize_eq] at hstart; omega)
  have hdown := alignDown_pageSize_le hstop
  dsimp only at hc
  split_ifs at hc with h1 h2
  obtain ⟨hcd, hlo', hst, hcl⟩ := findRegionLoop_spec (by omega) guards _ hg hdvd (by omega) c hc
  exact ⟨hcd, hlo.trans hlo', hst.trans hdown, hcl⟩

theorem findRegionBase_isSome (hstart : start + pageSize ≤ 2 ^ 64) (hstop : stop < 2 ^ 64)
    (hsize : size ≠ 0) (hd : pageSize ∣ size) (hg : GuardsOk guards)
    (hc : Placed stop size start guards c) : (findRegionBase start stop guards size).isSome := by
  obtain ⟨hcd, hlo, hst, hcl⟩ := hc
  have hup : alignUp start pageSize ≤ c := by
    rw [pageSize_eq] at *
    exact (alignUp_le_iff (by norm_num) (by omega) hcd).mpr hlo
  have hdown : c + size ≤ alignDown stop pageSize := by
    rw [alignDown_pageSize hstop]
    rw [pageSize_eq] at *
    omega
  have hdown' := alignDown_pageSize_le hstop
  unfold findRegionBase
  rw [if_neg hsize, if_neg (by omega)]
  exact findRegionLoop_isSome hsize (by omega) guards _ hg hup hdown hcl

end TaterTOS.Pmm
