import TaterTOS.Vm.Frames
import TaterTOS.Vm.Trim

/-!
# Loops over pages
-/

namespace TaterTOS.Vm

open Function Lib Vmm List

variable {base length n : ℕ} {s : State}

/-! ### Ranges of whole pages -/

structure Whole (base length : ℕ) : Prop where
  base_dvd : 4096 ∣ base
  length_dvd : 4096 ∣ length
  stop_le : base + length ≤ vmUserLimit

def pageNums (base length : ℕ) : List ℕ := List.range' (base / 4096) (length / 4096)

variable {m : PageMap} {ns new new' : List ℕ} {s' s'' s0 : State} {b k flags a : ℕ}

theorem pageAddrs_of_dvd (hb : 4096 ∣ base) (hl : 4096 ∣ length)
    (hlt : base + length < 2 ^ 64) :
    pageAddrs base length = (pageNums base length).map (· * 4096) := by
  unfold pageAddrs pageNums
  rw [u64_of_lt hlt, Nat.add_sub_cancel_left, List.range'_eq_map_range, map_map]
  have hcount : (length + 4095) / 4096 = length / 4096 := by omega
  rw [hcount]
  refine map_congr_left fun i _ => ?_
  show base + i * 4096 = (base / 4096 + i) * 4096
  omega

section

variable {base length : ℕ} (h : Whole base length)

include h

theorem Whole.lt_two_pow : base + length < 2 ^ 64 := by
  have h1 := h.stop_le
  have : vmUserLimit < 2 ^ 64 := by decide
  omega

theorem Whole.u64_eq : u64 (base + length) = base + length := u64_of_lt h.lt_two_pow

theorem pageAddrs_eq : pageAddrs base length = (pageNums base length).map (· * 4096) :=
  pageAddrs_of_dvd h.base_dvd h.length_dvd h.lt_two_pow

theorem mem_pageNums (n : ℕ) : n ∈ pageNums base length ↔ InRange base (base + length) n := by
  have h1 := h.base_dvd
  have h2 := h.length_dvd
  rw [pageNums, mem_range'_1, InRange]
  omega

theorem Whole.lt_top (hn : n ∈ pageNums base length) : n * 4096 < userVaTop := by
  have h1 := ((mem_pageNums h n).mp hn).2
  have h2 := h.stop_le
  have : vmUserLimit < userVaTop := by decide
  omega

end

theorem pageNums_nodup (base length : ℕ) : (pageNums base length).Nodup := nodup_range'

/-! ### Entries -/

def GoodPages (m : PageMap) : Prop := ∀ n x, m n = some x → x.1 ≠ 0 ∧ frameOf x.1 = x.1

theorem GoodPages.updated (h : GoodPages m) {o : Option (ℕ × ℕ)}
    (ho : ∀ x, o = some x → x.1 ≠ 0 ∧ frameOf x.1 = x.1) : GoodPages (update m n o) := by
  intro k x hx
  by_cases hk : k = n
  · subst hk
    rw [update_self] at hx
    exact ho x hx
  · rw [update_of_ne hk] at hx
    exact h k x hx

theorem virtToPhysUser_page (s : State) (hn : n * 4096 < userVaTop) :
    vmmVirtToPhysUser s (n * 4096) = ((s.pages n).map Prod.fst).getD 0 := by
  rw [vmmVirtToPhysUser, if_neg (not_le.mpr hn), PageMap.virtToPhys,
    Nat.mul_div_cancel n (by norm_num), Nat.mul_mod_left]
  rfl

theorem virtToPhysUser_eq_zero (hg : GoodPages s.pages)
    (hn : n * 4096 < userVaTop) : vmmVirtToPhysUser s (n * 4096) = 0 ↔ s.pages n = none := by
  rw [virtToPhysUser_page s hn]
  cases hp : s.pages n with
  | none => simp
  | some x => simpa using (hg n x hp).1

theorem unmapUser_page (s : State) (hn : n * 4096 < userVaTop) :
    vmmUnmapUser s (n * 4096) = { s with pages := update s.pages n none } := by
  rw [vmmUnmapUser, if_neg (not_le.mpr hn), PageMap.unmap, Nat.mul_div_cancel n (by norm_num)]

/-! ### Tests of ranges -/

section

variable {s : State} {base length : ℕ} (hg : GoodPages s.pages) (h : Whole base length)

include hg h

theorem rangeMapped_iff (hpos : 0 < length) : vmRangeMapped s base length = true ↔
    ∀ n, InRange base (base + length) n → s.pages n ≠ none := by
  rw [vmRangeMapped, if_neg hpos.ne', pageAddrs_eq h, all_map, all_eq_true]
  constructor
  · intro hall n hn
    have hm := (mem_pageNums h n).mpr hn
    have hne : vmmVirtToPhysUser s (n * 4096) ≠ 0 := by simpa using hall n hm
    rwa [ne_eq, virtToPhysUser_eq_zero hg (h.lt_top hm)] at hne
  · intro hall n hm
    have hne := hall n ((mem_pageNums h n).mp hm)
    rw [ne_eq, ← virtToPhysUser_eq_zero hg (h.lt_top hm)] at hne
    simpa using hne

theorem allUnmapped_iff :
    ((pageAddrs base length).all fun va => vmmVirtToPhysUser s va == 0) = true ↔
    ∀ n, InRange base (base + length) n → s.pages n = none := by
  rw [pageAddrs_eq h, all_map, all_eq_true]
  constructor
  · intro hall n hn
    have hm := (mem_pageNums h n).mpr hn
    exact (virtToPhysUser_eq_zero hg (h.lt_top hm)).mp (by simpa using hall n hm)
  · intro hall n hm
    have hz := (virtToPhysUser_eq_zero hg (h.lt_top hm)).mpr (hall n ((mem_pageNums h n).mp hm))
    simpa using hz

end

/-- A range of whole pages in the window of mappings that touches no region and no page. -/
structure Available (s : State) (base length : ℕ) : Prop where
  whole : Whole base length
  pos : 0 < length
  base_le : vmUserBase ≤ base
  regions : ∀ n, InRange base (base + length) n → ∀ i, ¬ (s.regions i).Covers n
  pages : ∀ n, InRange base (base + length) n → s.pages n = none

theorem rangeAvailable_iff (hv : Valid s.regions)
    (hg : GoodPages s.pages) (hb : 4096 ∣ base) (hl : 4096 ∣ length) (hbase : base < 2 ^ 64)
    (hlen : length < 2 ^ 64) :
    vmRangeAvailable s base length = true ↔ Available s base length := by
  have hlim : vmUserLimit < 2 ^ 64 := by decide
  have hmod : u64 (base + length) = base + length ∨ u64 (base + length) < base := by
    unfold u64
    omega
  constructor
  · intro h
    unfold vmRangeAvailable at h
    split_ifs at h with h1 h2 h3 h4 h5
    have hw : Whole base length := ⟨hb, hl, by omega⟩
    have hpos := Nat.pos_of_ne_zero h1
    rw [Bool.not_eq_true, anyRegionOverlap_spec hv hpos (by have := hw.stop_le; omega)] at h5
    refine ⟨hw, hpos, not_lt.mp h2, fun n hn i hc => ?_, (allUnmapped_iff hg hw).mp h⟩
    exact h5 i (n * 4096) hn.1 hn.2 ((hv.has_iff_covers i n).mpr hc)
  · intro h
    have hw := h.whole
    have hstop := hw.stop_le
    have hpos := h.pos
    unfold vmRangeAvailable
    rw [hw.u64_eq, if_neg hpos.ne', if_neg (not_lt.mpr h.base_le), if_neg (by omega),
      if_neg (by omega), if_neg]
    · exact (allUnmapped_iff hg hw).mpr h.pages
    · rw [Bool.not_eq_true, anyRegionOverlap_spec hv hpos (by omega)]
      intro i x h1 h2 hx
      have hn := hv.native i hx.1
      refine h.regions (x / 4096) ?_ i (hn.covers_of_mem hx.1 hx.2.1 (hn.stop_eq ▸ hx.2.2))
      unfold InRange
      omega

/-! ### Unmapping loops -/

def erasePages (m : PageMap) (ns : List ℕ) : PageMap := fun n => if n ∈ ns then none else m n

def framesOf (m : PageMap) (ns : List ℕ) : List ℕ := ns.filterMap fun n => (m n).map Prod.fst

theorem mem_framesOf {f : ℕ} : f ∈ framesOf m ns ↔ ∃ n ∈ ns, ∃ x, m n = some x ∧ x.1 = f := by
  simp only [framesOf, mem_filterMap, Option.map_eq_some_iff]

theorem framesOf_nodup (hnd : ns.Nodup)
    (hinj : ∀ n ∈ ns, ∀ n' ∈ ns, ∀ x x', m n = some x → m n' = some x' → x.1 = x'.1 → n = n') :
    (framesOf m ns).Nodup := by
  induction ns with
  | nil => exact nodup_nil
  | cons n ns ih =>
    obtain ⟨hnn, hnd⟩ := nodup_cons.mp hnd
    have hrest := ih hnd fun k hk k' hk' =>
      hinj k (mem_cons_of_mem _ hk) k' (mem_cons_of_mem _ hk')
    rw [framesOf, filterMap_cons]
    cases hm : m n with
    | none => exact hrest
    | some x =>
      refine nodup_cons.mpr ⟨fun hmem => ?_, hrest⟩
      obtain ⟨k, hk, y, hy, hxy⟩ := mem_framesOf.mp hmem
      exact hnn (hinj n mem_cons_self k (mem_cons_of_mem _ hk) x y hm hy hxy.symm ▸ hk)

theorem erasePages_cons (m : PageMap) (n : ℕ) (ns : List ℕ) :
    erasePages (update m n none) ns = erasePages m (n :: ns) := by
  funext k
  unfold erasePages
  by_cases hk : k = n
  · subst hk
    simp
  · simp [hk]

theorem erasePages_of_none (h : m n = none) (ns : List ℕ) :
    erasePages m ns = erasePages m (n :: ns) := by
  rw [← erasePages_cons]
  rw [← h, update_eq_self]

theorem framesOf_update (hn : n ∉ ns) (o : Option (ℕ × ℕ)) :
    framesOf (update m n o) ns = framesOf m ns := by
  refine filterMap_congr fun k hk => ?_
  have hkn : k ≠ n := fun heq => hn (heq ▸ hk)
  rw [update_of_ne hkn]

section

variable {s : State}

variable {n : ℕ} (hg : GoodPages s.pages) (hn : n * 4096 < userVaTop)

include hg hn

theorem unmapPage_eq : unmapPage s (n * 4096) = { s with pages := update s.pages n none } := by
  unfold unmapPage
  split_ifs with hp
  · rw [← (virtToPhysUser_eq_zero hg hn).mp hp, update_eq_self]
  · exact unmapUser_page s hn

theorem releasePage_none (hp : s.pages n = none) : releasePage s (n * 4096) = s := by
  exact if_pos ((virtToPhysUser_eq_zero hg hn).mpr hp)

theorem releasePage_some {x : ℕ × ℕ} (hp : s.pages n = some x) : releasePage s (n * 4096) =
    { s with pages := update s.pages n none, pool := s.pool.put x.1 } := by
  have hpa : vmmVirtToPhysUser s (n * 4096) = x.1 := by
    rw [virtToPhysUser_page s hn, hp]
    rfl
  obtain ⟨hz, hf⟩ := hg n x hp
  rw [releasePage, hpa, if_neg hz, hf, unmapUser_page s hn]
  rfl

omit hg hn

theorem unmapPage_foldl (ns : List ℕ) (hg : GoodPages s.pages)
    (htop : ∀ n ∈ ns, n * 4096 < userVaTop) :
    (ns.map (· * 4096)).foldl unmapPage s = { s with pages := erasePages s.pages ns } := by
  induction ns generalizing s with
  | nil => rfl
  | cons n ns ih =>
    have htop' : ∀ k ∈ ns, k * 4096 < userVaTop := fun k hk => htop k (mem_cons_of_mem _ hk)
    rw [map_cons, foldl_cons, unmapPage_eq hg (htop n mem_cons_self),
      ih (hg.updated fun x hx => absurd hx (by simp)) htop', erasePages_cons]

theorem releasePage_foldl (ns : List ℕ) (hnd : ns.Nodup) (hg : GoodPages s.pages)
    (htop : ∀ n ∈ ns, n * 4096 < userVaTop) :
    (ns.map (· * 4096)).foldl releasePage s = { s with
        pages := erasePages s.pages ns
        pool := (framesOf s.pages ns).foldl Pool.put s.pool } := by
  induction ns generalizing s with
  | nil => rfl
  | cons n ns ih =>
    obtain ⟨hnn, hnd⟩ := nodup_cons.mp hnd
    have hn := htop n mem_cons_self
    have htop' : ∀ k ∈ ns, k * 4096 < userVaTop := fun k hk => htop k (mem_cons_of_mem _ hk)
    rw [map_cons, foldl_cons]
    cases hp : s.pages n with
    | none =>
      have hframes : framesOf s.pages (n :: ns) = framesOf s.pages ns := by
        rw [framesOf, filterMap_cons, hp]
        rfl
      rw [releasePage_none hg hn hp, ih hnd hg htop', erasePages_of_none hp, hframes]
    | some x =>
      have hframes : framesOf s.pages (n :: ns) = x.1 :: framesOf s.pages ns := by
        rw [framesOf, filterMap_cons, hp]
        rfl
      rw [releasePage_some hg hn hp, ih hnd (hg.updated fun x hx => absurd hx (by simp)) htop',
        erasePages_cons, framesOf_update hnn, hframes, foldl_cons]

variable {base length : ℕ}

theorem unmapPagesOnly_eq (hg : GoodPages s.pages) (h : Whole base length) :
    vmUnmapPagesOnly s base length =
      { s with pages := erasePages s.pages (pageNums base length) } := by
  rw [vmUnmapPagesOnly, pageAddrs_eq h]
  exact unmapPage_foldl _ hg fun n hn => h.lt_top hn

theorem releasePrivatePages_eq (hg : GoodPages s.pages) (h : Whole base length) :
    vmReleasePrivatePages s base length = { s with
        pages := erasePages s.pages (pageNums base length)
        pool := (framesOf s.pages (pageNums base length)).foldl Pool.put s.pool } := by
  rw [vmReleasePrivatePages, pageAddrs_eq h]
  exact releasePage_foldl _ (pageNums_nodup base length) hg fun n hn => h.lt_top hn

end

/-! ### Committing pages -/

def pteFlags (flags : ℕ) : ℕ := (flags &&& pteFlagMask) ||| flagPresent

theorem map_page (m : PageMap) (n : ℕ) {phys : ℕ} (hp : frameOf phys = phys) (flags : ℕ) :
    m.map (n * 4096) phys flags = update m n (some (phys, pteFlags flags)) := by
  rw [PageMap.map, Nat.mul_div_cancel n (by norm_num), hp]
  rfl

def framesAt (m : PageMap) (b k : ℕ) : Set ℕ :=
  {f | ∃ n, b ≤ n ∧ n < b + k ∧ ∃ x, m n = some x ∧ x.1 = f}

structure Committed (s s' : State) (b k flags : ℕ) (new : List ℕ) : Prop where
  took : Took s s' (framesAt s'.pages b k) new
  objects : s'.objects = s.objects
  out : ∀ n, ¬ (b ≤ n ∧ n < b + k) → s'.pages n = s.pages n
  entry : ∀ n, b ≤ n → n < b + k → ∃ f, s'.pages n = some (f, flags) ∧ f ≠ 0 ∧ frameOf f = f
  inj : ∀ n n' x x', b ≤ n → n < b + k → b ≤ n' → n' < b + k → s'.pages n = some x →
    s'.pages n' = some x' → x.1 = x'.1 → n = n'

theorem Committed.good (h : Committed s s' b k flags new) (hg : GoodPages s.pages) :
    GoodPages s'.pages := by
  intro n x hx
  by_cases hn : b ≤ n ∧ n < b + k
  · obtain ⟨f, hf, h1, h2⟩ := h.entry n hn.1 hn.2
    rw [hf] at hx
    obtain rfl := Option.some.inj hx
    exact ⟨h1, h2⟩
  · rw [h.out n hn] at hx
    exact hg n x hx

theorem Committed.empty (s : State) (b flags : ℕ) : Committed s s b 0 flags [] := by
  refine ⟨?_, rfl, fun _ _ => rfl, fun n h1 h2 => by omega, fun n n' x x' h1 h2 => by omega⟩
  have hno : framesAt s.pages b 0 = ∅ := by
    ext f
    refine iff_of_false ?_ (Set.notMem_empty f)
    rintro ⟨n, h1, h2, -⟩
    omega
  rw [hno]
  exact Took.refl s

theorem mem_framesAt {f : ℕ} : f ∈ framesOf m (List.range' b k) ↔ f ∈ framesAt m b k := by
  simp only [mem_framesOf, mem_range'_1, framesAt, Set.mem_ofPred_eq, and_assoc]

theorem Committed.undo (h : Committed s s' b k flags new) (hg : GoodPages s.pages)
    (htop : ∀ n, b ≤ n → n < b + k → n * 4096 < userVaTop)
    (hnone : ∀ n, b ≤ n → n < b + k → s.pages n = none) (hi : Idle s' s'') :
    Idle s (((List.range' b k).map (· * 4096)).foldl releasePage s'') := by
  obtain ⟨⟨new', ht⟩, hp, ho⟩ := hi
  have hg' : GoodPages s''.pages := hp ▸ h.good hg
  rw [releasePage_foldl _ nodup_range' hg' fun n hn => (mem_range'_1.mp hn).elim (htop n)]
  refine ⟨⟨_, (h.took.then ht).put_back (l := framesOf s''.pages (List.range' b k)) ?_
    (fun f => hp ▸ mem_framesAt) rfl rfl rfl rfl⟩, ?_, ho.trans h.objects⟩
  · rw [hp]
    refine framesOf_nodup nodup_range' fun n hn n' hn' x x' => ?_
    obtain ⟨h1, h2⟩ := mem_range'_1.mp hn
    exact (mem_range'_1.mp hn').elim (h.inj n n' x x' h1 h2)
  · funext n
    show erasePages s''.pages (List.range' b k) n = s.pages n
    unfold erasePages
    rw [hp]
    split_ifs with hn
    · exact ((mem_range'_1.mp hn).elim (hnone n)).symm
    · exact h.out n (mt mem_range'_1.mpr hn)

theorem Committed.rollback {mapped : ℕ}
    (h : Committed s s' (base / 4096) (mapped / 4096) flags new) (hg : GoodPages s.pages)
    (hw : Whole base mapped) (hnone : ∀ n, InRange base (base + mapped) n → s.pages n = none)
    (hi : Idle s' s'') : Idle s (vmReleasePrivatePages s'' base mapped) := by
  have hmem : ∀ n, base / 4096 ≤ n → n < base / 4096 + mapped / 4096 → n ∈ pageNums base mapped :=
    fun n h1 h2 => mem_range'_1.mpr ⟨h1, h2⟩
  rw [vmReleasePrivatePages, pageAddrs_eq hw]
  exact h.undo hg (fun n h1 h2 => hw.lt_top (hmem n h1 h2))
    (fun n h1 h2 => hnone n ((mem_pageNums hw n).mp (hmem n h1 h2))) hi

theorem Committed.step (h : Committed s0 s b k flags new) (hz : a ≠ 0)
    (hfa : frameOf a = a) (ht : Took s s' {a} new')
    (hp : s'.pages = update s.pages (b + k) (some (a, flags))) (ho : s'.objects = s.objects) :
    Committed s0 s' b (k + 1) flags (new' ++ new) := by
  have hself : s'.pages (b + k) = some (a, flags) := by rw [hp, update_self]
  have hold : ∀ n, n ≠ b + k → s'.pages n = s.pages n := fun n hn => by
    rw [hp, update_of_ne hn]
  -- the new frame is none of those of the pages before
  have hfresh : ∀ n x, b ≤ n → n < b + k → s.pages n = some x → x.1 ≠ a := by
    intro n x h₁ h₂ hx hxa
    have hfree := (ht.offers a (.inl rfl)).2.2
    exact ((h.took.free a).mp hfree).2.1 ⟨n, h₁, h₂, x, hx, hxa⟩
  have hframes : framesAt s'.pages b (k + 1) = framesAt s.pages b k ∪ {a} := by
    ext f
    constructor
    · rintro ⟨n, h₁, h₂, x, hx, rfl⟩
      by_cases hn : n = b + k
      · subst hn
        rw [hself] at hx
        exact .inr (congrArg Prod.fst (Option.some.inj hx).symm)
      · rw [hold n hn] at hx
        exact .inl ⟨n, h₁, by omega, x, hx, rfl⟩
    · rintro (⟨n, h₁, h₂, x, hx, rfl⟩ | rfl)
      · exact ⟨n, h₁, by omega, x, (hold n (by omega)).trans hx, rfl⟩
      · exact ⟨b + k, by omega, by omega, _, hself, rfl⟩
  refine ⟨?_, ho.trans h.objects, fun n hn => ?_, fun n h₁ h₂ => ?_, ?_⟩
  · rw [hframes]
    exact h.took.trans ht
  · rw [hold n (by omega)]
    exact h.out n (by omega)
  · by_cases hn : n = b + k
    · subst hn
      exact ⟨a, hself, hz, hfa⟩
    · rw [hold n hn]
      exact h.entry n h₁ (by omega)
  · intro n n' x x' h₁ h₂ h1' h2' hx hx' he
    by_cases hn : n = b + k
    · by_cases hn' : n' = b + k
      · rw [hn, hn']
      · rw [hold n' hn'] at hx'
        rw [hn, hself] at hx
        obtain rfl := Option.some.inj hx
        exact absurd he.symm (hfresh n' x' h1' (by omega) hx')
    · rw [hold n hn] at hx
      by_cases hn' : n' = b + k
      · rw [hn', hself] at hx'
        obtain rfl := Option.some.inj hx'
        exact absurd he (hfresh n x h₁ (by omega) hx)
      · rw [hold n' hn'] at hx'
        exact h.inj n n' x x' h₁ (by omega) h1' (by omega) hx hx' he

/-- **A frame at an absent page**: no table is found, or the entry is set. -/
theorem mapPage_spec (s : State) (htop : n * 4096 < userVaTop) (hpage : s.pages n = none)
    (hfa : frameOf a = a) (flags : ℕ) :
    ∃ new, Took s (vmmMapUser s (n * 4096) a flags) ∅ new ∧
      (vmmMapUser s (n * 4096) a flags).objects = s.objects ∧
      (vmmVirtToPhysUser (vmmMapUser s (n * 4096) a flags) (n * 4096) = 0 ∧
          (vmmMapUser s (n * 4096) a flags).pages = s.pages ∨
        vmmVirtToPhysUser (vmmMapUser s (n * 4096) a flags) (n * 4096) = a ∧
          (vmmMapUser s (n * 4096) a flags).pages =
            update s.pages n (some (a, pteFlags flags))) := by
  obtain ⟨new, ht, hp, ho, -⟩ := mapUser_spec s htop a flags
  refine ⟨new, ht, ho, ?_⟩
  rw [virtToPhysUser_page _ htop, hp]
  cases (mapAnswer s).1 with
  | false => exact .inl ⟨by rw [if_neg Bool.false_ne_true, hpage]; rfl, rfl⟩
  | true =>
    rw [if_pos rfl, map_page s.pages n hfa]
    exact .inr ⟨by rw [update_self]; rfl, rfl⟩

/-- **A frame for an absent page**: there is none, or it is taken and put at the page. -/
theorem takePage_spec (s : State) (htop : n * 4096 < userVaTop) (hpage : s.pages n = none)
    (flags : ℕ) :
    ∃ a s1, pmmAllocPage s = (a, s1) ∧
      (a = 0 ∧ Idle s s1 ∨
        a ≠ 0 ∧ frameOf a = a ∧ ∃ new s2, vmmMapUser s1 (n * 4096) a flags = s2 ∧
          Took s s2 {a} new ∧ s2.objects = s.objects ∧
          (vmmVirtToPhysUser s2 (n * 4096) = 0 ∧ s2.pages = s.pages ∨
            vmmVirtToPhysUser s2 (n * 4096) = a ∧
              s2.pages = update s.pages n (some (a, pteFlags flags)))) := by
  obtain ⟨a, s1, ha, hp1, ho1, -, hcase⟩ := allocPage_spec s
  refine ⟨a, s1, ha, hcase.imp (.imp_right fun ht => ⟨⟨_, ht⟩, hp1, ho1⟩)
    fun ⟨hz, hfa, ht1⟩ => ⟨hz, hfa, ?_⟩⟩
  obtain ⟨new, ht2, ho2, hcase⟩ := mapPage_spec s1 htop (hp1 ▸ hpage) hfa flags
  rw [hp1] at hcase
  have ht := ht1.then ht2
  rw [append_nil] at ht
  exact ⟨new, _, rfl, ht, ho2.trans ho1, hcase⟩

theorem Took.freePage {s2 : State} (ht : Took s s2 {a} new) : Took s (pmmFreePage s2 a) ∅ new :=
  ht.put_back (l := [a]) (nodup_singleton a) (fun _ => mem_singleton) rfl rfl rfl rfl

theorem commitLoop_spec (hg : GoodPages s0.pages) {total : ℕ} (hw : Whole base total)
    (hnone : ∀ n, InRange base (base + total) n → s0.pages n = none) (k : ℕ) :
    ∀ (mapped : ℕ) (s : State) (new : List ℕ), 4096 ∣ mapped → mapped + k * 4096 = total →
      Committed s0 s (base / 4096) (mapped / 4096) (pteFlags flags) new →
      ∃ ok s', commitLoop base flags
          ((List.range' (base / 4096 + mapped / 4096) k).map (· * 4096)) mapped s = (ok, s') ∧
        (ok = false ∧ Idle s0 s' ∨
          ok = true ∧ ∃ new, Committed s0 s' (base / 4096) (total / 4096)
          (pteFlags flags) new) := by
  induction k with
  | zero =>
    intro mapped s new hd htot hc
    refine ⟨true, s, rfl, Or.inr ⟨rfl, new, ?_⟩⟩
    rw [← htot, zero_mul]
    exact hc
  | succ k ih =>
    intro mapped s new hd htot hc
    have hb := hw.base_dvd
    have hstop := hw.stop_le
    have hwm : Whole base mapped := ⟨hb, hd, by omega⟩
    have hnonem : ∀ n, InRange base (base + mapped) n → s0.pages n = none := fun n hn =>
      hnone n ⟨hn.1, by have := hn.2; omega⟩
    set n := base / 4096 + mapped / 4096 with hn
    have htop : n * 4096 < userVaTop := by
      have : vmUserLimit < userVaTop := by decide
      omega
    have hpage : s.pages n = none := by
      rw [hc.out n (by omega)]
      exact hnone n ⟨by omega, by omega⟩
    rw [List.range'_succ, map_cons, commitLoop]
    obtain ⟨a, s1, ha, hcase⟩ := takePage_spec s htop hpage flags
    rw [ha]
    dsimp only
    rcases hcase with ⟨rfl, hi⟩ | ⟨hz, hfa, new2, s2, hmap, ht, ho2, ⟨hv, hp2⟩ | ⟨hv, hp2⟩⟩
    · exact ⟨false, _, rfl, Or.inl ⟨rfl, hc.rollback hg hwm hnonem hi⟩⟩
    · -- no table: the frame goes back and the pages before are released
      have hback : pmmFreePage (vmmUnmapUser s2 (n * 4096)) a = pmmFreePage s2 a := by
        rw [unmapUser_page s2 htop, hp2, ← hpage, update_eq_self, ← hp2]
      rw [if_neg hz, hmap, hv, if_pos (show frameOf 0 ≠ a from Ne.symm hz), hback]
      exact ⟨false, _, rfl, Or.inl ⟨rfl, hc.rollback hg hwm hnonem ⟨⟨_, ht.freePage⟩, hp2, ho2⟩⟩⟩
    · rw [if_neg hz, hmap, hv, hfa, if_neg (not_not.mpr rfl)]
      have hnext := hc.step hz hfa ht hp2 ho2
      have hidx : n + 1 = base / 4096 + (mapped + 4096) / 4096 := by omega
      have hk : (mapped + 4096) / 4096 = mapped / 4096 + 1 := by omega
      rw [hidx]
      rw [← hk] at hnext
      exact ih (mapped + 4096) s2 _ (by omega) (by omega) hnext

/-- **`vm_commit_private_pages`** gives every page of the range a frame, or changes nothing but the
page tables. -/
theorem commit_spec (hg : GoodPages s.pages) (hw : Whole base length)
    (hpos : 0 < length) (hnone : ∀ n, InRange base (base + length) n → s.pages n = none)
    (prot : ℕ) :
    ∃ ok s', vmCommitPrivatePages s base length prot = (ok, s') ∧
      (ok = false ∧ Idle s s' ∨
        ok = true ∧ ∃ new, Committed s s' (base / 4096) (length / 4096)
          (pteFlags (vmProtToPteFlags prot)) new) := by
  have hd := hw.length_dvd
  rw [vmCommitPrivatePages, if_neg hpos.ne', pageAddrs_eq hw]
  have hloop := commitLoop_spec hg hw hnone (length / 4096) 0 s [] (Nat.dvd_zero _) (by omega)
    (Committed.empty s _ (pteFlags (vmProtToPteFlags prot)))
  exact hloop

end TaterTOS.Vm
