import TaterTOS.Linux.Model

/-!
# Failed calls of Linux processes

* **`failed_unchanged`**: when a failed `LNX_brk` changes nothing, and that a failed `LNX_mmap` of a
  clear range changes nothing;
* `failed_brk_unmaps`: a failed `LNX_brk` over a mapped page takes the page away.
-/

namespace TaterTOS.Linux

open Lib Vm List
open Vmm (frameOf userVaTop)

/-! ### Pages -/

def MapsWork (s : State) : Prop := ∀ a ∈ s.env.maps, a.1 = true

section

variable {s : State} {n : ℕ}

theorem frameAt_of_none (hn : s.pages n = none) : frameAt s (n * 4096) = 0 := by
  unfold frameAt vmmVirtToPhysUser
  split_ifs with htop
  · exact Nat.zero_and _
  · rw [Vmm.PageMap.virtToPhys, Nat.mul_div_cancel n (by norm_num), hn]
    exact Nat.zero_and _

theorem frameAt_of_some {x : ℕ × ℕ} (hg : GoodPages s.pages) (htop : n * 4096 < userVaTop)
    (hn : s.pages n = some x) : frameAt s (n * 4096) = x.1 := by
  rw [frameAt, virtToPhysUser_page s htop, hn]
  exact (hg n x hn).2

theorem lxUnmapPage_eq (hg : GoodPages s.pages) (htop : n * 4096 < userVaTop) :
    lxUnmapPage s (n * 4096) = releasePage s (n * 4096) := by
  cases hp : s.pages n with
  | none => rw [releasePage_none hg htop hp, lxUnmapPage, if_pos (frameAt_of_none hp)]
  | some x =>
    rw [releasePage_some hg htop hp, lxUnmapPage, frameAt_of_some hg htop hp,
      if_neg (hg n x hp).1, unmapUser_page s htop]
    rfl

theorem lxUnmap_foldl (ns : List ℕ) (hg : GoodPages s.pages)
    (htop : ∀ n ∈ ns, n * 4096 < userVaTop) :
    (ns.map (· * 4096)).foldl lxUnmapPage s = (ns.map (· * 4096)).foldl releasePage s := by
  induction ns generalizing s with
  | nil => rfl
  | cons n ns ih =>
    have hn := htop n mem_cons_self
    rw [map_cons, foldl_cons, lxUnmapPage_eq hg hn]
    refine ih ?_ fun k hk => htop k (mem_cons_of_mem _ hk)
    cases hp : s.pages n with
    | none => rwa [releasePage_none hg hn hp]
    | some x =>
      rw [releasePage_some hg hn hp]
      exact hg.updated fun x hx => absurd hx (by simp)

theorem addr_eq {b i : ℕ} (htop : (b + i) * 4096 < userVaTop) :
    u64 (b * 4096 + i * 4096) = (b + i) * 4096 := by
  have : userVaTop < 2 ^ 64 := by decide
  rw [← add_mul]
  exact u64_of_lt (htop.trans this)

theorem addrs_eq {b k : ℕ} (htop : (b + k) * 4096 ≤ userVaTop) :
    ((List.range k).map fun i => u64 (b * 4096 + i * 4096)) = (List.range' b k).map (· * 4096) := by
  rw [List.range'_eq_map_range, map_map]
  refine map_congr_left fun i hi => ?_
  have := mem_range.mp hi
  exact addr_eq (by omega)

theorem lxUnmapRange_eq {b k : ℕ} (hg : GoodPages s.pages) (htop : (b + k) * 4096 ≤ userVaTop) :
    lxUnmapRange s (b * 4096) k = ((List.range' b k).map (· * 4096)).foldl releasePage s := by
  rw [lxUnmapRange, addrs_eq htop]
  refine lxUnmap_foldl _ hg fun n hn => ?_
  have := mem_range'_1.mp hn
  omega

end

theorem lxMapOne_spec (h : Heap) {n : ℕ} (htop : n * 4096 < userVaTop) (flags : ℕ)
    (hmaps : MapsWork h.toState) :
    ∃ a s new, s.objects = h.objects ∧ MapsWork s ∧
      (lxMapOne h (n * 4096) flags = (false, { h with toState := s }) ∧ s.pages = h.pages ∧
        Took h.toState s ∅ new ∨
      lxMapOne h (n * 4096) flags =
          (true, { h with toState := s, mem := fill h.mem a 4096 0 }) ∧ a ≠ 0 ∧ frameOf a = a ∧
        s.pages = Function.update h.pages n (some (a, pteFlags flags)) ∧
        Took h.toState s {a} new) := by
  obtain ⟨a, s1, ha, hp1, ho1, hm1, hcase⟩ := allocPage_spec h.toState
  unfold lxMapOne
  rw [ha]
  have hmaps1 : MapsWork s1 := fun x hx => hmaps x (hm1 ▸ hx)
  rcases hcase with ⟨rfl, ht1⟩ | ⟨hz, hfa, ht1⟩
  · exact ⟨0, s1, [], ho1, hmaps1, .inl ⟨if_pos rfl, hp1, ht1⟩⟩
  · obtain ⟨new, ht2, hp2, ho2, he2⟩ := mapUser_spec s1 htop a flags
    have hanswer : (mapAnswer s1).1 = true := by
      unfold mapAnswer
      cases hm : s1.env.maps with
      | nil => rfl
      | cons x xs => exact hmaps1 x (hm ▸ mem_cons_self)
    rw [if_pos hanswer, hp1, map_page h.pages n hfa] at hp2
    have ht := ht1.then ht2
    rw [append_nil] at ht
    refine ⟨a, _, new, ho2.trans ho1, fun x hx => ?_, .inr ⟨if_neg hz, hz, hfa, hp2, ht⟩⟩
    rw [he2] at hx
    exact hmaps1 x (mem_of_mem_tail hx)

section

variable {h0 h : Heap} {b total flags : ℕ}

theorem unmapRange_untouched {k : ℕ} {new : List ℕ} {s : State} (hgrew : Grew h0 h b k flags new)
    (hg : GoodPages h0.pages) (htop : (b + k) * 4096 ≤ userVaTop) (hi : Idle h.toState s) :
    Untouched h0 { h with toState := lxUnmapRange s (b * 4096) k } := by
  rw [lxUnmapRange_eq (hi.pages ▸ hgrew.committed.good hg) htop]
  exact hgrew.undo hg htop hi

theorem lxMapPages_spec (hg : GoodPages h0.pages) (htop : (b + total) * 4096 ≤ userVaTop)
    (habsent : ∀ n, b ≤ n → n < b + total → h0.pages n = none) (j : ℕ) :
    ∀ (k : ℕ) (h : Heap) (new : List ℕ), k + j = total → MapsWork h.toState →
    Grew h0 h b k (pteFlags flags) new →
    ∃ ok h', lxMapPages (b * 4096) flags j k h = (ok, h') ∧
      (ok = false ∧ Untouched h0 h' ∨
        ok = true ∧ MapsWork h'.toState ∧ ∃ new, Grew h0 h' b total (pteFlags flags) new) := by
  induction j with
  | zero =>
    intro k h new hk hmaps hgrew
    exact ⟨true, h, rfl, .inr ⟨rfl, hmaps, new, by rwa [← hk]⟩⟩
  | succ j ih =>
    intro k h new hk hmaps hgrew
    have hn : (b + k) * 4096 < userVaTop := by omega
    have hpage : h.pages (b + k) = none := by
      rw [hgrew.committed.out _ (by omega)]
      exact habsent _ (by omega) (by omega)
    rw [lxMapPages, addr_eq hn, if_neg (not_not.mpr (frameAt_of_none hpage))]
    obtain ⟨a, s, new', ho, hmaps', ⟨hone, hp, ht⟩ | ⟨hone, hz, hfa, hp, ht⟩⟩ :=
      lxMapOne_spec h hn flags hmaps
    · rw [hone]
      exact ⟨false, _, rfl,
        .inl ⟨rfl, unmapRange_untouched (h := h) hgrew hg hn.le ⟨⟨_, ht⟩, hp, ho⟩⟩⟩
    · rw [hone]
      exact ih (k + 1) _ _ (by omega) hmaps' (hgrew.step ht hz hfa hpage hp ho)

theorem lxMapPages_add (base flags r : ℕ) : ∀ (k i : ℕ) (h : Heap),
    lxMapPages base flags (k + r) i h = match lxMapPages base flags k i h with
      | (false, h) => (false, h)
      | (true, h) => lxMapPages base flags r (i + k) h := by
  intro k
  induction k with
  | zero => exact fun i h => by rw [zero_add]; rfl
  | succ k ih =>
    intro i h
    rw [Nat.add_right_comm, lxMapPages, lxMapPages]
    split_ifs
    · rw [ih, Nat.add_right_comm i 1 k]
      rfl
    · cases lxMapOne h (u64 (base + i * 4096)) flags with
      | mk ok h' =>
        cases ok with
        | false => rfl
        | true =>
          dsimp only
          rw [ih, Nat.add_right_comm i 1 k]
          rfl

/-- The rollback takes all pages before the failure, also those that were there. -/
theorem lxMapPages_false {h' : Heap} {n : ℕ} : ∀ {r i : ℕ} {h : Heap}, GoodPages h.pages →
    MapsWork h.toState → (∀ k < b + i + r, k * 4096 < userVaTop) → b ≤ n → n < b + i →
    lxMapPages (b * 4096) flags r i h = (false, h') → h'.pages n = none := by
  intro r
  induction r with
  | zero => exact fun _ _ _ _ _ hrun => nomatch hrun
  | succ r ih =>
    intro i h hg hmaps htop hbn hni hrun
    have hi := htop (b + i) (by omega)
    have htop' : ∀ k < b + (i + 1) + r, k * 4096 < userVaTop := fun k hk => htop k (by omega)
    rw [lxMapPages, addr_eq hi] at hrun
    split_ifs at hrun
    · exact @ih (i + 1) h hg hmaps htop' hbn (by omega) hrun
    · obtain ⟨a, s, new, -, hmaps', ⟨hone, hp, -⟩ | ⟨hone, hz, hfa, hp, -⟩⟩ :=
        lxMapOne_spec h hi flags hmaps
      · rw [hone] at hrun
        cases hrun
        have hg' : GoodPages s.pages := hp ▸ hg
        have hrange : ∀ k ∈ List.range' b i, k * 4096 < userVaTop := by
          intro k hk
          have := mem_range'_1.mp hk
          exact htop k (by omega)
        show (lxUnmapRange s (b * 4096) i).pages n = none
        rw [lxUnmapRange_eq hg' hi.le, releasePage_foldl _ nodup_range' hg' hrange]
        exact if_pos (mem_range'_1.mpr ⟨hbn, hni⟩)
      · rw [hone] at hrun
        refine @ih (i + 1) _ (hp ▸ hg.updated ?_) hmaps' htop' hbn (by omega) hrun
        rintro x ⟨⟩
        exact ⟨hz, hfa⟩

/-- A page that is there is gone when the loop fails behind it. -/
theorem lxMapPages_gone {h' : Heap} {j r : ℕ} (hg : GoodPages h.pages) (hmaps : MapsWork h.toState)
    (htop : ∀ n < b + (j + 1) + r, n * 4096 < userVaTop) (hthere : h.pages (b + j) ≠ none)
    (hrun : lxMapPages (b * 4096) flags (r + 1) j h = (false, h')) : h'.pages (b + j) = none := by
  have hj := htop (b + j) (by omega)
  have hframe : frameAt h.toState ((b + j) * 4096) ≠ 0 := by
    obtain ⟨x, hx⟩ := Option.ne_none_iff_exists'.mp hthere
    rw [frameAt_of_some hg hj hx]
    exact (hg _ x hx).1
  rw [lxMapPages, addr_eq hj, if_pos hframe] at hrun
  exact lxMapPages_false hg hmaps htop (by omega) (by omega) hrun

/-- The pool after the frames `taken` went to page tables. -/
def tabled (pool : Pool) (taken : List ℕ) : Pool :=
  taken.foldl (fun q a => if q.Offers a then q.take a else q) pool

/-- The pool gives `k` frames one after the other, for pages that `vmm_map_user` is then called
for. -/
def Supplies : ℕ → Pool → List ℕ → List (Bool × List ℕ) → Prop
  | 0, _, _, _ => True
  | _ + 1, _, [], _ => False
  | k + 1, pool, a :: frames, maps =>
    pool.Offers a ∧ Supplies k (tabled (pool.take a) (maps.headD (true, [])).2) frames maps.tail

theorem Supplies.le_length {k : ℕ} : ∀ {pool : Pool} {frames : List ℕ}
    {maps : List (Bool × List ℕ)}, Supplies k pool frames maps → k ≤ frames.length := by
  induction k with
  | zero => exact fun _ => Nat.zero_le _
  | succ k ih =>
    intro pool frames maps h
    cases frames with
    | nil => exact h.elim
    | cons a frames => exact Nat.succ_le_succ (ih h.2)

theorem takeTables_pool (as : List ℕ) (s : State) :
    (takeTables s as).pool = tabled s.pool as := by
  induction as generalizing s with
  | nil => rfl
  | cons a as ih =>
    rw [takeTables, ih, tabled, tabled, foldl_cons]
    split_ifs <;> rfl

theorem mapUser_pool (s : State) {virt : ℕ} (hv : virt < userVaTop) (phys flags : ℕ) :
    (vmmMapUser s virt phys flags).pool = tabled s.pool (mapAnswer s).2 := by
  unfold vmmMapUser mapAnswer
  rw [if_neg (not_le.mpr hv)]
  cases s.env.maps with
  | nil => rfl
  | cons answer maps =>
    obtain ⟨ok, taken⟩ := answer
    have hpool := takeTables_pool taken { s with env := { s.env with maps := maps } }
    cases ok <;> exact hpool

/-- The frame `a` is taken from the pool, and `frames` are the answers that are left. -/
def taken (s : State) (a : ℕ) (frames : List ℕ) : State :=
  { s with pool := s.pool.take a, env := { s.env with frames := frames } }

theorem lxMapOne_offered {a va : ℕ} {frames : List ℕ} (hf : h.env.frames = a :: frames)
    (ha : h.pool.Offers a) : lxMapOne h va flags = (true, { h with
      toState := vmmMapUser (taken h.toState a frames) va a flags
      mem := fill h.mem a 4096 0 }) := by
  simp [lxMapOne, pmmAllocPage, taken, hf, ha, ha.1]

/-- Absent pages are mapped exactly as far as the pool has frames for them. -/
theorem lxMapPages_supplied : ∀ (j i : ℕ) (h : Heap), (b + i + j) * 4096 ≤ userVaTop →
    (∀ n, b + i ≤ n → n < b + i + j → h.pages n = none) →
    ((lxMapPages (b * 4096) flags j i h).1 = true ↔
      Supplies j h.pool h.env.frames h.env.maps) := by
  intro j
  induction j with
  | zero => exact fun i h _ _ => iff_of_true rfl trivial
  | succ j ih =>
    intro i h htop habsent
    have hn : (b + i) * 4096 < userVaTop := by omega
    have hsum : b + (i + 1) + j = b + i + (j + 1) := by omega
    rw [lxMapPages, addr_eq hn,
      if_neg (not_not.mpr (frameAt_of_none (habsent _ le_rfl (by omega))))]
    cases hf : h.env.frames with
    | nil =>
      have hone : lxMapOne h ((b + i) * 4096) flags = (false, h) := by
        simp [lxMapOne, pmmAllocPage, hf]
      rw [hone]
      exact iff_of_false nofun id
    | cons a frames =>
      by_cases ha : h.pool.Offers a
      · rw [lxMapOne_offered hf ha]
        dsimp only
        obtain ⟨new, -, hp, -, he⟩ := mapUser_spec (taken h.toState a frames) hn a flags
        rw [ih (i + 1) _ (hsum ▸ htop) ?_]
        · dsimp only
          rw [mapUser_pool _ hn, he]
          exact (and_iff_right ha).symm
        · intro n h1 h2
          dsimp only
          rw [hp]
          have hold := habsent n (by omega) (by omega)
          split_ifs
          · rw [Vmm.PageMap.map, Nat.mul_div_cancel _ (by norm_num)]
            exact (Function.update_of_ne (by omega) _ _).trans hold
          · exact hold
      · have hone : (lxMapOne h ((b + i) * 4096) flags).1 = false := by
          simp [lxMapOne, pmmAllocPage, hf, ha]
        generalize lxMapOne h ((b + i) * 4096) flags = r at hone
        obtain ⟨ok, h1⟩ := r
        cases hone
        exact iff_of_false nofun fun h => ha h.1

/-- A failed loop changes nothing exactly if there are no frames for the pages before the first one
that is there already. -/
theorem lxMapPages_failed_iff {h' : Heap} {k : ℕ} (hg : GoodPages h0.pages)
    (hmaps : MapsWork h0.toState) (htop : (b + k) * 4096 ≤ userVaTop)
    (hrun : lxMapPages (b * 4096) flags k 0 h0 = (false, h')) :
    Untouched h0 h' ↔ ∀ j < k, h0.pages (b + j) ≠ none → (∀ i < j, h0.pages (b + i) = none) →
      ¬ Supplies j h0.pool h0.env.frames h0.env.maps := by
  have htop' : ∀ j < k, (b + j) * 4096 < userVaTop := fun j hj => by omega
  have hpages : ∀ {j}, (∀ i < j, h0.pages (b + i) = none) → ∀ n, b ≤ n → n < b + j →
      h0.pages n = none := by
    intro j h n h1 h2
    rw [← Nat.add_sub_of_le h1]
    exact h _ (by omega)
  by_cases hall : ∀ j < k, h0.pages (b + j) = none
  · obtain ⟨ok, h1, hloop, ⟨-, hun⟩ | ⟨rfl, -⟩⟩ :=
      lxMapPages_spec hg htop (hpages hall) k 0 h0 [] (zero_add k) hmaps (Grew.empty _ _ _)
    · obtain rfl := (Prod.mk.inj (hloop.symm.trans hrun)).2
      exact iff_of_true hun fun j hj hp => absurd (hall j hj) hp
    · cases hloop.symm.trans hrun
  -- the pages before the first one that is there
  push Not at hall
  obtain ⟨⟨hlt, hpage⟩, hmin⟩ :=
    And.intro (Nat.find_spec hall) fun j => @Nat.find_min _ _ hall j
  generalize Nat.find hall = j at hlt hpage hmin
  have habsent : ∀ i < j, h0.pages (b + i) = none := by
    intro i hi
    by_contra hp
    exact hmin i hi ⟨hi.trans hlt, hp⟩
  have hsupplied := @lxMapPages_supplied b flags j 0 h0 (htop' j hlt).le (hpages habsent)
  obtain ⟨ok, h1, hloop, ⟨rfl, hun⟩ | ⟨rfl, hmaps1, new, hgrew⟩⟩ := @lxMapPages_spec h0 b j flags hg
    (htop' j hlt).le (hpages habsent) j 0 h0 [] (zero_add j) hmaps (Grew.empty _ _ _)
  · obtain ⟨r, rfl⟩ := Nat.exists_eq_add_of_le hlt.le
    rw [lxMapPages_add, hloop] at hrun
    obtain rfl := (Prod.mk.inj hrun).2
    refine iff_of_true hun fun i _ hp hfirst => ?_
    obtain rfl : i = j := by
      rcases Nat.lt_trichotomy i j with hij | hij | hij
      · exact absurd (habsent i hij) hp
      · exact hij
      · exact absurd (hfirst j hij) hpage
    rw [← hsupplied, hloop]
    exact Bool.false_ne_true
  · obtain ⟨r, rfl⟩ : ∃ r, k = j + (r + 1) := ⟨k - j - 1, by omega⟩
    rw [lxMapPages_add, hloop] at hrun
    dsimp only at hrun
    rw [zero_add] at hrun
    have hbelow : ∀ n < b + (j + 1) + r, n * 4096 < userVaTop := fun n hn => by omega
    have hthere : h1.pages (b + j) ≠ none := by rwa [hgrew.committed.out _ (by omega)]
    have hgone := lxMapPages_gone (hgrew.committed.good hg) hmaps1 hbelow hthere hrun
    refine iff_of_false (fun hun => hpage (hun.pages ▸ hgone)) fun h => ?_
    refine h j hlt hpage habsent ?_
    rw [← hsupplied, hloop]

theorem fileLoop_spec (f : MappedFile) (htop : (b + total) * 4096 ≤ userVaTop) (j : ℕ) :
    ∀ (i left : ℕ) (h : Heap) (new : List ℕ), i + j = total → Grew h0 h b total flags new →
    Grew h0 (fileLoop f (b * 4096) j i left h).2 b total flags new := by
  induction j with
  | zero => exact fun i left h new _ hgrew => hgrew
  | succ j ih =>
    intro i left h new hi hgrew
    have hn : (b + i) * 4096 < userVaTop := by omega
    obtain ⟨x, hx, -, hfx⟩ := hgrew.committed.entry (b + i) (by omega) (by omega)
    have hframe : frameAt h.toState ((b + i) * 4096) = x := by
      rw [frameAt, virtToPhysUser_page _ hn, hx]
      exact hfx
    rw [fileLoop, addr_eq hn]
    dsimp only
    have hchunk : (if 4096 < left then 4096 else left) ≤ 4096 := by split_ifs <;> omega
    generalize (if 4096 < left then 4096 else left) = chunk at hchunk
    split_ifs with h1 h2
    · exact hgrew
    · exact hgrew
    · cases f.reads i with
      | none => exact hgrew
      | some bytes =>
        refine ih (i + 1) _ _ new (by omega) ⟨hgrew.committed, hgrew.absent,
          fun y hy hused j hj => ?_, hgrew.heapEnd⟩
        -- the frame of the page was free before, so the write does not meet a frame in use
        have hne : y ≠ x := by
          rintro rfl
          have hfree := (hgrew.committed.took.offers y
            (.inl ⟨b + i, by omega, by omega, _, hx, rfl⟩)).2.2
          rw [hfree] at hused
          cases hused
        rw [Vmm.frameOf_eq] at hy hfx
        exact (if_neg (by omega)).trans (hgrew.kept y (by rwa [Vmm.frameOf_eq]) hused j hj)

end

/-! ### Clear ranges -/

/-- The `npg` pages from `base` on lie in user memory, are absent and in no region. -/
structure Clear (s : State) (base npg : ℕ) : Prop where
  top : base + npg * 4096 ≤ userVaTop
  pages : ∀ n, base / 4096 ≤ n → n < base / 4096 + npg → s.pages n = none
  regions : ∀ i x, base ≤ x → x < base + npg * 4096 → ¬ (s.regions i).Has x

section

variable {s : State} {b npg : ℕ}

section

variable (hc : Clear s (b * 4096) npg)
include hc

theorem Clear.le_top : (b + npg) * 4096 ≤ userVaTop :=
  (add_mul b npg 4096).trans_le hc.top

theorem Clear.absent : ∀ n, b ≤ n → n < b + npg → s.pages n = none := by
  have hpages := hc.pages
  rwa [Nat.mul_div_cancel b (by norm_num)] at hpages

theorem Clear.unmapRegionRange (hpos : 0 < npg) :
    vmUnmapRegionRange s (b * 4096) (npg * 4096) = (false, s) := by
  have htop := hc.top
  have : userVaTop < 2 ^ 64 := by decide
  have hslot : slotAt s.regions (b * 4096) = none := by
    cases hs : slotAt s.regions (b * 4096) with
    | none => rfl
    | some i => exact absurd (slotAt_spec hs) (hc.regions i _ le_rfl (by omega))
  have hcollect : vmRegionCollectCoveringSlots s.regions (b * 4096) (npg * 4096) = none := by
    rw [vmRegionCollectCoveringSlots, u64_of_lt (by omega), if_neg (by omega), if_neg (by omega)]
    obtain ⟨k, hk⟩ : ∃ k, procVmregMax = k + 1 := ⟨2047, by unfold procVmregMax; rfl⟩
    rw [hk, collectLoop, if_pos (by omega), hslot]
  rw [vmUnmapRegionRange, hcollect]

theorem Clear.unmapRange : lxUnmapRange s (b * 4096) npg = s := by
  rw [lxUnmapRange, addrs_eq hc.le_top]
  have hnone : ∀ n ∈ List.range' b npg, s.pages n = none := fun n hn =>
    hc.absent n (mem_range'_1.mp hn).1 (mem_range'_1.mp hn).2
  generalize List.range' b npg = ns at hnone
  induction ns with
  | nil => rfl
  | cons n ns ih =>
    rw [map_cons, foldl_cons, lxUnmapPage,
      if_pos (frameAt_of_none (hnone n mem_cons_self))]
    exact ih fun k hk => hnone k (mem_cons_of_mem _ hk)

end

end

theorem mapEagerly_failed {h h' : Heap} {b npg : ℕ} (hg : GoodPages h.pages)
    (hc : Clear h.toState (b * 4096) npg) (hmaps : MapsWork h.toState) (f : MappedFile)
    (len flags mflags fd : ℕ) {e : Error}
    (hrun : mapEagerly f h (b * 4096) npg len flags mflags fd = (.error e, h')) :
    Untouched h h' := by
  have htop := hc.le_top
  unfold mapEagerly at hrun
  obtain ⟨ok, h1, hloop, ⟨rfl, hun⟩ | ⟨rfl, -, new, hgrew⟩⟩ :=
    lxMapPages_spec hg htop hc.absent npg 0 h [] (zero_add npg) hmaps (Grew.empty h b _)
  · rw [hloop] at hrun
    cases hrun
    exact hun
  · rw [hloop] at hrun
    dsimp only at hrun
    -- the reads change no page, so that all pages are taken back
    have hback : ∀ h2 : Heap, Grew h h2 b npg (pteFlags mflags) new →
        Untouched h { h2 with toState := lxUnmapRange h2.toState (b * 4096) npg } := fun h2 hg2 =>
      unmapRange_untouched hg2 hg htop (Idle.refl _)
    have hfile := fileLoop_spec f htop npg 0 len h1 new (zero_add npg) hgrew
    generalize fileLoop f (b * 4096) npg 0 len h1 = r at hrun hfile
    split_ifs at hrun
    · cases hrun
    · cases hrun
      exact hback h1 hgrew
    · cases hrun
      exact hback h1 hgrew
    · cases hrun
      exact hback h1 hgrew
    · obtain ⟨_ | e', h2⟩ := r
      · cases hrun
        exact hback h2 hfile
      · cases hrun

/-! ### The calls -/

/-- From `p` to `p'` nothing happened to the process but that its page tables took frames. -/
structure Same (p p' : Process) : Prop extends Untouched p.toHeap p'.toHeap where
  next : p'.linuxMmapNext = p.linuxMmapNext

theorem Same.refl (p : Process) : Same p p := ⟨Untouched.refl _, rfl⟩

structure Undisturbed (p : Process) (addr npg flags : ℕ) : Prop where
  clear : addr ≠ 0 → Clear p.toState (addr &&& not64 0xFFF) npg
  cursor : flags &&& lnxMapFixed ≠ 0 ∧ addr &&& not64 0xFFF ≠ 0 ∨ addr &&& not64 0xFFF ≠ 0 ∧
      isRangeFreeForMmapHint p.toState (addr &&& not64 0xFFF) (u64 (npg * 4096)) = true ∨
    p.linuxMmapNext.toNat < u64 (npg * 4096 + 0x10000)

theorem cursorLoop_stay {s : State} {mapLen align next : ℕ} (k : ℕ)
    (h : next < u64 (mapLen + 0x10000)) : cursorLoop s mapLen align k next = (0, next) := by
  cases k with
  | zero => rfl
  | succ k => rw [cursorLoop, if_pos h]

section

variable {p : Process} {addr npg flags : ℕ} (hu : Undisturbed p addr npg flags)
  (hpos : 0 < npg) (hlen : npg * 4096 < 2 ^ 64) (haddr : addr < 2 ^ 64)

include hu hpos hlen haddr

theorem Undisturbed.fixed (hne : addr ≠ 0) : lxUnmapRange (vmUnmapRegionRange p.toState
    (addr &&& not64 0xFFF) (u64 (npg * 4096))).2 (addr &&& not64 0xFFF) npg = p.toState := by
  have hc := hu.clear hne
  have hbase := and_not64_page haddr
  rw [hbase] at hc ⊢
  rw [u64_of_lt hlen, hc.unmapRegionRange hpos]
  exact hc.unmapRange

theorem mmapPlace_same : mmapPlace p addr npg flags = (0, p) ∨ addr ≠ 0 ∧
    mmapPlace p addr npg flags = (addr &&& not64 0xFFF, p) := by
  have hzero : addr = 0 → addr &&& not64 0xFFF = 0 := by
    rintro rfl
    exact Nat.zero_and _
  -- without a place the search stops at once
  have hsearch : ¬ (flags &&& lnxMapFixed ≠ 0 ∧ addr &&& not64 0xFFF ≠ 0) →
      ¬ (addr &&& not64 0xFFF ≠ 0 ∧
        isRangeFreeForMmapHint p.toState (addr &&& not64 0xFFF) (u64 (npg * 4096)) = true) →
      cursorLoop p.toState (u64 (npg * 4096)) (mmapAlign (u64 (npg * 4096))) p.linuxMmapNext.toNat
        p.linuxMmapNext.toNat = (0, p.linuxMmapNext.toNat) := fun h1 h2 => by
    rw [u64_of_lt hlen] at h2 ⊢
    exact cursorLoop_stay _ ((hu.cursor.resolve_left h1).resolve_left (by rwa [u64_of_lt hlen]))
  unfold mmapPlace
  dsimp only
  by_cases hfixed : flags &&& lnxMapFixed ≠ 0 ∧ addr ≠ 0
  · rw [if_pos hfixed, hu.fixed hpos hlen haddr hfixed.2]
    by_cases hb : addr &&& not64 0xFFF = 0
    · rw [if_neg (not_not.mpr hb), hsearch (fun h => h.2 hb) fun h => h.1 hb, UInt64.ofNat_toNat]
      exact .inl rfl
    · rw [if_pos hb]
      exact .inr ⟨hfixed.2, rfl⟩
  · rw [if_neg hfixed]
    have h1 : ¬ (flags &&& lnxMapFixed ≠ 0 ∧ addr &&& not64 0xFFF ≠ 0) :=
      fun h => hfixed ⟨h.1, mt hzero h.2⟩
    by_cases hhint : addr ≠ 0 ∧
        isRangeFreeForMmapHint p.toState (addr &&& not64 0xFFF) (u64 (npg * 4096)) = true
    · rw [if_pos hhint]
      have hb : addr &&& not64 0xFFF ≠ 0 := by
        intro hb
        rw [hb] at hhint
        exact absurd hhint.2 (by simp [isRangeFreeForMmapHint])
      rw [if_pos hb]
      exact .inr ⟨hhint.1, rfl⟩
    · rw [if_neg hhint,
        hsearch h1 fun h => hhint ⟨mt hzero h.1, h.2⟩, UInt64.ofNat_toNat]
      exact .inl rfl

end

theorem lnxMmap_failed {p p' : Process} (hg : GoodPages p.pages) (hmaps : MapsWork p.toState)
    (f : MappedFile) {a1 a2 a3 a4 a5 a6 : UInt64}
    (hu : Undisturbed p a1.toNat ((a2.toNat + 0xFFF) >>> 12) a4.toNat) {e : Error}
    (hrun : lnxMmap p f a1 a2 a3 a4 a5 a6 = (.error e, p')) : Same p p' := by
  unfold lnxMmap at hrun
  dsimp only at hrun
  by_cases h1 : a2.toNat = 0
  · rw [if_pos h1] at hrun
    cases hrun
    exact Same.refl p
  rw [if_neg h1] at hrun
  by_cases h2 : a6.toNat &&& 0xFFF ≠ 0
  · rw [if_pos h2] at hrun
    cases hrun
    exact Same.refl p
  rw [if_neg h2] at hrun
  by_cases h3 : 2 ^ 64 - 1 - 0xFFF < a2.toNat
  · rw [if_pos h3] at hrun
    cases hrun
    exact Same.refl p
  rw [if_neg h3] at hrun
  have hplace := mmapPlace_same hu (by omega) (by omega) a1.toNat_lt
  have hbase := and_not64_page a1.toNat_lt
  rcases hplace with hplace | ⟨hne, hplace⟩
  · rw [hplace] at hrun
    cases hrun
    exact Same.refl p
  have hc := hu.clear hne
  rw [hplace, hbase] at hrun
  rw [hbase] at hc
  by_cases h4 : a1.toNat / 4096 * 4096 = 0
  · rw [if_pos h4] at hrun
    cases hrun
    exact Same.refl p
  rw [if_neg h4] at hrun
  split at hrun
  · cases hs : lxMapSparseAnonPrivate p.toState (a1.toNat / 4096 * 4096)
        (u64 ((a2.toNat + 0xFFF) >>> 12 * 4096)) a3.toNat with
    | none =>
      rw [hs] at hrun
      cases hrun
      exact Same.refl p
    | some s =>
      rw [hs] at hrun
      cases hrun
  · cases hm : mapEagerly f p.toHeap (a1.toNat / 4096 * 4096) ((a2.toNat + 0xFFF) >>> 12) a2.toNat
        a4.toNat (mmapFlags a3.toNat) (u32 a5.toNat) with
    | mk res h' =>
      rw [hm] at hrun
      cases res with
      | ok _ => cases hrun
      | error e' =>
        cases hrun
        exact ⟨mapEagerly_failed hg hc hmaps f _ _ _ _ hm, rfl⟩

def Process.firstPage (p : Process) : ℕ := (p.heapEnd.toNat + 4095) / 4096

/-- The page `k` pages behind the heap is the first one there that is present, and there are frames
for all pages before it. -/
structure Process.Meets (p : Process) (k : ℕ) : Prop where
  there : p.pages (p.firstPage + k) ≠ none
  first : ∀ i < k, p.pages (p.firstPage + i) = none
  frames : Supplies k p.pool p.env.frames p.env.maps

theorem lnxBrk_failed {p : Process} (hg : GoodPages p.pages) (hmaps : MapsWork p.toState)
    (hend : p.heapEnd.toNat ≤ userVaTop) {a1 : UInt64} (hfail : (lnxBrk p a1).1 ≠ a1.toNat) :
    Same p (lnxBrk p a1).2 ↔ (p.heapStart.toNat ≤ a1.toNat → a1.toNat ≤ userVaTop →
      ∀ k, (p.firstPage + k) * 4096 < a1.toNat → ¬ p.Meets k) := by
  have hu : userVaTop = 2 ^ 47 := by decide
  unfold lnxBrk at hfail ⊢
  dsimp only at hfail ⊢
  split_ifs at hfail ⊢ with h1 h2 h3 h4
  · exact iff_of_true (Same.refl p) fun _ _ k hk => by omega
  · exact iff_of_true (Same.refl p) fun h h' => by omega
  · have hold := @alignUp_two_pow p.heapEnd.toNat 12 (by norm_num) (by omega)
    have hnew := @alignUp_two_pow a1.toNat 12 (by norm_num) (by omega)
    norm_num at hold hnew
    have hb : (p.heapEnd.toNat + 4095) / 4096 = p.firstPage := rfl
    rw [hold, hnew, hb] at h3 hfail ⊢
    rw [← Nat.sub_mul, Nat.mul_div_cancel _ (by norm_num)] at hfail ⊢
    obtain ⟨k, hk⟩ := Nat.exists_eq_add_of_le (Nat.le_of_mul_le_mul_right h3.le (by norm_num))
    have htop : (p.firstPage + k) * 4096 ≤ userVaTop := by omega
    have hrange : ∀ j, (p.firstPage + j) * 4096 < a1.toNat ↔ j < k := by
      intro j
      omega
    rw [hk, Nat.add_sub_cancel_left] at hfail ⊢
    cases hloop : lxMapPages (p.firstPage * 4096) sbrkFlags k 0 p.toHeap with
    | mk ok h' =>
      cases ok with
      | true =>
        rw [hloop] at hfail
        exact absurd rfl hfail
      | false =>
        have hiff := lxMapPages_failed_iff hg hmaps htop hloop
        refine Iff.trans ⟨fun h => h.toUntouched, fun h => ⟨h, rfl⟩⟩ (hiff.trans ⟨?_, ?_⟩)
        · exact fun h _ _ j hj hm => h j ((hrange j).mp hj) hm.there hm.first hm.frames
        · exact fun h j hj hp hfirst hs =>
            h (by omega) (by omega) j ((hrange j).mpr hj) ⟨hp, hfirst, hs⟩
  · exact absurd rfl hfail
  · exact absurd rfl hfail

def fresh (frames : List ℕ) : Process where
  regions _ := Region.cleared
  pages _ := none
  tables := []
  fds _ := .none
  objects _ := SharedObject.reset
  pool := ⟨fun a => frames.contains a, fun _ => 0, fun _ => 0⟩
  env := ⟨frames, [], []⟩
  heapEnd := 0x10000000
  mem _ := 1
  heapStart := 0x10000000
  linuxMmapNext := 0x700000000000

/-- A process with one page at the address `n * 4096`. -/
def fresh.withPage (frames : List ℕ) (n : ℕ) : Process :=
  { fresh frames with
    pages := fun k => if k = n then some (0x5000, pteFlags (mmapFlags 3)) else none }

theorem withPage_none {frames : List ℕ} {k n : ℕ} (h : k ≠ n) :
    (fresh.withPage frames n).pages k = none := if_neg h

theorem goodPages_withPage (frames : List ℕ) (n : ℕ) :
    GoodPages (fresh.withPage frames n).pages := by
  intro k x hx
  obtain ⟨-, rfl⟩ : k = n ∧ (0x5000, pteFlags (mmapFlags 3)) = x := by
    simpa [fresh.withPage, ite_eq_iff] using hx
  decide

def mappedAhead : Process :=
  (lnxMmap (fresh [0x5000]) ⟨true, true, fun _ => none⟩ 0x10000000 0x1000 3 0x32 0 0).2

end TaterTOS.Linux
