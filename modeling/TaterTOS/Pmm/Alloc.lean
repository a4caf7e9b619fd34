import TaterTOS.Pmm.Free

/-!
# Allocation with splitting
-/

namespace TaterTOS.Pmm

open Lib Finset

/-! ### Orders -/

theorem orderForPagesLoop_spec (count : ℕ) : ∀ (n k : ℕ), n + k < 64 →
    (k = 0 ∨ 2 ^ (k - 1) < count) →
    ∃ j, orderForPagesLoop count n (2 ^ k) k = (2 ^ j, j) ∧ k ≤ j ∧ j ≤ n + k ∧
      (j = 0 ∨ 2 ^ (j - 1) < count) ∧ (2 ^ j < count → j = n + k)
  | 0, k, _, hmin => ⟨k, rfl, le_rfl, by omega, hmin, fun _ => by omega⟩
  | n + 1, k, hn, hmin => by
    unfold orderForPagesLoop
    by_cases hlt : 2 ^ k < count
    · have hsh : u64 (2 ^ k <<< 1) = 2 ^ (k + 1) := by
        rw [Nat.shiftLeft_eq, ← pow_add, u64_of_lt (Nat.pow_lt_pow_right (by norm_num) (by omega))]
      rw [if_pos hlt, hsh]
      obtain ⟨j, hj, h1, h2, h3, h4⟩ := orderForPagesLoop_spec count n (k + 1) (by omega)
        (Or.inr (by simpa using hlt))
      exact ⟨j, hj, by omega, by omega, h3, fun h => by have := h4 h; omega⟩
    · rw [if_neg hlt]
      exact ⟨k, rfl, le_rfl, by omega, hmin, fun h => absurd h hlt⟩

theorem orderForPages_eq {m count : ℕ} (hm : m < 64) :
    orderForPages m count = if count ≤ 2 ^ m then Nat.clog 2 count else 0xFF := by
  obtain ⟨j, hj, -, hjm, hmin, hlast⟩ := orderForPagesLoop_spec count m 0 (by omega) (Or.inl rfl)
  rw [pow_zero] at hj
  unfold orderForPages
  rw [hj]
  by_cases hlt : 2 ^ j < count
  · obtain rfl : j = m := by simpa using hlast hlt
    rw [if_pos hlt, if_neg (not_le.mpr hlt)]
  · have hle : count ≤ 2 ^ j := not_lt.mp hlt
    have hcm : count ≤ 2 ^ m := hle.trans (Nat.pow_le_pow_right (by norm_num) (by omega))
    rw [if_neg hlt, if_pos hcm]
    refine le_antisymm ?_ (Nat.clog_le_of_le_pow hle)
    rcases hmin with rfl | hmin
    · exact Nat.zero_le _
    · have := (Nat.lt_clog_iff_pow_lt (by norm_num)).mpr hmin
      omega

/-! ### The test on a block -/

section

variable {a j k lo hi : ℕ}

def Fits (a j k lo hi x : ℕ) : Prop :=
  2 ^ k ∣ x ∧ a ≤ x ∧ lo ≤ x ∧ x + 2 ^ k ≤ a + 2 ^ j ∧ x + 2 ^ k ≤ hi

theorem blockCanSatisfy_iff (hj : j < 53) (hk : k < 53) (ha : a + 2 ^ j ≤ 2 ^ 52) :
    blockCanSatisfy a j k lo hi = true ↔ ∃ x, Fits a j k lo hi x := by
  have hpos : 0 < 2 ^ k := by positivity
  unfold blockCanSatisfy
  simp only [orderPages_eq (show j < 64 by omega), orderPages_eq (show k < 64 by omega)]
  rw [u64_of_lt (show a + 2 ^ j < 2 ^ 64 by omega)]
  set S := if a < lo then lo else a with hS
  set E := if hi < a + 2 ^ j then hi else a + 2 ^ j with hE
  have hE' : E ≤ 2 ^ 52 := by split_ifs at hE <;> omega
  by_cases hc : E ≤ S ∨ E - S < 2 ^ k
  · rw [if_pos hc]
    refine iff_of_false (by simp) ?_
    rintro ⟨x, -, h1, h2, h3, h4⟩
    split_ifs at hS hE <;> omega
  · rw [if_neg hc, decide_eq_true_eq]
    have hv : S + 2 ^ k - 1 < 2 ^ 64 := by omega
    obtain ⟨hle, hlt, hd⟩ := alignUp_spec (show k ≤ 64 by omega) hv
    rw [u64_of_lt (by omega)]
    constructor
    · intro h
      exact ⟨_, hd, by split_ifs at hS <;> omega, by split_ifs at hS <;> omega,
        by split_ifs at hE <;> omega, by split_ifs at hE <;> omega⟩
    · rintro ⟨x, hx, h1, h2, h3, h4⟩
      have := (alignUp_le_iff (show k ≤ 64 by omega) hv hx).mpr (by split_ifs at hS <;> omega)
      split_ifs at hE <;> omega

theorem Fits.half {x : ℕ} (h : Fits a (j + 1) k lo hi x) (hkj : k ≤ j) (ha : 2 ^ (j + 1) ∣ a) :
    Fits a j k lo hi x ∨ Fits (a + 2 ^ j) j k lo hi x := by
  obtain ⟨hd, h1, h2, h3, h4⟩ := h
  have hda : 2 ^ j ∣ a := dvd_of_order_le (Nat.le_succ j) ha
  rcases nested_or_disjoint hkj hd (hda.add dvd_rfl) with h | h | h
  · exact Or.inl ⟨hd, h1, h2, h, h4⟩
  · omega
  · exact Or.inr ⟨hd, h.1, h2, by omega, h4⟩

end

/-! ### The split loop -/

variable {s s' : State} {a b c d j k n lo hi order : ℕ}

def Halves (b j c d : ℕ) : Prop := c = b ∧ d = b + 2 ^ j ∨ c = b + 2 ^ j ∧ d = b

namespace Halves

section

variable (h : Halves b j c d)
include h

theorem dvd (hd : 2 ^ (j + 1) ∣ b) : 2 ^ j ∣ c ∧ 2 ^ j ∣ d := by
  have hb : 2 ^ j ∣ b := dvd_of_order_le (Nat.le_succ j) hd
  rcases h with ⟨rfl, rfl⟩ | ⟨rfl, rfl⟩
  · exact ⟨hb, hb.add dvd_rfl⟩
  · exact ⟨hb.add dvd_rfl, hb⟩

theorem buddy (hd : 2 ^ (j + 1) ∣ b) : d ^^^ 2 ^ j = c := by
  have hb : b ^^^ 2 ^ j = b + 2 ^ j := by
    rcases buddy_cases (dvd_of_order_le (Nat.le_succ j) hd) with ⟨-, h⟩ | ⟨h1, h2⟩
    · exact h
    · have := add_two_pow_le h2 hd (by omega)
      omega
  rcases h with ⟨rfl, rfl⟩ | ⟨rfl, rfl⟩
  · rw [← hb, buddy_buddy]
  · exact hb

theorem sdiff :
    block b (j + 1) \ block d j = block c j := by
  ext p
  simp only [mem_sdiff, mem_Ico]
  rcases h with ⟨rfl, rfl⟩ | ⟨rfl, rfl⟩ <;> omega

theorem subset : block c j ⊆ block b (j + 1) :=
  h.sdiff ▸ Finset.sdiff_subset

theorem symm : Halves b j d c := by
  rcases h with ⟨rfl, rfl⟩ | ⟨rfl, rfl⟩
  · exact Or.inr ⟨rfl, rfl⟩
  · exact Or.inl ⟨rfl, rfl⟩

theorem le (hle : b + 2 ^ (j + 1) ≤ n) : c + 2 ^ j ≤ n := by
  rw [pow_succ] at hle
  rcases h with ⟨rfl, rfl⟩ | ⟨rfl, rfl⟩ <;> omega

end

end Halves

theorem InvOff.split (h : InvOff s (block b (j + 1)) (2 ^ (j + 1))) (hj : j < s.maxOrder)
    (hd : 2 ^ (j + 1) ∣ b) (hle : b + 2 ^ (j + 1) ≤ s.totalPages) (hcd : Halves b j c d) (m : ℕ) :
    InvOff (insertFreeBlock (setBlockMeta s c j m) d j) (block c j) (2 ^ j) := by
  have hj6 := h.order_lt hj.le
  have h' : InvOff (setBlockMeta s c j m) (block b (j + 1)) (2 ^ j + 2 ^ j) := by
    rw [← two_mul, ← pow_succ']
    exact h.scratch hj6 hcd.subset m
  rw [← hcd.sdiff]
  refine h'.insert hj.le (hcd.dvd hd).2 (hcd.symm.le hle) hcd.symm.subset fun _ _ hn => absurd ?_ hn
  -- the buddy is the half in hand
  rw [hcd.buddy hd]
  exact hcd.subset (mem_block c j)

/-- What the split loop ends with: a block of order `k` in hand, inside the window and inside the
block `(b, j)` it began with; the rest of that block is free. -/
structure Split (s : State) (b j k lo hi : ℕ) (s' : State) (b' : ℕ) : Prop where
  same : SameGeometry s s'
  inv : InvOff s' (Ico b' (b' + 2 ^ k)) (2 ^ k)
  fits : Fits b j k lo hi b'
  used : s'.usedPages = s.usedPages
  out : ∀ p ∉ Ico b (b + 2 ^ j), s'.pageMeta p = s.pageMeta p
  rest : ∀ p ∈ Ico b (b + 2 ^ j), p ∉ Ico b' (b' + 2 ^ k) → PageIs s' .free p

theorem SameGeometry.refl (s : State) : SameGeometry s s := ⟨rfl, rfl, rfl, rfl, rfl⟩

theorem sameGeometry_split (s : State) (c d j m : ℕ) :
    SameGeometry s (insertFreeBlock (setBlockMeta s c j m) d j) := ⟨rfl, rfl, rfl, rfl, rfl⟩

theorem split_of_notMem (hj : j < 64) (hcd : Halves b j c d) {p : ℕ}
    (hp : p ∉ block b (j + 1)) (m : ℕ) :
    (insertFreeBlock (setBlockMeta s c j m) d j).pageMeta p = s.pageMeta p := by
  rw [insertFreeBlock_of_notMem hj fun h => hp (hcd.symm.subset h),
    setBlockMeta_of_notMem s m hj fun h => hp (hcd.subset h)]

theorem Split.step (hj6 : j < 64) (hd : 2 ^ (j + 1) ∣ b)
    (hle : b + 2 ^ (j + 1) ≤ s.totalPages) (hcd : Halves b j c d) {m : ℕ}
    (h : Split (insertFreeBlock (setBlockMeta s c j m) d j) c j k lo hi s' a) :
    Split s b (j + 1) k lo hi s' a := by
  have hsub := hcd.subset
  obtain ⟨hda, h1, h2, h3, h4⟩ := h.fits
  have hfit : Fits b (j + 1) k lo hi a := by
    refine ⟨hda, ?_, h2, ?_, h4⟩ <;> rcases hcd with ⟨rfl, rfl⟩ | ⟨rfl, rfl⟩ <;> omega
  refine ⟨(sameGeometry_split s c d j m).trans h.same, h.inv, hfit, h.used, fun p hp => ?_,
    fun p hp hpa => ?_⟩
  · rw [h.out p fun hpc => hp (hsub hpc), split_of_notMem hj6 hcd hp]
  · by_cases hpc : p ∈ block c j
    · exact h.rest p hpc hpa
    · -- the page lies in the half that was linked
      have hpd : p ∈ block d j := by
        by_contra hn
        exact hpc (hcd.sdiff ▸ mem_sdiff.mpr ⟨hp, hn⟩)
      have hb : BlockAt (insertFreeBlock (setBlockMeta s c j m) d j) .free d j :=
        blockAt_insertFreeBlock hj6 (hcd.dvd hd).2 (hcd.symm.le hle)
      refine ⟨d, j, hb.congr h.same.total fun q hq hq' => h.out q fun hqc => ?_, mem_Ico.mp hpd⟩
      change q ∈ block c j at hqc
      rw [← hcd.sdiff, mem_sdiff] at hqc
      exact hqc.2 (mem_Ico.mpr ⟨hq, hq'⟩)

theorem splitLoop_spec : ∀ (n : ℕ) {s : State} {b : ℕ}, k + n ≤ s.maxOrder →
    InvOff s (block b (k + n)) (2 ^ (k + n)) → 2 ^ (k + n) ∣ b →
    b + 2 ^ (k + n) ≤ s.totalPages → (∃ x, Fits b (k + n) k lo hi x) →
    ∃ s' b', splitLoop order k lo hi n s b = .done s' b' ∧ Split s b (k + n) k lo hi s' b'
  | 0, s, b, hk, h, hd, hle, hx => by
    obtain ⟨x, hdx, h1, h2, h3, h4⟩ := hx
    rw [Nat.add_zero] at *
    obtain rfl : x = b := by omega
    exact ⟨s, x, rfl, SameGeometry.refl s, h, ⟨hd, le_rfl, h2, le_rfl, h4⟩, rfl, fun _ _ => rfl,
      fun p hp hp' => absurd hp hp'⟩
  | n + 1, s, b, hk, h, hd, hle, hx => by
    obtain ⟨x, hx⟩ := hx
    rw [← Nat.add_assoc] at *
    have hmax := h.geometry.max_lt
    have htot := h.geometry.total_le
    have hj6 : k + n < 64 := by omega
    have hj : k + n < s.maxOrder := by omega
    have hright : u64 (b + orderPages (k + n)) = b + 2 ^ (k + n) := by
      rw [orderPages_eq hj6, u64_of_lt]
      rw [pow_succ] at hle
      omega
    -- a half in which the target fits becomes the block in hand
    have step : ∀ {c d m}, Halves b (k + n) c d → (∃ x, Fits c (k + n) k lo hi x) →
        ∃ s' b', splitLoop order k lo hi n
        (insertFreeBlock (setBlockMeta s c (k + n) m) d (k + n)) c =
          .done s' b' ∧ Split s b (k + n + 1) k lo hi s' b' := by
      intro c d m hcd hfit
      obtain ⟨s', b', hs, hsp⟩ := splitLoop_spec n
        (s := insertFreeBlock (setBlockMeta s c (k + n) m) d (k + n)) hj.le
        (h.split hj hd hle hcd m) (hcd.dvd hd).1 (hcd.le hle) hfit
      exact ⟨s', b', hs, hsp.step hj6 hd hle hcd⟩
    have hcan : ∀ {c d}, Halves b (k + n) c d →
        (blockCanSatisfy c (k + n) k lo hi = true ↔ ∃ x, Fits c (k + n) k lo hi x) :=
      fun hcd => blockCanSatisfy_iff (by omega) (by omega) ((hcd.le hle).trans htot)
    have hL : Halves b (k + n) b (b + 2 ^ (k + n)) := Or.inl ⟨rfl, rfl⟩
    have hR : Halves b (k + n) (b + 2 ^ (k + n)) b := Or.inr ⟨rfl, rfl⟩
    simp only [splitLoop, hright]
    by_cases hleft : blockCanSatisfy b (k + n) k lo hi = true
    · simp only [hleft, Bool.not_true, Bool.false_and, Bool.false_eq_true, if_false, if_true]
      exact step hL ((hcan hL).mp hleft)
    · have hfr : ∃ x, Fits (b + 2 ^ (k + n)) (k + n) k lo hi x := by
        rcases hx.half (Nat.le_add_right k n) hd with hx | hx
        · exact absurd ((hcan hL).mpr ⟨x, hx⟩) hleft
        · exact ⟨x, hx⟩
      rw [Bool.not_eq_true] at hleft
      simp only [hleft, (hcan hR).mpr hfr, Bool.not_true, Bool.and_false, Bool.false_eq_true,
        if_false]
      exact step hR hfr

/-! ### Taking a block -/

structure Taken (s s' : State) (I : Finset ℕ) : Prop where
  same : SameGeometry s s'
  was : ∀ p ∈ I, PageIs s .free p
  now : ∀ p ∈ I, PageIs s' .used p
  other : ∀ p ∉ I, ∀ t, PageIs s' t p ↔ PageIs s t p

theorem splitBlock_spec (h : Inv s) (hk : k ≤ order) (ho : order ≤ s.maxOrder) {q : ℕ}
    (hf : findFree s order (blockCanSatisfy · order k lo hi) = some (some (q, a))) :
    ∃ s' b, splitBlock s q a order k lo hi = .done s' b ∧ BlockAt s .free a order ∧
      InvOff (unlink s order q a) (block a order) (2 ^ order) ∧
      Split (unlink s order q a) a order k lo hi s' b := by
  rcases h.findFree_spec ho (blockCanSatisfy · order k lo hi) with ⟨hw, -⟩ |
    ⟨l1, c, l2, hc, hl, hok, hw⟩
  · rw [hw] at hf
    simp at hf
  · obtain ⟨rfl, rfl⟩ : l1.getLast?.getD invalidPage = q ∧ c = a := by
      simpa using hw.symm.trans hf
    obtain ⟨hc1, hc2, hc3⟩ := (hl c).mp (by simp)
    obtain ⟨hb, -⟩ := h.blockAt_of_head (t := .free) hc1 hc2 (h.order_lt ho) hc3
    have hmax := h.geometry.max_lt
    have htake := h.take ho hc hl
    rw [Nat.zero_add] at htake
    obtain ⟨n, rfl⟩ := Nat.exists_eq_add_of_le hk
    have hfit := (blockCanSatisfy_iff (by omega) (by omega)
      (hb.le.trans h.geometry.total_le)).mp hok
    set s1 := unlink s (k + n) (l1.getLast?.getD invalidPage) c
    obtain ⟨s', b, hs, hsp⟩ := @splitLoop_spec k lo hi (k + n) n s1 c ho htake hb.dvd hb.le hfit
    refine ⟨s', b, ?_, hb, htake, hsp⟩
    unfold splitBlock
    rw [Nat.add_sub_cancel_left, hs]

theorem takeBlock_spec (h : Inv s) {q : ℕ} (hb : BlockAt s .free a order)
    (h1 : InvOff (unlink s order q a) (block a order) (2 ^ order))
    (hsp : Split (unlink s order q a) a order k lo hi s' b) (hk : k < 64) :
    ∃ s2, takeBlock k (.done s' b) = (b * pageSize, s2) ∧ Inv s2 ∧
      Taken s s2 (block b k) := by
  obtain ⟨hd, hab, -, hbe, -⟩ := hsp.fits
  have htot := h.geometry.total_le
  have hle : b + 2 ^ k ≤ s'.totalPages := by
    rw [hsp.same.total]
    exact hbe.trans hb.le
  have hu := hsp.inv.used
  have hts : s'.totalPages = s.totalPages := hsp.same.total
  have hused : u64 (s'.usedPages + orderPages k) = s'.usedPages + 2 ^ k := by
    rw [orderPages_eq hk, u64_of_lt (by omega)]
  have hphys : u64 (b * pageSize) = b * pageSize := by
    unfold pageSize
    exact u64_of_lt (by omega)
  have hcl := hsp.inv.close hk hd hle
  set s2 : State :=
    { setBlockMeta s' b k (metaMakeUsed k) with usedPages := s'.usedPages + 2 ^ k } with hs2
  have ht2 : s2.totalPages = s'.totalPages := rfl
  have hout : ∀ p ∉ block b k, s2.pageMeta p = s'.pageMeta p := fun p hp =>
    setBlockMeta_of_notMem s' (metaMakeUsed k) hk hp
  have hbu : BlockAt s2 .used b k :=
    (blockAt_setBlockMeta s' .used hk hd hle (by simp)).congr rfl fun _ _ _ => rfl
  refine ⟨s2, ?_, hcl, ?_, fun p hp => ?_, fun p hp => ?_, fun p hp => ?_⟩
  · simp only [takeBlock, hphys]
    rw [← hused] at hs2
    rw [hs2]
    rfl
  · have hul : SameGeometry s (unlink s order q a) := ⟨rfl, rfl, rfl, rfl, rfl⟩
    have hmark : SameGeometry s' s2 := ⟨rfl, rfl, rfl, rfl, rfl⟩
    exact (hul.trans hsp.same).trans hmark
  · rw [mem_Ico] at hp
    exact ⟨a, order, hb, by omega, by omega⟩
  · exact ⟨b, k, hbu, mem_Ico.mp hp⟩
  · refine h.pageIs_iff (ht2.trans hts) fun t hpt => ?_
    refine hsp.inv.pageIs_of_congr ht2 hout hp ?_
    by_cases hpa : p ∈ block a order
    · -- a page of the block that was taken apart was free and still is
      obtain rfl := hpt.unique ⟨a, order, hb, mem_Ico.mp hpa⟩
      exact hsp.rest p hpa hp
    · exact h1.pageIs_of_congr hts hsp.out hpa (hpt.congr_meta rfl rfl)

structure Allocated (s : State) (k lo hi : ℕ) (s' : State) (b : ℕ) : Prop where
  inv : Inv s'
  dvd : 2 ^ k ∣ b
  lo_le : lo ≤ b
  le_hi : b + 2 ^ k ≤ hi
  taken : Taken s s' (Ico b (b + 2 ^ k))

theorem allocOrderLoop_spec (h : Inv s) : ∀ (n order : ℕ), order + n = s.maxOrder + 1 → k ≤ order →
    (∃ b s', allocOrderLoop s k lo hi n order = some (b * pageSize, s') ∧
      Allocated s k lo hi s' b) ∨
    allocOrderLoop s k lo hi n order = some (0, s) ∧ ∀ j, order ≤ j → j ≤ s.maxOrder →
      ∀ a, BlockAt s .free a j → ¬ ∃ x, Fits a j k lo hi x
  | 0, order, hn, _ => Or.inr ⟨rfl, fun j h1 h2 => by omega⟩
  | n + 1, order, hn, hk => by
    have ho : order ≤ s.maxOrder := by omega
    have hmax := h.geometry.max_lt
    unfold allocOrderLoop
    rcases h.findFree_spec ho (blockCanSatisfy · order k lo hi) with ⟨hw, hall⟩ |
      ⟨l1, a, l2, -, -, -, hw⟩
    · rw [hw]
      rcases allocOrderLoop_spec h n (order + 1) (by omega) (by omega) with hr | ⟨hr, hno⟩
      · exact Or.inl hr
      · refine Or.inr ⟨hr, fun j h1 h2 a hb hfit => ?_⟩
        rcases Nat.eq_or_lt_of_le h1 with rfl | hlt
        · have hf := hall a hb.start_lt (notMem_empty a) hb.head
          rw [(blockCanSatisfy_iff (by omega) (by omega)
            (hb.le.trans h.geometry.total_le)).mpr hfit] at hf
          exact absurd hf (by simp)
        · exact hno j hlt h2 a hb hfit
    · obtain ⟨s', b, hs, hb, h1, hsp⟩ := splitBlock_spec h hk ho hw
      obtain ⟨s2, ht, hi2, htk⟩ := takeBlock_spec h hb h1 hsp (by omega)
      obtain ⟨hd, -, hlo, -, hhi⟩ := hsp.fits
      refine Or.inl ⟨b, s2, ?_, hi2, hd, hlo, hhi, htk⟩
      simp only [hw, hs, ht]

/-! ### Completeness -/

def FreeRun (s : State) (k x : ℕ) : Prop := 2 ^ k ∣ x ∧ ∀ p ∈ Ico x (x + 2 ^ k), PageIs s .free p

/-- No free block that meets a free run is smaller than it: its buddy would be in the run, too,
and the two would have been merged. -/
theorem Inv.order_le_of_run (h : Inv s) (hk : k ≤ s.maxOrder) {x : ℕ} (hx : FreeRun s k x) :
    ∀ j a p, BlockAt s .free a j → a ≤ p → p < a + 2 ^ j → p ∈ block x k → k ≤ j := by
  intro j
  induction j using Nat.strong_induction_on with
  | _ j ih =>
    intro a p hb hp hp' hpx
    by_contra hjk
    rw [mem_Ico] at hpx
    have hj := hb.dvd
    -- the parent `(m, j + 1)` of the block lies inside the run
    obtain ⟨m, hm, hma, hmb⟩ : ∃ m, 2 ^ (j + 1) ∣ m ∧ (m = a ∨ m + 2 ^ j = a) ∧
        (m = a ^^^ 2 ^ j ∨ m + 2 ^ j = a ^^^ 2 ^ j) := by
      rcases buddy_cases hj with ⟨h1, h2⟩ | ⟨h1, h2⟩
      · exact ⟨a, h1, Or.inl rfl, Or.inr h2.symm⟩
      · exact ⟨_, h2, Or.inr h1, Or.inl rfl⟩
    have hmx : x ≤ m ∧ m + 2 ^ (j + 1) ≤ x + 2 ^ k := by
      rcases nested_or_disjoint (show j + 1 ≤ k by omega) hm hx.1 with h' | h' | h' <;> omega
    have hbx : a ^^^ 2 ^ j ∈ block x k := mem_Ico.mpr (by omega)
    obtain ⟨a', j', hb', h1, h2⟩ := hx.2 _ hbx
    have hjj : j ≤ j' := by
      by_contra hlt
      exact absurd (ih j' (by omega) a' _ hb' h1 h2 hbx) (by omega)
    rcases Nat.eq_or_lt_of_le hjj with rfl | hlt
    · -- two free buddies
      have ha' : a ^^^ 2 ^ j = a' := by
        rcases nested_or_disjoint le_rfl (dvd_buddy hj) hb'.dvd with h' | h' | h' <;> omega
      exact h.buddies j (by omega) a hb.start_lt (notMem_empty a) hb.head (ha' ▸ hb'.start_lt)
        (notMem_empty _) (ha' ▸ hb'.head)
    · -- the larger block around the buddy holds this block as well
      have hin : a' ≤ a ∧ a < a' + 2 ^ j' := by
        rcases nested_or_disjoint hlt hm hb'.dvd with h' | h' | h' <;> omega
      have := (hb.unique hb' le_rfl (by omega) hin.1 hin.2).2.2
      omega

/-- **Maximal coalescing.** A free aligned run lies inside one free block. -/
theorem Inv.exists_block (h : Inv s) (hk : k ≤ s.maxOrder) {x : ℕ} (hx : FreeRun s k x) :
    ∃ a j, k ≤ j ∧ BlockAt s .free a j ∧ a ≤ x ∧ x + 2 ^ k ≤ a + 2 ^ j := by
  have hpos : 0 < 2 ^ k := by positivity
  have hxx := mem_block x k
  obtain ⟨a, j, hb, h1, h2⟩ := hx.2 x hxx
  have hkj := h.order_le_of_run hk hx j a x hb h1 h2 hxx
  refine ⟨a, j, hkj, hb, h1, ?_⟩
  rcases nested_or_disjoint hkj hx.1 hb.dvd with h' | h' | h' <;> omega

/-- **The allocation** is sound and complete for the window `[windowMin, windowMax)`. -/
theorem allocPagesRangeLocked_spec (h : Inv s) {count : ℕ} (hc : count ≠ 0) (minPhys maxPhys : ℕ) :
    (∃ b s', allocPagesRangeLocked s count minPhys maxPhys = some (b * pageSize, s') ∧
      Allocated s (Nat.clog 2 count) (windowMin minPhys) (windowMax s.totalPages maxPhys) s' b) ∨
    allocPagesRangeLocked s count minPhys maxPhys = some (0, s) ∧
      ∀ x, FreeRun s (Nat.clog 2 count) x → windowMin minPhys ≤ x →
        windowMax s.totalPages maxPhys < x + 2 ^ Nat.clog 2 count := by
  set k := Nat.clog 2 count with hk
  have hpos : 0 < 2 ^ k := by positivity
  have hmax := h.geometry.max_lt
  unfold allocPagesRangeLocked
  by_cases h0 : s.totalPages = 0
  · rw [if_pos (Or.inr h0)]
    refine Or.inr ⟨rfl, fun x hx _ => ?_⟩
    have := (hx.2 x (mem_block x k)).lt
    omega
  rw [if_neg (by simp [hc, h0])]
  by_cases hw : windowMax s.totalPages maxPhys ≤ windowMin minPhys
  · simp only [if_pos hw]
    exact Or.inr ⟨trivial, fun x _ hlo => by omega⟩
  simp only [if_neg hw, orderForPages_eq (show s.maxOrder < 64 by omega)]
  by_cases hcm : count ≤ 2 ^ s.maxOrder
  · have hkm : k ≤ s.maxOrder := Nat.clog_le_of_le_pow hcm
    rw [if_pos hcm, if_neg (by omega), if_neg (h.geometry.bound h0)]
    rcases @allocOrderLoop_spec s k (windowMin minPhys) (windowMax s.totalPages maxPhys) h
      (s.maxOrder + 1 - k) k (by omega) le_rfl with hr | ⟨hr, hno⟩
    · exact Or.inl hr
    · refine Or.inr ⟨hr, fun x hx hlo => ?_⟩
      obtain ⟨a, j, hkj, hb, h1, h2⟩ := h.exists_block hkm hx
      by_contra hhi
      exact hno j hkj (h.order_le hb) a hb ⟨x, hx.1, h1, hlo, h2, by omega⟩
  · rw [if_neg hcm]
    refine Or.inr ⟨rfl, fun x hx _ => ?_⟩
    -- a run of that order is longer than the memory
    have hlt := h.geometry.lt_max
    have hmk : s.maxOrder < k := (Nat.lt_clog_iff_pow_lt (by norm_num)).mpr (not_le.mp hcm)
    have := Nat.pow_le_pow_right (show 0 < 2 by norm_num) (show s.maxOrder + 1 ≤ k from hmk)
    have := (hx.2 (x + 2 ^ k - 1) (mem_Ico.mpr (by omega))).lt
    omega

end TaterTOS.Pmm
