import TaterTOS.Pmm.Free
import TaterTOS.Pmm.Guards

/-!
# Releasing memory at boot
-/

namespace TaterTOS.Pmm

open Lib Finset

variable {s s' : State} {a e k p : ℕ}

theorem Freed.refl (s : State) : Freed s s ∅ :=
  ⟨⟨rfl, rfl, rfl, rfl, rfl⟩, by simp, by simp⟩

theorem Freed.trans {s1 s2 s3 : State} {I J : Set ℕ} (h1 : Freed s1 s2 I) (h2 : Freed s2 s3 J) :
    Freed s1 s3 (I ∪ J) := by
  refine ⟨h1.same.trans h2.same, fun p => ?_, fun t ht p => ?_⟩
  · rw [h2.free, h1.free, or_assoc, Set.mem_union]
  · rw [h2.other t ht, h1.other t ht, and_assoc, Set.mem_union, not_or]

theorem Freed.reserved {I : Set ℕ} (h : Freed s s' I) (hp : PageIs s .reserved p) (hI : p ∉ I) :
    PageIs s' .reserved p :=
  (h.other .reserved (by decide) p).mpr ⟨hp, hI⟩

/-! ### One block -/

theorem PageIs.reserved_block (h : PageIs s .reserved p) : BlockAt s .reserved p 0 := by
  obtain ⟨a, k, hb, h1, h2⟩ := h
  obtain rfl := hb.reserved rfl
  obtain rfl : a = p := by omega
  exact hb

theorem Inv.markUsed (h : Inv s) (hk : k < 64) (hd : 2 ^ k ∣ a) (hle : a + 2 ^ k ≤ s.totalPages)
    (hr : ∀ p ∈ block a k, PageIs s .reserved p) :
    Inv (setBlockMeta s a k (metaMakeUsed k)) ∧ ∀ p ∉ block a k, ∀ t,
      PageIs (setBlockMeta s a k (metaMakeUsed k)) t p ↔ PageIs s t p := by
  obtain ⟨hge, ho⟩ := InvOff.open h hle fun p hp =>
    ⟨.reserved, p, 0, (hr p hp).reserved_block, by decide, le_rfl, by omega, fun q hq => by
      rw [mem_Ico] at hq hp ⊢
      omega⟩
  refine ⟨?_, fun p hp => ?_⟩
  · have hc := ho.close hk hd hle
    rw [Nat.sub_add_cancel hge] at hc
    exact hc
  · have ht : (setBlockMeta s a k (metaMakeUsed k)).totalPages = s.totalPages := rfl
    refine h.pageIs_iff ht fun t hpt => ?_
    exact ho.pageIs_of_congr ht (fun q hq => setBlockMeta_of_notMem s _ hk hq) hp
      (hpt.congr_meta rfl rfl)

theorem releaseBlock_spec (h : Inv s) (hk : k ≤ s.maxOrder) (hd : 2 ^ k ∣ a)
    (hle : a + 2 ^ k ≤ s.totalPages) (hr : ∀ p ∈ block a k, PageIs s .reserved p) :
    ∃ s', releaseBlock s a k = some s' ∧ Inv s' ∧ Freed s s' (block a k) := by
  have hk6 := h.order_lt hk
  obtain ⟨h1, hkeep⟩ := h.markUsed hk6 hd hle hr
  set s1 := setBlockMeta s a k (metaMakeUsed k)
  have hb : BlockAt s1 .used a k := blockAt_setBlockMeta s .used hk6 hd hle (by simp)
  obtain ⟨s', hf, hi, hfr⟩ := freeBlock_spec h1 hk hd hle fun p hp =>
    ⟨.used, a, k, hb, by decide, (mem_Ico.mp hp).1, (mem_Ico.mp hp).2, subset_rfl⟩
  have hs1 : SameGeometry s s1 := ⟨rfl, rfl, rfl, rfl, rfl⟩
  refine ⟨s', hf, hi, hs1.trans hfr.same, fun p => ?_, fun t ht p => ?_⟩
  · rw [hfr.free]
    by_cases hp : p ∈ block a k
    · simp only [mem_coe, hp, or_true]
    · rw [hkeep p hp]
  · rw [hfr.other t ht]
    refine and_congr_left fun hp => ?_
    rw [hkeep p (by simpa using hp)]

/-! ### A range of pages -/

theorem fitOrder_spec (hae : a < e) (he : e ≤ 2 ^ 52) : ∀ n < 53,
    fitOrder a e n ≤ n ∧ 2 ^ fitOrder a e n ∣ a ∧ a + 2 ^ fitOrder a e n ≤ e := by
  intro n
  induction n with
  | zero => exact fun _ => ⟨le_rfl, one_dvd _, hae⟩
  | succ n ih =>
    intro hn
    have hp : 2 ^ (n + 1) ≤ 2 ^ 52 := Nat.pow_le_pow_right (by norm_num) (by omega)
    rw [fitOrder, orderPages_eq (by omega), Nat.and_two_pow_sub_one_eq_mod, u64_of_lt (by omega)]
    split_ifs with h
    · exact ⟨le_rfl, Nat.dvd_of_mod_eq_zero h.1, h.2⟩
    · obtain ⟨h1, h2, h3⟩ := ih (by omega)
      exact ⟨by omega, h2, h3⟩

theorem releaseRangeLoop_spec : ∀ (n : ℕ) {s : State} {a : ℕ}, e - a ≤ n → a ≤ e → Inv s →
    e ≤ s.totalPages → (∀ p ∈ Ico a e, PageIs s .reserved p) →
    ∃ s', releaseRangeLoop n s a e = some s' ∧ Inv s' ∧ Freed s s' (Ico a e)
  | 0, s, a, hn, hae, h, _, _ => by
    obtain rfl : a = e := by omega
    refine ⟨s, by simp [releaseRangeLoop], h, ?_⟩
    rw [Ico_self, coe_empty]
    exact Freed.refl s
  | n + 1, s, a, hn, hae, h, he, hr => by
    rw [releaseRangeLoop]
    by_cases hlt : a < e
    · obtain ⟨h1, h2, h3⟩ := fitOrder_spec hlt (he.trans h.geometry.total_le) s.maxOrder
        h.geometry.max_lt
      set k := fitOrder a e s.maxOrder
      have hpos : 0 < 2 ^ k := by positivity
      have htot := h.geometry.total_le
      obtain ⟨s1, hb, hi, hf⟩ := releaseBlock_spec h h1 h2 (by omega) fun p hp =>
        hr p (Ico_subset_Ico_right h3 hp)
      have hnext : u64 (a + orderPages k) = a + 2 ^ k := by
        rw [orderPages_eq (h.order_lt h1), u64_of_lt (by omega)]
      have hr1 : ∀ p ∈ Ico (a + 2 ^ k) e, PageIs s1 .reserved p := by
        intro p hp
        rw [mem_Ico] at hp
        refine hf.reserved (hr p (mem_Ico.mpr (by omega))) ?_
        rw [mem_coe, mem_Ico]
        omega
      obtain ⟨s', hs', hi', hf'⟩ := releaseRangeLoop_spec n (by omega) h3 hi
        (by rw [hf.same.total]; exact he) hr1
      refine ⟨s', ?_, hi', ?_⟩
      · simp only [if_pos hlt, hb, hnext, hs']
      · have hu : (Ico a e : Set ℕ) = (block a k : Set ℕ) ∪ Ico (a + 2 ^ k) e := by
          rw [← coe_union, Ico_union_Ico_eq_Ico (by omega) h3]
        rw [hu]
        exact hf.trans hf'
    · obtain rfl : a = e := by omega
      rw [if_neg hlt, Ico_self, coe_empty]
      exact ⟨s, rfl, h, Freed.refl s⟩

theorem releaseRangePages_spec (h : Inv s) (hae : a ≤ e) (he : e ≤ s.totalPages)
    (hr : ∀ p ∈ Ico a e, PageIs s .reserved p) :
    ∃ s', releaseRangePages s a e = some s' ∧ Inv s' ∧ Freed s s' (Ico a e) :=
  releaseRangeLoop_spec (e - a) le_rfl hae h he hr

/-! ### A descriptor -/

def clearPages (gs : List PhysRange) (a e : ℕ) : Set ℕ :=
  {p | a ≤ p ∧ p < e ∧ ¬ Covered gs (p * pageSize)}

theorem releaseGap_spec {a x : ℕ} (h : Inv s) (hx : x ≤ s.totalPages)
    (hr : ∀ p, a ≤ p → p < x → PageIs s .reserved p) :
    ∃ s', (if a < x then releaseRangePages s a x else some s) = some s' ∧ Inv s' ∧
      Freed s s' (Ico a x) := by
  by_cases hax : a < x
  · rw [if_pos hax]
    refine releaseRangePages_spec h hax.le hx fun p hp => ?_
    rw [mem_Ico] at hp
    exact hr p hp.1 hp.2
  · rw [if_neg hax, Ico_eq_empty_of_le (not_lt.mp hax), coe_empty]
    exact ⟨s, rfl, h, Freed.refl s⟩

theorem releaseDescriptorLoop_spec : ∀ (gs : List PhysRange) {s : State} {a : ℕ}, GuardsOk gs →
    Inv s → e ≤ s.totalPages → (∀ p ∈ clearPages gs a e, PageIs s .reserved p) →
    ∃ s', releaseDescriptorLoop (e * pageSize) s (a * pageSize) gs = some s' ∧ Inv s' ∧
      Freed s s' (clearPages gs a e)
  | [], s, a, _, h, he, hr => by
    have hps : 0 < pageSize := by decide
    have hclear : clearPages [] a e = (Ico a e : Set ℕ) := by
      ext p
      simp [clearPages]
    simp only [releaseDescriptorLoop, Nat.mul_div_cancel _ hps, Nat.mul_lt_mul_right hps]
    rw [hclear] at hr ⊢
    exact releaseGap_spec h he fun p h1 h2 => hr p (mem_coe.mpr (mem_Ico.mpr ⟨h1, h2⟩))
  | g :: gs, s, a, hg, h, he, hr => by
    have hps : 0 < pageSize := by decide
    obtain ⟨hs₁, hn1, ⟨⟨-, hd1⟩, -, hd2⟩, hg2⟩ := hg.uncons
    obtain ⟨gstart, gstop⟩ := g
    obtain ⟨x, rfl⟩ := hd1
    obtain ⟨y, rfl⟩ := hd2
    dsimp only at hs₁ hn1
    have hxy : x < y := Nat.lt_of_mul_lt_mul_left hn1
    have hmem : ∀ p, PhysRange.Mem (p * pageSize) ⟨pageSize * x, pageSize * y⟩ ↔ x ≤ p ∧ p < y := by
      intro p
      simp only [PhysRange.Mem, mul_comm pageSize, Nat.mul_le_mul_right_iff hps,
        Nat.mul_lt_mul_right hps]
    have hlater : ∀ p < x, ¬ Covered gs (p * pageSize) := by
      rintro p hp ⟨r, hr, hr', -⟩
      have h1 := hs₁ r hr
      have h2 : p * pageSize < x * pageSize := Nat.mul_lt_mul_of_pos_right hp hps
      rw [mul_comm pageSize] at h1
      omega
    have hclear : ∀ p, p ∈ clearPages (⟨pageSize * x, pageSize * y⟩ :: gs) a e ↔
        a ≤ p ∧ p < e ∧ ¬ (x ≤ p ∧ p < y) ∧ ¬ Covered gs (p * pageSize) := by
      intro p
      rw [clearPages, Set.mem_ofPred_eq, covered_cons, hmem, not_or]
    have hrest : ∀ b p, p ∈ clearPages gs b e ↔ b ≤ p ∧ p < e ∧ ¬ Covered gs (p * pageSize) :=
      fun b p => Iff.rfl
    simp only [releaseDescriptorLoop, mul_comm pageSize, Nat.mul_div_cancel _ hps,
      Nat.mul_le_mul_right_iff hps, Nat.mul_lt_mul_right hps]
    rw [mul_comm pageSize x, mul_comm pageSize y] at *
    by_cases h1 : e ≤ a
    · have hempty : clearPages (⟨x * pageSize, y * pageSize⟩ :: gs) a e = ∅ := by
        ext p
        rw [hclear, Set.mem_empty_iff_false, iff_false]
        omega
      rw [if_pos h1, hempty]
      exact ⟨s, rfl, h, Freed.refl s⟩
    rw [if_neg h1]
    by_cases h2 : y ≤ a
    · -- the guard ends before the cursor
      have hsame : clearPages (⟨x * pageSize, y * pageSize⟩ :: gs) a e = clearPages gs a e := by
        ext p
        rw [hclear, hrest]
        grind
      rw [if_pos h2]
      rw [hsame] at hr ⊢
      exact releaseDescriptorLoop_spec gs hg2 h he hr
    rw [if_neg h2]
    by_cases h3 : e ≤ x
    · -- it starts behind the end
      have hsame : clearPages (⟨x * pageSize, y * pageSize⟩ :: gs) a e = (Ico a e : Set ℕ) := by
        ext p
        rw [hclear, mem_coe, mem_Ico]
        grind
      rw [if_pos h3]
      rw [hsame] at hr ⊢
      exact releaseRangePages_spec h (by omega) he fun p hp => hr p (mem_coe.mpr hp)
    -- the gap before the guard, then the rest behind it
    obtain ⟨s1, hs1, hi1, hf1⟩ := @releaseGap_spec s a x h (by omega) fun p hp1 hp2 =>
      hr p ((hclear p).mpr ⟨hp1, by omega, by omega, hlater p hp2⟩)
    have hr1 : ∀ p ∈ clearPages gs y e, PageIs s1 .reserved p := by
      rintro p ⟨hp1, hp2, hp3⟩
      refine hf1.reserved (hr p ((hclear p).mpr ⟨by omega, hp2, by omega, hp3⟩)) ?_
      rw [mem_coe, mem_Ico]
      omega
    obtain ⟨s', hs', hi', hf'⟩ := releaseDescriptorLoop_spec gs hg2 hi1
      (by rw [hf1.same.total]; exact he) hr1
    have hu : clearPages (⟨x * pageSize, y * pageSize⟩ :: gs) a e =
        (Ico a x : Set ℕ) ∪ clearPages gs y e := by
      ext p
      rw [hclear, Set.mem_union, mem_coe, mem_Ico, hrest]
      grind
    rw [if_neg h3, hs1, if_pos (by omega : a < y), hu]
    exact ⟨s', hs', hi', hf1.trans hf'⟩

theorem releaseDescriptorUsable_spec {start stop : ℕ} {gs : List PhysRange}
    (hstart : start + pageSize ≤ 2 ^ 64) (hstop : stop < 2 ^ 64)
    (hg : GuardsOk gs) (h : Inv s) (he : stop / pageSize ≤ s.totalPages)
    (hr : ∀ p ∈ clearPages gs ((start + pageSize - 1) / pageSize) (stop / pageSize),
      PageIs s .reserved p) :
    ∃ s', releaseDescriptorUsable s start stop gs = some s' ∧ Inv s' ∧
      Freed s s' (clearPages gs ((start + pageSize - 1) / pageSize) (stop / pageSize)) := by
  have hup : alignUp start pageSize = (start + pageSize - 1) / pageSize * pageSize :=
    alignUp_two_pow (k := 12) (by norm_num) (by rw [pageSize_eq] at hstart; omega)
  simp only [releaseDescriptorUsable, hup, alignDown_pageSize hstop]
  by_cases hle : stop / pageSize * pageSize ≤ (start + pageSize - 1) / pageSize * pageSize
  · have hempty : clearPages gs ((start + pageSize - 1) / pageSize) (stop / pageSize) = ∅ := by
      have := (Nat.mul_le_mul_right_iff (show 0 < pageSize by decide)).mp hle
      ext p
      simp only [clearPages, Set.mem_ofPred_eq, Set.mem_empty_iff_false, iff_false]
      omega
    rw [if_pos hle, hempty]
    exact ⟨s, rfl, h, Freed.refl s⟩
  · rw [if_neg hle]
    exact releaseDescriptorLoop_spec gs hg h he hr

end TaterTOS.Pmm
