import TaterTOS.Pmm.Release
import TaterTOS.Lib.Scan

/-!
# The state `pmm_init` builds
-/

namespace TaterTOS.Pmm

open Lib Finset

/-! ### The memory map -/

def Descriptor.Covers (d : Descriptor) (x : ℕ) : Prop :=
  d.physicalStart.toNat ≤ x ∧ x < d.physicalStart.toNat + d.numberOfPages.toNat * pageSize

/-- The usable descriptors are disjoint and end below `2 ^ 64`. -/
structure Handoff.WellFormed (h : Handoff) : Prop where
  disjoint : h.descs.Pairwise fun d d' => d.usable → d'.usable → ∀ x, d.Covers x → ¬ d'.Covers x
  stop_lt : ∀ d ∈ h.descs, d.usable →
    d.physicalStart.toNat + d.numberOfPages.toNat * pageSize < 2 ^ 64

/-! ### Sizes -/

variable {pages v p c : ℕ} {d : Descriptor}

theorem computeMaxOrderLoop_eq (hp : pages < 2 ^ 63) : ∀ (n k : ℕ), n + k = 63 →
    2 ^ k ≤ pages → computeMaxOrderLoop pages n k = Nat.log 2 pages
  | 0, k, hn, hk => by
    obtain rfl : k = 63 := by omega
    omega
  | n + 1, k, hn, hk => by
    have hu : u64 (1 <<< (k + 1)) = 2 ^ (k + 1) := orderPages_eq (show k + 1 < 64 by omega)
    have hpos : 2 ^ (k + 1) ≠ 0 := by positivity
    have hne : pages ≠ 0 := Nat.ne_zero_of_lt (lt_of_lt_of_le (by positivity : 0 < 2 ^ k) hk)
    simp only [computeMaxOrderLoop, hu]
    split_ifs with h
    · exact ((Nat.log_eq_iff (.inr ⟨by norm_num, hne⟩)).mpr ⟨hk, h.resolve_left hpos⟩).symm
    · exact computeMaxOrderLoop_eq hp n (k + 1) (by omega) (by omega)

theorem computeMaxOrder_eq (h0 : pages ≠ 0) (hp : pages < 2 ^ 63) :
    computeMaxOrder pages = Nat.log 2 pages :=
  computeMaxOrderLoop_eq hp 63 0 rfl (by rw [pow_zero]; omega)

theorem metadataSizeBytes_spec {m : ℕ} (hp : pages ≤ 2 ^ 52) (hm : m < 64) :
    9 * pages < metadataSizeBytes pages m ∧ metadataSizeBytes pages m < 2 ^ 57 ∧
      pageSize ∣ metadataSizeBytes pages m := by
  have h8 : ∀ v, v < 2 ^ 60 → v ≤ alignUp v 8 ∧ alignUp v 8 < v + 8 := by
    intro v hv
    obtain ⟨h1, h2, -⟩ := @alignUp_spec v 3 (by norm_num) (by omega)
    exact ⟨h1, h2⟩
  obtain ⟨h₁, h1'⟩ := h8 pages (by omega)
  obtain ⟨h₂, h2'⟩ := h8 (alignUp pages 8 + pages * 8) (by omega)
  set v := alignUp (alignUp pages 8 + pages * 8) 8
  have heq : metadataSizeBytes pages m = alignUp (v + (m + 1) * 8) (2 ^ 12) := by
    simp only [metadataSizeBytes]
    rw [u64_of_lt (show pages < 2 ^ 64 by omega), u64_of_lt (show pages * 8 < 2 ^ 64 by omega),
      u64_of_lt (show alignUp pages 8 + pages * 8 < 2 ^ 64 by omega),
      u64_of_lt (show (m + 1) * 8 < 2 ^ 64 by omega),
      u64_of_lt (show v + (m + 1) * 8 < 2 ^ 64 by omega)]
    rfl
  obtain ⟨h3, h4, hd⟩ := @alignUp_spec (v + (m + 1) * 8) 12 (by norm_num) (by omega)
  rw [heq]
  exact ⟨by omega, by omega, hd⟩

theorem Descriptor.stop_eq (h : d.physicalStart.toNat + d.numberOfPages.toNat * pageSize < 2 ^ 64) :
    d.stop = d.physicalStart.toNat + d.numberOfPages.toNat * pageSize := by
  unfold Descriptor.stop
  rw [u64_of_lt (show d.numberOfPages.toNat * pageSize < 2 ^ 64 by omega), u64_of_lt h]

theorem le_maxPhysStep (m : ℕ) (d : Descriptor) : m ≤ maxPhysStep m d := by
  unfold maxPhysStep
  split_ifs <;> omega

theorem foldl_maxPhysStep_lt (l : List Descriptor) : l.foldl maxPhysStep 0 < 2 ^ 64 :=
  List.foldlRecOn l maxPhysStep (motive := (· < 2 ^ 64)) (by norm_num) fun m hm d _ => by
    have : d.stop < 2 ^ 64 := u64_lt _
    unfold maxPhysStep
    split_ifs <;> assumption

theorem stop_le_foldl_maxPhysStep {l : List Descriptor} (hd : d ∈ l) (hu : d.usable = true)
    (hn : d.numberOfPages.toNat ≠ 0) (hw : d.numberOfPages.toNat * pageSize < 2 ^ 64) (m : ℕ) :
    d.stop ≤ l.foldl maxPhysStep m := by
  refine le_foldl_of_mem (g := id) le_maxPhysStep hd (fun m => ?_) m
  have hle : ¬ (d.numberOfPages.toNat = 0 ∨ (2 ^ 64 - 1) / pageSize < d.numberOfPages.toNat) := by
    unfold pageSize at hw ⊢
    omega
  simp only [hu, ite_not_true, id]
  split_ifs <;> omega

section

variable {h : Handoff}

theorem measure_total_le (h : Handoff) : (State.measure h).totalPages < 2 ^ 52 := by
  have := u64_lt (h.descs.foldl maxPhysStep 0 + pageSize - 1)
  show u64 (h.descs.foldl maxPhysStep 0 + pageSize - 1) / pageSize < 2 ^ 52
  rw [pageSize_eq] at *
  omega

theorem le_measure_total (h0 : (State.measure h).totalPages ≠ 0) (hd : d ∈ h.descs)
    (hu : d.usable = true)
    (hw : d.physicalStart.toNat + d.numberOfPages.toNat * pageSize < 2 ^ 64) :
    (d.physicalStart.toNat + d.numberOfPages.toNat * pageSize) / pageSize ≤
      (State.measure h).totalPages ∨ d.numberOfPages.toNat = 0 := by
  by_cases hn : d.numberOfPages.toNat = 0
  · exact .inr hn
  have hs := stop_le_foldl_maxPhysStep hd hu hn (by omega) 0
  rw [Descriptor.stop_eq hw] at hs
  set M := h.descs.foldl maxPhysStep 0 with hM
  have htot : (State.measure h).totalPages = u64 (M + pageSize - 1) / pageSize := rfl
  have hMlt : M < 2 ^ 64 := foldl_maxPhysStep_lt _
  have hnw : M + pageSize - 1 < 2 ^ 64 := by
    by_contra hc
    apply h0
    rw [htot]
    unfold u64
    rw [pageSize_eq] at *
    omega
  have hps : 0 < pageSize := by decide
  rw [htot, u64_of_lt hnw]
  exact .inl (Nat.div_le_div_right (by omega))

end

/-! ### The guards -/

theorem alignUp_pageSize (v : ℕ) :
    alignUp v pageSize = u64 (v + pageSize - 1) / pageSize * pageSize :=
  and_not64_two_pow (k := 12) _ (by norm_num) (u64_lt _)

theorem aligned_alignUp (v : ℕ) : Aligned (alignUp v pageSize) := by
  rw [alignUp_pageSize]
  refine ⟨?_, Nat.dvd_mul_left _ _⟩
  exact lt_of_le_of_lt (Nat.div_mul_le_self _ _) (u64_lt _)

theorem aligned_alignDown (hv : v < 2 ^ 64) : Aligned (alignDown v pageSize) := by
  rw [alignDown_pageSize hv]
  exact ⟨lt_of_le_of_lt (Nat.div_mul_le_self _ _) hv, Nat.dvd_mul_left _ _⟩

def Image.guard (i : Image) : PhysRange := ⟨alignDown i.start pageSize, alignUp i.stop pageSize⟩

theorem fixedGuards_aligned (b : Boot) : ∀ r ∈ fixedGuards b, Aligned r.start ∧ Aligned r.stop := by
  have hi : ∀ i : Image, Aligned (alignDown i.start pageSize) ∧ Aligned (alignUp i.stop pageSize) :=
    fun i => ⟨aligned_alignDown (i.nonempty.trans i.stop_lt), aligned_alignUp _⟩
  unfold fixedGuards
  simp only [List.forall_mem_cons, List.not_mem_nil, false_imp_iff, implies_true, and_true]
  refine ⟨?_, ?_, hi b.bootImage, hi b.kernelImage⟩ <;> unfold Aligned <;> decide

def Image.Meets (i : Image) (p : ℕ) : Prop := i.start < (p + 1) * pageSize ∧ p * pageSize < i.stop

/-- Below `2 ^ 62`, an image guards the pages it meets and the addresses it holds. When the end of
its last page wraps to `0` it guards nothing, but it starts above `2 ^ 62`. -/
theorem Image.mem_guard (i : Image) (hp : (p + 1) * pageSize < 2 ^ 62) :
    PhysRange.Mem (p * pageSize) i.guard ↔ i.Meets p := by
  have h1 := i.nonempty
  have h2 := i.stop_lt
  have h3 := i.size_lt
  unfold PhysRange.Mem Image.guard Image.Meets
  rw [alignUp_pageSize, alignDown_pageSize (h1.trans h2)]
  unfold u64
  rw [pageSize_eq] at *
  dsimp only
  omega

theorem Image.mem_guard_of_mem (i : Image) {x : ℕ} (hx : x < 2 ^ 62) (h1 : i.start ≤ x)
    (h2 : x < i.stop) : PhysRange.Mem x i.guard := by
  have h3 := i.stop_lt
  have h4 := i.size_lt
  unfold PhysRange.Mem Image.guard
  rw [alignUp_pageSize, alignDown_pageSize (i.nonempty.trans h3)]
  unfold u64
  rw [pageSize_eq] at *
  dsimp only
  omega

/-! ### Placing the metadata -/

section

variable {b : Boot} {h : Handoff} {gs : List PhysRange} {size : ℕ}

theorem le_metadataStep (gs : List PhysRange) (size : ℕ) (best : ℕ × ℕ) (d : Descriptor) :
    best.2 ≤ (metadataStep gs size best d).2 := by
  unfold metadataStep
  rcases metadataCandidate gs size d with _ | ⟨c, n⟩
  · exact le_rfl
  · dsimp only
    split_ifs with hlt
    · exact hlt.le
    · exact le_rfl

theorem foldl_metadataStep (gs : List PhysRange) (size : ℕ) (l : List Descriptor) :
    (∀ d ∈ l, ∀ c, metadataCandidate gs size d = some c →
      c.2 ≤ (l.foldl (metadataStep gs size) (0, 0)).2) ∧
    (l.foldl (metadataStep gs size) (0, 0) = (0, 0) ∨
      ∃ d ∈ l, metadataCandidate gs size d = some (l.foldl (metadataStep gs size) (0, 0))) := by
  constructor
  · intro d hd c hc
    refine le_foldl_of_mem (g := Prod.snd) (le_metadataStep gs size) hd (fun best => ?_) _
    unfold metadataStep
    rw [hc]
    dsimp only
    split_ifs with hlt
    · exact le_rfl
    · exact not_lt.mp hlt
  · refine List.foldlRecOn l (metadataStep gs size)
      (motive := fun best => best = (0, 0) ∨ ∃ d ∈ l, metadataCandidate gs size d = some best)
      (.inl rfl) fun best hb d hd => ?_
    unfold metadataStep
    rcases hc : metadataCandidate gs size d with _ | ⟨c, n⟩
    · exact hb
    · dsimp only
      split_ifs with hlt
      · exact .inr ⟨d, hd, hc⟩
      · exact hb

structure Candidate (gs : List PhysRange) (size : ℕ) (d : Descriptor) (c : ℕ) : Prop where
  usable : d.usable = true
  placed : Placed (min earlyPhysLimit d.stop) size d.physicalStart.toNat gs c

theorem min_stop (d : Descriptor) :
    (if earlyPhysLimit < d.stop then earlyPhysLimit else d.stop) = min earlyPhysLimit d.stop := by
  split_ifs <;> omega

theorem metadataCandidate_spec (hg : GuardsOk gs) {n : ℕ}
    (hc : metadataCandidate gs size d = some (c, n)) : Candidate gs size d c ∧ n ≠ 0 := by
  unfold metadataCandidate at hc
  dsimp only at hc
  rw [min_stop] at hc
  rcases hu : d.usable with _ | _
  · simp [hu] at hc
  split_ifs at hc with h1 h2
  rcases hf : findRegionBase d.physicalStart.toNat (min earlyPhysLimit d.stop) gs size with _ | c'
  · rw [hf] at hc
    simp at hc
  rw [hf] at hc
  obtain ⟨rfl, rfl⟩ : c' = c ∧ _ - d.physicalStart.toNat = n := by simpa using hc
  have hlim : earlyPhysLimit = 2 ^ 32 := rfl
  exact ⟨⟨hu, findRegionBase_spec (by unfold pageSize; omega) (by omega) hg hf⟩, by omega⟩

theorem metadataCandidate_isSome (hg : GuardsOk gs) (hsize : size ≠ 0) (hd : pageSize ∣ size)
    (hc : Candidate gs size d c) : (metadataCandidate gs size d).isSome := by
  obtain ⟨hu, hp⟩ := hc
  have h1 := hp.lo_le
  have h2 := hp.le_stop
  have hlim : earlyPhysLimit = 2 ^ 32 := rfl
  unfold metadataCandidate
  rw [hu, min_stop, ite_not_true, if_neg (by omega), if_neg (by omega)]
  obtain ⟨c', hc'⟩ := Option.isSome_iff_exists.mp (findRegionBase_isSome
    (by unfold pageSize; omega) (by omega) hsize hd hg hp)
  rw [hc']
  rfl

def metadataGuards (b : Boot) : List PhysRange := normalizeRanges (fixedGuards b)

theorem metadataGuards_ok (b : Boot) : GuardsOk (metadataGuards b) :=
  normalizeRanges_ok (fixedGuards_aligned b)

theorem Candidate.ne_zero (hc : Candidate (metadataGuards b) size d c) (hsize : size ≠ 0) :
    c ≠ 0 := by
  rintro rfl
  refine hc.placed.clear 0 le_rfl (by omega) ((covered_normalizeRanges _ _).mpr ?_)
  exact ⟨⟨0, pageSize⟩, List.mem_cons_self, le_rfl, by decide⟩

theorem measure_bytes (h0 : (State.measure h).totalPages ≠ 0) :
    9 * (State.measure h).totalPages < (State.measure h).metadataBytes ∧
      pageSize ∣ (State.measure h).metadataBytes := by
  have hlt := measure_total_le h
  have heq : (State.measure h).metadataBytes = metadataSizeBytes (State.measure h).totalPages
        (computeMaxOrder (State.measure h).totalPages) := if_neg h0
  have hm : computeMaxOrder (State.measure h).totalPages < 64 := by
    rw [computeMaxOrder_eq h0 (by omega)]
    exact Nat.log_lt_of_lt_pow h0 (hlt.trans (by norm_num))
  obtain ⟨h1, -, h2⟩ := metadataSizeBytes_spec hlt.le hm
  rw [heq]
  exact ⟨h1, h2⟩

/-- **Placement.** The metadata lies in a usable descriptor, below the limit and off the guards. -/
theorem metadataBase_spec (hb : metadataBase b h ≠ 0) : ∃ d ∈ h.descs,
      Candidate (metadataGuards b) (State.measure h).metadataBytes d (metadataBase b h) := by
  obtain ⟨-, h3⟩ := foldl_metadataStep (metadataGuards b) (State.measure h).metadataBytes
    h.descs
  rcases h3 with h3 | ⟨d, hd, hc⟩
  · exact absurd (congrArg Prod.fst h3) hb
  · exact ⟨d, hd, (metadataCandidate_spec (metadataGuards_ok b) hc).1⟩

theorem metadataBase_ne_zero (h0 : (State.measure h).totalPages ≠ 0) (hd : d ∈ h.descs)
    (hc : (metadataCandidate (metadataGuards b) (State.measure h).metadataBytes d).isSome) :
    metadataBase b h ≠ 0 := by
  have hsize := (measure_bytes h0).1
  obtain ⟨⟨c, n⟩, hc⟩ := Option.isSome_iff_exists.mp hc
  obtain ⟨-, hn⟩ := metadataCandidate_spec (metadataGuards_ok b) hc
  obtain ⟨h2, h3⟩ := foldl_metadataStep (metadataGuards b) (State.measure h).metadataBytes h.descs
  have hle := h2 d hd _ hc
  rcases h3 with h3 | ⟨d', -, hc'⟩
  · rw [h3] at hle
    exact absurd (Nat.le_zero.mp hle) hn
  · exact (metadataCandidate_spec (metadataGuards_ok b) hc').1.ne_zero (by omega)

end

/-! ### The first states -/

theorem log_measure_lt (h : Handoff) : Nat.log 2 (State.measure h).totalPages < 53 := by
  by_cases h0 : (State.measure h).totalPages = 0
  · rw [h0]
    simp
  · exact Nat.log_lt_of_lt_pow h0 ((measure_total_le h).trans (by norm_num))

theorem inv_of_total_eq_zero {s : State} (h0 : s.totalPages = 0) (hu : s.usedPages = 0)
    (hm : s.maxOrder = 0) (hh : s.freeHeads 0 = invalidPage) : Inv s := by
  refine ⟨⟨by omega, fun h => absurd h0 h, ?_, by omega, fun h => absurd h0 h⟩, ?_, ?_, ?_, ?_⟩
  · rw [h0]
    positivity
  · intro p hp
    omega
  · intro k hk
    obtain rfl : k = 0 := by omega
    refine ⟨[], Chain.nil_iff.mpr hh, fun p => ?_⟩
    simp [h0]
  · intro k hk p hp
    omega
  · simp [h0, hu]

section

variable {h : Handoff} {phys : ℕ}

theorem blockAt_clearMetadata (hp : p < (State.measure h).totalPages) :
    BlockAt ((State.measure h).clearMetadata phys) .reserved p 0 :=
  ⟨by norm_num, rfl, one_dvd _, hp, fun q h1 h2 => by omega, fun _ => rfl⟩

theorem inv_clearMetadata (h0 : (State.measure h).totalPages ≠ 0) (hp : phys ≠ 0) :
    Inv ((State.measure h).clearMetadata phys) := by
  have hlt := measure_total_le h
  have hmax : (State.measure h).maxOrder = Nat.log 2 (State.measure h).totalPages := by
    have : (State.measure h).maxOrder = computeMaxOrder (State.measure h).totalPages := if_neg h0
    rw [this, computeMaxOrder_eq h0 (by omega)]
  have hne : ∀ k < 64, metaMakeReserved 0 ≠ metaMakeFree k := fun k hk he =>
    absurd (@make_inj .reserved .free 0 k (by norm_num) hk he).1 (by decide)
  have hlog := log_measure_lt h
  refine ⟨⟨hlt.le, fun _ => ?_, ?_, ?_, fun _ => hp⟩, ?_, ?_, ?_, ?_⟩
  · show 2 ^ (State.measure h).maxOrder ≤ (State.measure h).totalPages
    rw [hmax]
    exact Nat.pow_log_le_self 2 h0
  · show (State.measure h).totalPages < 2 ^ ((State.measure h).maxOrder + 1)
    rw [hmax]
    exact Nat.lt_pow_succ_log_self (by norm_num) _
  · show (State.measure h).maxOrder < 53
    rw [hmax]
    exact hlog
  · exact fun p hp _ => ⟨.reserved, p, 0, blockAt_clearMetadata hp, le_rfl, by omega,
      disjoint_empty_right _⟩
  · intro k hk
    have hk' : k ≤ (State.measure h).maxOrder := hk
    exact ⟨[], Chain.nil_iff.mpr rfl, fun p => by
      simpa [State.clearMetadata] using fun _ => hne k (by omega)⟩
  · intro k hk p _ _ hm
    have hk' : k < (State.measure h).maxOrder := hk
    exact absurd hm (hne k (by omega))
  · have hw : ∑ p ∈ range (State.measure h).totalPages \ ∅, weight (metaMakeReserved 0) = 0 :=
      Finset.sum_eq_zero fun _ _ => rfl
    show (State.measure h).totalPages +
      ∑ p ∈ range (State.measure h).totalPages \ ∅, weight (metaMakeReserved 0) + 0 = _
    rw [hw]
    rfl

end

/-! ### The release -/

def Descriptor.HasPage (d : Descriptor) (p : ℕ) : Prop :=
  d.physicalStart.toNat ≤ p * pageSize ∧
    (p + 1) * pageSize ≤ d.physicalStart.toNat + d.numberOfPages.toNat * pageSize

theorem Descriptor.HasPage.covers (h : d.HasPage p) : d.Covers (p * pageSize) := by
  have hps : 0 < pageSize := by decide
  obtain ⟨h1, h2⟩ := h
  rw [add_mul] at h2
  exact ⟨h1, by omega⟩

theorem Descriptor.hasPage_iff (d : Descriptor) (p : ℕ) : d.HasPage p ↔
    (d.physicalStart.toNat + pageSize - 1) / pageSize ≤ p ∧
      p < (d.physicalStart.toNat + d.numberOfPages.toNat * pageSize) / pageSize := by
  unfold Descriptor.HasPage
  rw [pageSize_eq]
  omega

def releasable (gs : List PhysRange) (d : Descriptor) : Set ℕ :=
  {p | d.usable = true ∧ d.HasPage p ∧ ¬ Covered gs (p * pageSize)}

section

variable {gs : List PhysRange} {s s' : State}

def Descriptor.Fits (d : Descriptor) (n : ℕ) : Prop := d.usable = true →
  d.physicalStart.toNat + d.numberOfPages.toNat * pageSize < 2 ^ 64 ∧ (d.numberOfPages.toNat ≠ 0 →
      (d.physicalStart.toNat + d.numberOfPages.toNat * pageSize) / pageSize ≤ n)

theorem releaseStep_spec (hg : GuardsOk gs) (h : Inv s) (hd : d.Fits s.totalPages)
    (hr : ∀ p ∈ releasable gs d, PageIs s .reserved p) :
    ∃ s', releaseStep gs s d = some s' ∧ Inv s' ∧ Freed s s' (releasable gs d) := by
  unfold releaseStep
  by_cases hu : d.usable = true
  · obtain ⟨hw, ht⟩ := hd hu
    by_cases hn : d.numberOfPages.toNat = 0
    · have hempty : releasable gs d = ∅ := by
        ext p
        simp only [releasable, Descriptor.hasPage_iff, Set.mem_ofPred_eq,
          Set.mem_empty_iff_false, iff_false, pageSize_eq]
        omega
      rw [hempty]
      exact ⟨s, by simp [hn], h, Freed.refl s⟩
    · have hset : releasable gs d = clearPages gs
          ((d.physicalStart.toNat + pageSize - 1) / pageSize)
          ((d.physicalStart.toNat + d.numberOfPages.toNat * pageSize) / pageSize) := by
        ext p
        simp only [releasable, clearPages, Descriptor.hasPage_iff, hu, true_and,
          and_assoc]
      rw [hset] at hr ⊢
      have hcond : (!d.usable || d.numberOfPages.toNat == 0) = false := by simp [hu, hn]
      rw [hcond, Descriptor.stop_eq hw]
      have hone : pageSize ≤ d.numberOfPages.toNat * pageSize :=
        Nat.le_mul_of_pos_left _ (Nat.pos_of_ne_zero hn)
      exact releaseDescriptorUsable_spec (by omega) hw hg h (ht hn) hr
  · have hempty : releasable gs d = ∅ := by
      ext p
      simp [releasable, hu]
    rw [hempty]
    exact ⟨s, by simp [hu], h, Freed.refl s⟩

theorem foldlM_releaseStep (hg : GuardsOk gs) (l : List Descriptor) : ∀ {s : State}, Inv s →
    l.Pairwise (fun d d' => d.usable → d'.usable → ∀ x, d.Covers x → ¬ d'.Covers x) →
    (∀ d ∈ l, d.Fits s.totalPages) →
    (∀ d ∈ l, ∀ p ∈ releasable gs d, PageIs s .reserved p) →
    ∃ s', l.foldlM (releaseStep gs) s = some s' ∧ Inv s' ∧
      Freed s s' {p | ∃ d ∈ l, p ∈ releasable gs d} := by
  induction l with
  | nil =>
    intro s h _ _ _
    refine ⟨s, rfl, h, ?_⟩
    simpa using Freed.refl s
  | cons d l ih =>
    intro s h hdis hfit hr
    obtain ⟨hd1, hd2⟩ := List.pairwise_cons.mp hdis
    obtain ⟨hf1, hf2⟩ := List.forall_mem_cons.mp hfit
    obtain ⟨hr1, hr2⟩ := List.forall_mem_cons.mp hr
    obtain ⟨s1, hs1, hi1, hfr1⟩ := releaseStep_spec hg h hf1 hr1
    have htot := hfr1.same.total
    obtain ⟨s', hs', hi', hfr'⟩ := ih hi1 hd2 (fun d' hd' => htot ▸ hf2 d' hd') fun d' hd' p hp =>
      hfr1.reserved (hr2 d' hd' p hp) fun hp' =>
        -- the page would lie in two descriptors
        hd1 d' hd' hp'.1 hp.1 _ hp'.2.1.covers hp.2.1.covers
    refine ⟨s', ?_, hi', ?_⟩
    · rw [List.foldlM_cons, hs1]
      exact hs'
    · have hset : {p | ∃ d' ∈ d :: l, p ∈ releasable gs d'} =
          releasable gs d ∪ {p | ∃ d' ∈ l, p ∈ releasable gs d'} := by
        ext p
        simp [Set.mem_union]
      rw [hset]
      exact hfr1.trans hfr'

end

/-! ### `pmm_init` up to the early pool -/

section

variable {b : Boot} {h : Handoff}

structure Placeable (b : Boot) (h : Handoff) : Prop where
  base : h.mmapBase.toNat ≠ 0
  size : h.mmapSize.toNat ≠ 0
  stride : h.mmapDescSize.toNat ≠ 0
  total : (State.measure h).totalPages ≠ 0
  place : metadataBase b h ≠ 0

theorem Placeable.bounds (hp : Placeable b h) :
    metadataBase b h + (State.measure h).metadataBytes ≤ 2 ^ 32 ∧
      pageSize ∣ metadataBase b h ∧ 9 * (State.measure h).totalPages < 2 ^ 32 := by
  obtain ⟨d, -, hc⟩ := metadataBase_spec hp.place
  have hle := hc.placed.le_stop.trans (min_le_left _ _)
  have := (measure_bytes hp.total).1
  unfold earlyPhysLimit at hle
  exact ⟨hle, hc.placed.dvd, by omega⟩

def metadataBlock (b : Boot) (h : Handoff) : PhysRange :=
  ⟨metadataBase b h, metadataBase b h + (State.measure h).metadataBytes⟩

theorem Placeable.releaseGuards_eq (hp : Placeable b h) :
    releaseGuards b ((State.measure h).clearMetadata (metadataBase b h)) =
      normalizeRanges (fixedGuards b ++ [metadataBlock b h]) := by
  have hb := hp.bounds.1
  unfold releaseGuards metadataBlock
  have : u64 (metadataBase b h + (State.measure h).metadataBytes) =
    metadataBase b h + (State.measure h).metadataBytes := u64_of_lt (by omega)
  show normalizeRanges (fixedGuards b ++
    [⟨metadataBase b h, u64 (metadataBase b h + (State.measure h).metadataBytes)⟩]) = _
  rw [this]

theorem Placeable.guardsOk (hp : Placeable b h) :
    GuardsOk (normalizeRanges (fixedGuards b ++ [metadataBlock b h])) := by
  obtain ⟨h1, h2, h3⟩ := hp.bounds
  refine normalizeRanges_ok fun r hr => ?_
  rcases List.mem_append.mp hr with hr | hr
  · exact fixedGuards_aligned b r hr
  · obtain rfl := List.mem_singleton.mp hr
    unfold metadataBlock Aligned
    exact ⟨⟨by dsimp only; omega, h2⟩, by dsimp only; omega, h2.add (measure_bytes hp.total).2⟩

/-- **The release at boot.** It ends in a state of the invariant in which the pages that usable
descriptors hold and no guard meets are free and all others are reserved. -/
theorem pmmInitRelease_spec (hb : b.handoff = some h) (hw : h.WellFormed) (hp : Placeable b h) :
    ∃ s, pmmInitRelease b = some s ∧ Inv s ∧
      SameGeometry ((State.measure h).clearMetadata (metadataBase b h)) s ∧
      (∀ p, PageIs s .free p ↔ ∃ d ∈ h.descs,
        p ∈ releasable (normalizeRanges (fixedGuards b ++ [metadataBlock b h])) d) ∧
      ∀ p, ¬ PageIs s .used p := by
  have hfit : ∀ d ∈ h.descs, d.Fits (State.measure h).totalPages := fun d hd hu =>
    ⟨hw.stop_lt d hd hu, fun hn =>
      (le_measure_total hp.total hd hu (hw.stop_lt d hd hu)).resolve_right hn⟩
  have hres : ∀ p < (State.measure h).totalPages,
      PageIs ((State.measure h).clearMetadata (metadataBase b h)) .reserved p := fun p hlt =>
    ⟨p, 0, blockAt_clearMetadata hlt, le_rfl, by omega⟩
  have hpage : ∀ gs, ∀ d ∈ h.descs, ∀ p ∈ releasable gs d, p < (State.measure h).totalPages := by
    rintro gs d hd p ⟨hu, hpg, -⟩
    obtain ⟨h1, h2⟩ := hfit d hd hu
    have := (d.hasPage_iff p).mp hpg
    refine lt_of_lt_of_le this.2 (h2 fun hn => ?_)
    rw [pageSize_eq] at this
    omega
  obtain ⟨s, hs, hi, hf⟩ := foldlM_releaseStep hp.guardsOk h.descs
    (inv_clearMetadata hp.total hp.place) hw.disjoint hfit fun d hd p hpd =>
      hres p (hpage _ d hd p hpd)
  refine ⟨s, ?_, hi, hf.same, fun p => ?_, fun p hu => ?_⟩
  · simp only [pmmInitRelease, hb]
    rw [if_neg (by simp [hp.base, hp.size, hp.stride]), if_neg (by simp [hp.total, hp.place]),
      hp.releaseGuards_eq]
    exact hs
  · rw [hf.free]
    refine or_iff_right fun hfree => ?_
    exact absurd ((hres p hfree.lt).unique hfree) (by decide)
  · obtain ⟨hu, -⟩ := (hf.other .used (by decide) p).mp hu
    exact absurd ((hres p hu.lt).unique hu) (by decide)

end

end TaterTOS.Pmm
