import TaterTOS.Pmm.Runs

/-!
# The memory that boot releases

* `ReleaseExact`: the free pages are the pages of usable descriptors that meet neither a guard range
  nor the metadata;
* `release_exact`: boot leaves such a state whenever it places the metadata.
-/

namespace TaterTOS.Pmm

/-- The address `x` belongs to page `0`, the trampoline page, the boot or the kernel image. -/
def Guarded (b : Boot) (x : ℕ) : Prop :=
  x < pageSize ∨ (smpTrampolinePhys ≤ x ∧ x < smpTrampolinePhys + pageSize) ∨
    (b.bootImage.start ≤ x ∧ x < b.bootImage.stop) ∨
    (b.kernelImage.start ≤ x ∧ x < b.kernelImage.stop)

def State.InMetadata (s : State) (x : ℕ) : Prop :=
  s.metadataPhys ≤ x ∧ x < s.metadataPhys + s.metadataBytes

def InPage (p x : ℕ) : Prop := p * pageSize ≤ x ∧ x < (p + 1) * pageSize

structure ReleaseExact (b : Boot) (h : Handoff) (s : State) : Prop where
  free : ∀ p, PageIs s .free p ↔ (∃ d ∈ h.descs, d.usable = true ∧ d.HasPage p) ∧
    ∀ x, InPage p x → ¬ Guarded b x ∧ ¬ s.InMetadata x
  inside : ∃ d ∈ h.descs, d.usable = true ∧ ∀ x, s.InMetadata x → d.Covers x
  below : s.metadataPhys + s.metadataBytes ≤ earlyPhysLimit
  nonempty : 0 < s.metadataBytes
  clear : ∀ x, s.InMetadata x → ¬ Guarded b x

variable {b : Boot} {h : Handoff} {p x : ℕ}

theorem exists_inPage_iff {lo hi : ℕ} (hlt : lo < hi) :
    (∃ x, InPage p x ∧ lo ≤ x ∧ x < hi) ↔ lo < (p + 1) * pageSize ∧ p * pageSize < hi := by
  constructor
  · rintro ⟨x, ⟨h1, h2⟩, h3, h4⟩
    omega
  · rintro ⟨h1, h2⟩
    refine ⟨max lo (p * pageSize), ⟨le_max_right _ _, ?_⟩, le_max_left _ _, by omega⟩
    unfold pageSize at *
    omega

theorem covered_fixedGuards_iff (hp : (p + 1) * pageSize < 2 ^ 62) :
    Covered (fixedGuards b) (p * pageSize) ↔ ∃ x, InPage p x ∧ Guarded b x := by
  have himage : ∀ i : Image, PhysRange.Mem (p * pageSize) i.guard ↔
      ∃ x, InPage p x ∧ i.start ≤ x ∧ x < i.stop := fun i => by
    rw [i.mem_guard hp, exists_inPage_iff i.nonempty]
    rfl
  have hzero : PhysRange.Mem (p * pageSize) ⟨0, pageSize⟩ ↔ ∃ x, InPage p x ∧ x < pageSize := by
    have := @exists_inPage_iff p 0 pageSize (by decide)
    simp only [Nat.zero_le, true_and] at this
    rw [this]
    unfold PhysRange.Mem pageSize
    dsimp only
    omega
  have htramp : PhysRange.Mem (p * pageSize) ⟨smpTrampolinePhys, smpTrampolinePhys + pageSize⟩ ↔
      ∃ x, InPage p x ∧ smpTrampolinePhys ≤ x ∧ x < smpTrampolinePhys + pageSize := by
    rw [exists_inPage_iff (by decide)]
    unfold PhysRange.Mem smpTrampolinePhys pageSize
    dsimp only
    omega
  unfold fixedGuards Guarded
  simp only [covered_cons, covered_nil, or_false, and_or_left, exists_or]
  rw [hzero, htramp]
  exact or_congr_right (or_congr_right (or_congr (himage b.bootImage) (himage b.kernelImage)))

theorem Guarded.covered (hg : Guarded b x) (hx : x < 2 ^ 62) : Covered (fixedGuards b) x := by
  unfold fixedGuards
  simp only [covered_cons, covered_nil, or_false]
  rcases hg with hg | hg | hg | hg
  · exact .inl ⟨Nat.zero_le x, hg⟩
  · exact .inr (.inl hg)
  · exact .inr (.inr (.inl (b.bootImage.mem_guard_of_mem hx hg.1 hg.2)))
  · exact .inr (.inr (.inr (b.kernelImage.mem_guard_of_mem hx hg.1 hg.2)))

theorem Placeable.covered_block_iff (hp : Placeable b h) :
    PhysRange.Mem (p * pageSize) (metadataBlock b h) ↔ ∃ x, InPage p x ∧ metadataBase b h ≤ x ∧
        x < metadataBase b h + (State.measure h).metadataBytes := by
  obtain ⟨-, h2, -⟩ := hp.bounds
  obtain ⟨h1, h3⟩ := measure_bytes hp.total
  rw [exists_inPage_iff (by omega)]
  obtain ⟨y, hy⟩ := h2
  obtain ⟨z, hz⟩ := h3
  unfold PhysRange.Mem metadataBlock
  rw [hy]
  unfold pageSize
  dsimp only
  omega

theorem Placeable.releaseExact {s : State} (hp : Placeable b h) (hw : h.WellFormed)
    (hsame : SameGeometry ((State.measure h).clearMetadata (metadataBase b h)) s)
    (hfree : ∀ p, PageIs s .free p ↔ ∃ d ∈ h.descs,
      p ∈ releasable (normalizeRanges (fixedGuards b ++ [metadataBlock b h])) d) :
    ReleaseExact b h s := by
  have hphys : s.metadataPhys = metadataBase b h := hsame.phys
  have hbytes : s.metadataBytes = (State.measure h).metadataBytes := hsame.bytes
  obtain ⟨hlim, -, hnine⟩ := hp.bounds
  obtain ⟨d, hd, hc⟩ := metadataBase_spec hp.place
  have hstop := hc.placed.le_stop.trans (min_le_right _ _)
  rw [Descriptor.stop_eq (hw.stop_lt d hd hc.usable)] at hstop
  have hmem : ∀ x, s.InMetadata x ↔ metadataBase b h ≤ x ∧
      x < metadataBase b h + (State.measure h).metadataBytes := fun x => by
    unfold State.InMetadata
    rw [hphys, hbytes]
  refine ⟨fun p => ?_, ⟨d, hd, hc.usable, fun x hx => ?_⟩, ?_, ?_, fun x hx hg => ?_⟩
  · -- both sides speak of the same pages, since a page of a descriptor is below the total
    have hpage : ∀ d ∈ h.descs, d.usable = true → d.HasPage p →
        (Covered (normalizeRanges (fixedGuards b ++ [metadataBlock b h])) (p * pageSize) ↔
          ∃ x, InPage p x ∧ (Guarded b x ∨ s.InMetadata x)) := by
      intro d hd hu hpg
      have hlt := (d.hasPage_iff p).mp hpg
      have htot := (le_measure_total hp.total hd hu (hw.stop_lt d hd hu)).resolve_right fun hn => by
        rw [pageSize_eq] at hlt
        omega
      have hsmall : (p + 1) * pageSize < 2 ^ 62 := by
        unfold pageSize at *
        omega
      have happ : Covered (fixedGuards b ++ [metadataBlock b h]) (p * pageSize) ↔
          Covered (fixedGuards b) (p * pageSize) ∨
            PhysRange.Mem (p * pageSize) (metadataBlock b h) := by
        simp [Covered]
      rw [covered_normalizeRanges, happ, covered_fixedGuards_iff hsmall, hp.covered_block_iff]
      simp only [hmem, and_or_left, exists_or]
    rw [hfree]
    constructor
    · rintro ⟨d, hd, hu, hpg, hcov⟩
      refine ⟨⟨d, hd, hu, hpg⟩, fun x hx => ?_⟩
      rw [hpage d hd hu hpg] at hcov
      push Not at hcov
      exact hcov x hx
    · rintro ⟨⟨d, hd, hu, hpg⟩, hcl⟩
      refine ⟨d, hd, hu, hpg, ?_⟩
      rw [hpage d hd hu hpg]
      push Not
      exact hcl
  · obtain ⟨h1, h2⟩ := (hmem x).mp hx
    exact ⟨hc.placed.lo_le.trans h1, by omega⟩
  · rw [hphys, hbytes]
    exact hlim
  · have := (measure_bytes hp.total).1
    omega
  · obtain ⟨h1, h2⟩ := (hmem x).mp hx
    exact hc.placed.clear x h1 h2
      ((covered_normalizeRanges _ _).mpr (hg.covered (by omega)))

/-- **The release is exact.** On a map whose usable descriptors are disjoint and end a page below
`2 ^ 64`, boot reaches the early pool, and if the metadata was placed then exactly the unguarded
usable pages are free. -/
theorem release_exact (b : Boot) (h : Handoff) (hb : b.handoff = some h)
    (hd : h.descs.Pairwise fun d d' => d.usable → d'.usable → ∀ x, d.Covers x → ¬ d'.Covers x)
    (hw : ∀ d ∈ h.descs, d.usable →
      d.physicalStart.toNat + d.numberOfPages.toNat * 4096 ≤ 2 ^ 64 - 4096) :
    ∃ s, pmmInitRelease b = some s ∧ (s.metadataPhys ≠ 0 → ReleaseExact b h s) := by
  have hwf : h.WellFormed := ⟨hd, fun d hd hu => by
    have := hw d hd hu
    unfold pageSize
    omega⟩
  by_cases hp : Placeable b h
  · obtain ⟨s, hs, -, hsame, hfree, -⟩ := pmmInitRelease_spec hb hwf hp
    exact ⟨s, hs, fun _ => hp.releaseExact hwf hsame hfree⟩
  · -- every other way through leaves the metadata unplaced
    unfold pmmInitRelease
    rw [hb]
    dsimp only
    split_ifs with h1 h2
    · exact ⟨_, rfl, fun hne => absurd rfl hne⟩
    · exact ⟨_, rfl, fun hne => absurd rfl hne⟩
    · push Not at h1 h2
      exact absurd ⟨h1.1, h1.2.1, h1.2.2, h2.1, h2.2⟩ hp

theorem release_exact_small : ∃ s, pmmInitRelease (bootOne 0x1000 15) = some s ∧
    s.metadataPhys = 0x1000 ∧ ReleaseExact (bootOne 0x1000 15) (oneDescriptor 0x1000 15) s := by
  obtain ⟨s, hs, hex⟩ := release_exact (bootOne 0x1000 15) (oneDescriptor 0x1000 15) rfl
    (by rw [oneDescriptor_descs]; exact List.pairwise_singleton _ _)
    (by rw [oneDescriptor_descs]; decide)
  have hphys : (pmmInitRelease (bootOne 0x1000 15)).map State.metadataPhys = some 0x1000 := by
    decide +kernel
  rw [hs, Option.map_some, Option.some_inj] at hphys
  exact ⟨s, hs, hphys, hex (by rw [hphys]; decide)⟩

end TaterTOS.Pmm
