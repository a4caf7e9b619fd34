import TaterTOS.Pmm.Alloc
import TaterTOS.Pmm.Boot

/-!
# Runs of the allocator

* `Represents`: a state stands for a partition of the memory into blocks, with its lists and its
  counters;
* `represents_run_iff`: every state of every run does, exactly if the metadata has a place at boot.
-/

namespace TaterTOS.Pmm

open Lib Finset

variable {s s' : State} {b : Boot} {h : Handoff}

/-! ### Calls -/

theorem Inv.setPool (hi : Inv s) (x y z : ℕ) :
    Inv { s with earlyPoolStart := x, earlyPoolEnd := y, earlyPoolNext := z } := by
  refine ⟨{ hi.geometry with }, ?_,
    hi.lists, hi.buddies, hi.used⟩
  intro p hp hH
  obtain ⟨t, a, k, hb, h1, h2, hd⟩ := hi.tiled p hp hH
  exact ⟨t, a, k, hb.congr rfl fun _ _ _ => rfl, h1, h2, hd⟩

theorem allocPagesRangeLocked_inv (hi : Inv s) (count minPhys maxPhys : ℕ) :
    ∃ p s', allocPagesRangeLocked s count minPhys maxPhys = some (p, s') ∧ Inv s' := by
  by_cases hc : count = 0
  · refine ⟨0, s, ?_, hi⟩
    rw [allocPagesRangeLocked, if_pos (Or.inl hc)]
  · rcases allocPagesRangeLocked_spec hi hc minPhys maxPhys with ⟨x, s', hr, ha⟩ | ⟨hr, -⟩
    · exact ⟨_, s', hr, ha.inv⟩
    · exact ⟨0, s, hr, hi⟩

theorem Op.run_spec (hi : Inv s) (op : Op) : ∃ p s', op.run s = some (p, s') ∧ Inv s' := by
  have hzero : ∃ p s', some (0, s) = some (p, s') ∧ Inv s' := ⟨0, s, rfl, hi⟩
  cases op with
  | allocPage | allocPageBelow => exact allocPagesRangeLocked_inv hi _ _ _
  | allocEarlyLow =>
    simp only [Op.run, pmmAllocEarlyLow]
    split_ifs with h1 h2
    · exact ⟨_, _, rfl, hi.setPool _ _ _⟩
    · exact hzero
    · exact allocPagesRangeLocked_inv hi _ _ _
  | allocPages | allocPagesRange | allocPagesBelow =>
    simp only [Op.run, pmmAllocPages, pmmAllocPagesRange, pmmAllocPagesBelow]
    split_ifs with h1
    · exact hzero
    · exact allocPagesRangeLocked_inv hi _ _ _
  | freePages p c =>
    obtain ⟨s', hf, hi', -⟩ := pmmFreePages_spec hi p.toNat c.toNat
    exact ⟨0, s', by simp only [Op.run, hf, Option.map_some], hi'⟩

theorem runOps_spec (hi : Inv s) (ops : List Op) : ∃ s', runOps s ops = some s' ∧ Inv s' := by
  induction ops generalizing s with
  | nil => exact ⟨s, rfl, hi⟩
  | cons op ops ih =>
    obtain ⟨p, s1, hr, hi1⟩ := Op.run_spec hi op
    obtain ⟨s', hs', hi'⟩ := ih hi1
    exact ⟨s', by rw [runOps, hr]; exact hs', hi'⟩

/-! ### Boot -/

theorem reserveEarlyPoolLoop_spec (limit : ℕ) : ∀ (n : ℕ) {s : State}, Inv s →
    ∃ s', reserveEarlyPoolLoop limit (n + 1) s (pageSize <<< n) = some s' ∧ Inv s'
  | 0, s, hi => by
    obtain ⟨p, s1, hr, hi1⟩ := allocPagesRangeLocked_inv hi (pageSize <<< 0 / pageSize)
      earlyPoolMin limit
    simp only [reserveEarlyPoolLoop, hr]
    split_ifs with h1 h2
    · exact ⟨_, rfl, hi1.setPool _ _ _⟩
    · exact ⟨_, rfl, hi1⟩
    · exact absurd rfl h2
  | n + 1, s, hi => by
    obtain ⟨p, s1, hr, hi1⟩ := allocPagesRangeLocked_inv hi (pageSize <<< (n + 1) / pageSize)
      earlyPoolMin limit
    have hhalf : pageSize <<< (n + 1) >>> 1 = pageSize <<< n := by
      rw [Nat.shiftLeft_succ, Nat.shiftRight_eq_div_pow]
      omega
    rw [reserveEarlyPoolLoop, hr]
    dsimp only
    split_ifs with h1 h2
    · exact ⟨_, rfl, hi1.setPool _ _ _⟩
    · exact ⟨_, rfl, hi1⟩
    · rw [hhalf]
      exact reserveEarlyPoolLoop_spec limit n hi1

theorem reserveEarlyPool_spec (hi : Inv s) : ∃ s', reserveEarlyPool s = some s' ∧ Inv s' := by
  unfold reserveEarlyPool
  dsimp only
  split_ifs with h1
  · exact ⟨_, rfl, hi.setPool 0 0 0⟩
  · exact reserveEarlyPoolLoop_spec _ 12 (hi.setPool 0 0 0)

/-- There is room for the metadata: whole pages inside one usable descriptor, below
`EARLY_PHYS_LIMIT` and clear of page `0`, the trampoline page and the two images. -/
def HasRoom (b : Boot) (h : Handoff) : Prop :=
  ∃ d ∈ h.descs, ∃ c, Candidate (fixedGuards b) (State.measure h).metadataBytes d c

/-- Boot leaves nothing to allocate, or there is room for the metadata. -/
def BootOk (b : Boot) : Prop := ∀ h, b.handoff = some h → h.mmapBase.toNat ≠ 0 →
  h.mmapSize.toNat ≠ 0 → h.mmapDescSize.toNat ≠ 0 → (State.measure h).totalPages ≠ 0 → HasRoom b h

theorem candidate_metadataGuards {d : Descriptor} {c size : ℕ} :
    Candidate (metadataGuards b) size d c ↔ Candidate (fixedGuards b) size d c := by
  have hcov := covered_normalizeRanges (fixedGuards b)
  constructor
  · rintro ⟨hu, h1, h2, h3, h4⟩
    exact ⟨hu, h1, h2, h3, fun x hx hx' hc => h4 x hx hx' ((hcov x).mpr hc)⟩
  · rintro ⟨hu, h1, h2, h3, h4⟩
    exact ⟨hu, h1, h2, h3, fun x hx hx' hc => h4 x hx hx' ((hcov x).mp hc)⟩

theorem metadataBase_ne_zero_iff (h0 : (State.measure h).totalPages ≠ 0) :
    metadataBase b h ≠ 0 ↔ HasRoom b h := by
  constructor
  · intro hb
    obtain ⟨d, hd, hc⟩ := metadataBase_spec hb
    exact ⟨d, hd, _, candidate_metadataGuards.mp hc⟩
  · rintro ⟨d, hd, c, hc⟩
    obtain ⟨h1, h2⟩ := measure_bytes h0
    exact metadataBase_ne_zero h0 hd (metadataCandidate_isSome (metadataGuards_ok b) (by omega) h2
      (candidate_metadataGuards.mpr hc))

theorem pmmInit_spec (hw : ∀ h, b.handoff = some h → h.WellFormed) (hb : BootOk b) :
    ∃ s, pmmInit b = some s ∧ Inv s := by
  have hreset : Inv State.reset := inv_of_total_eq_zero rfl rfl rfl rfl
  unfold pmmInit
  rcases hh : b.handoff with _ | h
  · simp only [pmmInitRelease, hh]
    exact ⟨_, rfl, hreset⟩
  by_cases h1 : h.mmapBase.toNat = 0 ∨ h.mmapSize.toNat = 0 ∨ h.mmapDescSize.toNat = 0
  · simp only [pmmInitRelease, hh, if_pos h1]
    exact ⟨_, rfl, hreset⟩
  by_cases h2 : (State.measure h).totalPages = 0
  · simp only [pmmInitRelease, hh, if_neg h1, if_pos (Or.inl h2)]
    exact ⟨_, rfl, inv_of_total_eq_zero h2 rfl (if_pos h2) rfl⟩
  push Not at h1
  have hroom := hb h hh h1.1 h1.2.1 h1.2.2 h2
  have hp : Placeable b h :=
    ⟨h1.1, h1.2.1, h1.2.2, h2, (metadataBase_ne_zero_iff h2).mpr hroom⟩
  obtain ⟨s, hs, hi, hsame, -⟩ := pmmInitRelease_spec hh (hw h hh) hp
  have hphys : s.metadataPhys ≠ 0 := hsame.phys ▸ hp.place
  rw [hs]
  dsimp only
  rw [if_neg hphys]
  exact reserveEarlyPool_spec hi

/-! ### The representation -/

structure Represents (s : State) : Prop where
  /-- Every page lies in exactly one block; a block is a head of some kind and order, aligned to
  its size and followed by tails, and a reserved block has order `0`. -/
  tiled : ∀ p < s.totalPages, ∃! B : Kind × ℕ × ℕ,
    BlockAt s B.1 B.2.1 B.2.2 ∧ B.2.1 ≤ p ∧ p < B.2.1 + 2 ^ B.2.2
  /-- No more tails follow a block than belong to it. -/
  ends : ∀ t a k, BlockAt s t a k → a + 2 ^ k < s.totalPages → s.pageMeta (a + 2 ^ k) ≠ metaTail
  /-- Each list ends, and holds every free head of its order once and nothing else. -/
  lists : ∀ k ≤ s.maxOrder, ∃ l : List ℕ, Chain s.freeNext invalidPage (s.freeHeads k) l ∧
    l.Nodup ∧ ∀ p, p ∈ l ↔ BlockAt s .free p k
  /-- The counter is what the free heads leave over. -/
  used : s.usedPages + ∑ p ∈ range s.totalPages, weight (s.pageMeta p) = s.totalPages
  /-- No two free blocks of one order are buddies. -/
  buddies : ∀ k < s.maxOrder, ∀ p, BlockAt s .free p k → ¬ BlockAt s .free (p ^^^ 2 ^ k) k

theorem Inv.represents (hi : Inv s) : Represents s where
  tiled p hp := by
    obtain ⟨t, a, k, hb, h₁, h₂, -⟩ := hi.tiled p hp (notMem_empty p)
    refine ⟨(t, a, k), ⟨hb, h₁, h₂⟩, ?_⟩
    rintro ⟨t', a', k'⟩ ⟨hb', h1', h2'⟩
    obtain ⟨rfl, rfl, rfl⟩ := hb.unique hb' h₁ h₂ h1' h2'
    rfl
  ends t a k hb hlt htail := by
    obtain ⟨t', a', k', hb', h₁, h₂, -⟩ := hi.tiled _ hlt (notMem_empty _)
    -- a tail there would belong to a block that also holds the last page of this one
    have hpos : 0 < 2 ^ k := by positivity
    have hne : a' ≠ a + 2 ^ k := by
      rintro rfl
      exact make_ne_tail t' hb'.order_lt (hb'.head.symm.trans htail)
    obtain ⟨-, rfl, rfl⟩ := hb.unique (p := a + 2 ^ k - 1) hb' (by omega) (by omega) (by omega)
      (by omega)
    omega
  lists k hk := by
    obtain ⟨l, hc, hl⟩ := hi.lists k hk
    refine ⟨l, hc, hc.nodup, fun p => (hl p).trans ?_⟩
    constructor
    · rintro ⟨h₁, h₂, h3⟩
      exact (hi.blockAt_of_head (t := .free) h₁ h₂ (hi.order_lt hk) h3).1
    · exact fun hb => ⟨hb.start_lt, notMem_empty p, hb.head⟩
  used := by
    have := hi.used
    rwa [sdiff_empty] at this
  buddies k hk p hb hb' :=
    hi.buddies k hk p hb.start_lt (notMem_empty p) hb.head hb'.start_lt (notMem_empty _) hb'.head

theorem not_represents_of_tail (h0 : s.totalPages ≠ 0) (ht : s.pageMeta 0 = metaTail) :
    ¬ Represents s := by
  intro hr
  obtain ⟨⟨t, a, k⟩, ⟨hb, h1, -⟩, -⟩ := hr.tiled 0 (Nat.pos_of_ne_zero h0)
  obtain rfl : a = 0 := Nat.le_zero.mp h1
  exact make_ne_tail t hb.order_lt (hb.head.symm.trans ht)

theorem pmmInit_of_not_room (hh : b.handoff = some h) (h1 : h.mmapBase.toNat ≠ 0)
    (h2 : h.mmapSize.toNat ≠ 0) (h3 : h.mmapDescSize.toNat ≠ 0)
    (h0 : (State.measure h).totalPages ≠ 0) (hr : ¬ HasRoom b h) :
    pmmInit b = some (State.measure h) := by
  have hz : metadataBase b h = 0 := by
    by_contra hc
    exact hr ((metadataBase_ne_zero_iff h0).mp hc)
  have hrel : pmmInitRelease b = some (State.measure h) := by
    simp only [pmmInitRelease, hh]
    rw [if_neg (by simp [h1, h2, h3]), if_pos (Or.inr hz)]
  rw [pmmInit, hrel]
  exact if_pos rfl

/-- **The representation holds along every run** from boot exactly if there is room for the
metadata (or nothing to allocate). -/
theorem represents_run_iff (b : Boot) (hw : ∀ h, b.handoff = some h → h.WellFormed) :
    (∃ s, pmmInit b = some s ∧ ∀ ops, ∃ s', runOps s ops = some s' ∧ Represents s') ↔ BootOk b := by
  constructor
  · rintro ⟨s, hs, hrun⟩ h hh h1 h2 h3 h0
    by_contra hroom
    obtain ⟨s', hs', hrep⟩ := hrun []
    rw [pmmInit_of_not_room hh h1 h2 h3 h0 hroom, Option.some_inj] at hs
    obtain rfl : s = s' := Option.some_inj.mp hs'
    exact not_represents_of_tail (hs ▸ h0) (hs ▸ rfl) hrep
  · intro hb
    obtain ⟨s, hs, hi⟩ := pmmInit_spec hw hb
    refine ⟨s, hs, fun ops => ?_⟩
    obtain ⟨s', hs', hi'⟩ := runOps_spec hi ops
    exact ⟨s', hs', hi'.represents⟩

/-! ### Two maps -/

def oneDescriptor (start pages : UInt64) : Handoff where
  mmapBase := 0x9000
  mmapSize := 48
  mmapDescSize := 48
  bootIdentityLimit := 0
  descAt _ := ⟨7, start, pages⟩
  size_lt := by decide

def bootOne (start pages : UInt64) : Boot where
  handoff := some (oneDescriptor start pages)
  bootImage := ⟨0x9000, 0xA000, by decide, by decide, by decide⟩
  kernelImage := ⟨0xA000, 0xB000, by decide, by decide, by decide⟩

theorem oneDescriptor_descs (start pages : UInt64) :
    (oneDescriptor start pages).descs = [⟨7, start, pages⟩] := rfl

theorem bootOne_wellFormed {start pages : UInt64}
    (hw : start.toNat + pages.toNat * pageSize < 2 ^ 64) (h : Handoff)
    (hh : (bootOne start pages).handoff = some h) : h.WellFormed := by
  obtain rfl : oneDescriptor start pages = h := Option.some_inj.mp hh
  refine ⟨?_, ?_⟩
  · exact List.pairwise_singleton _ _
  · rw [oneDescriptor_descs]
    simpa using fun _ => hw

/-- When all usable memory lies above 4 GiB, `pmm_init` leaves pages without metadata, and the
first allocation goes through the null pointer. -/
theorem high_memory_not_represented : ∃ (b : Boot) (s : State),
    (∀ h, b.handoff = some h → h.WellFormed) ∧ pmmInit b = some s ∧ ¬ Represents s ∧
      pmmAllocPage s = none := by
  refine ⟨bootOne 0x100000000 256, State.measure (oneDescriptor 0x100000000 256),
    bootOne_wellFormed (by decide), rfl, not_represents_of_tail (by decide) rfl, by decide⟩

theorem bootOne_hasRoom : HasRoom (bootOne 0x1000 15) (oneDescriptor 0x1000 15) := by
  refine ⟨⟨7, 0x1000, 15⟩, List.mem_singleton.mpr rfl, 0x1000, rfl, by decide, by decide, by decide,
    ?_⟩
  rintro x hx hx' ⟨r, hr, hr1, hr2⟩
  have hbytes : (State.measure (oneDescriptor 0x1000 15)).metadataBytes = 0x1000 := by decide
  have hg : fixedGuards (bootOne 0x1000 15) =
    [⟨0, 0x1000⟩, ⟨0x8000, 0x9000⟩, ⟨0x9000, 0xA000⟩, ⟨0xA000, 0xB000⟩] := by decide
  rw [hg] at hr
  fin_cases hr <;> simp only at hr1 hr2 <;> omega

theorem represents_run_small : ∃ s, pmmInit (bootOne 0x1000 15) = some s ∧
    ∀ ops, ∃ s', runOps s ops = some s' ∧ Represents s' :=
  (represents_run_iff (bootOne 0x1000 15) (bootOne_wellFormed (by decide))).mpr (by
    intro h hh _ _ _ _
    obtain rfl : oneDescriptor 0x1000 15 = h := Option.some_inj.mp hh
    exact bootOne_hasRoom)

end TaterTOS.Pmm
