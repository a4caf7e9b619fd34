import TaterTOS.Pmm.Runs

/-!
# Allocation in a range of addresses

* `Reachable`: the states after boot on a well-formed map and any calls;
* `RangeExact`: the answer to a request for pages in a range of addresses is a free block there, and
  `0` only if there is none;
* `reachable_rangeExact`: this holds in every reachable state, for every count but `0` and every
  start that rounds up without wrapping.
-/

namespace TaterTOS.Pmm

open Lib Finset

def Reachable (s : State) : Prop :=
  ∃ b : Boot, (∀ h, b.handoff = some h → h.WellFormed) ∧
    ∃ s₀ ops, pmmInit b = some s₀ ∧ runOps s₀ ops = some s

variable {s s' : State}

/-! ### Without metadata -/

structure IsNull (s : State) : Prop where
  total : s.totalPages ≠ 0
  phys : s.metadataPhys = 0
  tails : ∀ p, s.pageMeta p = metaTail
  heads : ∀ k, s.freeHeads k = invalidPage
  pool : s.earlyPoolStart = 0

theorem IsNull.not_pageIs (hn : IsNull s) (t : Kind) (p : ℕ) : ¬ PageIs s t p := by
  rintro ⟨a, k, hb, -⟩
  exact make_ne_tail t hb.order_lt (hb.head.symm.trans (hn.tails a))

theorem IsNull.alloc (hn : IsNull s) {count lo hi p : ℕ}
    (hr : allocPagesRangeLocked s count lo hi = some (p, s')) : p = 0 ∧ s' = s := by
  unfold allocPagesRangeLocked at hr
  dsimp only at hr
  split_ifs at hr with h1 h2 h3 h4
  · simpa [eq_comm] using hr
  · simpa [eq_comm] using hr
  · simpa [eq_comm] using hr
  · exact absurd hn.phys h4

theorem IsNull.run (hn : IsNull s) {op : Op} {p : ℕ} (hr : op.run s = some (p, s')) : s' = s := by
  have hsame : ∀ {q}, some (q, s) = some (p, s') → s' = s := fun hq =>
    (congrArg Prod.snd (Option.some.inj hq)).symm
  cases op with
  | allocPage | allocPageBelow => exact (hn.alloc hr).2
  | allocEarlyLow =>
    simp only [Op.run, pmmAllocEarlyLow] at hr
    split_ifs at hr with h1 h2
    · exact absurd hn.pool h1.1
    · exact hsame hr
    · exact (hn.alloc hr).2
  | allocPages | allocPagesRange | allocPagesBelow =>
    simp only [Op.run, pmmAllocPages, pmmAllocPagesRange, pmmAllocPagesBelow] at hr
    split_ifs at hr with h1
    · exact hsame hr
    · exact (hn.alloc hr).2
  | freePages q c =>
    simp only [Op.run, pmmFreePages] at hr
    split_ifs at hr with h1 h2 h3 h4
    · exact hsame hr
    · exact hsame hr
    · simp at hr
    · exact absurd hn.phys h3
    · exact absurd hn.phys h3

theorem IsNull.runOps (hn : IsNull s) : ∀ {ops : List Op}, runOps s ops = some s' → s' = s := by
  intro ops
  induction ops with
  | nil => exact fun hr => (Option.some_inj.mp hr).symm
  | cons op ops ih =>
    intro hr
    rw [Pmm.runOps] at hr
    rcases ho : op.run s with _ | ⟨p, s₁⟩
    · simp [ho] at hr
    · obtain rfl := hn.run ho
      rw [ho] at hr
      exact ih hr

theorem reachable_cases (hs : Reachable s) : Inv s ∨ IsNull s := by
  obtain ⟨b, hw, s₀, ops, h0, hr⟩ := hs
  by_cases hb : BootOk b
  · obtain ⟨s₁, h1, hi⟩ := pmmInit_spec hw hb
    obtain rfl : s₁ = s₀ := Option.some_inj.mp (h1.symm.trans h0)
    obtain ⟨s', hs', hi'⟩ := runOps_spec hi ops
    obtain rfl : s' = s := Option.some_inj.mp (hs'.symm.trans hr)
    exact .inl hi'
  · simp only [BootOk, not_forall] at hb
    obtain ⟨h, hh, h1, h2, h3, htot, hroom⟩ := hb
    rw [pmmInit_of_not_room hh h1 h2 h3 htot hroom, Option.some_inj] at h0
    subst h0
    have hn : IsNull (State.measure h) := ⟨htot, rfl, fun _ => rfl, fun _ => rfl, rfl⟩
    rw [hn.runOps hr]
    exact .inr hn

/-! ### The window -/

theorem windowMin_le_iff {minPhys x : ℕ} (hm : minPhys + pageSize ≤ 2 ^ 64) :
    windowMin minPhys ≤ x ↔ max minPhys pageSize ≤ x * pageSize := by
  have hup : alignUp minPhys pageSize / pageSize = (minPhys + pageSize - 1) / pageSize := by
    rw [pageSize_eq] at *
    rw [alignUp_two_pow (by norm_num) (by omega), Nat.mul_div_cancel _ (by norm_num)]
  unfold windowMin
  unfold pageSize at *
  split_ifs <;> omega

theorem le_windowMax_iff {total maxPhys x : ℕ} :
    x ≤ windowMax total maxPhys ↔ x ≤ total ∧ x * pageSize ≤ maxPhys := by
  unfold windowMax pageSize
  split_ifs <;> omega

/-! ### The call -/

/-- `pmm_alloc_pages_range` at these arguments. With `k` the least order of `count` pages: an
answer other than `0` is an aligned run of `2 ^ k` pages in the range that was free and is used,
and no other page changes; the answer `0` means that there is no such run; and every block that
the search finds can be split down to the order. -/
structure RangeExact (s : State) (count minPhys maxPhys : ℕ) : Prop where
  answers : (s.totalPages ≠ 0 → s.metadataPhys ≠ 0) →
    (pmmAllocPagesRange s count minPhys maxPhys).isSome
  sound : ∀ p s', pmmAllocPagesRange s count minPhys maxPhys = some (p, s') → p ≠ 0 →
    pageSize ∣ p ∧ 2 ^ Nat.clog 2 count ∣ p / pageSize ∧ minPhys ≤ p ∧
      p + 2 ^ Nat.clog 2 count * pageSize ≤ maxPhys ∧
      Taken s s' (Ico (p / pageSize) (p / pageSize + 2 ^ Nat.clog 2 count))
  complete : ∀ s', pmmAllocPagesRange s count minPhys maxPhys = some (0, s') →
    ∀ x, FreeRun s (Nat.clog 2 count) x → max minPhys pageSize ≤ x * pageSize →
      maxPhys < (x + 2 ^ Nat.clog 2 count) * pageSize
  split : ∀ order prev cur, Nat.clog 2 count ≤ order → order ≤ s.maxOrder →
    findFree s order (blockCanSatisfy · order (Nat.clog 2 count) (windowMin minPhys)
      (windowMax s.totalPages maxPhys)) = some (some (prev, cur)) →
    ∃ s' block, splitBlock s prev cur order (Nat.clog 2 count) (windowMin minPhys)
      (windowMax s.totalPages maxPhys) = .done s' block

theorem pmmAllocPagesRange_eq (s : State) {count minPhys maxPhys : ℕ} (hc : count ≠ 0)
    (hlt : minPhys < maxPhys) : pmmAllocPagesRange s count minPhys maxPhys =
      allocPagesRangeLocked s count minPhys maxPhys := if_neg (by omega)

theorem Inv.rangeExact (hi : Inv s) {count minPhys maxPhys : ℕ} (hc : count ≠ 0)
    (hm : minPhys + pageSize ≤ 2 ^ 64) (hlt : minPhys < maxPhys) :
    RangeExact s count minPhys maxPhys := by
  have hcall := pmmAllocPagesRange_eq s hc hlt
  have hps : 0 < pageSize := by decide
  have hpos : 0 < 2 ^ Nat.clog 2 count := by positivity
  rcases allocPagesRangeLocked_spec hi hc minPhys maxPhys with ⟨x, s₁, hr, ha⟩ | ⟨hr, hno⟩
  · have hlo := (windowMin_le_iff hm).mp ha.lo_le
    have hhi := (le_windowMax_iff.mp ha.le_hi).2
    have hx : x * pageSize ≠ 0 := by
      omega
    refine ⟨fun _ => by rw [hcall, hr]; rfl, fun p s' hp _ => ?_, fun s' hp => ?_,
      fun order prev cur h1 h2 hf => ?_⟩
    · obtain ⟨rfl, rfl⟩ : x * pageSize = p ∧ s₁ = s' := by
        simpa using hr.symm.trans (hcall.symm.trans hp)
      rw [Nat.mul_div_cancel _ hps]
      refine ⟨Nat.dvd_mul_left _ _, ha.dvd, (le_max_left _ _).trans hlo, ?_, ha.taken⟩
      rwa [← add_mul]
    · obtain ⟨hz, -⟩ : x * pageSize = 0 ∧ s₁ = s' := by
        simpa using hr.symm.trans (hcall.symm.trans hp)
      exact absurd hz hx
    · obtain ⟨s', block, hs, -⟩ := splitBlock_spec hi h1 h2 hf
      exact ⟨s', block, hs⟩
  · refine ⟨fun _ => by rw [hcall, hr]; rfl, fun p s' hp hne => ?_, fun s' _ x hx hlo => ?_,
      fun order prev cur h1 h2 hf => ?_⟩
    · obtain ⟨hz, -⟩ : 0 = p ∧ s = s' := by simpa using hr.symm.trans (hcall.symm.trans hp)
      exact absurd hz.symm hne
    · have hlt := hno x hx ((windowMin_le_iff hm).mpr hlo)
      by_contra hle
      refine absurd (le_windowMax_iff.mpr ⟨?_, not_lt.mp hle⟩) (not_le.mpr hlt)
      have := (hx.2 (x + 2 ^ Nat.clog 2 count - 1) (mem_Ico.mpr (by omega))).lt
      omega
    · obtain ⟨s', block, hs, -⟩ := splitBlock_spec hi h1 h2 hf
      exact ⟨s', block, hs⟩

theorem IsNull.rangeExact (hn : IsNull s) {count minPhys maxPhys : ℕ} (hc : count ≠ 0)
    (hlt : minPhys < maxPhys) : RangeExact s count minPhys maxPhys := by
  have hcall := pmmAllocPagesRange_eq s hc hlt
  refine ⟨fun hne => absurd hn.phys (hne hn.total), fun p s' hp hne => ?_, fun s' _ x hx _ => ?_,
    fun order prev cur _ _ hf => ?_⟩
  · rw [hcall] at hp
    exact absurd (hn.alloc hp).1 hne
  · exact absurd (hx.2 x (mem_block x _)) (hn.not_pageIs _ _)
  · -- all lists are empty
    rw [findFree, hn.heads order, walk] at hf
    simp at hf

/-- **Range allocation** is sound and complete in every reachable state, for every count but `0`
and every start that rounds up to a page without wrapping. -/
theorem reachable_rangeExact (hs : Reachable s) (count minPhys maxPhys : UInt64)
    (hc : 1 ≤ count.toNat) (hm : minPhys.toNat ≤ 2 ^ 64 - 4096)
    (hlt : minPhys.toNat < maxPhys.toNat) :
    RangeExact s count.toNat minPhys.toNat maxPhys.toNat := by
  have hm' : minPhys.toNat + pageSize ≤ 2 ^ 64 := by
    unfold pageSize
    omega
  rcases reachable_cases hs with hi | hn
  · exact hi.rangeExact (by omega) hm' hlt
  · exact hn.rangeExact (by omega) hlt

theorem small_reachable : ∃ s, pmmInit (bootOne 0x1000 15) = some s ∧ Inv s ∧ Reachable s := by
  have hw := @bootOne_wellFormed 0x1000 15 (by decide)
  obtain ⟨s, hs, hi⟩ := pmmInit_spec hw (by
    intro h hh _ _ _ _
    obtain rfl : oneDescriptor 0x1000 15 = h := Option.some_inj.mp hh
    exact bootOne_hasRoom)
  exact ⟨s, hs, hi, _, hw, s, [], hs, rfl⟩

theorem small_rangeExact : ∃ s, Reachable s ∧ RangeExact s 3 0x1000 0x10000 := by
  obtain ⟨s, -, -, hr⟩ := small_reachable
  exact ⟨s, hr, reachable_rangeExact hr 3 0x1000 0x10000 (by decide) (by decide) (by decide)⟩

/-- A count of `0` is answered with `0` although there is a free page, and a start in the last
page of the address space wraps to `0`, so that the answer lies below it. -/
theorem rangeExact_fails : ∃ s, Reachable s ∧ ¬ RangeExact s 0 0x1000 0x10000 ∧
    ¬ RangeExact s 1 (2 ^ 64 - 2) (2 ^ 64 - 1) := by
  obtain ⟨s, hs, hi, hr⟩ := small_reachable
  have hone : ((pmmInit (bootOne 0x1000 15)).bind fun s =>
      (pmmAllocPagesRange s 1 0x1000 0x10000).map Prod.fst) = some 0xB000 := by decide +kernel
  have hwrap : ((pmmInit (bootOne 0x1000 15)).bind fun s =>
      (pmmAllocPagesRange s 1 (2 ^ 64 - 2) (2 ^ 64 - 1)).map Prod.fst) = some 0xB000 := by
    decide +kernel
  rw [hs, Option.bind_some, Option.map_eq_some_iff] at hone hwrap
  obtain ⟨⟨p, s₁⟩, hone, rfl⟩ := hone
  obtain ⟨⟨p', s₂⟩, hwrap, rfl⟩ := hwrap
  refine ⟨s, hr, fun hex => ?_, fun hex => ?_⟩
  · have hex1 := @Inv.rangeExact s hi 1 0x1000 0x10000 (by decide) (by decide) (by decide)
    obtain ⟨-, -, -, -, htk⟩ := hex1.sound _ _ hone (by decide)
    have hrun : FreeRun s (Nat.clog 2 0) 11 :=
      ⟨by decide, fun q hq => htk.was q (by simpa [pageSize] using hq)⟩
    exact absurd (hex.complete s rfl 11 hrun (by decide)) (by decide)
  · exact absurd (hex.sound _ _ hwrap (by decide)).2.2.1 (by decide)

/-- **A block is freed once**: freeing it again changes nothing. -/
theorem free_twice (hs : Reachable s) {phys count count' : UInt64}
    (hr : pmmFreePages s phys.toNat count.toNat = some s') :
    pmmFreePages s' phys.toNat count'.toNat = some s' := by
  rcases reachable_cases hs with hi | hn
  · obtain ⟨s1, h1, hi1, hcase⟩ := pmmFreePages_spec hi phys.toNat count.toNat
    cases h1.symm.trans hr
    obtain ⟨s2, h2, -, rfl | ⟨k', hb', -⟩⟩ := pmmFreePages_spec hi1 phys.toNat count'.toNat
    · exact h2
    rcases hcase with rfl | ⟨k, -, hf⟩
    · exact hr
    -- no used block starts at a free page
    have hfree := (hf.free _).mpr (.inr (mem_coe.mpr (mem_block _ k)))
    exact absurd (hfree.unique ⟨_, k', hb', mem_Ico.mp (mem_block _ k')⟩) (by decide)
  · obtain rfl := @IsNull.run _ _ hn (.freePages phys count) 0 (by rw [Op.run, hr]; rfl)
    exact hr

theorem small_free_twice : ∃ s s', pmmFreePages s 0xB000 1 = some s' ∧
    s'.usedPages < s.usedPages ∧ pmmFreePages s' 0xB000 9 = some s' := by
  obtain ⟨s₀, h₀, hi, -⟩ := small_reachable
  obtain ⟨p, s, hp, hi'⟩ := Op.run_spec hi .allocPage
  obtain ⟨s', hr, -⟩ := pmmFreePages_spec hi' 0xB000 1
  have hused : ((pmmInit (bootOne 0x1000 15)).bind fun s => (Op.allocPage.run s).bind fun r =>
      (pmmFreePages r.2 0xB000 1).map fun s' => decide (s'.usedPages < r.2.usedPages)) =
      some true := by decide +kernel
  have hs : Reachable s :=
    ⟨_, bootOne_wellFormed (by decide), s₀, [.allocPage], h₀, by simp [runOps, hp]⟩
  exact ⟨s, s', hr, by simpa [h₀, hp, hr] using hused, @free_twice _ _ hs 0xB000 1 9 hr⟩

end TaterTOS.Pmm
