import TaterTOS.Pmm.Invariant

/-!
# Freeing with coalescing
-/

namespace TaterTOS.Pmm

open Lib Finset

def Relinked (s s' : State) : Prop :=
  ∃ next heads, s' = { s with freeNext := next, freeHeads := heads }

theorem Relinked.refl (s : State) : Relinked s s := ⟨s.freeNext, s.freeHeads, rfl⟩

theorem Relinked.trans {s1 s2 s3 : State} (h1 : Relinked s1 s2) (h2 : Relinked s2 s3) :
    Relinked s1 s3 := by
  obtain ⟨n, d, rfl⟩ := h1
  obtain ⟨n', d', rfl⟩ := h2
  exact ⟨n', d', rfl⟩

variable {s s' : State}

theorem Relinked.pageMeta (h : Relinked s s') : s'.pageMeta = s.pageMeta := by
  obtain ⟨n, d, rfl⟩ := h
  rfl

theorem Relinked.total (h : Relinked s s') : s'.totalPages = s.totalPages := by
  obtain ⟨n, d, rfl⟩ := h
  rfl

theorem Relinked.max (h : Relinked s s') : s'.maxOrder = s.maxOrder := by
  obtain ⟨n, d, rfl⟩ := h
  rfl

structure SameGeometry (s s' : State) : Prop where
  total : s'.totalPages = s.totalPages
  maxOrder : s'.maxOrder = s.maxOrder
  phys : s'.metadataPhys = s.metadataPhys
  bytes : s'.metadataBytes = s.metadataBytes
  early : s'.earlyAllocLimit = s.earlyAllocLimit

theorem SameGeometry.trans {s1 s2 s3 : State} (h1 : SameGeometry s1 s2)
    (h2 : SameGeometry s2 s3) : SameGeometry s1 s3 :=
  ⟨h2.1.trans h1.1, h2.2.trans h1.2, h2.3.trans h1.3, h2.4.trans h1.4, h2.5.trans h1.5⟩

variable {s s' : State} {H : Finset ℕ} {e a k p : ℕ}

theorem InvOff.findFree_spec (h : InvOff s H e) (hk : k ≤ s.maxOrder) (ok : ℕ → Bool) :
    (findFree s k ok = some none ∧ ∀ p < s.totalPages, p ∉ H → s.pageMeta p = metaMakeFree k →
      ok p = false) ∨
    ∃ l1 a l2, Chain s.freeNext invalidPage (s.freeHeads k) (l1 ++ a :: l2) ∧
      (∀ p, p ∈ l1 ++ a :: l2 ↔ p < s.totalPages ∧ p ∉ H ∧ s.pageMeta p = metaMakeFree k) ∧
      ok a = true ∧ findFree s k ok = some (some (l1.getLast?.getD invalidPage, a)) := by
  obtain ⟨l, hc, hl⟩ := h.lists k hk
  have hlen : l.length < s.totalPages + 1 :=
    Nat.lt_succ_of_le (hc.length_le fun p hp => ((hl p).mp hp).1)
  rcases walk_spec ok invalidPage hc hlen with ⟨hw, hall⟩ | ⟨l1, a, l2, rfl, hok, hw⟩
  · exact .inl ⟨hw, fun p h1 h2 h3 => hall p ((hl p).mpr ⟨h1, h2, h3⟩)⟩
  · exact .inr ⟨l1, a, l2, hc, hl, hok, hw⟩

theorem removeFreeBlock_spec (h : InvOff s H e) (hk : k ≤ s.maxOrder) (ha : a < s.totalPages)
    (haH : a ∉ H) (hm : s.pageMeta a = metaMakeFree k) :
    ∃ s', removeFreeBlock s a k = some (true, s') ∧ Relinked s s' ∧
      InvOff s' (H ∪ block a k) (e + 2 ^ k) := by
  rcases h.findFree_spec hk (· == a) with ⟨-, hall⟩ | ⟨l1, b, l2, hc, hl, hok, hw⟩
  · simpa using hall a ha haH hm
  · obtain rfl : b = a := by simpa using hok
    refine ⟨unlink s k _ b, ?_, ⟨_, _, rfl⟩, h.take hk hc hl⟩
    simp only [removeFreeBlock, hw]

theorem union_buddy (hd : 2 ^ k ∣ a) : 2 ^ (k + 1) ∣ (if a ^^^ 2 ^ k < a then a ^^^ 2 ^ k else a) ∧
    block a k ∪ block (a ^^^ 2 ^ k) k =
      block (if a ^^^ 2 ^ k < a then a ^^^ 2 ^ k else a) (k + 1) := by
  rcases buddy_cases hd with ⟨hd', hb⟩ | ⟨hb, hd'⟩
  · rw [if_neg (by omega)]
    refine ⟨hd', ?_⟩
    ext q
    simp only [mem_union, mem_Ico]
    omega
  · rw [if_pos (by omega)]
    refine ⟨hd', ?_⟩
    ext q
    simp only [mem_union, mem_Ico]
    omega

/-- What the merge loop holds in the end: a block around the first one, grown by free blocks,
whose buddy is out of range or not free. -/
structure Merged (s : State) (a k : ℕ) (s' : State) (a' k' : ℕ) : Prop where
  relinked : Relinked s s'
  le_max : k' ≤ s.maxOrder
  inv : InvOff s' (Ico a' (a' + 2 ^ k')) (2 ^ k')
  dvd : 2 ^ k' ∣ a'
  le : a' + 2 ^ k' ≤ s.totalPages
  sub : Ico a (a + 2 ^ k) ⊆ Ico a' (a' + 2 ^ k')
  grown : ∀ p ∈ Ico a' (a' + 2 ^ k'), p ∉ Ico a (a + 2 ^ k) → PageIs s .free p
  buddy : k' < s.maxOrder → a' ^^^ 2 ^ k' < s.totalPages →
    s.pageMeta (a' ^^^ 2 ^ k') ≠ metaMakeFree k'

theorem coalesce_spec : ∀ (n : ℕ) {s : State} {a k : ℕ}, s.maxOrder - k = n → k ≤ s.maxOrder →
    InvOff s (block a k) (2 ^ k) → 2 ^ k ∣ a → a + 2 ^ k ≤ s.totalPages →
    ∃ s' a' k', coalesce n s a k = some (s', a', k') ∧ Merged s a k s' a' k'
  | 0, s, a, k, hn, hk, h, hd, hle =>
    ⟨s, a, k, rfl, Relinked.refl s, hk, h, hd, hle, subset_rfl, fun _ hp hp' => absurd hp hp',
      fun hlt => absurd hlt (by omega)⟩
  | n + 1, s, a, k, hn, hk, h, hd, hle => by
    have hk6 := h.order_lt hk
    -- every way out of the loop leaves the block in hand as it is
    have hstop : (k < s.maxOrder → a ^^^ 2 ^ k < s.totalPages →
        s.pageMeta (a ^^^ 2 ^ k) ≠ metaMakeFree k) → Merged s a k s a k := fun hb =>
      ⟨Relinked.refl s, hk, h, hd, hle, subset_rfl, fun _ hp hp' => absurd hp hp', hb⟩
    simp only [coalesce, orderPages_eq hk6]
    by_cases hq : s.totalPages ≤ a ^^^ 2 ^ k
    · rw [if_pos hq]
      exact ⟨s, a, k, rfl, hstop fun _ hlt => absurd hlt (by omega)⟩
    rw [if_neg hq]
    have hqH : a ^^^ 2 ^ k ∉ block a k := by
      rw [mem_Ico]
      have hpos : 0 < 2 ^ k := by positivity
      rcases buddy_cases hd with ⟨-, hb⟩ | ⟨hb, -⟩ <;> omega
    by_cases hm : s.pageMeta (a ^^^ 2 ^ k) = metaMakeFree k
    · have hf : (!metaIsFree (s.pageMeta (a ^^^ 2 ^ k)) ||
          metaOrder (s.pageMeta (a ^^^ 2 ^ k)) != k) = false := by
        have h1 := metaIsFree_make .free hk6
        have h2 := metaOrder_make .free hk6
        simp only [Kind.make] at h1 h2
        rw [hm, h1, h2]
        simp
      rw [hf]
      obtain ⟨s1, hr, hrel, h1⟩ := removeFreeBlock_spec h hk (by omega) hqH hm
      obtain ⟨hbk, -⟩ := h.blockAt_of_head (t := .free) (by omega) hqH hk6 hm
      obtain ⟨hd', hu⟩ := union_buddy hd
      rw [hu, ← two_mul, ← pow_succ'] at h1
      rw [hr]
      obtain ⟨nx, hs, rfl⟩ := hrel
      set a1 := if a ^^^ 2 ^ k < a then a ^^^ 2 ^ k else a with ha1
      have hle1 : a1 + 2 ^ (k + 1) ≤ s.totalPages := by
        have := hbk.le
        rw [pow_succ]
        rcases buddy_cases hd with ⟨-, hb⟩ | ⟨hb, -⟩ <;> split_ifs at ha1 <;> omega
      obtain ⟨s', a', k', hc, hmg⟩ := coalesce_spec n (by simp; omega) (by simp; omega) h1 hd' hle1
      refine ⟨s', a', k', hc, Relinked.trans ⟨nx, hs, rfl⟩ hmg.relinked, hmg.le_max, hmg.inv,
        hmg.dvd, hmg.le, ?_, ?_, hmg.buddy⟩
      · have hsub : block a k ⊆ block a1 (k + 1) := hu ▸ subset_union_left
        exact hsub.trans hmg.sub
      · intro p hp hpI
        by_cases hp1 : p ∈ block a1 (k + 1)
        · rw [← hu, mem_union] at hp1
          exact ⟨_, k, hbk, mem_Ico.mp (hp1.resolve_left hpI)⟩
        · obtain ⟨b, j, hb, hb1, hb2⟩ := hmg.grown p hp hp1
          exact ⟨b, j, hb.congr rfl fun _ _ _ => rfl, hb1, hb2⟩
    · have hf : (!metaIsFree (s.pageMeta (a ^^^ 2 ^ k)) ||
          metaOrder (s.pageMeta (a ^^^ 2 ^ k)) != k) = true := by
        by_contra hc
        simp only [Bool.or_eq_true, Bool.not_eq_true', bne_iff_ne, ne_eq, not_or,
          Bool.not_eq_false, not_not] at hc
        have hb := h.blockAt_of_isFree (by omega) hqH hc.1
        rw [hc.2] at hb
        exact hm hb.head
      rw [hf]
      exact ⟨s, a, k, rfl, hstop fun _ _ => hm⟩

/-! ### The status of pages -/

theorem InvOff.pageIs_of_congr (h : InvOff s H e) (ht : s'.totalPages = s.totalPages)
    (hm : ∀ q ∉ H, s'.pageMeta q = s.pageMeta q) {t : Kind} (hp : p ∉ H) (hs : PageIs s t p) :
    PageIs s' t p := by
  obtain ⟨a, k, hb, h₁, h₂⟩ := hs
  have hlt : p < s.totalPages := by have := hb.le; omega
  obtain ⟨t', a', k', hb', h1', h2', hd⟩ := h.tiled p hlt hp
  obtain ⟨rfl, rfl, rfl⟩ := hb.unique hb' h₁ h₂ h1' h2'
  refine ⟨a, k, hb.congr ht fun q hq hq' => hm q ?_, h₁, h₂⟩
  exact Finset.disjoint_left.mp hd (mem_Ico.mpr ⟨hq, hq'⟩)

theorem Inv.pageIs (h : Inv s) (hp : p < s.totalPages) : ∃ t, PageIs s t p := by
  obtain ⟨t, a, k, hb, h1, h2, -⟩ := h.tiled p hp (notMem_empty p)
  exact ⟨t, a, k, hb, h1, h2⟩

theorem PageIs.congr_meta {t : Kind} (h : PageIs s t p) (hm : s'.pageMeta = s.pageMeta)
    (ht : s'.totalPages = s.totalPages) : PageIs s' t p := by
  obtain ⟨a, k, hb, h1, h2⟩ := h
  exact ⟨a, k, hb.congr ht fun q _ _ => congrFun hm q, h1, h2⟩

theorem PageIs.lt {t : Kind} (h : PageIs s t p) : p < s.totalPages := by
  obtain ⟨a, k, hb, -, h2⟩ := h
  have := hb.le
  omega

theorem Inv.pageIs_iff (h : Inv s) (ht : s'.totalPages = s.totalPages)
    (hto : ∀ t, PageIs s t p → PageIs s' t p) (t : Kind) : PageIs s' t p ↔ PageIs s t p := by
  refine ⟨fun hp => ?_, hto t⟩
  obtain ⟨t0, hp0⟩ := h.pageIs (ht ▸ hp.lt)
  obtain rfl := (hto t0 hp0).unique hp
  exact hp0

theorem insertFreeBlock_of_notMem (hk : k < 64) (hp : p ∉ block a k) :
    (insertFreeBlock s a k).pageMeta p = s.pageMeta p :=
  setBlockMeta_of_notMem s (metaMakeFree k) hk hp

theorem blockAt_insertFreeBlock (hk : k < 64) (hd : 2 ^ k ∣ a) (hle : a + 2 ^ k ≤ s.totalPages) :
    BlockAt (insertFreeBlock s a k) .free a k :=
  (blockAt_setBlockMeta s .free hk hd hle (by simp)).congr rfl fun _ _ _ => rfl

structure Freed (s s' : State) (I : Set ℕ) : Prop where
  same : SameGeometry s s'
  free : ∀ p, PageIs s' .free p ↔ PageIs s .free p ∨ p ∈ I
  other : ∀ t ≠ Kind.free, ∀ p, PageIs s' t p ↔ PageIs s t p ∧ p ∉ I

/-- **Freeing.** Giving up blocks that are not free and fill `[a, a + 2 ^ k)` keeps the invariant
and makes exactly their pages free. -/
theorem freeBlock_spec (h : Inv s) (hk : k ≤ s.maxOrder) (hd : 2 ^ k ∣ a)
    (hle : a + 2 ^ k ≤ s.totalPages)
    (hI : ∀ p ∈ block a k, ∃ t b j, BlockAt s t b j ∧ t ≠ .free ∧ b ≤ p ∧ p < b + 2 ^ j ∧
      block b j ⊆ block a k) :
    ∃ s', freeBlock s a k = some s' ∧ Inv s' ∧ Freed s s' (block a k) := by
  have hk6 := h.order_lt hk
  obtain ⟨hge, h0⟩ := InvOff.open h hle hI
  have hu : sub64 s.usedPages (orderPages k) = s.usedPages - 2 ^ k := by
    rw [orderPages_eq hk6, sub64_of_le hge]
    have := h.used
    have := h.geometry.total_le
    omega
  set s0 : State := { s with usedPages := s.usedPages - 2 ^ k } with hs0
  obtain ⟨s1, a', k', hc, hmg⟩ := @coalesce_spec (s.maxOrder - k) s0 a k rfl hk h0 hd hle
  have hk' : k' ≤ s1.maxOrder := hmg.relinked.max ▸ hmg.le_max
  have hk'6 := hmg.inv.order_lt hk'
  have hle' : a' + 2 ^ k' ≤ s1.totalPages := hmg.relinked.total ▸ hmg.le
  have hbd : k' < s1.maxOrder → a' ^^^ 2 ^ k' < s1.totalPages →
      s1.pageMeta (a' ^^^ 2 ^ k') ≠ metaMakeFree k' := fun h2 h3 => by
    rw [hmg.relinked.pageMeta]
    exact hmg.buddy (hmg.relinked.max ▸ h2) (hmg.relinked.total ▸ h3)
  have hi : InvOff (insertFreeBlock s1 a' k') _ 0 :=
    InvOff.insert (by simpa using hmg.inv) hk' hmg.dvd hle' subset_rfl fun h2 h3 _ => hbd h2 h3
  rw [Finset.sdiff_self] at hi
  have heq : freeBlock s a k = some (insertFreeBlock s1 a' k') := by
    simp only [freeBlock, hu]
    rw [hc]
  refine ⟨_, heq, hi, ?_⟩
  · have hb' : BlockAt (insertFreeBlock s1 a' k') .free a' k' :=
      blockAt_insertFreeBlock hk'6 hmg.dvd hle'
    have hmeta1 : s1.pageMeta = s.pageMeta := hmg.relinked.pageMeta
    have ht1 : s1.totalPages = s.totalPages := hmg.relinked.total
    have hin : ∀ q ∈ block a' k', PageIs (insertFreeBlock s1 a' k') .free q := fun q hq =>
      ⟨a', k', hb', mem_Ico.mp hq⟩
    have hout : ∀ q ∉ block a' k', (insertFreeBlock s1 a' k').pageMeta q = s1.pageMeta q :=
      fun q hq => insertFreeBlock_of_notMem hk'6 hq
    have htot : (insertFreeBlock s1 a' k').totalPages = s1.totalPages := rfl
    have hkeep : ∀ {q}, q ∉ block a' k' → ∀ t,
        PageIs (insertFreeBlock s1 a' k') t q ↔ PageIs s t q := fun hq =>
      h.pageIs_iff (htot.trans ht1) fun _ hp =>
        hmg.inv.pageIs_of_congr htot hout hq (hp.congr_meta hmeta1 ht1)
    have hgrown : ∀ q ∈ block a' k', q ∉ block a k → PageIs s .free q :=
      fun q hq hqI => (hmg.grown q hq hqI).congr_meta rfl rfl
    -- pages outside the block in hand keep their status, those inside were free or in `I`
    have hsame : SameGeometry s (insertFreeBlock s1 a' k') := by
      obtain ⟨n, d, rfl⟩ := hmg.relinked
      exact ⟨rfl, rfl, rfl, rfl, rfl⟩
    refine ⟨hsame, fun q => ?_, fun t ht q => ?_⟩
    · by_cases hq : q ∈ block a' k'
      · refine iff_of_true (hin q hq) ?_
        by_cases hqI : q ∈ block a k
        · exact .inr hqI
        · exact .inl (hgrown q hq hqI)
      · rw [hkeep hq, mem_coe, or_iff_left fun hc => hq (hmg.sub hc)]
    · constructor
      · intro hp
        have hq : q ∉ block a' k' := fun hc => ht (hp.unique (hin q hc))
        exact ⟨(hkeep hq t).mp hp, fun hc => hq (hmg.sub hc)⟩
      · rintro ⟨hp, hqI⟩
        exact (hkeep (fun hc => ht (hp.unique (hgrown q hc hqI))) t).mpr hp

/-! ### The exported call -/

theorem Inv.blockAt_of_isUsed (h : Inv s) (hp : p < s.totalPages)
    (hu : metaIsUsed (s.pageMeta p) = true) :
    BlockAt s .used p (metaOrder (s.pageMeta p)) := by
  have hnt : s.pageMeta p ≠ metaTail := by
    intro ht
    rw [ht] at hu
    exact absurd hu (by decide)
  obtain ⟨t, k, hb, -⟩ := h.blockAt hp (notMem_empty p) hnt
  rw [hb.head, metaIsUsed_make t hb.order_lt, decide_eq_true_eq] at hu
  subst hu
  rwa [hb.head, metaOrder_make _ hb.order_lt]

/-- **`pmm_free_pages`** answers for every argument: it frees the used block that starts at the
page, and does nothing when there is none. -/
theorem pmmFreePages_spec (h : Inv s) (phys count : ℕ) :
    ∃ s', pmmFreePages s phys count = some s' ∧ Inv s' ∧
      (s' = s ∨ ∃ k, BlockAt s .used (phys / pageSize) k ∧
        Freed s s' (Ico (phys / pageSize) (phys / pageSize + 2 ^ k))) := by
  unfold pmmFreePages
  by_cases h0 : phys = 0
  · rw [if_pos h0]
    exact ⟨s, rfl, h, Or.inl rfl⟩
  by_cases h1 : s.totalPages ≤ phys / pageSize
  · simp only [if_neg h0, if_pos h1]
    exact ⟨s, rfl, h, Or.inl rfl⟩
  have hlt : phys / pageSize < s.totalPages := not_le.mp h1
  have hphys : s.metadataPhys ≠ 0 := h.geometry.bound (Nat.ne_zero_of_lt hlt)
  by_cases hu : metaIsUsed (s.pageMeta (phys / pageSize)) = true
  · have hb := h.blockAt_of_isUsed hlt hu
    obtain ⟨s', hf, hi, hfr⟩ := freeBlock_spec h (h.order_le hb) hb.dvd hb.le fun p hp =>
      ⟨.used, _, _, hb, by decide, (mem_Ico.mp hp).1, (mem_Ico.mp hp).2, subset_rfl⟩
    refine ⟨s', ?_, hi, Or.inr ⟨_, hb, hfr⟩⟩
    simp only [if_neg h0, if_neg h1, if_neg hphys, hu]
    exact hf
  · simp only [if_neg h0, if_neg h1, if_neg hphys, Bool.not_eq_true] at hu ⊢
    rw [hu]
    exact ⟨s, rfl, h, Or.inl rfl⟩

end TaterTOS.Pmm
