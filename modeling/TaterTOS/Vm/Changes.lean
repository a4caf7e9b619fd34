import TaterTOS.Vm.Mappings

/-!
# Changes of mappings

What `SYS_MUNMAP` and `SYS_MPROTECT` can do to a process.
-/

namespace TaterTOS.Vm

open Lib Vmm Slots List

variable {s : State} {base length prot : ℕ} {slots : List Slot}

/-! ### The table is left alone -/

section

@[simp] theorem allocPage_regions (s : State) : (pmmAllocPage s).2.regions = s.regions := by
  obtain ⟨a, s', he, -, -, -, ⟨-, ht⟩ | ⟨-, -, ht⟩⟩ := allocPage_spec s <;> rw [he] <;>
    exact ht.regions

@[simp] theorem freePage_regions (s : State) (a : ℕ) : (pmmFreePage s a).regions = s.regions := rfl

@[simp] theorem unmapUser_regions (s : State) (virt : ℕ) :
    (vmmUnmapUser s virt).regions = s.regions := by
  unfold vmmUnmapUser
  split_ifs <;> rfl

@[simp] theorem mapUser_regions (s : State) (virt phys flags : ℕ) :
    (vmmMapUser s virt phys flags).regions = s.regions := by
  by_cases hv : virt < userVaTop
  · obtain ⟨new, ht, -⟩ := mapUser_spec s hv phys flags
    exact ht.regions
  · rw [vmmMapUser, if_pos (not_lt.mp hv)]

@[simp] theorem protectUser_regions (s : State) (virt flags : ℕ) :
    (vmmProtectUser s virt flags).2.regions = s.regions := by
  unfold vmmProtectUser
  split_ifs <;> rfl

theorem foldl_keeps {α β : Type} {f : State → α → State} {g : State → β}
    (h : ∀ s a, g (f s a) = g s) (l : List α) (s : State) : g (l.foldl f s) = g s := by
  induction l generalizing s with
  | nil => rfl
  | cons a l ih => rw [foldl_cons, ih, h]

@[simp] theorem unmapPagesOnly_regions (s : State) (base length : ℕ) :
    (vmUnmapPagesOnly s base length).regions = s.regions := by
  refine foldl_keeps (g := fun s : State => s.regions) (fun s va => ?_) _ s
  unfold unmapPage
  split_ifs <;> simp

@[simp] theorem releasePrivatePages_regions (s : State) (base length : ℕ) :
    (vmReleasePrivatePages s base length).regions = s.regions := by
  refine foldl_keeps (g := fun s : State => s.regions) (fun s va => ?_) _ s
  unfold releasePage
  dsimp only
  split_ifs <;> simp

@[simp] theorem sharedDestroy_toProc (s : State) (id : Fin vmSharedMax) :
    (vmSharedDestroy s id).toProc = s.toProc := by
  unfold vmSharedDestroy
  split_ifs
  · rfl
  · refine foldl_keeps (g := State.toProc) (fun s i => ?_) _ s
    unfold destroyPage
    dsimp only
    split_ifs <;> rfl

@[simp] theorem sharedReleaseRange_toProc (s : State) (id pageStart pageCount : ℕ) :
    (vmSharedReleaseRange s id pageStart pageCount).toProc = s.toProc := by
  have href : ∀ id s idx, (releaseRef id s idx).toProc = s.toProc := by
    intro id s idx
    unfold releaseRef
    dsimp only
    split_ifs <;> rfl
  unfold vmSharedReleaseRange
  dsimp only
  split_ifs
  · rfl
  · rfl
  · rw [sharedDestroy_toProc]
    exact foldl_keeps (g := State.toProc) (fun s i => href _ s _) _ s
  · exact foldl_keeps (g := State.toProc) (fun s i => href _ s _) _ s
  · rfl

@[simp] theorem commit_regions (s : State) (base length prot : ℕ) :
    (vmCommitPrivatePages s base length prot).2.regions = s.regions := by
  have hloop : ∀ (flags : ℕ) (vas : List ℕ) (mapped : ℕ) (s : State),
      (commitLoop base flags vas mapped s).2.regions = s.regions := by
    intro flags vas
    induction vas with
    | nil => exact fun _ _ => rfl
    | cons va vas ih =>
      intro mapped s
      rw [commitLoop]
      dsimp only
      split_ifs <;> simp [ih]
  unfold vmCommitPrivatePages
  split_ifs
  · rfl
  · exact hloop _ _ _ s

@[simp] theorem releaseRegionPages_regions (s : State) (r : Region) (base length : ℕ) :
    (vmReleaseRegionPages s r base length).2.regions = s.regions := by
  unfold vmReleaseRegionPages
  split_ifs
  · rfl
  · rfl
  · rfl
  · cases r.kind <;> simp

@[simp] theorem releaseLoop_regions (base stop : ℕ) (slots : List Slot) (s : State) :
    (releaseLoop base stop slots s).2.regions = s.regions := by
  induction slots generalizing s with
  | nil => rfl
  | cons slot slots ih =>
    rw [releaseLoop]
    dsimp only
    split_ifs <;> simp [ih]

@[simp] theorem protectLoop_regions (flags : ℕ) (vas : List ℕ) (s : State) :
    (protectLoop flags vas s).2.regions = s.regions := by
  induction vas generalizing s with
  | nil => rfl
  | cons va vas ih =>
    rw [protectLoop]
    dsimp only
    split_ifs <;> simp [ih]

end

/-! ### What the calls write into the table -/

theorem at_norm {t : Table} {n : ℕ} {y : Attr} :
    PageAttr t n y ↔ ∃ a, shown t n a ∧ a.norm = y := by
  constructor
  · rintro ⟨i, hi, rfl⟩
    exact ⟨_, at_of_cov hi, rfl⟩
  · rintro ⟨a, ⟨i, hi, rfl⟩, rfl⟩
    exact ⟨i, hi, rfl⟩

theorem u64_add_of_le {a b : ℕ} (hb : b < 2 ^ 64) (ha : a < 2 ^ 64) (hpos : 0 < b)
    (h : a ≤ u64 (a + b)) : u64 (a + b) = a + b := by
  unfold u64 at h ⊢
  omega

section

variable {s s' : State} {base length : ℕ} (hv : Valid s.regions) (hb : 4096 ∣ base)
  (hl : 4096 ∣ length) (hbase : base < 2 ^ 64) (hlen : length < 2 ^ 64)

structure Unmaps (s : State) (base length : ℕ) (slots : List Slot) (spill : Option Slot) :
    Prop where
  pos : 0 < length
  u64_eq : u64 (base + length) = base + length
  covering : Covering s.regions (base + length) base slots
  spill : spillSlot s.regions slots base (base + length) = some spill

include hbase hlen in
theorem unmapRange_cases : vmUnmapRegionRange s base length = (false, s) ∨
    ∃ slots spill ok s1, Unmaps s base length slots spill ∧
      releaseLoop base (base + length) slots s = (ok, s1) ∧
      vmUnmapRegionRange s base length = (ok, if ok then s1.setRegions
        (vmRegionMergeNeighbors (trimRegions s.regions slots spill base (base + length)))
        else s1) := by
  unfold vmUnmapRegionRange
  cases hc : vmRegionCollectCoveringSlots s.regions base length with
  | none => exact .inl rfl
  | some slots =>
    obtain ⟨hpos, hle, hcov⟩ := collect_spec hc
    have hu := u64_add_of_le hlen hbase hpos hle
    rw [hu] at hcov ⊢
    dsimp only
    cases hs : spillSlot s.regions slots base (base + length) with
    | none => exact .inl rfl
    | some spill =>
      right
      have hregions := releaseLoop_regions base (base + length) slots s
      generalize hout : releaseLoop base (base + length) slots s = out at hregions ⊢
      obtain ⟨ok, s1⟩ := out
      refine ⟨slots, spill, ok, s1, ⟨hpos, hu, hcov, hs⟩, hout, ?_⟩
      rw [hregions]
      cases ok <;> rfl

include hv hb hl in
theorem Unmaps.table {slots : List Slot} {spill : Option Slot}
    (h : Unmaps s base length slots spill) :
    Valid (vmRegionMergeNeighbors (trimRegions s.regions slots spill base (base + length))) ∧
    ∀ n y, PageAttr
        (vmRegionMergeNeighbors (trimRegions s.regions slots spill base (base + length))) n y ↔
      ¬ InRange base (base + length) n ∧ PageAttr s.regions n y := by
  have hpos := h.pos
  obtain ⟨hv1, hat1⟩ := trimRegions_spec hv (by omega) hb (Nat.dvd_add hb hl) h.covering h.spill
  obtain ⟨hv2, hat2⟩ := mergeNeighbors_spec hv1
  refine ⟨hv2, fun n y => ?_⟩
  rw [hat2, at_norm, at_norm]
  constructor
  · rintro ⟨a, ha, rfl⟩
    obtain ⟨hn, ha⟩ := (hat1 n a).mp ha
    exact ⟨hn, a, ha, rfl⟩
  · rintro ⟨hn, a, ha, rfl⟩
    exact ⟨a, (hat1 n a).mpr ⟨hn, ha⟩, rfl⟩

end

/-! ### Changes of protection -/

structure Contains (s : State) (base length : ℕ) (slot : Slot) (slots : List Slot) : Prop where
  pos : 0 < length
  u64_eq : u64 (base + length) = base + length
  used : (s.regions slot).used = true
  base_le : (s.regions slot).base ≤ base
  stop_le : base + length ≤ (s.regions slot).stop
  slots : vmRegionAllocSlots s.regions (slotsNeeded (s.regions slot) base (base + length)) =
    some slots

/-- The three ways to change the protection of a range of the region `r`, with the pieces that the
range and the rest of the region become. -/
inductive Reprotects (s : State) (r : Region) (base length prot : ℕ) : State → Piece → Piece → Prop
  | lazy (hc : r.committed = false) (hk : r.kind = .anonPrivate ∨ r.kind = .guard)
      (hp : prot = 0) :
      Reprotects s r base length prot s ⟨0, r.flags, false⟩ ⟨r.prot, r.flags, false⟩
  | commit {s1 : State} (hc : r.committed = false) (hk : r.kind = .anonPrivate) (hp : prot ≠ 0)
      (h : vmCommitPrivatePages s base length prot = (true, s1)) :
      Reprotects s r base length prot s1 ⟨prot, r.flags &&& not32 mapReserve, true⟩
        ⟨0, r.flags, false⟩
  | protect {s1 : State} (hc : r.committed = true) (hm : vmRangeMapped s base length = true)
      (h : protectLoop (vmProtToPteFlags prot) (pageAddrs base length) s = (true, s1)) :
      Reprotects s r base length prot s1 ⟨prot, r.flags, true⟩ ⟨r.prot, r.flags, true⟩

inductive MprotectResult (s : State) (base length prot : ℕ) : Bool × State → Prop
  | failed : MprotectResult s base length prot (false, s)
  | commitFailed {slot : Slot} {slots : List Slot} {s' : State}
      (hin : Contains s base length slot slots) (hc : (s.regions slot).committed = false)
      (h : vmCommitPrivatePages s base length prot = (false, s')) :
      MprotectResult s base length prot (false, s')
  | protectFailed {slot : Slot} {slots : List Slot} {s' : State}
      (hin : Contains s base length slot slots) (hm : vmRangeMapped s base length = true)
      (h : protectLoop (vmProtToPteFlags prot) (pageAddrs base length) s = (false, s')) :
      MprotectResult s base length prot (false, s')
  | done {slot : Slot} {slots : List Slot} {s1 : State} {inner outer : Piece}
      (hin : Contains s base length slot slots)
      (h : Reprotects s (s.regions slot) base length prot s1 inner outer) :
      MprotectResult s base length prot (true, s1.setRegions (vmRegionMergeNeighbors
        (splitRegion s.regions slot slots (s.regions slot) base length inner outer)))

theorem Reprotects.regions {s1 : State} {r : Region} {inner outer : Piece}
    (h : Reprotects s r base length prot s1 inner outer) : s1.regions = s.regions := by
  cases h with
  | lazy => rfl
  | commit _ _ _ h =>
    have := commit_regions s base length prot
    rwa [h] at this
  | protect _ _ h =>
    have := protectLoop_regions (vmProtToPteFlags prot) (pageAddrs base length) s
    rwa [h] at this

theorem mprotectRange_cases (hbase : base < 2 ^ 64) (hlen : length < 2 ^ 64) :
    MprotectResult s base length prot (vmMprotectRegionRange s base length prot) := by
  unfold vmMprotectRegionRange
  cases hf : vmRegionFindContaining s.regions base length with
  | none => exact .failed
  | some slot =>
    obtain ⟨hpos, hle, hu, hb, hstop⟩ := findContaining_spec hf
    have hu64 := u64_add_of_le hlen hbase hpos hle
    rw [hu64] at hstop
    dsimp only
    rw [hu64]
    cases hs : vmRegionAllocSlots s.regions (slotsNeeded (s.regions slot) base (base + length)) with
    | none => exact .failed
    | some slots =>
      have hin : Contains s base length slot slots := ⟨hpos, hu64, hu, hb, hstop, hs⟩
      split_ifs with hc hk hp hg hok hm hok
      · exact .failed
      · exact .done hin (.lazy (by simpa using hc) (by tauto) hp)
      · exact .failed
      · exact .commitFailed hin (by simpa using hc) (Prod.ext (by simpa using hok) rfl)
      · have h : Reprotects s (s.regions slot) base length prot _ _ _ :=
          .commit (by simpa using hc) (by tauto) hp (Prod.ext (by simpa using hok) rfl)
        rw [h.regions]
        exact .done hin h
      · exact .failed
      · exact .protectFailed hin (by simpa using hm) (Prod.ext (by simpa using hok) rfl)
      · have h : Reprotects s (s.regions slot) base length prot _ _ _ :=
          .protect (by simpa using hc) (by simpa using hm) (Prod.ext (by simpa using hok) rfl)
        rw [h.regions]
        exact .done hin h

/-- The attributes of a page after a change of protection: a page that was only reserved is
committed when it becomes accessible. -/
def Attr.protect (prot : ℕ) (a : Attr) : Attr :=
  if a.committed = true ∨ prot = 0 then { a with prot := prot }
  else { a with prot := prot, flags := a.flags &&& not32 mapReserve, committed := true }

section

variable {s s1 : State} {r : Region} {base length prot : ℕ} {inner outer : Piece}
  (h : Reprotects s r base length prot s1 inner outer) (hr : r.Native)

include h hr

theorem Reprotects.fits : inner.Fits r ∧ outer.Fits r := by
  cases h with
  | lazy hc hk hp =>
    exact ⟨⟨fun _ => ⟨rfl, hk⟩, fun _ => rfl⟩, ⟨fun _ => hr.lazy hc, fun _ => rfl⟩⟩
  | commit hc hk hp h =>
    refine ⟨⟨fun h => absurd h (by simp), fun hg => ?_⟩, ⟨fun _ => ⟨rfl, Or.inl hk⟩, fun _ => rfl⟩⟩
    rw [hk] at hg
    exact absurd hg (by simp)
  | protect hc hm h =>
    have hg : r.kind ≠ .guard := fun hg => absurd (hr.guard hg) (by simp [hc])
    exact ⟨⟨fun h => absurd h (by simp), fun h => absurd h hg⟩,
      ⟨fun h => absurd h (by simp), fun h => absurd h hg⟩⟩

omit hr in
theorem Reprotects.set_inner (n : ℕ) : (r.attr n).set inner = (r.attr n).protect prot := by
  cases h with
  | lazy hc _ hp | commit hc _ hp => simp [Attr.set, Attr.protect, Region.attr, hc, hp]
  | protect hc hm h => simp [Attr.set, Attr.protect, Region.attr, hc]

theorem Reprotects.set_outer (n : ℕ) : (r.attr n).set outer = r.attr n := by
  cases h with
  | lazy hc | protect hc => simp [Attr.set, Region.attr, hc]
  | commit hc hk hp h => simp [Attr.set, Region.attr, hc, (hr.lazy hc).1]

end

variable {slot : Slot}

theorem Contains.covers
    (h : Contains s base length slot slots) (hv : Valid s.regions) {n : ℕ}
    (hn : InRange base (base + length) n) : (s.regions slot).Covers n := by
  have h1 := h.base_le
  have h2 := h.stop_le
  rw [(hv.native slot h.used).stop_eq] at h2
  exact ⟨h.used, h1.trans hn.1, lt_of_lt_of_le hn.2 h2⟩

theorem Reprotects.table {s1 : State}
    {inner outer : Piece} (hv : Valid s.regions) (hb : 4096 ∣ base) (hl : 4096 ∣ length)
    (hin : Contains s base length slot slots)
    (h : Reprotects s (s.regions slot) base length prot s1 inner outer) :
    Valid (vmRegionMergeNeighbors
        (splitRegion s.regions slot slots (s.regions slot) base length inner outer)) ∧
    ∀ n y, PageAttr (vmRegionMergeNeighbors
        (splitRegion s.regions slot slots (s.regions slot) base length inner outer)) n y ↔
      (InRange base (base + length) n ∧
        ∃ a, shown s.regions n a ∧ (a.protect prot).norm = y) ∨
      (¬ InRange base (base + length) n ∧ PageAttr s.regions n y) := by
  have hr := hv.native slot hin.used
  obtain ⟨hin1, hout1⟩ := h.fits hr
  obtain ⟨hv1, hat1⟩ := splitRegion_spec hv hin.used hb hl hin.pos hin.base_le hin.stop_le hin1
    hout1 hin.slots
  obtain ⟨hv2, hat2⟩ := mergeNeighbors_spec hv1
  refine ⟨hv2, fun n y => ?_⟩
  rw [hat2, at_norm, at_norm]
  by_cases hn : InRange base (base + length) n
  · have hc := hin.covers hv hn
    simp only [hat1, hn, true_and, not_true_eq_false, false_and, or_false, hc,
      h.set_inner, exists_eq_left', hv.at_iff hc, exists_eq_left]
  · simp only [hat1, hn, false_and, false_or, not_false_eq_true, true_and, h.set_outer hr]
    constructor
    · rintro ⟨a, ⟨hc, rfl⟩ | ⟨-, ha⟩, rfl⟩
      · exact ⟨_, at_of_cov hc, rfl⟩
      · exact ⟨a, ha, rfl⟩
    · rintro ⟨a, ha, rfl⟩
      by_cases hc : (s.regions slot).Covers n
      · exact ⟨a, Or.inl ⟨hc, ((hv.at_iff hc a).mp ha).symm⟩, rfl⟩
      · exact ⟨a, Or.inr ⟨hc, ha⟩, rfl⟩

/-! ### Releasing the pages of a range -/

inductive ReleaseResult (s : State) (r : Region) (base length : ℕ) : Bool × State → Prop
  | lazy (hc : r.committed = false) : ReleaseResult s r base length (true, s)
  | missing (hc : r.committed = true)
      (hm : ¬ ∀ n, InRange base (base + length) n → s.pages n ≠ none) :
      ReleaseResult s r base length (false, s)
  | odd (hk : r.kind = .none ∨ r.kind = .guard) (hc : r.committed = true) :
      ReleaseResult s r base length (false, s)
  | owned (hk : r.kind = .anonPrivate ∨ r.kind = .filePrivate) (hc : r.committed = true)
      (hm : ∀ n, InRange base (base + length) n → s.pages n ≠ none) :
      ReleaseResult s r base length (true, { s with
        pages := erasePages s.pages (pageNums base length)
        pool := (framesOf s.pages (pageNums base length)).foldl Pool.put s.pool })
  | shared (hk : r.kind = .anonShared) (hc : r.committed = true)
      (hm : ∀ n, InRange base (base + length) n → s.pages n ≠ none) :
      ReleaseResult s r base length (true, vmSharedReleaseRange
        { s with pages := erasePages s.pages (pageNums base length) } r.backingId
        (vmRegionPageStartAt r base) (u32 (length / 4096)))

theorem releaseRegionPages_cases (hg : GoodPages s.pages)
    (hw : Whole base length) (hpos : 0 < length) (r : Region) :
    ReleaseResult s r base length (vmReleaseRegionPages s r base length) := by
  unfold vmReleaseRegionPages
  rw [if_neg hpos.ne']
  by_cases hc : r.committed = true
  · rw [if_neg (by simp [hc])]
    by_cases hm : vmRangeMapped s base length = true
    · have hm' := (rangeMapped_iff hg hw hpos).mp hm
      rw [if_neg (by simp [hm]), unmapPagesOnly_eq hg hw, releasePrivatePages_eq hg hw]
      cases hk : r.kind with
      | none => exact .odd (.inl hk) hc
      | guard => exact .odd (.inr hk) hc
      | anonPrivate => exact .owned (.inl hk) hc hm'
      | filePrivate => exact .owned (.inr hk) hc hm'
      | anonShared => exact .shared hk hc hm'
    · rw [if_pos (by simp [hm])]
      exact .missing hc (mt (rangeMapped_iff hg hw hpos).mpr hm)
  · rw [Bool.not_eq_true] at hc
    rw [if_pos (by simp [hc])]
    exact .lazy hc

theorem Valid.part {t : Table} (hv : Valid t) {c stop : ℕ} (hhas : (t slot).Has c)
    (hc : c < stop) (hd : 4096 ∣ c) (hs : 4096 ∣ stop) :
    c < min (t slot).stop stop ∧ 4096 ∣ min (t slot).stop stop ∧
      min (t slot).stop stop ≤ vmUserLimit ∧
      ∀ n, InRange c (min (t slot).stop stop) n → (t slot).Covers n := by
  have hr := hv.native slot hhas.1
  have hse := hr.stop_eq
  have h1 := hr.base_dvd
  have h2 := hr.length_dvd
  have h3 := hr.stop_le
  have h4 := hhas.2.1
  have h5 := hhas.2.2
  refine ⟨by omega, ?_, by omega, fun n hn => ⟨hhas.1, h4.trans hn.1, ?_⟩⟩
  · rcases Nat.le_total (t slot).stop stop with h | h
    · rw [Nat.min_eq_left h, hse]
      exact Nat.dvd_add h1 h2
    · rw [Nat.min_eq_right h]
      exact hs
  · have := hn.2
    omega

section

variable {t : Table} {base stop : ℕ} {P : ℕ → State → Prop} {Q : State → Prop} (hv : Valid t)
  (hregions : ∀ c s, P c s → s.regions = t)
  (hstep : ∀ c slot s, base ≤ c → c < stop → 4096 ∣ c → (t slot).Has c → P c s →
    ∃ ok s', vmReleaseRegionPages s (t slot) c (min (t slot).stop stop - c) = (ok, s') ∧
      if ok then P (min (t slot).stop stop) s' else Q s')

include hv hregions hstep

theorem releaseLoop_from {cursor : ℕ} (hcov : Covering t stop cursor slots)
    (hle : base ≤ cursor) (hle' : cursor ≤ stop) (hd : 4096 ∣ cursor) (hs : 4096 ∣ stop)
    (hprev : cursor = base ∨ cursor = stop ∨ ∃ slot, (t slot).Has (cursor - 1) ∧
      (t slot).stop = cursor) (h : P cursor s) :
    ∃ ok s', releaseLoop base stop slots s = (ok, s') ∧ if ok then P stop s' else Q s' := by
  induction hcov generalizing s with
  | @done cursor hstop =>
    obtain rfl : cursor = stop := by omega
    exact ⟨true, s, rfl, h⟩
  | @step cursor slot slots hc hhas hrest ih =>
    have hlt := hhas.2.2
    -- the region of the slot starts at the cursor, or at or before the range
    have hstart : (if (t slot).base < base then base else (t slot).base) = cursor := by
      rcases hprev with rfl | rfl | ⟨slot', hhas', hstop'⟩
      · have := hhas.2.1
        split_ifs <;> omega
      · exact absurd hc (lt_irrefl _)
      · have hge : ¬ (t slot).base < cursor := by
          intro hlt'
          have heq := hv.has_unique (⟨hhas.1, by omega, by omega⟩ : (t slot).Has (cursor - 1)) hhas'
          subst heq
          omega
        have := hhas.2.1
        split_ifs <;> omega
    have hstop : (if stop < (t slot).stop then stop else (t slot).stop) =
        min (t slot).stop stop := by
      split_ifs <;> omega
    obtain ⟨ok, s', he, hp⟩ := hstep cursor slot s hle hc hd hhas h
    rw [releaseLoop, hregions cursor s h]
    rw [hstart, hstop, if_neg (by omega), he]
    cases ok with
    | false => exact ⟨false, s', rfl, hp⟩
    | true =>
      refine ih (by omega) (by omega) (hv.part hhas hc hd hs).2.1 ?_ hp
      rcases Nat.le_total (t slot).stop stop with h3 | h3
      · rw [Nat.min_eq_left h3]
        exact .inr (.inr ⟨slot, ⟨hhas.1, by have := hhas.2.1; omega, by omega⟩, rfl⟩)
      · rw [Nat.min_eq_right h3]
        exact .inr (.inl rfl)

end

/-! ### Protecting the pages of a range -/

def protectPages (m : PageMap) (ns : List ℕ) (flags : ℕ) : PageMap :=
  fun n => if n ∈ ns then (m n).map fun x => (x.1, protectEntry x.2 flags) else m n

theorem protectLoop_eq {flags : ℕ} (ns : List ℕ) (hnd : ns.Nodup)
    (htop : ∀ n ∈ ns, n * 4096 < userVaTop) (hm : ∀ n ∈ ns, s.pages n ≠ none) :
    protectLoop flags (ns.map (· * 4096)) s =
      (true, { s with pages := protectPages s.pages ns flags }) := by
  induction ns generalizing s with
  | nil => rfl
  | cons n ns ih =>
    obtain ⟨hnn, hnd⟩ := nodup_cons.mp hnd
    have hn := hm n mem_cons_self
    have hone : vmmProtectUser s (n * 4096) flags =
        (true, { s with pages := s.pages.protect (n * 4096) flags }) := by
      rw [vmmProtectUser, if_neg (not_le.mpr (htop n mem_cons_self)), if_neg (by simpa using hn)]
    have hpages : s.pages.protect (n * 4096) flags = protectPages s.pages [n] flags := by
      funext k
      rw [PageMap.protect]
      by_cases hk : k = n
      · subst hk
        simp [protectPages]
      · simp [protectPages, hk]
    have hcons : protectPages (s.pages.protect (n * 4096) flags) ns flags =
        protectPages s.pages (n :: ns) flags := by
      funext k
      rw [hpages]
      by_cases hk : k = n
      · subst hk
        simp [protectPages, hnn]
      · simp [protectPages, hk]
    rw [map_cons, protectLoop, hone]
    simp only [ite_not_true]
    rw [ih hnd (fun k hk => htop k (mem_cons_of_mem _ hk)), ← hcons]
    · intro k hk
      rw [hpages]
      have hkn : k ≠ n := fun h => hnn (h ▸ hk)
      simpa [protectPages, hkn] using hm k (mem_cons_of_mem _ hk)

/-! ### The calls -/

inductive MunmapResult (s : State) (base : ℕ) : Option ℕ → Except Error ℕ × State → Prop
  | failed {length : Option ℕ} {e : Error} : MunmapResult s base length (.error e, s)
  | stopped {length : ℕ} {slots : List Slot} {spill : Option Slot} {s1 : State}
      (hb : 4096 ∣ base) (hl : 4096 ∣ length) (hu : Unmaps s base length slots spill)
      (hloop : releaseLoop base (base + length) slots s = (false, s1)) :
      MunmapResult s base (some length) (.error .failed, s1)
  | done {length : ℕ} {slots : List Slot} {spill : Option Slot} {s1 : State} (hb : 4096 ∣ base)
      (hl : 4096 ∣ length) (hu : Unmaps s base length slots spill)
      (hloop : releaseLoop base (base + length) slots s = (true, s1)) :
      MunmapResult s base (some length) (.ok 0, s1.setRegions
        (vmRegionMergeNeighbors (trimRegions s.regions slots spill base (base + length))))

theorem sysMunmap_cases (s : State) (a1 a2 : UInt64) :
    MunmapResult s a1.toNat (roundLength a2.toNat) (sysMunmap s a1 a2) := by
  unfold sysMunmap
  dsimp only
  split_ifs with hb
  · exact .failed
  cases hlen : roundLength a2.toNat with
  | none => exact .failed
  | some length =>
    obtain ⟨hd, -, hlt⟩ := roundLength_spec hlen
    have hbase : 4096 ∣ a1.toNat := by
      rw [and_page_mask] at hb
      omega
    rcases unmapRange_cases (s := s) a1.toNat_lt hlt with he | ⟨slots, spill, ok, s1, hu, h, he⟩
    · simp only [he]
      exact .failed
    · cases ok with
      | false =>
        simp only [he]
        exact .stopped hbase hd hu h
      | true =>
        simp only [he]
        exact .done hbase hd hu h

theorem sysMprotect_cases (s : State) (a1 a2 a3 : UInt64) :
    (∃ e, sysMprotect s a1 a2 a3 = (.error e, s)) ∨
    ∃ length out, roundLength a2.toNat = some length ∧ 4096 ∣ a1.toNat ∧ 4096 ∣ length ∧
      vmProtSupported (u32 a3.toNat) = true ∧
      MprotectResult s a1.toNat length (u32 a3.toNat) out ∧
      sysMprotect s a1 a2 a3 = (if out.1 then .ok 0 else .error .failed, out.2) := by
  unfold sysMprotect
  dsimp only
  cases hlen : roundLength a2.toNat with
  | none => split_ifs <;> exact .inl ⟨_, rfl⟩
  | some length =>
    obtain ⟨hd, -, hlt⟩ := roundLength_spec hlen
    split_ifs with hb hp
    · exact .inl ⟨_, rfl⟩
    · exact .inl ⟨_, rfl⟩
    · rw [and_page_mask] at hb
      exact .inr ⟨length, _, rfl, by omega, hd, by simpa using hp,
        mprotectRange_cases a1.toNat_lt hlt, rfl⟩

end TaterTOS.Vm
