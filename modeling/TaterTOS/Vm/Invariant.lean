import TaterTOS.Vm.Changes

/-!
# The invariant of a native process

The region table is valid, and the pages of its regions are present exactly where the table says
that they are committed. Every call keeps this, whatever the allocator answers, except for the
mapping of a file in memory that does not back the whole range.
-/

namespace TaterTOS.Vm

open Lib Vmm Slots

def GoodFds (fds : ℕ → Fd) : Prop :=
  ∀ fd mf, fds fd = .memfd mf → ∀ f ∈ mf.pages, f ≠ 0 ∧ frameOf f = f

/-- **The table of a process and its pages agree.** -/
structure Consistent (s : State) : Prop where
  valid : Valid s.regions
  good : GoodPages s.pages
  fds : GoodFds s.fds
  present : ∀ n y, PageAttr s.regions n y → (y.committed = true ↔ s.pages n ≠ none)

/-- The file can back `length` bytes: it has a frame for each page, the tables for them will be
found, and there is a slot for the region. -/
structure Backed (s : State) (mf : Memfd) (length : ℕ) : Prop where
  frames : (mf.frames length).length = length / 4096
  tables : ∀ i < length / 4096, (s.env.maps.getD i (true, [])).1 = true
  slot : ∃ i, (s.regions i).used = false

@[simp] theorem norm_committed (a : Attr) : a.norm.committed = a.committed := by
  unfold Attr.norm
  split_ifs <;> rfl

@[simp] theorem norm_prot (a : Attr) : a.norm.prot = a.prot := by
  unfold Attr.norm
  split_ifs <;> rfl

@[simp] theorem protect_prot (prot : ℕ) (a : Attr) : (a.protect prot).prot = prot := by
  unfold Attr.protect
  split_ifs <;> rfl

theorem protect_committed (prot : ℕ) (a : Attr) :
    (a.protect prot).committed = true ↔ a.committed = true ∨ prot ≠ 0 := by
  unfold Attr.protect
  split_ifs with h
  · tauto
  · tauto

variable {n : ℕ}

theorem pageAttr_of_covers {t : Table} {i : Slot} (h : (t i).Covers n) :
    PageAttr t n ((t i).norm n) := at_of_cov h

theorem Consistent.covered {s : State} (hc : Consistent s) {i : Slot}
    (h : (s.regions i).Covers n) : (s.regions i).committed = true ↔ s.pages n ≠ none := by
  rw [← hc.present n _ (pageAttr_of_covers h), Region.norm, norm_committed]
  rfl

theorem pteFlags_mask (prot : ℕ) :
    pteFlags (vmProtToPteFlags prot) &&& protectMask = vmProtToPteFlags prot := by
  unfold pteFlags vmProtToPteFlags
  split_ifs <;> decide

theorem pteFlags_nofree_mask (prot : ℕ) :
    pteFlags (vmProtToPteFlags prot ||| flagNofree) &&& protectMask = vmProtToPteFlags prot := by
  unfold pteFlags vmProtToPteFlags
  split_ifs <;> decide

/-! ### Failed calls -/

theorem Kept.consistent {s s' : State} (h : Kept s s') (hc : Consistent s) : Consistent s' := by
  obtain ⟨new, ht⟩ := h.took
  refine ⟨?_, ?_, ?_, ?_⟩
  · rw [ht.regions]
    exact hc.valid
  · rw [h.pages]
    exact hc.good
  · rw [ht.fds]
    exact hc.fds
  · rw [ht.regions, h.pages]
    exact hc.present

/-! ### New mappings -/

section

variable {s s1 : State} {file : Fd} {r : Region} (h : Filled s file s1 r) (hr : r.Native)

include h in
theorem Filled.fds : s1.fds = s.fds := by
  cases h with
  | lazy => rfl
  | owned _ _ h => exact h.took.fds
  | shared _ _ _ _ _ _ hcreated hmapped => exact hmapped.took.fds.trans hcreated.took.fds
  | memfd _ _ _ _ h =>
    obtain ⟨new, ht⟩ := h.took
    exact ht.fds

theorem frames_length_le (mf : Memfd) {length : ℕ} (hl : 4096 ∣ length) :
    (mf.frames length).length ≤ length / 4096 := by
  refine le_trans (List.takeWhile_prefix _).length_le ?_
  rw [List.length_take]
  split_ifs <;> omega

include h hr in
theorem Filled.out (hn : ¬ InRange r.base (r.base + r.length) n) :
    s1.pages n = s.pages n := by
  have hb := hr.base_dvd
  have hl := hr.length_dvd
  have hn' : ¬ (r.base / 4096 ≤ n ∧ n < r.base / 4096 + r.length / 4096) := by
    unfold InRange at hn
    omega
  cases h with
  | lazy => rfl
  | owned _ _ h => exact h.out n hn'
  | shared _ _ _ _ _ _ hcreated hmapped => rw [hmapped.out n hn', hcreated.pages]
  | @memfd _ _ mf _ _ _ _ h =>
    have := frames_length_le mf hl
    exact h.out n (by omega)

include h hr in
theorem Filled.entry (hc : r.committed = true)
    (hback : ∀ mf, file = .memfd mf → Backed s mf r.length)
    (hfile : ∀ mf, file = .memfd mf → ∀ f ∈ mf.pages, f ≠ 0 ∧ frameOf f = f)
    (hn : InRange r.base (r.base + r.length) n) :
    ∃ x, s1.pages n = some x ∧ (x.1 ≠ 0 ∧ frameOf x.1 = x.1) ∧
      ((∀ mf, file ≠ .memfd mf) → x.2 &&& protectMask = vmProtToPteFlags r.prot) := by
  have hb := hr.base_dvd
  have hl := hr.length_dvd
  obtain ⟨i, rfl⟩ : ∃ i, n = r.base / 4096 + i :=
    ⟨n - r.base / 4096, by unfold InRange at hn; omega⟩
  have hi : i < r.length / 4096 := by
    unfold InRange at hn
    omega
  cases h with
  | lazy hc' => rw [hc'] at hc; exact absurd hc Bool.false_ne_true
  | owned _ _ h =>
    obtain ⟨f, hf, hgood⟩ := h.entry (r.base / 4096 + i) (by omega) (by omega)
    exact ⟨_, hf, hgood, fun _ => pteFlags_mask r.prot⟩
  | shared _ _ _ _ _ _ hcreated hmapped =>
    exact ⟨_, hmapped.entry i hi, hcreated.frame i hi, fun _ => pteFlags_nofree_mask r.prot⟩
  | memfd _ _ _ hmf h =>
    have hb := hback _ hmf
    have hi' : i < (Memfd.frames _ r.length).length := hb.frames.symm ▸ hi
    have hmem := List.get_mem _ ⟨i, hi'⟩
    obtain ⟨h1, h2⟩ := hfile _ hmf _ (List.mem_of_mem_take ((List.takeWhile_prefix _).subset hmem))
    have he := h.entry i hi'
    rw [if_pos (hb.tables i hi)] at he
    exact ⟨_, he, ⟨by rw [h2]; exact h1, by rw [h2]; exact h2⟩, fun hno => absurd hmf (hno _)⟩

include h in
theorem Filled.lazy_eq (hc : r.committed = false) : s1 = s := by
  cases h with
  | lazy => rfl
  | owned hc' | shared hc' | memfd hc' => rw [hc] at hc'; exact absurd hc' Bool.false_ne_true

end

section

variable {s s1 s' : State} {file : Fd} {slot : Slot} {r : Region} (h : Adds s file s1 s' slot r)
  (hv : Valid s.regions)

include h

theorem Adds.covers : r.Covers n ↔ InRange r.base (r.base + r.length) n := by
  unfold Region.Covers InRange
  simp [h.used]

theorem Adds.regions : s'.regions = Function.update s.regions slot r := by
  rw [h.eq]
  rfl

theorem Adds.pages : s'.pages = s1.pages := by
  rw [h.eq]
  rfl

include hv

theorem Adds.valid : Valid s'.regions := by
  rw [h.regions]
  refine hv.place (fun _ => h.native) fun n hn j _ hj => ?_
  exact h.available.regions n (h.covers.mp hn) j hj

theorem Adds.pageAttr {y : Attr} : PageAttr s'.regions n y ↔
    (InRange r.base (r.base + r.length) n ∧ r.norm n = y) ∨ PageAttr s.regions n y := by
  rw [h.regions, PageAttr, at_update hv.apart, h.covers]
  have : ¬ (s.regions slot).Covers n := not_covers_of_unused h.unused n
  simp only [this, not_false_eq_true, true_and]

omit hv in
theorem Adds.not_pageAttr (hn : InRange r.base (r.base + r.length) n) (y : Attr) :
    ¬ PageAttr s.regions n y := by
  rintro ⟨i, hi, -⟩
  exact h.available.regions n hn i hi

omit hv in
theorem Adds.consistent (hc : Consistent s)
    (hback : ∀ mf, file = .memfd mf → Backed s mf r.length)
    (hfile : ∀ mf, file = .memfd mf → ∀ f ∈ mf.pages, f ≠ 0 ∧ frameOf f = f) :
    Consistent s' := by
  have hpage : ∀ n, InRange r.base (r.base + r.length) n →
      (r.committed = true ↔ s1.pages n ≠ none) ∧
        ∀ x, s1.pages n = some x → x.1 ≠ 0 ∧ frameOf x.1 = x.1 := by
    intro n hn
    cases hcom : r.committed with
    | false =>
      rw [h.filled.lazy_eq hcom, h.available.pages n hn]
      simp
    | true =>
      obtain ⟨x, hx, hgood, -⟩ := h.filled.entry h.native hcom hback hfile hn
      rw [hx]
      refine ⟨by simp, fun x' hx' => ?_⟩
      obtain rfl := Option.some.inj hx'
      exact hgood
  refine ⟨h.valid hc.valid, fun n x hx => ?_, ?_, fun n y hy => ?_⟩
  · rw [h.pages] at hx
    by_cases hn : InRange r.base (r.base + r.length) n
    · exact (hpage n hn).2 x hx
    · rw [h.filled.out h.native hn] at hx
      exact hc.good n x hx
  · rw [h.eq]
    show GoodFds s1.fds
    rw [h.filled.fds]
    exact hc.fds
  · rw [h.pages]
    rcases (h.pageAttr hc.valid).mp hy with ⟨hn, rfl⟩ | hy
    · rw [Region.norm, norm_committed]
      exact (hpage n hn).1
    · have hn : ¬ InRange r.base (r.base + r.length) n := fun hn => h.not_pageAttr hn y hy
      rw [h.filled.out h.native hn]
      exact hc.present n y hy

end

/-! ### Unmapping -/

/-- The pages below `c` of a range are gone, and nothing else of the process has changed. -/
structure Gone (s : State) (base c : ℕ) (s' : State) : Prop where
  regions : s'.regions = s.regions
  fds : s'.fds = s.fds
  tables : s'.tables = s.tables
  pages : ∀ n, s'.pages n = if InRange base c n then none else s.pages n

theorem Gone.good {s s' : State} {base c : ℕ} (h : Gone s base c s') (hg : GoodPages s.pages) :
    GoodPages s'.pages := by
  intro n x hx
  rw [h.pages n] at hx
  split_ifs at hx
  exact hg n x hx

theorem Gone.next {s s1 s2 : State} {base c next : ℕ} (h : Gone s base c s1) (hb : base ≤ c)
    (hd : 4096 ∣ c) (hd' : 4096 ∣ next) (hc : c ≤ next) (hlim : next ≤ vmUserLimit)
    (hp : s2.toProc = { s1.toProc with pages := erasePages s1.pages (pageNums c (next - c)) }) :
    Gone s base next s2 := by
  have hw : Whole c (next - c) := ⟨hd, Nat.dvd_sub hd' hd, by omega⟩
  have hpages : s2.pages = erasePages s1.pages (pageNums c (next - c)) := congrArg Proc.pages hp
  refine ⟨(congrArg Proc.regions hp).trans h.regions, (congrArg Proc.fds hp).trans h.fds,
    (congrArg Proc.tables hp).trans h.tables, fun n => ?_⟩
  have hmem := mem_pageNums hw n
  rw [show c + (next - c) = next by omega] at hmem
  rw [hpages, erasePages, h.pages n]
  by_cases h1 : n ∈ pageNums c (next - c)
  · have hn := hmem.mp h1
    rw [if_pos h1, if_pos ⟨hb.trans hn.1, hn.2⟩]
  · have hn := mt hmem.mpr h1
    have hiff : InRange base next n ↔ InRange base c n := by
      unfold InRange at hn ⊢
      omega
    rw [if_neg h1]
    simp only [hiff]

section

variable {s : State} {base length : ℕ} {slots : List Slot} {spill : Option Slot}

theorem Consistent.release (hc : Consistent s) (hb : 4096 ∣ base) (hl : 4096 ∣ length)
    (hu : Unmaps s base length slots spill) : ∃ s1,
      releaseLoop base (base + length) slots s = (true, s1) ∧ Gone s base (base + length) s1 := by
  have hstart : Gone s base base s := by
    refine ⟨rfl, rfl, rfl, fun n => ?_⟩
    rw [if_neg (by unfold InRange; omega)]
  have hstop := Nat.dvd_add hb hl
  have hstep : ∀ c slot s', base ≤ c → c < base + length → 4096 ∣ c → (s.regions slot).Has c →
      Gone s base c s' → ∃ ok s2, vmReleaseRegionPages s' (s.regions slot) c
        (min (s.regions slot).stop (base + length) - c) = (ok, s2) ∧
        if ok then Gone s base (min (s.regions slot).stop (base + length)) s2 else False := by
    intro c slot s' hle hlt hd hhas h
    obtain ⟨hlt', hd', hlim, hcov⟩ := hc.valid.part hhas hlt hd hstop
    have hr := hc.valid.native slot hhas.1
    have hw : Whole c (min (s.regions slot).stop (base + length) - c) :=
      ⟨hd, Nat.dvd_sub hd' hd, by omega⟩
    have hadd : c + (min (s.regions slot).stop (base + length) - c) =
        min (s.regions slot).stop (base + length) := by omega
    -- before the release, the part is present just when the region is committed
    have hpage : ∀ n, InRange c (min (s.regions slot).stop (base + length)) n →
        ((s.regions slot).committed = true ↔ s'.pages n ≠ none) := by
      intro n hn
      have hnot : ¬ InRange base c n := fun hn' => absurd hn'.2 (not_lt.mpr hn.1)
      rw [h.pages n, if_neg hnot]
      exact hc.covered (hcov n hn)
    have hrel := releaseRegionPages_cases (h.good hc.good) hw (by omega) (s.regions slot)
    generalize vmReleaseRegionPages s' (s.regions slot) c _ = out at hrel ⊢
    have hnext := fun s2 => @Gone.next s s' s2 base c _ h hle hd hd' hlt'.le hlim
    cases hrel with
    | lazy hcom =>
      refine ⟨true, s', rfl, hnext s' ?_⟩
      have hsame : erasePages s'.pages
          (pageNums c (min (s.regions slot).stop (base + length) - c)) = s'.pages := by
        funext n
        unfold erasePages
        split_ifs with hn
        · rw [mem_pageNums hw, hadd] at hn
          have := (hpage n hn).not.mp (by simp [hcom])
          exact (not_not.mp this).symm
        · rfl
      rw [hsame]
    | missing hcom hm =>
      refine absurd (fun n hn => ?_) hm
      rw [hadd] at hn
      exact (hpage n hn).mp hcom
    | odd hk hcom =>
      cases hk with
      | inl hk => exact absurd hk hr.kind
      | inr hk => rw [hr.guard hk] at hcom; exact absurd hcom Bool.false_ne_true
    | owned => exact ⟨true, _, rfl, hnext _ rfl⟩
    | shared => exact ⟨true, _, rfl, hnext _ (sharedReleaseRange_toProc _ _ _ _)⟩
  obtain ⟨ok, s1, he, hp⟩ := releaseLoop_from hc.valid (fun c s' h => h.regions) hstep hu.covering
    le_rfl (by omega) hb hstop (.inl rfl) hstart
  cases ok with
  | false => exact absurd hp (by simp)
  | true => exact ⟨s1, he, hp⟩

theorem Consistent.munmap_cases (hc : Consistent s) (a1 a2 : UInt64) :
    (∃ e, sysMunmap s a1 a2 = (.error e, s)) ∨
    ∃ length slots spill s1, roundLength a2.toNat = some length ∧ 4096 ∣ a1.toNat ∧
      4096 ∣ length ∧ Unmaps s a1.toNat length slots spill ∧
      releaseLoop a1.toNat (a1.toNat + length) slots s = (true, s1) ∧
      Gone s a1.toNat (a1.toNat + length) s1 ∧
      sysMunmap s a1 a2 = (.ok 0, s1.setRegions (vmRegionMergeNeighbors
        (trimRegions s.regions slots spill a1.toNat (a1.toNat + length)))) := by
  have hcases := sysMunmap_cases s a1 a2
  generalize sysMunmap s a1 a2 = out at hcases ⊢
  generalize roundLength a2.toNat = o at hcases ⊢
  cases hcases with
  | failed => exact .inl ⟨_, rfl⟩
  | stopped hb hl hu hloop =>
    obtain ⟨s1, he, -⟩ := hc.release hb hl hu
    rw [hloop] at he
    exact absurd he (by simp)
  | done hb hl hu hloop =>
    obtain ⟨s1, he, hgone⟩ := hc.release hb hl hu
    rw [hloop] at he
    obtain rfl := (Prod.mk.inj he).2
    exact .inr ⟨_, _, _, _, rfl, hb, hl, hu, hloop, hgone, rfl⟩

theorem Consistent.munmap (hc : Consistent s) (a1 a2 : UInt64) :
    Consistent (sysMunmap s a1 a2).2 := by
  rcases hc.munmap_cases a1 a2 with ⟨e, he⟩ |
    ⟨length, slots, spill, s1, -, hb, hl, hu, -, hgone, he⟩
  · rw [he]
    exact hc
  · rw [he]
    obtain ⟨hv, hat⟩ := hu.table hc.valid hb hl
    refine ⟨hv, hgone.good hc.good, ?_, fun n y hy => ?_⟩
    · show GoodFds s1.fds
      rw [hgone.fds]
      exact hc.fds
    · obtain ⟨hn, hy⟩ := (hat n y).mp hy
      show y.committed = true ↔ s1.pages n ≠ none
      rw [hgone.pages n, if_neg hn]
      exact hc.present n y hy

end

/-! ### Protections -/

inductive Repaged (s : State) (r : Region) (base length prot : ℕ) : State → Prop
  | lazy (hc : r.committed = false) (hp : prot = 0) : Repaged s r base length prot s
  | commit {s1 : State} {new : List ℕ} (hc : r.committed = false) (hk : r.kind = .anonPrivate)
      (hp : prot ≠ 0)
      (h : Committed s s1 (base / 4096) (length / 4096) (pteFlags (vmProtToPteFlags prot)) new) :
      Repaged s r base length prot s1
  | protect (hc : r.committed = true) : Repaged s r base length prot
      { s with pages := protectPages s.pages (pageNums base length) (vmProtToPteFlags prot) }

section

variable {s : State} {base length prot : ℕ} {slot : Slot} {slots : List Slot} (hc : Consistent s)
  (hb : 4096 ∣ base) (hl : 4096 ∣ length) (hin : Contains s base length slot slots)

include hc hin

theorem Contains.present (hn : InRange base (base + length) n) :
    (s.regions slot).committed = true ↔ s.pages n ≠ none :=
  hc.covered (hin.covers hc.valid hn)

include hb hl

theorem Contains.whole : Whole base length := by
  have hr := hc.valid.native slot hin.used
  have h1 := hin.stop_le
  rw [hr.stop_eq] at h1
  exact ⟨hb, hl, h1.trans hr.stop_le⟩

theorem Contains.commit (hcom : (s.regions slot).committed = false) :
    ∃ ok s', vmCommitPrivatePages s base length prot = (ok, s') ∧
      (ok = false ∧ Kept s s' ∨ ok = true ∧ ∃ new, Committed s s' (base / 4096) (length / 4096)
        (pteFlags (vmProtToPteFlags prot)) new) := by
  have hnone : ∀ n, InRange base (base + length) n → s.pages n = none := fun n hn =>
    not_not.mp ((hin.present hc hn).not.mp (by simp [hcom]))
  obtain ⟨ok, s', he, hcase⟩ := commit_spec hc.good (hin.whole hc hb hl) hin.pos hnone prot
  exact ⟨ok, s', he, hcase.imp_left (.imp_right Idle.kept)⟩

theorem Contains.protect (hm : vmRangeMapped s base length = true) :
    protectLoop (vmProtToPteFlags prot) (pageAddrs base length) s = (true, { s with
      pages := protectPages s.pages (pageNums base length) (vmProtToPteFlags prot) }) := by
  have hw := hin.whole hc hb hl
  rw [pageAddrs_eq hw]
  refine protectLoop_eq _ (pageNums_nodup base length) (fun n hn => hw.lt_top hn) fun n hn => ?_
  exact (rangeMapped_iff hc.good hw hin.pos).mp hm n ((mem_pageNums hw n).mp hn)

theorem Reprotects.repaged {s1 : State} {inner outer : Piece}
    (h : Reprotects s (s.regions slot) base length prot s1 inner outer) :
    Repaged s (s.regions slot) base length prot s1 := by
  cases h with
  | lazy hcom hk hp => exact .lazy hcom hp
  | commit hcom hk hp h =>
    obtain ⟨ok, s', he, ⟨rfl, -⟩ | ⟨rfl, new, hco⟩⟩ := hin.commit hc hb hl hcom
    · rw [h] at he
      exact absurd he (by simp)
    · rw [h] at he
      obtain rfl := (Prod.mk.inj he).2
      exact .commit hcom hk hp hco
  | protect hcom hm h =>
    rw [hin.protect hc hb hl hm] at h
    obtain rfl := (Prod.mk.inj h).2
    exact .protect hcom

end

structure Repaged.Effect (s : State) (base length prot : ℕ) (s1 : State) : Prop where
  fds : s1.fds = s.fds
  good : GoodPages s1.pages
  out : ∀ n, ¬ InRange base (base + length) n → s1.pages n = s.pages n
  present : ∀ n, InRange base (base + length) n → (s1.pages n ≠ none ↔ s.pages n ≠ none ∨ prot ≠ 0)

theorem Repaged.effect {s s1 : State} {r : Region} {base length prot : ℕ} (hw : Whole base length)
    (hg : GoodPages s.pages)
    (hpresent : ∀ n, InRange base (base + length) n → (r.committed = true ↔ s.pages n ≠ none))
    (h : Repaged s r base length prot s1) : Repaged.Effect s base length prot s1 := by
  have hb := hw.base_dvd
  have hl := hw.length_dvd
  cases h with
  | lazy hcom hp => exact ⟨rfl, hg, fun n _ => rfl, fun n _ => by simp [hp]⟩
  | commit hcom hk hp h =>
    refine ⟨h.took.fds, h.good hg, fun n hn => h.out n ?_, fun n hn => ?_⟩
    · unfold InRange at hn
      omega
    · unfold InRange at hn
      obtain ⟨f, hf, -⟩ := h.entry n (by omega) (by omega)
      simp [hf, hp]
  | protect hcom =>
    refine ⟨rfl, fun n x hx => ?_, fun n hn => ?_, fun n hn => ?_⟩
    · simp only [protectPages] at hx
      split_ifs at hx
      · obtain ⟨x', hx', rfl⟩ := Option.map_eq_some_iff.mp hx
        exact hg n x' hx'
      · exact hg n x hx
    · exact if_neg (mt (mem_pageNums hw n).mp hn)
    · have hold := (hpresent n hn).mp hcom
      have hnew : protectPages s.pages (pageNums base length) (vmProtToPteFlags prot) n =
          (s.pages n).map fun x => (x.1, protectEntry x.2 (vmProtToPteFlags prot)) :=
        if_pos ((mem_pageNums hw n).mpr hn)
      show protectPages s.pages (pageNums base length) (vmProtToPteFlags prot) n ≠ none ↔ _
      rw [hnew]
      simp [hold]

section

variable {s : State} (hc : Consistent s)

include hc

theorem Consistent.mprotect_cases (a1 a2 a3 : UInt64) :
    (∃ e s', sysMprotect s a1 a2 a3 = (.error e, s') ∧ Kept s s') ∨
    ∃ length slot slots inner outer s1, roundLength a2.toNat = some length ∧ 4096 ∣ a1.toNat ∧
      4096 ∣ length ∧ vmProtSupported (u32 a3.toNat) = true ∧
      Contains s a1.toNat length slot slots ∧
      Reprotects s (s.regions slot) a1.toNat length (u32 a3.toNat) s1 inner outer ∧
      sysMprotect s a1 a2 a3 = (.ok 0, s1.setRegions (vmRegionMergeNeighbors
        (splitRegion s.regions slot slots (s.regions slot) a1.toNat length inner outer))) := by
  rcases sysMprotect_cases s a1 a2 a3 with ⟨e, he⟩ | ⟨length, out, hlen, hb, hl, hp, hres, he⟩
  · exact .inl ⟨e, s, he, Kept.refl s⟩
  · rw [he]
    cases hres with
    | failed => exact .inl ⟨_, s, rfl, Kept.refl s⟩
    | commitFailed hin hcom h =>
      obtain ⟨ok, s', he, hcase⟩ := hin.commit hc hb hl hcom
      rw [h] at he
      obtain ⟨rfl, rfl⟩ := Prod.mk.inj he
      rcases hcase with ⟨-, hk⟩ | ⟨hok, -⟩
      · exact .inl ⟨_, _, rfl, hk⟩
      · exact absurd hok Bool.false_ne_true
    | protectFailed hin hm h =>
      rw [hin.protect hc hb hl hm] at h
      exact absurd h (by simp)
    | done hin h => exact .inr ⟨length, _, _, _, _, _, hlen, hb, hl, hp, hin, h, rfl⟩

theorem Consistent.mprotect (a1 a2 a3 : UInt64) : Consistent (sysMprotect s a1 a2 a3).2 := by
  rcases hc.mprotect_cases a1 a2 a3 with ⟨e, s', he, hk⟩ |
    ⟨length, slot, slots, inner, outer, s1, -, hb, hl, -, hin, hrep, he⟩
  · rw [he]
    exact hk.consistent hc
  · rw [he]
    obtain ⟨hv, hat⟩ := hrep.table hc.valid hb hl hin
    have heff := (hrep.repaged hc hb hl hin).effect (hin.whole hc hb hl) hc.good
      fun n hn => hin.present hc hn
    refine ⟨hv, heff.good, ?_, fun n y hy => ?_⟩
    · show GoodFds s1.fds
      rw [heff.fds]
      exact hc.fds
    · show y.committed = true ↔ s1.pages n ≠ none
      rcases (hat n y).mp hy with ⟨hn, a, ha, rfl⟩ | ⟨hn, hy⟩
      · rw [heff.present n hn, norm_committed, protect_committed,
          ← hc.present n a.norm (at_norm.mpr ⟨a, ha, rfl⟩), norm_committed]
      · rw [heff.out n hn]
        exact hc.present n y hy

theorem Consistent.file_frames {a4 a5 : UInt64} {mf : Memfd} (h : mmapFile s a4 a5 = .memfd mf) :
    ∀ f ∈ mf.pages, f ≠ 0 ∧ frameOf f = f := by
  unfold mmapFile at h
  split_ifs at h
  exact hc.fds _ mf h

theorem Consistent.mmap_cases {a1 a2 a3 a4 a5 : UInt64} (hsmall : ¬ Narrowed a2 a4)
    (hback : ∀ mf length, mmapFile s a4 a5 = .memfd mf → roundLength a2.toNat = some length →
      Backed s mf length) :
    (∃ e s', sysMmap s a1 a2 a3 a4 a5 = (.error e, s') ∧ Kept s s') ∨
    ∃ s1 s' slot r, roundLength a2.toNat = some r.length ∧
      Adds s (mmapFile s a4 a5) s1 s' slot r ∧ Consistent s' ∧
      sysMmap s a1 a2 a3 a4 a5 = (.ok r.base, s') := by
  have hres := @sysMmap_spec s hc.valid hc.good a1 a2 a3 a4 a5 hsmall
  generalize sysMmap s a1 a2 a3 a4 a5 = out at hres ⊢
  cases hres with
  | failed h => exact .inl ⟨_, _, rfl, h⟩
  | added hl h =>
    refine .inr ⟨_, _, _, _, hl, h, ?_, rfl⟩
    exact h.consistent hc (fun mf hmf => hback mf _ hmf hl) fun mf hmf => hc.file_frames hmf
  | stray hl hmf hfull ha h =>
    obtain ⟨i, hi⟩ := (hback _ _ hmf hl).slot
    rw [hfull i] at hi
    exact absurd hi (by simp)

end

end TaterTOS.Vm
