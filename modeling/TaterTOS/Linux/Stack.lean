import TaterTOS.Linux.Failing
import TaterTOS.Vm.Changes

/-!
# Growth of a stack

* **`growth_truthful`**: when `lx_try_grow_stack` keeps the table truthful, or does nothing;
* `growth_skips`: a fault two pages below a region leaves a page of the region absent.
-/

namespace TaterTOS.Linux

open Function Lib Vm List
open Vmm (userVaTop flagPresent flagUser flagWrite flagNoExecute)

structure User (r : Region) : Prop where
  base_dvd : 4096 ∣ r.base
  length_dvd : 4096 ∣ r.length
  pos : 0 < r.length
  top : r.base + r.length ≤ userVaTop

theorem User.stop_eq {r : Region} (h : User r) : r.stop = r.base + r.length := by
  have htop := h.top
  have : userVaTop < 2 ^ 64 := by decide
  exact u64_of_lt (by omega)

structure Truthful (s : State) : Prop where
  user : ∀ i, (s.regions i).used = true → User (s.regions i)
  apart : ∀ i j x, (s.regions i).Has x → (s.regions j).Has x → i = j
  present : ∀ i n, (s.regions i).Covers n → (s.regions i).committed = true → s.pages n ≠ none

section

variable {s s' : State} {i : Slot} {va : ℕ}

theorem Truthful.map (ht : Truthful s) (hr : s'.regions = s.regions) {n : ℕ} {y : ℕ × ℕ}
    (hp : s'.pages = update s.pages n (some y)) : Truthful s' := by
  refine ⟨hr ▸ ht.user, hr ▸ ht.apart, ?_⟩
  intro i k hcov hc
  rw [hr] at hcov hc
  rw [hp]
  by_cases hk : k = n
  · rw [hk, update_self]
    exact Option.some_ne_none y
  · rw [update_of_ne hk]
    exact ht.present i k hcov hc

/-- A region that starts at `va` and ends where `r` does. -/
def grownTo (r : Region) (va : ℕ) : Region :=
  { r with base := va, length := r.length + (r.base - va) }

theorem grownTo_end {r : Region} (h : va ≤ r.base) :
    (grownTo r va).base + (grownTo r va).length = r.base + r.length := by
  dsimp only [grownTo]
  omega

theorem Truthful.grow (ht : Truthful s) (hu : (s.regions i).used = true) (hva : 4096 ∣ va)
    (hlt : va < (s.regions i).base)
    (hfree : ∀ j x, va ≤ x → x < (s.regions i).base → ¬ (s.regions j).Has x)
    (hr : s'.regions = update s.regions i (grownTo (s.regions i) va))
    (hp : ∀ k, s.pages k ≠ none → s'.pages k ≠ none)
    (hgap : ∀ k, va ≤ k * 4096 → k * 4096 < (s.regions i).base → s'.pages k ≠ none) :
    Truthful s' := by
  obtain ⟨hb, hl, hpos, htop⟩ := ht.user i hu
  have hi : s'.regions i = grownTo (s.regions i) va := by rw [hr, update_self]
  have hne : ∀ j, j ≠ i → s'.regions j = s.regions j := fun j hj => by
    rw [hr, update_of_ne hj]
  have hgrown : User (s'.regions i) := by
    rw [hi]
    exact ⟨hva, dvd_add hl (Nat.dvd_sub hb hva), Nat.add_pos_left hpos _,
      (grownTo_end hlt.le).trans_le htop⟩
  have hstop : (s'.regions i).stop = (s.regions i).stop := by
    rw [hgrown.stop_eq, (ht.user i hu).stop_eq, hi, grownTo_end hlt.le]
  -- the new addresses of the region belong to no other one
  have hnot : ∀ j, j ≠ i → ∀ x, (s'.regions i).Has x → ¬ (s.regions j).Has x := by
    intro j hj x hx hjx
    have hlow : va ≤ x := by simpa [hi, grownTo] using hx.2.1
    have hhigh := hx.2.2
    by_cases hold : x < (s.regions i).base
    · exact hfree j x hlow hold hjx
    · exact hj (ht.apart j i x hjx ⟨hu, by omega, hstop ▸ hhigh⟩)
  refine ⟨fun j hj => ?_, ?_, ?_⟩
  · by_cases hji : j = i
    · rwa [hji]
    · rw [hne j hji] at hj ⊢
      exact ht.user j hj
  · intro j k x hj hk
    by_cases hji : j = i
    · by_cases hki : k = i
      · rw [hji, hki]
      · rw [hji] at hj
        rw [hne k hki] at hk
        exact absurd hk (hnot k hki x hj)
    · rw [hne j hji] at hj
      by_cases hki : k = i
      · rw [hki] at hk
        exact absurd hj (hnot j hji x hk)
      · rw [hne k hki] at hk
        exact ht.apart j k x hj hk
  · intro j n hcov hc
    by_cases hji : j = i
    · rw [hji, hi] at hcov hc
      have h1 : va ≤ n * 4096 := hcov.2.1
      have h2 : n * 4096 < va + ((s.regions i).length + ((s.regions i).base - va)) := hcov.2.2
      by_cases hold : n * 4096 < (s.regions i).base
      · exact hgap n h1 hold
      · exact hp n (ht.present i n ⟨hu, by omega, by omega⟩ hc)
    · rw [hne j hji] at hcov hc
      exact hp n (ht.present j n hcov hc)

end

/-! ### Unmapping a region -/

section

variable {s : State} {i : Slot}

theorem Truthful.slotAt_eq (ht : Truthful s) {x : ℕ} (hx : (s.regions i).Has x) :
    slotAt s.regions x = some i :=
  slotAt_of_unique (fun j hj => ht.apart j i x hj hx) hx

theorem Truthful.rangeMapped (ht : Truthful s) (hg : GoodPages s.pages)
    (hu : (s.regions i).used = true) (hc : (s.regions i).committed = true) :
    vmRangeMapped s (s.regions i).base (s.regions i).length = true := by
  obtain ⟨hb, hl, hpos, htop⟩ := ht.user i hu
  have : userVaTop < 2 ^ 64 := by decide
  rw [vmRangeMapped, if_neg hpos.ne', pageAddrs_of_dvd hb hl (by omega), all_map, all_eq_true]
  intro n hn
  have hn := mem_range'_1.mp hn
  have hpage := ht.present i n ⟨hu, by omega, by omega⟩ hc
  have hphys := mt (virtToPhysUser_eq_zero hg (show n * 4096 < userVaTop by omega)).mp hpage
  simpa using hphys

/-- `LNX_munmap` of a whole region does to the pages what releasing them does. -/
theorem Truthful.munmap_pages {p : Process} (ht : Truthful p.toState)
    (hu : (p.regions i).used = true) {s : State} (hrelease : vmReleaseRegionPages p.toState
      (p.regions i) (p.regions i).base (p.regions i).length = (true, s)) :
    (lnxMunmap p (UInt64.ofNat (p.regions i).base)
      (UInt64.ofNat (p.regions i).length)).pages = s.pages := by
  obtain ⟨hb, hl, hpos, htop⟩ := ht.user i hu
  have hlt : userVaTop + 4096 < 2 ^ 64 := by decide
  have hsize : UInt64.size = 2 ^ 64 := rfl
  have hne : ¬ (p.regions i).base + (p.regions i).length ≤ (p.regions i).base := by omega
  have hstop := (ht.user i hu).stop_eq
  have hsum : u64 ((p.regions i).base + (p.regions i).length) =
      (p.regions i).base + (p.regions i).length := hstop
  have hcollect : vmRegionCollectCoveringSlots p.regions (p.regions i).base (p.regions i).length =
      some [i] := collect_one hpos.ne' hstop (ht.slotAt_eq ⟨hu, le_rfl, by omega⟩)
  have hbase : (p.regions i).base &&& not64 0xFFF = (p.regions i).base := by
    rw [and_not64_page (by omega)]
    omega
  have hshift : u64 ((p.regions i).length + 0xFFF) >>> 12 * 4096 = (p.regions i).length := by
    rw [u64_of_lt (by omega)]
    omega
  rw [lnxMunmap, UInt64.toNat_ofNat_of_lt' (by omega), UInt64.toNat_ofNat_of_lt' (by omega)]
  rw [hbase, hshift, u64_of_lt (by omega), vmUnmapRegionRange, hcollect, hsum]
  dsimp only
  rw [spillSlot, if_neg (by omega)]
  rw [releaseLoop, if_neg (lt_irrefl _), hstop, if_neg (lt_irrefl _), if_neg hne,
    Nat.add_sub_cancel_left, hrelease]
  rfl

theorem Truthful.munmap {p : Process} (ht : Truthful p.toState) (hg : GoodPages p.pages)
    (hu : (p.regions i).used = true) (hc : (p.regions i).committed = true)
    (hk : (p.regions i).kind = .anonPrivate) {n : ℕ} (hn : (p.regions i).Covers n) :
    (lnxMunmap p (UInt64.ofNat (p.regions i).base)
      (UInt64.ofNat (p.regions i).length)).pages n = none := by
  obtain ⟨hb, hl, hpos, htop⟩ := ht.user i hu
  have hlt : userVaTop < 2 ^ 64 := by decide
  have hrelease : vmReleaseRegionPages p.toState (p.regions i) (p.regions i).base
      (p.regions i).length =
        (true, vmReleasePrivatePages p.toState (p.regions i).base (p.regions i).length) := by
    rw [vmReleaseRegionPages, if_neg hpos.ne', hc, ht.rangeMapped hg hu hc, hk]
    rfl
  have hpages : ∀ k ∈ pageNums (p.regions i).base (p.regions i).length, k * 4096 < userVaTop := by
    intro k hk
    have := mem_range'_1.mp hk
    omega
  rw [ht.munmap_pages hu hrelease, vmReleasePrivatePages, pageAddrs_of_dvd hb hl (by omega),
    releasePage_foldl _ (pageNums_nodup _ _) hg hpages]
  refine if_pos (mem_range'_1.mpr ?_)
  have := hn.2
  omega

/-- The pages of a sparse region stay. -/
theorem Truthful.munmap_sparse {p : Process} (ht : Truthful p.toState)
    (hu : (p.regions i).used = true) (hc : (p.regions i).committed = false) :
    (lnxMunmap p (UInt64.ofNat (p.regions i).base)
      (UInt64.ofNat (p.regions i).length)).pages = p.pages :=
  ht.munmap_pages hu (by rw [vmReleaseRegionPages, if_neg (ht.user i hu).pos.ne', hc]; rfl)

end

/-! ### The fault -/

theorem regionAbove_spec {t : Table} {va : ℕ} {i : Slot} (h : regionAbove t va = some i) :
    (t i).used = true ∧ (t i).kind = .anonPrivate ∧ va < (t i).base := by
  refine List.foldlRecOn (motive := fun best => ∀ i, best = some i →
    (t i).used = true ∧ (t i).kind = .anonPrivate ∧ va < (t i).base) _ _
      (fun _ h => by cases h) ?_ i h
  intro best hbest j _ k hk
  split_ifs at hk with hj
  · cases best with
    | none =>
      obtain rfl := Option.some.inj hk
      exact ⟨hj.1, hj.2.1, hj.2.2.2⟩
    | some b =>
      dsimp only at hk
      split_ifs at hk
      · obtain rfl := Option.some.inj hk
        exact ⟨hj.1, hj.2.1, hj.2.2.2⟩
      · exact hbest k hk
  · exact hbest k hk

def Process.extend (p : Process) (i : Slot) (va : ℕ) : Process :=
  let r := p.regions i
  let grown := { r with base := va, length := u64 (r.length + sub64 r.base va) }
  { p with regions := update p.regions i grown }

def growFlags (r : Region) : ℕ :=
  flagPresent ||| flagUser ||| flagWrite ||| (if r.prot &&& protExec = 0 then flagNoExecute else 0)

def inWindow (va : ℕ) : Prop := va < userVaTop ∧ userVaTop - (512 <<< 20) ≤ va

/-- A fault on the page `n` extends the region `i` down to it. -/
structure Extends (p : Process) (n : ℕ) (faultVa rsp err : UInt64) (i : Slot) : Prop where
  absent : err.toNat &&& 1 = 0
  window : inWindow (n * 4096) →
    frameAt p.toState (n * 4096) = 0 ∧ vmAnyRegionOverlap p.regions (n * 4096) 4096 = true
  near : rsp.toNat ≤ u64 (faultVa.toNat + 65536)
  above : regionAbove p.regions (n * 4096) = some i
  gap : sub64 (p.regions i).base (n * 4096) ≤ 1 <<< 20
  cap : sub64 (p.regions i).stop (n * 4096) ≤ 64 <<< 20
  apart : vmAnyRegionOverlap p.regions (n * 4096) (sub64 (p.regions i).base (n * 4096)) = false

inductive Way (p : Process) (n : ℕ) (faultVa rsp err : UInt64) : Bool × Process → Prop
  | refused (hno : ∀ i, ¬ Extends p n faultVa rsp err i)
      (hw : err.toNat &&& 1 = 0 → inWindow (n * 4096) → frameAt p.toState (n * 4096) = 0) :
      Way p n faultVa rsp err (false, p)
  | there (herr : err.toNat &&& 1 = 0) (hw : inWindow (n * 4096))
      (hf : frameAt p.toState (n * 4096) ≠ 0) : Way p n faultVa rsp err (true, p)
  | page (hw : inWindow (n * 4096)) (hf : frameAt p.toState (n * 4096) = 0)
      (hno : vmAnyRegionOverlap p.regions (n * 4096) 4096 = false) :
      Way p n faultVa rsp err ((lxMapOne p.toHeap (n * 4096) sbrkFlags).1,
        { p with toHeap := (lxMapOne p.toHeap (n * 4096) sbrkFlags).2 })
  | covered {i : Slot} (hext : Extends p n faultVa rsp err i)
      (hf : frameAt p.toState (n * 4096) ≠ 0) :
      Way p n faultVa rsp err (true, p.extend i (n * 4096))
  | region {i : Slot} (hext : Extends p n faultVa rsp err i)
      (hf : frameAt p.toState (n * 4096) = 0) : Way p n faultVa rsp err
        ((lxMapOne (p.extend i (n * 4096)).toHeap (n * 4096) (growFlags (p.regions i))).1,
        { p.extend i (n * 4096) with toHeap :=
          (lxMapOne (p.extend i (n * 4096)).toHeap (n * 4096) (growFlags (p.regions i))).2 })

theorem tryGrowStack_way (p : Process) (faultVa rsp err : UInt64) :
    Way p (faultVa.toNat / 4096) faultVa rsp err (lxTryGrowStack p faultVa rsp err) := by
  unfold lxTryGrowStack
  rw [and_not64_page faultVa.toNat_lt]
  generalize faultVa.toNat / 4096 = n
  dsimp only
  by_cases herr : err.toNat &&& 1 ≠ 0
  · rw [if_pos herr]
    exact .refused (fun i h => herr h.absent) fun h => absurd h herr
  rw [if_neg herr]
  have herr := not_not.mp herr
  split_ifs with h2 h3 h4
  · exact .there herr (by simpa [inWindow] using h2.1) h2.2
  · have hw : inWindow (n * 4096) := by simpa [inWindow] using h3.1
    refine .page hw ?_ (by simpa using h3.2)
    by_contra hf
    exact h2 ⟨by simpa [inWindow] using hw, hf⟩
  · have hframe : inWindow (n * 4096) → frameAt p.toState (n * 4096) = 0 := by
      intro hw
      by_contra hf
      exact h2 ⟨by simpa [inWindow] using hw, hf⟩
    exact .refused (fun i h => absurd h4 (not_lt.mpr h.near)) fun _ => hframe
  · have hframe : inWindow (n * 4096) → frameAt p.toState (n * 4096) = 0 ∧
        vmAnyRegionOverlap p.regions (n * 4096) 4096 = true := by
      intro hw
      have hw : (decide (n * 4096 < userVaTop ∧ userVaTop - (512 <<< 20) ≤ n * 4096)) = true :=
        decide_eq_true hw
      refine ⟨by_contra fun hf => h2 ⟨hw, hf⟩, ?_⟩
      by_contra hno
      exact h3 ⟨hw, by simpa using hno⟩
    have hw := fun (_ : err.toNat &&& 1 = 0) hw => (hframe hw).1
    cases hi : regionAbove p.regions (n * 4096) with
    | none => exact .refused (fun i h => nomatch hi.symm.trans h.above) hw
    | some i =>
      have hsame : ∀ {j}, Extends p n faultVa rsp err j → j = i := fun h =>
        Option.some.inj (h.above.symm.trans hi)
      dsimp only
      split
      · next hgap => exact .refused (fun j h => absurd hgap (not_lt.mpr (hsame h ▸ h.gap))) hw
      split
      · next hcap => exact .refused (fun j h => absurd hcap (not_lt.mpr (hsame h ▸ h.cap))) hw
      split
      · next hover =>
        exact .refused (fun j h => Bool.false_ne_true ((hsame h ▸ h.apart).symm.trans hover)) hw
      next hgap hcap hno =>
        have hext : Extends p n faultVa rsp err i :=
          ⟨herr, hframe, not_lt.mp h4, hi, not_lt.mp hgap,
          not_lt.mp hcap, by simpa using hno⟩
        split
        · next hf => exact .covered hext hf
        · next hf => exact .region hext (not_not.mp hf)

theorem lxMapOne_fst (h : Heap) (va flags : ℕ) :
    (lxMapOne h va flags).1 = decide ((pmmAllocPage h.toState).1 ≠ 0) := by
  unfold lxMapOne
  dsimp only
  split_ifs with ha
  · simp [ha]
  · simp [ha]

theorem allocPage_extend (p : Process) (i : Slot) (va : ℕ) :
    (pmmAllocPage (p.extend i va).toState).1 = (pmmAllocPage p.toState).1 := by
  have henv : (p.extend i va).env = p.env := rfl
  unfold pmmAllocPage
  rw [henv]
  cases p.env.frames with
  | nil => rfl
  | cons a frames =>
    dsimp only
    by_cases ha : p.pool.Offers a
    · rw [if_pos ha, if_pos (show (p.extend i va).pool.Offers a from ha)]
    · rw [if_neg ha, if_neg (show ¬ (p.extend i va).pool.Offers a from ha)]

def Process.Writable (p : Process) (n : ℕ) : Prop := ∃ x, p.pages n = some x ∧ x.2 &&& flagWrite ≠ 0

structure Grown (p p' : Process) (n : ℕ) : Prop where
  truthful : Truthful p'.toState
  page : p'.Writable n
  removable : ∀ i, p'.regions i ≠ p.regions i → ∀ k, (p'.regions i).Covers k →
    (lnxMunmap p' (UInt64.ofNat (p'.regions i).base)
      (UInt64.ofNat (p'.regions i).length)).pages k = none

theorem growFlags_write (r : Region) : pteFlags (growFlags r) &&& flagWrite ≠ 0 := by
  unfold growFlags
  split_ifs <;> decide

/-- The region `i` is committed and all pages from its start down to the page `n` are there. -/
def Process.Solid (p : Process) (i : Slot) (n : ℕ) : Prop :=
  (p.regions i).committed = true ∧ ∀ k, n < k → k * 4096 < (p.regions i).base → p.pages k ≠ none

/-- **Where growth is truthful**: a page that is there already can be written, and a region that is
extended is solid, with a frame for the page if it is not there. -/
structure CanGrow (p : Process) (n : ℕ) (faultVa rsp err : UInt64) : Prop where
  there : err.toNat &&& 1 = 0 → inWindow (n * 4096) → frameAt p.toState (n * 4096) ≠ 0 →
    p.Writable n
  region : ∀ i, Extends p n faultVa rsp err i → p.Solid i n ∧
    (frameAt p.toState (n * 4096) ≠ 0 → p.Writable n) ∧
    (frameAt p.toState (n * 4096) = 0 → (pmmAllocPage p.toState).1 ≠ 0)

section

variable {p p' : Process} {n : ℕ} {i : Slot}

theorem Truthful.gap_eq (ht : Truthful p.toState) (hu : (p.regions i).used = true)
    (hlt : n * 4096 < (p.regions i).base) :
    sub64 (p.regions i).base (n * 4096) = (p.regions i).base - n * 4096 := by
  have := (ht.user i hu).top
  have : userVaTop < 2 ^ 64 := by decide
  exact sub64_of_le hlt.le (by omega)

theorem Truthful.extend_regions (ht : Truthful p.toState) (hu : (p.regions i).used = true)
    (hlt : n * 4096 < (p.regions i).base) :
    (p.extend i (n * 4096)).regions =
      update p.regions i (grownTo (p.regions i) (n * 4096)) := by
  have := (ht.user i hu).top
  have : userVaTop < 2 ^ 64 := by decide
  unfold Process.extend grownTo
  dsimp only
  rw [ht.gap_eq hu hlt, u64_of_lt (by omega)]

section

variable (ht : Truthful p.toState) (hu : (p.regions i).used = true)
  (hlt : n * 4096 < (p.regions i).base) (hr : p'.regions = (p.extend i (n * 4096)).regions)
  (hp : ∀ k, k ≠ n → p'.pages k = p.pages k) (hn : p'.pages n ≠ none)
include ht hu hlt hr

theorem Truthful.extended_self : p'.regions i = grownTo (p.regions i) (n * 4096) := by
  rw [hr, ht.extend_regions hu hlt, update_self]

include hp hn

theorem Truthful.solid_of_grown (h : Grown p p' n) : p.Solid i n := by
  have hself := ht.extended_self hu hlt hr
  have hu' : (p'.regions i).used = true := by rw [hself]; exact hu
  have hcov : ∀ k, n ≤ k → k * 4096 < (p.regions i).base → (p'.regions i).Covers k := by
    intro k h1 h2
    refine ⟨hu', ?_, ?_⟩
    · rw [hself]
      show n * 4096 ≤ k * 4096
      omega
    · rw [hself, grownTo_end hlt.le]
      exact Nat.lt_add_right _ h2
  have hchanged : p'.regions i ≠ p.regions i := by
    intro heq
    exact hlt.ne (congrArg Region.base (hself.symm.trans heq))
  have hc : (p.regions i).committed = true := by
    by_contra hc
    have hsparse := h.truthful.munmap_sparse hu' (by
      rw [hself]
      exact (Bool.not_eq_true _).mp hc)
    exact hn (hsparse ▸ h.removable i hchanged n (hcov n le_rfl hlt))
  refine ⟨hc, fun k h1 h2 => ?_⟩
  rw [← hp k (by omega)]
  exact h.truthful.present i k (hcov k h1.le h2) (by rw [hself]; exact hc)

theorem Truthful.grown_of_solid (hk : (p.regions i).kind = .anonPrivate)
    (hno : vmAnyRegionOverlap p.regions (n * 4096) (sub64 (p.regions i).base (n * 4096)) = false)
    (hg : GoodPages p'.pages) (hsolid : p.Solid i n) (hw : p'.Writable n) : Grown p p' n := by
  have hself := ht.extended_self hu hlt hr
  have hend : (p.regions i).base < 2 ^ 64 := by
    have := (ht.user i hu).top
    have : userVaTop < 2 ^ 64 := by decide
    omega
  have hpages : ∀ k, p.pages k ≠ none → p'.pages k ≠ none := by
    intro k hk
    by_cases hkn : k = n
    · rwa [hkn]
    · rwa [hp k hkn]
  rw [ht.gap_eq hu hlt] at hno
  rw [ht.extend_regions hu hlt] at hr
  have ht' : Truthful p'.toState := by
    refine ht.grow hu (Nat.dvd_mul_left _ _) hlt (fun j x h1 h2 => ?_) hr hpages fun k h1 h2 => ?_
    · have hsum := Nat.add_sub_of_le hlt.le
      exact not_has_of_noOverlap (Nat.sub_pos_of_lt hlt) (hsum.trans_lt hend) hno j h1
        (hsum.symm ▸ h2)
    · by_cases hkn : k = n
      · rwa [hkn]
      · exact hpages k (hsolid.2 k (by omega) h2)
  refine ⟨ht', hw, fun j hj k hk' => ?_⟩
  have hji : j = i := by
    by_contra hji
    exact hj (by rw [hr, update_of_ne hji])
  subst hji
  exact ht'.munmap hg (by rw [hself]; exact hu) (by rw [hself]; exact hsolid.1)
    (by rw [hself]; exact hk) hk'

/-- A region that was extended over its page `n` is truthful if it was solid, and only then. -/
theorem Truthful.grown_iff (hk : (p.regions i).kind = .anonPrivate)
    (hno : vmAnyRegionOverlap p.regions (n * 4096) (sub64 (p.regions i).base (n * 4096)) = false)
    (hg : GoodPages p'.pages) : Grown p p' n ↔ p.Solid i n ∧ p'.Writable n :=
  ⟨fun h => ⟨ht.solid_of_grown hu hlt hr hp hn h, h.page⟩,
    fun h => ht.grown_of_solid hu hlt hr hp hn hk hno hg h.1 h.2⟩

end

theorem Extends.canGrow_iff {faultVa rsp err : UInt64} (hext : Extends p n faultVa rsp err i) :
    CanGrow p n faultVa rsp err ↔ p.Solid i n ∧
      (frameAt p.toState (n * 4096) ≠ 0 → p.Writable n) ∧
      (frameAt p.toState (n * 4096) = 0 → (pmmAllocPage p.toState).1 ≠ 0) := by
  refine ⟨fun h => h.region i hext, fun h => ⟨fun _ hw hf => absurd (hext.window hw).1 hf, ?_⟩⟩
  intro j hj
  obtain rfl : i = j := Option.some.inj (hext.above.symm.trans hj.above)
  exact h

/-- The page of a region that was extended over it is mapped, with success, exactly where there is a
frame for it. -/
theorem Extends.region_iff {faultVa rsp err : UInt64} (hext : Extends p n faultVa rsp err i)
    (hg : GoodPages p.pages) (ht : Truthful p.toState) (hmaps : MapsWork p.toState) :
    let h := lxMapOne (p.extend i (n * 4096)).toHeap (n * 4096) (growFlags (p.regions i))
    (h.1 = true → Grown p { p.extend i (n * 4096) with toHeap := h.2 } n) ∧
      (h.1 = false → Same p { p.extend i (n * 4096) with toHeap := h.2 }) ↔
    p.Solid i n ∧ (pmmAllocPage p.toState).1 ≠ 0 := by
  obtain ⟨hu, hk, hlt⟩ := regionAbove_spec hext.above
  have htop := (ht.user i hu).top
  have hfst := lxMapOne_fst (p.extend i (n * 4096)).toHeap (n * 4096) (growFlags (p.regions i))
  rw [allocPage_extend] at hfst
  have hmaps' : MapsWork (p.extend i (n * 4096)).toState := hmaps
  obtain ⟨a, s, new, -, -, ⟨hone, hp, htook⟩ | ⟨hone, ha, hfa, hp, htook⟩⟩ := lxMapOne_spec
    (p.extend i (n * 4096)).toHeap (n := n) (by omega) (growFlags (p.regions i)) hmaps'
  · rw [hone] at hfst ⊢
    have hzero : (pmmAllocPage p.toState).1 = 0 := by simpa using hfst.symm
    refine ⟨fun h => ?_, fun h => absurd hzero h.2⟩
    -- the region was moved before the frame was asked for
    have hmoved := congrFun ((h.2 rfl).took.choose_spec.regions) i
    have hext' := congrFun htook.regions i
    rw [ht.extend_regions hu hlt, update_self] at hext'
    exact absurd (congrArg Region.base (hext'.symm.trans hmoved)) hlt.ne
  · rw [hone] at hfst ⊢
    have hframe : (pmmAllocPage p.toState).1 ≠ 0 := by simpa using hfst.symm
    have hp' : s.pages = update p.pages n (some (a, pteFlags (growFlags (p.regions i)))) := hp
    have hg' : GoodPages s.pages := by
      rw [hp']
      refine hg.updated ?_
      rintro x ⟨⟩
      exact ⟨ha, hfa⟩
    have hw : ∃ x, s.pages n = some x ∧ x.2 &&& flagWrite ≠ 0 :=
      ⟨_, by rw [hp', update_self], growFlags_write _⟩
    have hgrown := @Truthful.grown_iff p { p.extend i (n * 4096) with
        toState := s, mem := fill p.mem a 4096 0 } n i ht hu hlt htook.regions
      (fun k hk => by show s.pages k = _; rw [hp', update_of_ne hk])
      (by obtain ⟨x, hx, -⟩ := hw; show s.pages n ≠ none; simp [hx]) hk hext.apart hg'
    exact ⟨fun h => ⟨(hgrown.mp (h.1 rfl)).1, hframe⟩,
      fun h => ⟨fun _ => hgrown.mpr ⟨h.1, hw⟩, nofun⟩⟩

/-- **Growth keeps the region table truthful exactly where it can.** A call that succeeds keeps the
regions apart and the committed ones present, leaves the page writable, and a region that grew is
taken away by `LNX_munmap`; a call that fails changes nothing. -/
theorem growth_truthful (hg : GoodPages p.pages) (ht : Truthful p.toState)
    (hmaps : MapsWork p.toState) {faultVa rsp err : UInt64} :
    ((lxTryGrowStack p faultVa rsp err).1 = true →
        Grown p (lxTryGrowStack p faultVa rsp err).2 (faultVa.toNat / 4096)) ∧
      ((lxTryGrowStack p faultVa rsp err).1 = false → Same p (lxTryGrowStack p faultVa rsp err).2) ↔
    CanGrow p (faultVa.toNat / 4096) faultVa rsp err := by
  have hway := tryGrowStack_way p faultVa rsp err
  generalize lxTryGrowStack p faultVa rsp err = res at hway
  generalize faultVa.toNat / 4096 = n at hway
  cases hway with
  | refused hno hw =>
    refine ⟨fun _ => ⟨fun herr hwin hf => absurd (hw herr hwin) hf, fun i h => absurd h (hno i)⟩,
      fun _ => ⟨nofun, fun _ => Same.refl p⟩⟩
  | there herr hw hf =>
    refine ⟨fun h => ⟨fun _ _ _ => (h.1 rfl).page, fun i hext => absurd (hext.window hw).1 hf⟩,
      fun h => ⟨fun _ => ⟨ht, h.there herr hw hf, fun i hi => absurd rfl hi⟩, nofun⟩⟩
  | page hw hf hno =>
    refine ⟨fun _ => ⟨fun _ _ hf' => absurd hf hf', fun i hext => ?_⟩, fun _ => ?_⟩
    · exact absurd (hno.symm.trans (hext.window hw).2) Bool.false_ne_true
    obtain ⟨a, s, new, ho, -, ⟨hone, hp, htook⟩ | ⟨hone, -, -, hp, htook⟩⟩ :=
      lxMapOne_spec p.toHeap hw.1 sbrkFlags hmaps
    · rw [hone]
      exact ⟨nofun, fun _ => ⟨⟨⟨new, htook⟩, hp, fun _ _ _ _ _ => rfl, rfl⟩, rfl⟩⟩
    · rw [hone]
      refine ⟨fun _ => ⟨show Truthful s from ht.map htook.regions hp,
        ⟨(a, pteFlags sbrkFlags), ?_, show pteFlags sbrkFlags &&& flagWrite ≠ 0 by decide⟩,
        fun i hi => absurd (congrFun htook.regions i) hi⟩, nofun⟩
      rw [hp, update_self]
  | @covered i hext hf =>
    obtain ⟨hu, hk, hlt⟩ := regionAbove_spec hext.above
    have hn : p.pages n ≠ none := fun hn => hf (frameAt_of_none hn)
    have hgrown := @Truthful.grown_iff p (p.extend i (n * 4096)) n i ht hu hlt rfl (fun _ _ => rfl)
      hn hk hext.apart hg
    rw [hext.canGrow_iff]
    constructor
    · intro h
      obtain ⟨hsolid, hw⟩ := hgrown.mp (h.1 rfl)
      exact ⟨hsolid, fun _ => hw, fun h0 => absurd h0 hf⟩
    · rintro ⟨hsolid, hw, -⟩
      exact ⟨fun _ => hgrown.mpr ⟨hsolid, hw hf⟩, nofun⟩
  | @region i hext hf =>
    rw [hext.canGrow_iff]
    refine (hext.region_iff hg ht hmaps).trans (and_congr_right fun _ => ?_)
    exact ⟨fun h => ⟨fun h0 => absurd hf h0, fun _ => h⟩, fun h => h.2 hf⟩

end

def firstSlot : Slot := ⟨0, by unfold procVmregMax; decide⟩

/-- A process with one committed page at `0x10001000` and one free frame. -/
def onePage : Process := { fresh.withPage [0x6000] 0x10001 with
  regions := update (fun _ => Region.cleared) firstSlot { Region.cleared with
    base := 0x10001000, length := 0x1000, prot := 3, kind := .anonPrivate, used := true,
    committed := true } }

theorem onePage_used {i : Slot} (h : (onePage.regions i).used = true) : i = firstSlot := by
  by_contra hi
  simp [onePage, update_of_ne hi, Region.cleared] at h

theorem onePage_truthful : Truthful onePage.toState := by
  refine ⟨fun i hu => ?_, fun i j x hi hj => ?_, fun i n hcov _ => ?_⟩
  · rw [onePage_used hu]
    exact ⟨by decide, by decide, by decide, by decide⟩
  · rw [onePage_used hi.1, onePage_used hj.1]
  · obtain rfl := onePage_used hcov.1
    have h1 : 0x10001000 ≤ n * 4096 := hcov.2.1
    have h2 : n * 4096 < 0x10002000 := hcov.2.2
    obtain rfl : n = 0x10001 := by omega
    exact Option.some_ne_none _

theorem growth_truthful_onePage : let r := lxTryGrowStack onePage 0x10000000 0x10000000 0
    r.1 = true ∧ (r.2.regions firstSlot).base = 0x10000000 ∧
      (r.2.regions firstSlot).length = 0x2000 ∧ Grown onePage r.2 0x10000 := by
  have hgood : GoodPages onePage.pages := goodPages_withPage [0x6000] 0x10001
  have hcan : CanGrow onePage 0x10000 0x10000000 0x10000000 0 := by
    refine ⟨fun _ hw => absurd hw.2 (by decide), fun i hext => ?_⟩
    obtain rfl := onePage_used (regionAbove_spec hext.above).1
    refine ⟨⟨rfl, fun k h1 h2 => ?_⟩, fun hf => absurd (by decide) hf, fun _ => by decide⟩
    have h2 : k * 4096 < 0x10001000 := h2
    omega
  have hok : (lxTryGrowStack onePage 0x10000000 0x10000000 0).1 = true := by decide +kernel
  exact ⟨hok, by decide +kernel, by decide +kernel, (@growth_truthful onePage hgood onePage_truthful
    (fun a ha => absurd ha not_mem_nil) 0x10000000 0x10000000 0).mpr hcan |>.1 hok⟩

def mappedPage : Process :=
  (lnxMmap (fresh [0x5000, 0x6000]) ⟨true, true, fun _ => none⟩ 0x10002000 0x1000 3 0x32 0 0).2

/-- **A fault two pages below the region** extends it over a page that is not there. -/
theorem growth_skips : (lxTryGrowStack mappedPage 0x10000000 0x10000000 0).1 = true ∧
    ∃ i, ((lxTryGrowStack mappedPage 0x10000000 0x10000000 0).2.regions i).committed = true ∧
      ((lxTryGrowStack mappedPage 0x10000000 0x10000000 0).2.regions i).Covers 0x10001 ∧
      (lxTryGrowStack mappedPage 0x10000000 0x10000000 0).2.pages 0x10001 = none := by
  refine ⟨by decide +kernel, ⟨0, by unfold procVmregMax; decide⟩, ?_⟩
  decide +kernel

end TaterTOS.Linux
