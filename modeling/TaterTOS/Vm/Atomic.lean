import TaterTOS.Vm.Protection

/-!
# Failed calls

A call that fails leaves the process and the allocator as they were, and every region can be
unmapped again, as long as files in memory back their mappings.

* `reachable_atomic`: both hold after every run;
* `memfd_not_atomic`: a mapping longer than its file cannot be removed, and makes an unmapping over
  its neighbour fail half way.
-/

namespace TaterTOS.Vm

open Lib Slots

/-- The same regions, the same pages with their frames and flags, and the same free frames, but for
frames that became page tables. -/
structure Unchanged (s s' : State) : Prop where
  regions : s'.regions = s.regions
  pages : s'.pages = s.pages
  free : ∃ new, s'.tables = new ++ s.tables ∧ ∀ f, f ∉ new → s'.pool.free f = s.pool.free f

variable {s s' : State} {i : Slot}

theorem Kept.unchanged (h : Kept s s') : Unchanged s s' := by
  obtain ⟨new, ht⟩ := h.took
  refine ⟨ht.regions, h.pages, new, ht.tables, fun f hf => ?_⟩
  rw [Bool.eq_iff_iff, ht.free f]
  simp [hf]

/-- The mapping is not narrowed, and a file in memory backs all of it. -/
def BackedMmap (s : State) (a2 a4 a5 : UInt64) : Prop :=
  ¬ Narrowed a2 a4 ∧ ∀ mf length, mmapFile s a4 a5 = .memfd mf →
    roundLength a2.toNat = some length → Backed s mf length

def Removable (s : State) (i : Slot) : Prop :=
  ∀ a1 a2 : UInt64, a1.toNat = (s.regions i).base → a2.toNat = (s.regions i).length →
    ∃ s', sysMunmap s a1 a2 = (.ok 0, s') ∧ ∀ n, (s.regions i).Covers n →
      s'.pages n = none ∧ ∀ j, ¬ (s'.regions j).Covers n

/-- **Calls are all or nothing.** -/
structure Atomic (s : State) : Prop where
  mmap : ∀ a1 a2 a3 a4 a5 e s', BackedMmap s a2 a4 a5 →
    sysMmap s a1 a2 a3 a4 a5 = (.error e, s') → Unchanged s s'
  munmap : ∀ a1 a2 e s', sysMunmap s a1 a2 = (.error e, s') → Unchanged s s'
  mprotect : ∀ a1 a2 a3 e s', sysMprotect s a1 a2 a3 = (.error e, s') → Unchanged s s'
  removable : ∀ i, (s.regions i).used = true → Removable s i
  created : ∀ a1 a2 a3 a4 a5 base s', BackedMmap s a2 a4 a5 →
    sysMmap s a1 a2 a3 a4 a5 = (.ok base, s') → ∃ i, (s'.regions i).used = true ∧
      (s'.regions i).base = base ∧ roundLength a2.toNat = some (s'.regions i).length ∧
      Removable s' i

/-! ### Removing a region -/

theorem collect_region {t : Table} (hv : Valid t) (hu : (t i).used = true) :
    vmRegionCollectCoveringSlots t (t i).base (t i).length = some [i] := by
  have hr := hv.native i hu
  have hse := hr.stop_eq
  have hpos := hr.length_pos
  exact collect_one hpos.ne' hse (hv.slotAt_eq ⟨hu, le_rfl, by omega⟩)

theorem Consistent.removable (hc : Consistent s) (hu : (s.regions i).used = true) :
    Removable s i := by
  intro a1 a2 h1 h2
  have hr := hc.valid.native i hu
  have hse := hr.stop_eq
  have hlim : vmUserLimit + 4096 < 2 ^ 64 := by decide
  have hb := hr.base_dvd
  have hl := hr.length_dvd
  have hpos := hr.length_pos
  have hstop := hr.stop_le
  have hstop' : u64 ((s.regions i).base + (s.regions i).length) =
      (s.regions i).base + (s.regions i).length := hse
  have hcollect := collect_region hc.valid hu
  obtain ⟨-, -, hcov⟩ := collect_spec hcollect
  rw [hstop'] at hcov
  have hspill : spillSlot s.regions [i] (s.regions i).base
      ((s.regions i).base + (s.regions i).length) = some none := by
    rw [spillSlot, if_neg (by omega)]
  have hun : Unmaps s (s.regions i).base (s.regions i).length [i] none :=
    ⟨hpos, hstop', hcov, hspill⟩
  obtain ⟨s1, he, hgone⟩ := hc.release hb hl hun
  obtain ⟨-, hat⟩ := hun.table hc.valid hb hl
  have hregions : s1.regions = s.regions := hgone.regions
  have hunmap : vmUnmapRegionRange s (s.regions i).base (s.regions i).length =
      (true, s1.setRegions (vmRegionMergeNeighbors (trimRegions s.regions [i] none
        (s.regions i).base ((s.regions i).base + (s.regions i).length)))) := by
    unfold vmUnmapRegionRange
    rw [hcollect, hstop']
    dsimp only
    rw [hspill]
    rw [he]
    simp only [ite_not_true, hregions]
  have hcall : sysMunmap s a1 a2 = (.ok 0, s1.setRegions (vmRegionMergeNeighbors
      (trimRegions s.regions [i] none (s.regions i).base
        ((s.regions i).base + (s.regions i).length)))) := by
    have hmask : (s.regions i).base &&& (4096 - 1) = 0 := by
      rw [and_page_mask]
      omega
    unfold sysMunmap
    rw [h1, h2, if_neg (not_not.mpr hmask), roundLength_of_dvd hl hpos (by omega)]
    simp only [hunmap, if_true]
  refine ⟨_, hcall, fun n hn => ?_⟩
  have hin : InRange (s.regions i).base ((s.regions i).base + (s.regions i).length) n := hn.2
  constructor
  · show s1.pages n = none
    rw [hgone.pages n, if_pos hin]
  · intro j hj
    exact ((hat n _).mp (at_of_cov hj)).1 hin

/-! ### Every run -/

theorem Consistent.atomic (hc : Consistent s) : Atomic s := by
  refine ⟨fun a1 a2 a3 a4 a5 e s' hb h => ?_, fun a1 a2 e s' h => ?_, fun a1 a2 a3 e s' h => ?_,
    fun i hu => hc.removable hu, fun a1 a2 a3 a4 a5 base s' hb h => ?_⟩
  · rcases @Consistent.mmap_cases s hc a1 a2 a3 a4 a5 hb.1 hb.2 with ⟨e', s1, he, hk⟩ |
      ⟨s1, s2, slot, r, -, -, -, he⟩
    · rw [h] at he
      obtain rfl := (Prod.mk.inj he).2
      exact hk.unchanged
    · rw [h] at he
      exact absurd (Prod.mk.inj he).1 (by simp)
  · rcases hc.munmap_cases a1 a2 with ⟨e', he⟩ | ⟨length, slots, spill, s1, -, -, -, -, -, -, he⟩
    · rw [h] at he
      obtain rfl := (Prod.mk.inj he).2
      exact (Kept.refl _).unchanged
    · rw [h] at he
      exact absurd (Prod.mk.inj he).1 (by simp)
  · rcases hc.mprotect_cases a1 a2 a3 with ⟨e', s1, he, hk⟩ |
      ⟨length, slot, slots, inner, outer, s1, -, -, -, -, -, -, he⟩
    · rw [h] at he
      obtain rfl := (Prod.mk.inj he).2
      exact hk.unchanged
    · rw [h] at he
      exact absurd (Prod.mk.inj he).1 (by simp)
  · rcases @Consistent.mmap_cases s hc a1 a2 a3 a4 a5 hb.1 hb.2 with ⟨e', s1, he, hk⟩ |
      ⟨s1, s2, slot, r, hlen, hadds, hc', he⟩
    · rw [h] at he
      exact absurd (Prod.mk.inj he).1 (by simp)
    · rw [h] at he
      obtain ⟨hbase, rfl⟩ := Prod.mk.inj he
      have hslot : s'.regions slot = r := by
        rw [hadds.regions, Function.update_self]
      refine ⟨slot, hslot ▸ hadds.used, ?_, hslot ▸ hlen, hc'.removable (hslot ▸ hadds.used)⟩
      rw [hslot]
      exact (Except.ok.inj hbase).symm

theorem Step.consistent (h : Step BackedMmap s s') (hc : Consistent s) : Consistent s' := by
  cases h with
  | @mmap a1 a2 a3 a4 a5 hok =>
    rcases @Consistent.mmap_cases s hc a1 a2 a3 a4 a5 hok.1 hok.2 with ⟨e, s', he, hk⟩ |
      ⟨s1, s', slot, r, -, -, hc', he⟩
    · rw [he]
      exact hk.consistent hc
    · rw [he]
      exact hc'
  | munmap => exact hc.munmap _ _
  | mprotect => exact hc.mprotect _ _ _
  | outside h => exact h.consistent hc

/-- **Calls are all or nothing after every run** in which files in memory back their mappings. -/
theorem reachable_atomic {s₀ s : State} (h₀ : Fresh s₀)
    (h : Relation.ReflTransGen (Step BackedMmap) s₀ s) : Atomic s := by
  have hc : Consistent s := by
    induction h with
    | refl => exact h₀.consistent
    | tail _ hstep ih => exact hstep.consistent ih
  exact hc.atomic

/-! ### Mappings longer than their file -/

def memfdProcess : State where
  regions _ := Region.cleared
  pages _ := none
  tables := []
  fds fd := if fd = 3 then .memfd ⟨0x1000, 0x1000, 0, [0x5000]⟩ else .none
  objects _ := SharedObject.reset
  pool := ⟨fun a => a == 0x6000, fun _ => 0, fun _ => 0⟩
  env := ⟨[0x6000], [], []⟩

theorem memfdProcess_fresh : Fresh memfdProcess := by
  refine ⟨fun _ => rfl, fun n x hx => absurd hx (by simp [memfdProcess]), fun fd mf hmf => ?_⟩
  unfold memfdProcess at hmf
  dsimp only at hmf
  split_ifs at hmf
  obtain rfl := Fd.memfd.inj hmf
  intro f hf
  obtain rfl := List.mem_singleton.mp hf
  exact ⟨by decide, by decide⟩

def memfdMapped : State :=
  (sysMmap (sysMmap memfdProcess 0 0x1000 3 0x22 0).2 0 0x2000 3 0x42 3).2

/-- The file is mapped at `0x100000001000`, but that range cannot be unmapped; unmapping it together
with the private page before it fails, and takes the private page away. -/
theorem memfd_not_atomic : Fresh memfdProcess ∧
    Relation.ReflTransGen (Step fun _ _ _ _ => True) memfdProcess memfdMapped ∧
    (sysMmap (sysMmap memfdProcess 0 0x1000 3 0x22 0).2 0 0x2000 3 0x42 3).1 = .ok 0x100000001000 ∧
    (sysMunmap memfdMapped 0x100000001000 0x2000).1 = .error .failed ∧
    (sysMunmap memfdMapped 0x100000000000 0x3000).1 = .error .failed ∧
    memfdMapped.pages 0x100000000 ≠ none ∧
    (sysMunmap memfdMapped 0x100000000000 0x3000).2.pages 0x100000000 = none := by
  refine ⟨memfdProcess_fresh, ?_, by decide +kernel, by decide +kernel, by decide +kernel,
    by decide +kernel, by decide +kernel⟩
  exact (Relation.ReflTransGen.single (.mmap trivial)).tail (.mmap trivial)

theorem memfdProcess_atomic : Atomic (sysMmap memfdProcess 0 0x1000 3 0x42 3).2 ∧
    (sysMmap memfdProcess 0 0x1000 3 0x42 3).1 = .ok 0x100000000000 := by
  refine ⟨reachable_atomic memfdProcess_fresh (.single (.mmap ⟨?_, ?_⟩)), by decide +kernel⟩
  · rintro ⟨-, hanon, -⟩
    exact hanon (by decide +kernel)
  · intro mf length hmf hlen
    have hround : roundLength (0x1000 : UInt64).toNat = some 0x1000 := by decide +kernel
    have hfile : mmapFile memfdProcess 0x42 3 = .memfd ⟨0x1000, 0x1000, 0, [0x5000]⟩ := by
      decide +kernel
    rw [hround] at hlen
    rw [hfile] at hmf
    obtain rfl := Option.some.inj hlen
    obtain rfl := Fd.memfd.inj hmf
    refine ⟨by decide +kernel, fun i _ => ?_, ⟨⟨0, by unfold procVmregMax; decide⟩, rfl⟩⟩
    cases i <;> rfl

end TaterTOS.Vm
