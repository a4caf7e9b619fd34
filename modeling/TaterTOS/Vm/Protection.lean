import TaterTOS.Vm.Invariant

/-!
# Protections of native processes

The pages of a process are in step with its region table, down to the bits of the page-table
entries.

* `Sound`: what this means for a state;
* `reachable_sound`: every run of the calls on a fresh process leads to a sound state.
-/

namespace TaterTOS.Vm

open Lib Vmm

/-! ### Runs -/

/-- What happens to a process between its calls: the rest of the machine changes, descriptors are
opened and closed, pages outside the window come and go. -/
structure Outside (s s' : State) : Prop where
  regions : s'.regions = s.regions
  window : ∀ n, InRange vmUserBase vmUserLimit n → s'.pages n = s.pages n
  good : GoodPages s'.pages
  fds : GoodFds s'.fds

/-- One step of a process that makes only such mappings as `ok` allows. -/
inductive Step (ok : State → UInt64 → UInt64 → UInt64 → Prop) : State → State → Prop
  | mmap {s : State} {a1 a2 a3 a4 a5 : UInt64} (h : ok s a2 a4 a5) :
      Step ok s (sysMmap s a1 a2 a3 a4 a5).2
  | munmap {s : State} {a1 a2 : UInt64} : Step ok s (sysMunmap s a1 a2).2
  | mprotect {s : State} {a1 a2 a3 : UInt64} : Step ok s (sysMprotect s a1 a2 a3).2
  | outside {s s' : State} (h : Outside s s') : Step ok s s'

structure Fresh (s : State) : Prop where
  unused : ∀ i, (s.regions i).used = false
  good : GoodPages s.pages
  fds : GoodFds s.fds

variable {t : Table} {n : ℕ} {s' s1 : State} {file : Fd} {r : Region} {s : State}

theorem Fresh.consistent (h : Fresh s) : Consistent s := by
  have hcov : ∀ i n, ¬ (s.regions i).Covers n := fun i n => not_covers_of_unused (h.unused i) n
  refine ⟨⟨fun i hi => ?_, fun i j n hi => absurd hi (hcov i n)⟩, h.good, h.fds, ?_⟩
  · rw [h.unused i] at hi
    exact absurd hi Bool.false_ne_true
  · rintro n y ⟨i, hi, -⟩
    exact absurd hi (hcov i n)

theorem Valid.inWindow (hv : Valid t) {y : Attr} (h : PageAttr t n y) :
    InRange vmUserBase vmUserLimit n := by
  obtain ⟨i, ⟨hu, h1, h2⟩, -⟩ := h
  have hr := hv.native i hu
  exact ⟨hr.base_le.trans h1, lt_of_lt_of_le h2 hr.stop_le⟩

theorem Outside.consistent (h : Outside s s') (hc : Consistent s) : Consistent s' := by
  refine ⟨?_, h.good, h.fds, fun n y hy => ?_⟩
  · rw [h.regions]
    exact hc.valid
  · rw [h.regions] at hy
    rw [h.window n (hc.valid.inWindow hy)]
    exact hc.present n y hy

/-! ### Bits -/

theorem protToPteFlags_mask (prot : ℕ) :
    vmProtToPteFlags prot &&& protectMask = vmProtToPteFlags prot := by
  unfold vmProtToPteFlags
  split_ifs <;> decide

theorem protectEntry_mask (entry flags : ℕ) :
    protectEntry entry flags &&& protectMask = flags &&& protectMask := by
  have h1 : entry &&& not64 protectMask &&& protectMask = 0 := by
    rw [Nat.and_assoc, show not64 protectMask &&& protectMask = 0 by decide, Nat.and_zero]
  have h2 : flagPresent &&& protectMask = 0 := by decide
  rw [protectEntry, Nat.and_or_distrib_right, Nat.and_or_distrib_right, h1, h2, Nat.and_assoc,
    Nat.and_self, Nat.zero_or, Nat.zero_or]

theorem protSupported_wx {prot : ℕ} (h : vmProtSupported prot = true) :
    ¬ (vmProtToPteFlags prot &&& flagWrite ≠ 0 ∧ vmProtToPteFlags prot &&& flagNoExecute = 0) := by
  rintro ⟨hw, hx⟩
  have hwrite : prot &&& protWrite ≠ 0 := by
    intro hz
    unfold vmProtToPteFlags at hw
    rw [if_neg (not_not.mpr hz)] at hw
    split_ifs at hw <;> exact hw (by decide)
  have hexec : prot &&& protExec ≠ 0 := by
    intro hz
    unfold vmProtToPteFlags at hx
    split_ifs at hx <;> exact absurd hx (by decide)
  have hboth : prot &&& (protWrite ||| protExec) = protWrite ||| protExec := by
    have h1 : prot &&& protWrite = protWrite := by
      have := Nat.and_two_pow prot 1
      cases hb : prot.testBit 1 <;> simp_all [protWrite]
    have h2 : prot &&& protExec = protExec := by
      have := Nat.and_two_pow prot 2
      cases hb : prot.testBit 2 <;> simp_all [protExec]
    rw [Nat.and_or_distrib_left, h1, h2]
  unfold vmProtSupported at h
  split_ifs at h with h1 h2
  rw [h2] at hwrite
  exact hwrite (by decide)

/-! ### The bits of the pages -/

/-- The protection of each page is a supported one, and the bits of its entry say the same. -/
structure Flagged (s : State) : Prop where
  supported : ∀ n y, PageAttr s.regions n y → vmProtSupported y.prot = true
  bits : ∀ n y x, PageAttr s.regions n y → s.pages n = some x →
    x.2 &&& protectMask = vmProtToPteFlags y.prot

theorem Kept.flagged (h : Kept s s') (hf : Flagged s) : Flagged s' := by
  obtain ⟨new, ht⟩ := h.took
  constructor
  · rw [ht.regions]
    exact hf.supported
  · rw [ht.regions, h.pages]
    exact hf.bits

theorem Outside.flagged (h : Outside s s') (hc : Consistent s) (hf : Flagged s) :
    Flagged s' := by
  constructor
  · rw [h.regions]
    exact hf.supported
  · intro n y x hy hx
    rw [h.regions] at hy
    rw [h.window n (hc.valid.inWindow hy)] at hx
    exact hf.bits n y x hy hx

theorem Filled.bits (h : Filled s file s1 r) (hr : r.Native)
    (hfile : ∀ mf, file ≠ .memfd mf)
    (hnone : ∀ n, InRange r.base (r.base + r.length) n → s.pages n = none) {x : ℕ × ℕ}
    (hn : InRange r.base (r.base + r.length) n) (hx : s1.pages n = some x) :
    x.2 &&& protectMask = vmProtToPteFlags r.prot := by
  cases hcom : r.committed with
  | false =>
    rw [h.lazy_eq hcom, hnone n hn] at hx
    cases hx
  | true =>
    obtain ⟨x', hx', -, hbits⟩ := h.entry hr hcom (fun mf hmf => absurd hmf (hfile mf))
      (fun mf hmf => absurd hmf (hfile mf)) hn
    rw [hx] at hx'
    obtain rfl := Option.some.inj hx'
    exact hbits hfile

theorem Adds.flagged {slot : Slot} (h : Adds s file s1 s' slot r) (hc : Consistent s)
    (hf : Flagged s) (hfile : ∀ mf, file ≠ .memfd mf) : Flagged s' := by
  constructor
  · intro n y hy
    rcases (h.pageAttr hc.valid).mp hy with ⟨hn, rfl⟩ | hy
    · rw [Region.norm, norm_prot]
      exact h.supported
    · exact hf.supported n y hy
  · intro n y x hy hx
    rw [h.pages] at hx
    rcases (h.pageAttr hc.valid).mp hy with ⟨hn, rfl⟩ | hy
    · rw [Region.norm, norm_prot]
      exact h.filled.bits h.native hfile h.available.pages hn hx
    · have hn : ¬ InRange r.base (r.base + r.length) n := fun hn => h.not_pageAttr hn y hy
      rw [h.filled.out h.native hn] at hx
      exact hf.bits n y x hy hx

section

variable {s : State} (hc : Consistent s) (hf : Flagged s)

include hc hf

theorem Flagged.munmap (a1 a2 : UInt64) : Flagged (sysMunmap s a1 a2).2 := by
  rcases hc.munmap_cases a1 a2 with ⟨e, he⟩ |
    ⟨length, slots, spill, s1, -, hb, hl, hu, -, hgone, he⟩
  · rw [he]
    exact hf
  · rw [he]
    obtain ⟨-, hat⟩ := hu.table hc.valid hb hl
    refine ⟨fun n y hy => hf.supported n y ((hat n y).mp hy).2, fun n y x hy hx => ?_⟩
    obtain ⟨hn, hy⟩ := (hat n y).mp hy
    have hx : s1.pages n = some x := hx
    rw [hgone.pages n, if_neg hn] at hx
    exact hf.bits n y x hy hx

theorem Flagged.mprotect (a1 a2 a3 : UInt64) : Flagged (sysMprotect s a1 a2 a3).2 := by
  rcases hc.mprotect_cases a1 a2 a3 with ⟨e, s', he, hk⟩ |
    ⟨length, slot, slots, inner, outer, s1, -, hb, hl, hp, hin, hrep, he⟩
  · rw [he]
    exact hk.flagged hf
  rw [he]
  obtain ⟨-, hat⟩ := hrep.table hc.valid hb hl hin
  have hw := hin.whole hc hb hl
  have hrepaged := hrep.repaged hc hb hl hin
  have heff := hrepaged.effect hw hc.good fun n hn => hin.present hc hn
  constructor
  · intro n y hy
    rcases (hat n y).mp hy with ⟨hn, a, ha, rfl⟩ | ⟨hn, hy⟩
    · rw [norm_prot, protect_prot]
      exact hp
    · exact hf.supported n y hy
  · intro n y x hy hx
    have hx : s1.pages n = some x := hx
    rcases (hat n y).mp hy with ⟨hn, a, ha, rfl⟩ | ⟨hn, hy⟩
    · rw [norm_prot, protect_prot]
      cases hrepaged with
      | lazy hcom hz =>
        -- a page that is only reserved is not there
        have := (hin.present hc hn).mpr (by rw [hx]; simp)
        rw [hcom] at this
        exact absurd this Bool.false_ne_true
      | commit hcom hk hz h =>
        unfold InRange at hn
        obtain ⟨f, hf', -⟩ := h.entry n (by omega) (by omega)
        rw [hf'] at hx
        obtain rfl := Option.some.inj hx
        exact pteFlags_mask _
      | protect hcom =>
        have hnew : protectPages s.pages (pageNums a1.toNat length)
            (vmProtToPteFlags (u32 a3.toNat)) n = some x := hx
        rw [protectPages, if_pos ((mem_pageNums hw n).mpr hn)] at hnew
        obtain ⟨x', -, rfl⟩ := Option.map_eq_some_iff.mp hnew
        rw [protectEntry_mask, protToPteFlags_mask]
    · rw [heff.out n hn] at hx
      exact hf.bits n y x hy hx

end

/-! ### Every run -/

def PlainMmap (s : State) (a2 a4 a5 : UInt64) : Prop :=
  ¬ Narrowed a2 a4 ∧ ∀ mf, mmapFile s a4 a5 ≠ .memfd mf

/-- **What holds of the regions of a process and their pages.** -/
structure Sound (s : State) : Prop where
  aligned : ∀ i, (s.regions i).used = true → 4096 ∣ (s.regions i).base ∧
    4096 ∣ (s.regions i).length ∧ 0 < (s.regions i).length
  window : ∀ i, (s.regions i).used = true → vmUserBase ≤ (s.regions i).base ∧
    (s.regions i).base + (s.regions i).length ≤ vmUserLimit
  disjoint : ∀ i j, i ≠ j → (s.regions i).used = true → (s.regions j).used = true →
    (s.regions i).base + (s.regions i).length ≤ (s.regions j).base ∨
      (s.regions j).base + (s.regions j).length ≤ (s.regions i).base
  committed : ∀ i n, (s.regions i).Covers n → (s.regions i).committed = true →
    ∃ f flags, s.pages n = some (f, flags) ∧
      flags &&& protectMask = vmProtToPteFlags (s.regions i).prot
  lazy : ∀ i n, (s.regions i).Covers n → (s.regions i).committed = false → s.pages n = none
  writeXorExecute : ∀ i n x, (s.regions i).Covers n → s.pages n = some x →
    ¬ (x.2 &&& flagWrite ≠ 0 ∧ x.2 &&& flagNoExecute = 0)

theorem Valid.disjoint (hv : Valid t) {i j : Slot} (hij : i ≠ j) (hi : (t i).used = true)
    (hj : (t j).used = true) :
    (t i).base + (t i).length ≤ (t j).base ∨ (t j).base + (t j).length ≤ (t i).base := by
  have hni := hv.native i hi
  have hnj := hv.native j hj
  by_contra hno
  have h1 := hni.length_pos
  have h2 := hnj.length_pos
  -- the larger of the two starts lies in both regions
  refine hij (hv.apart i j (max (t i).base (t j).base / 4096) ?_ ?_)
  · exact hni.covers_of_mem hi (le_max_left _ _) (by omega)
  · exact hnj.covers_of_mem hj (le_max_right _ _) (by omega)

theorem Consistent.sound (hc : Consistent s) (hf : Flagged s) : Sound s := by
  refine ⟨fun i hi => ?_, fun i hi => ?_, fun i j hij hi hj => hc.valid.disjoint hij hi hj,
    fun i n hcov hcom => ?_, fun i n hcov hcom => ?_, fun i n x hcov hx => ?_⟩
  · have hr := hc.valid.native i hi
    exact ⟨hr.base_dvd, hr.length_dvd, hr.length_pos⟩
  · have hr := hc.valid.native i hi
    exact ⟨hr.base_le, hr.stop_le⟩
  · obtain ⟨⟨f, flags⟩, hx⟩ := Option.ne_none_iff_exists'.mp ((hc.covered hcov).mp hcom)
    have hbits := hf.bits n _ _ (pageAttr_of_covers hcov) hx
    rw [Region.norm, norm_prot] at hbits
    exact ⟨f, flags, hx, hbits⟩
  · exact not_not.mp ((hc.covered hcov).not.mp (by simp [hcom]))
  · have hy := pageAttr_of_covers hcov
    have hbits := hf.bits n _ x hy hx
    have hwx := protSupported_wx (hf.supported n _ hy)
    rw [← hbits, Nat.and_assoc, Nat.and_assoc] at hwx
    exact hwx

theorem Step.invariant (h : Step PlainMmap s s') (hc : Consistent s) (hf : Flagged s) :
    Consistent s' ∧ Flagged s' := by
  cases h with
  | @mmap a1 a2 a3 a4 a5 hok =>
    rcases @Consistent.mmap_cases s hc a1 a2 a3 a4 a5 hok.1
      (fun mf _ hmf => absurd hmf (hok.2 mf)) with ⟨e, s', he, hk⟩ | ⟨s1, s', slot, r, -, h,
        hc', he⟩
    · rw [he]
      exact ⟨hk.consistent hc, hk.flagged hf⟩
    · rw [he]
      exact ⟨hc', h.flagged hc hf hok.2⟩
  | munmap => exact ⟨hc.munmap _ _, hf.munmap hc _ _⟩
  | mprotect => exact ⟨hc.mprotect _ _ _, hf.mprotect hc _ _ _⟩
  | outside h => exact ⟨h.consistent hc, h.flagged hc hf⟩

/-- **The regions of a native process and their pages agree after every run** of its calls on a
fresh process. -/
theorem reachable_sound {s₀ s : State} (h₀ : Fresh s₀)
    (h : Relation.ReflTransGen (Step PlainMmap) s₀ s) : Sound s := by
  have hinv : Consistent s ∧ Flagged s := by
    induction h with
    | refl =>
      have hcov : ∀ n y, ¬ PageAttr s₀.regions n y := by
        rintro n y ⟨i, hi, -⟩
        exact not_covers_of_unused (h₀.unused i) n hi
      exact ⟨h₀.consistent, fun n y hy => absurd hy (hcov n y),
        fun n y x hy => absurd hy (hcov n y)⟩
    | tail _ hstep ih => exact hstep.invariant ih.1 ih.2
  exact hinv.1.sound hinv.2

def twoFrames : State where
  regions _ := Region.cleared
  pages _ := none
  tables := []
  fds _ := .none
  objects _ := SharedObject.reset
  pool := ⟨fun a => a == 0x5000 || a == 0x6000, fun _ => 0, fun _ => 0⟩
  env := ⟨[0x5000, 0x6000], [], []⟩

theorem twoFrames_sound : Sound (sysMmap twoFrames 0 0x2000 3 0x22 0).2 ∧
    (sysMmap twoFrames 0 0x2000 3 0x22 0).2.pages (vmUserBase / 4096) =
      some (0x5000, pteFlags (vmProtToPteFlags 3)) := by
  refine ⟨@reachable_sound twoFrames _ ?_ (.single (.mmap ⟨?_, ?_⟩)), by decide +kernel⟩
  · exact ⟨fun _ => rfl, fun n x hx => absurd hx (by simp [twoFrames]),
      fun fd mf hmf => absurd hmf (by simp [twoFrames])⟩
  · rintro ⟨-, -, hshared, -⟩
    exact hshared (by decide +kernel)
  · intro mf
    unfold mmapFile
    split_ifs <;> simp [twoFrames]

end TaterTOS.Vm
