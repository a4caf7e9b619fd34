import TaterTOS.Vm.Changes

/-!
# The region table as a map of pages

`AttrMap` is what the table of a process is for: a partial function from pages to attributes, on
which an unmapping removes pages and a change of protection rewrites them. The calls refine these
operations, up to the backing pages of mappings that have no backing object.

* `regions_refine`: all of them, for every valid table;
* `merge_renumbers`: the backing pages of private mappings do change.
-/

namespace TaterTOS.Vm

open Lib Slots

/-! ### Maps of pages -/

namespace AttrMap

def remove (m : AttrMap) (base stop : ℕ) : AttrMap :=
  fun n => if InRange base stop n then none else m n

def protect (m : AttrMap) (base stop prot : ℕ) : AttrMap :=
  fun n => if InRange base stop n then (m n).map (Attr.protect prot) else m n

def norm (m : AttrMap) : AttrMap := fun n => (m n).map Attr.norm

end AttrMap

theorem norm_absTable {t : Table} (h : Valid t) {n : ℕ} {y : Attr} :
    (absTable t).norm n = some y ↔ PageAttr t n y := by
  rw [AttrMap.norm, Option.map_eq_some_iff, at_norm]
  refine exists_congr fun a => ?_
  rw [absTable, look_eq_some_iff h.apart]

/-! ### The operations -/

theorem refines_merge {t : Table} (h : Valid t) :
    (absTable (vmRegionMergeNeighbors t)).norm = (absTable t).norm := by
  obtain ⟨hv, hat⟩ := mergeNeighbors_spec h
  funext n
  ext y
  rw [norm_absTable hv, norm_absTable h, hat]

section

variable {s : State} (hv : Valid s.regions)

include hv

theorem refines_munmap {a1 a2 : UInt64} {s' : State} (h : sysMunmap s a1 a2 = (.ok 0, s')) :
    ∃ length, roundLength a2.toNat = some length ∧ Valid s'.regions ∧ (absTable s'.regions).norm =
        ((absTable s.regions).remove a1.toNat (a1.toNat + length)).norm := by
  have hcases := sysMunmap_cases s a1 a2
  rw [h] at hcases
  generalize hlen : roundLength a2.toNat = o at hcases
  cases hcases with
  | @done length slots spill s1 hb hl hu hloop =>
    obtain ⟨hv', hat⟩ := hu.table hv hb hl
    refine ⟨length, rfl, hv', ?_⟩
    funext n
    ext y
    show (absTable (vmRegionMergeNeighbors _)).norm n = some y ↔ _
    rw [norm_absTable hv', hat, ← norm_absTable hv]
    unfold AttrMap.norm AttrMap.remove
    split_ifs with hn <;> simp [hn]

theorem refines_mprotect {a1 a2 a3 : UInt64} {s' : State}
    (h : sysMprotect s a1 a2 a3 = (.ok 0, s')) :
    ∃ length, roundLength a2.toNat = some length ∧ Valid s'.regions ∧
      (∀ n, InRange a1.toNat (a1.toNat + length) n → absTable s.regions n ≠ none) ∧
      (absTable s'.regions).norm =
        ((absTable s.regions).protect a1.toNat (a1.toNat + length) (u32 a3.toNat)).norm := by
  rcases sysMprotect_cases s a1 a2 a3 with ⟨e, he⟩ | ⟨length, out, hlen, hb, hl, -, hres, he⟩
  · rw [h] at he
    exact absurd he (by simp)
  · rw [h] at he
    obtain ⟨hok, rfl⟩ := Prod.mk.inj he
    refine ⟨length, hlen, ?_⟩
    cases hres with
    | failed | commitFailed | protectFailed => exact absurd hok (by simp)
    | @done slot slots s1 inner outer hin hrep =>
      obtain ⟨hv', hat⟩ := hrep.table hv hb hl hin
      refine ⟨hv', fun n hn => ?_, ?_⟩
      · rw [absTable, ne_eq, look_eq_none_iff]
        exact fun hno => hno slot (hin.covers hv hn)
      · funext n
        ext y
        show (absTable (vmRegionMergeNeighbors _)).norm n = some y ↔ _
        rw [norm_absTable hv', hat]
        unfold AttrMap.norm AttrMap.protect
        split_ifs with hn
        · simp [hn, absTable, look_eq_some_iff hv.apart]
        · simp [hn, ← norm_absTable hv, AttrMap.norm]

end

/-- **The region table refines the map of its pages.** Fusing neighbours ends and keeps the map,
`SYS_MUNMAP` removes the pages of its range and `SYS_MPROTECT` rewrites them, each up to the backing
pages of mappings that are not shared. -/
theorem regions_refine {s : State} (hv : Valid s.regions) :
    (findMerge (vmRegionMergeNeighbors s.regions) = none ∧
      (absTable (vmRegionMergeNeighbors s.regions)).norm = (absTable s.regions).norm) ∧
    (∀ a1 a2 s', sysMunmap s a1 a2 = (.ok 0, s') → ∃ length, roundLength a2.toNat = some length ∧
      (absTable s'.regions).norm =
        ((absTable s.regions).remove a1.toNat (a1.toNat + length)).norm) ∧
    (∀ a1 a2 a3 s', sysMprotect s a1 a2 a3 = (.ok 0, s') → ∃ length,
      roundLength a2.toNat = some length ∧
      (∀ n, InRange a1.toNat (a1.toNat + length) n → absTable s.regions n ≠ none) ∧
      (absTable s'.regions).norm =
        ((absTable s.regions).protect a1.toNat (a1.toNat + length) (u32 a3.toNat)).norm) := by
  refine ⟨⟨mergeNeighbors_stuck _, refines_merge hv⟩, fun a1 a2 s' h => ?_, fun a1 a2 a3 s' h => ?_⟩
  · obtain ⟨length, hlen, -, he⟩ := refines_munmap hv h
    exact ⟨length, hlen, he⟩
  · obtain ⟨length, hlen, -, hin, he⟩ := refines_mprotect hv h
    exact ⟨length, hlen, hin, he⟩

/-! ### Private mappings are renumbered -/

def reserved (base : ℕ) : Region :=
  ⟨base, 4096, 0, mapPrivate ||| mapAnon ||| mapReserve, vmBackingNone, 0, .anonPrivate,
    true, false⟩

def threeReserved : State where
  regions i :=
    if i.val = 0 then reserved vmUserBase
    else if i.val = 1 then reserved (vmUserBase + 0x1000)
    else if i.val = 2 then reserved (vmUserBase + 0x3000)
    else Region.cleared
  pages _ := none
  tables := []
  fds _ := .none
  objects _ := SharedObject.reset
  pool := ⟨fun _ => false, fun _ => 0, fun _ => 0⟩
  env := ⟨[], [], []⟩

theorem threeReserved_valid : Valid threeReserved.regions := by
  have hnative : ∀ base, 4096 ∣ base → vmUserBase ≤ base → base + 4096 ≤ vmUserLimit →
      (reserved base).Native := by
    intro base h1 h2 h3
    exact ⟨h1, dvd_rfl, by simp [reserved], h2, h3, by simp [reserved], fun _ => rfl,
      fun _ => ⟨rfl, Or.inl rfl⟩, fun _ => rfl⟩
  refine ⟨fun i hi => ?_, fun i j n hi hj => ?_⟩
  · unfold threeReserved at hi ⊢
    dsimp only at hi ⊢
    split_ifs at hi ⊢
    · exact hnative _ (by decide) (by decide) (by decide)
    · exact hnative _ (by decide) (by decide) (by decide)
    · exact hnative _ (by decide) (by decide) (by decide)
    · exact absurd hi (by decide)
  · unfold threeReserved at hi hj
    dsimp only at hi hj
    refine Fin.ext ?_
    split_ifs at hi hj <;> first
      | omega
      | (exact absurd hi (not_covers_cleared n))
      | (exact absurd hj (not_covers_cleared n))
      | (obtain ⟨-, h1, h2⟩ := hi
         obtain ⟨-, h3, h4⟩ := hj
         simp only [reserved] at h1 h2 h3 h4
         omega)

theorem munmap_threeReserved : sysMunmap threeReserved 0x100000003000 0x1000 =
    (.ok 0, (sysMunmap threeReserved 0x100000003000 0x1000).2) := by
  have hok : (sysMunmap threeReserved 0x100000003000 0x1000).1 = .ok 0 := by decide +kernel
  rw [← hok]

/-- Unmapping the third page fuses the other two, and the second page gets another backing page. -/
theorem merge_renumbers : Valid threeReserved.regions ∧
    ∃ s', sysMunmap threeReserved 0x100000003000 0x1000 = (.ok 0, s') ∧ absTable s'.regions ≠
        (absTable threeReserved.regions).remove 0x100000003000 (0x100000003000 + 0x1000) := by
  refine ⟨threeReserved_valid, _, munmap_threeReserved, fun h => ?_⟩
  have h1 := congrFun h 0x100000001
  revert h1
  decide +kernel

theorem regions_refine_threeReserved :
    (absTable (sysMunmap threeReserved 0x100000003000 0x1000).2.regions).norm =
      ((absTable threeReserved.regions).remove 0x100000003000 (0x100000003000 + 0x1000)).norm := by
  obtain ⟨length, hlen, he⟩ := (regions_refine threeReserved_valid).2.1 0x100000003000 0x1000 _
    munmap_threeReserved
  have hround : roundLength (0x1000 : UInt64).toNat = some 0x1000 := by decide +kernel
  rw [hround] at hlen
  obtain rfl := Option.some.inj hlen
  exact he

end TaterTOS.Vm
