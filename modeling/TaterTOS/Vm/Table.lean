import TaterTOS.Vm.Regions
import TaterTOS.Lib.Slots

/-!
# What a region table stands for
-/

namespace TaterTOS.Vm

open Function Lib Slots

/-! ### Pages and their attributes -/

def Region.Covers (r : Region) (n : ℕ) : Prop :=
  r.used = true ∧ r.base ≤ n * 4096 ∧ n * 4096 < r.base + r.length

instance (r : Region) (n : ℕ) : Decidable (r.Covers n) := inferInstanceAs (Decidable (_ ∧ _ ∧ _))

structure Attr where
  prot : ℕ
  flags : ℕ
  kind : RegionKind
  backingId : ℕ
  backingPage : ℕ
  committed : Bool
  deriving DecidableEq, Repr

def Region.attr (r : Region) (n : ℕ) : Attr :=
  ⟨r.prot, r.flags, r.kind, r.backingId, vmRegionPageStartAt r (n * 4096), r.committed⟩

abbrev AttrMap := ℕ → Option Attr

/-- **The partial function of a table.** -/
def absTable (t : Table) : AttrMap := look Region.Covers Region.attr t

def Attr.norm (a : Attr) : Attr := if a.kind = .anonShared then a else { a with backingPage := 0 }

def Region.norm (r : Region) (n : ℕ) : Attr := (r.attr n).norm

def InRange (base stop n : ℕ) : Prop := base ≤ n * 4096 ∧ n * 4096 < stop

instance (base stop n : ℕ) : Decidable (InRange base stop n) := inferInstanceAs (Decidable (_ ∧ _))

abbrev PageAttr (t : Table) (n : ℕ) (y : Attr) : Prop := At Region.Covers Region.norm t n y

/-! ### Tables of native processes -/

structure Region.Native (r : Region) : Prop where
  base_dvd : 4096 ∣ r.base
  length_dvd : 4096 ∣ r.length
  length_pos : 0 < r.length
  base_le : vmUserBase ≤ r.base
  stop_le : r.base + r.length ≤ vmUserLimit
  kind : r.kind ≠ .none
  backing : r.kind ≠ .anonShared → r.backingId = vmBackingNone
  lazy : r.committed = false → r.prot = 0 ∧ (r.kind = .anonPrivate ∨ r.kind = .guard)
  guard : r.kind = .guard → r.committed = false

/-- **A valid table**: native regions that do not overlap. -/
structure Valid (t : Table) : Prop where
  native : ∀ i, (t i).used = true → (t i).Native
  apart : Apart Region.Covers t

theorem Region.Native.stop_eq {r : Region} (h : r.Native) : r.stop = r.base + r.length := by
  have := h.stop_le
  unfold vmUserLimit at this
  exact u64_of_lt (by omega)

theorem not_covers_of_unused {r : Region} (h : r.used = false) (n : ℕ) : ¬ r.Covers n := by
  rintro ⟨hu, -⟩
  rw [h] at hu
  exact Bool.false_ne_true hu

theorem not_covers_cleared (n : ℕ) : ¬ Region.cleared.Covers n := not_covers_of_unused rfl n

variable {t : Table} {i j : Slot} {r : Region}

theorem Region.Native.covers_of_mem (h : r.Native) (hu : r.used = true) {x : ℕ} (h1 : r.base ≤ x)
    (h2 : x < r.base + r.length) : r.Covers (x / 4096) := by
  have := h.base_dvd
  exact ⟨hu, by omega, by omega⟩

theorem Valid.place (h : Valid t) (hr : r.used = true → r.Native)
    (hfree : ∀ n, r.Covers n → ∀ j, j ≠ i → ¬ (t j).Covers n) : Valid (update t i r) := by
  refine ⟨fun j hj => ?_, h.apart.updated hfree⟩
  by_cases hji : j = i
  · subst hji
    rw [update_self] at hj ⊢
    exact hr hj
  · rw [update_of_ne hji] at hj ⊢
    exact h.native j hj

theorem Valid.shrink (h : Valid t) (hr : r.used = true → r.Native)
    (hsub : ∀ n, r.Covers n → (t i).Covers n) : Valid (update t i r) :=
  h.place hr fun n hn j hji hj => hji (h.apart j i n hj (hsub n hn))

theorem Valid.clear (h : Valid t) (i : Slot) : Valid (vmRegionClear t i) :=
  h.shrink (fun hu => absurd hu (by decide)) fun n hn => absurd hn (not_covers_cleared n)

/-! ### Parts of a region -/

def span (src : Region) (base length prot flags : ℕ) (committed : Bool) : Region :=
  ⟨base, length, prot, flags, src.backingId, vmRegionPageStartAt src base, src.kind, true,
    committed⟩

def Attr.set (a : Attr) (p : Piece) : Attr :=
  { a with prot := p.prot, flags := p.flags, committed := p.committed }

section

variable {src : Region} {base length : ℕ} (p : Piece)

theorem pageStartAt_span (hb : 4096 ∣ base) (h1 : src.base ≤ base) {n : ℕ}
    (h2 : base ≤ n * 4096) :
    vmRegionPageStartAt (span src base length p.prot p.flags p.committed) (n * 4096) =
      vmRegionPageStartAt src (n * 4096) := by
  have hspan : vmRegionPageStartAt (span src base length p.prot p.flags p.committed) (n * 4096) =
    if n * 4096 < base then 0 else
      u32 (vmRegionPageStartAt src base + u32 ((n * 4096 - base) / 4096)) := rfl
  rw [hspan, if_neg (not_lt.mpr h2), vmRegionPageStartAt, if_neg (not_lt.mpr h1),
    vmRegionPageStartAt, if_neg (not_lt.mpr (h1.trans h2))]
  unfold u32
  omega

theorem attr_span (hb : 4096 ∣ base) (h1 : src.base ≤ base) {n : ℕ}
    (h2 : base ≤ n * 4096) :
    (span src base length p.prot p.flags p.committed).attr n = (src.attr n).set p := by
  unfold Region.attr
  rw [pageStartAt_span p hb h1 h2]
  rfl

omit p in
theorem covers_span {n prot flags : ℕ} {committed : Bool} :
    (span src base length prot flags committed).Covers n ↔
      base ≤ n * 4096 ∧ n * 4096 < base + length :=
  ⟨fun h => h.2, fun h => ⟨rfl, h⟩⟩

theorem span_native (h : src.Native) (hb : 4096 ∣ base) (hl : 4096 ∣ length) (hpos : 0 < length)
    (h1 : src.base ≤ base) (h2 : base + length ≤ src.base + src.length)
    (hlazy : p.committed = false → p.prot = 0 ∧ (src.kind = .anonPrivate ∨ src.kind = .guard))
    (hguard : src.kind = .guard → p.committed = false) :
    (span src base length p.prot p.flags p.committed).Native where
  base_dvd := hb
  length_dvd := hl
  length_pos := hpos
  base_le := h.base_le.trans h1
  stop_le := h2.trans h.stop_le
  kind := h.kind
  backing := h.backing
  lazy := hlazy
  guard := hguard

end

/-! ### Fusion -/

structure CanMerge (a b : Region) : Prop where
  used : a.used = true ∧ b.used = true
  stop : a.stop = b.base
  prot : a.prot = b.prot
  flags : a.flags = b.flags
  kind : a.kind = b.kind
  committed : a.committed = b.committed
  backing : a.kind = .anonShared → a.backingId = b.backingId ∧
    u32 (a.backingPageStart + u32 (a.length / 4096)) = b.backingPageStart

theorem canMerge_iff (a b : Region) : vmRegionsCanMerge a b = true ↔ CanMerge a b := by
  unfold vmRegionsCanMerge
  constructor
  · intro h
    split_ifs at h with h1 h2 h3 h4 h5 h6
    · simp only [Bool.or_eq_true, Bool.not_eq_true', not_or, Bool.not_eq_false] at h1
      push Not at h2 h3 h4 h6
      exact ⟨h1, h2, h3.1, h3.2, h4.1, h4.2, fun _ => ⟨h6, by simpa using h⟩⟩
    · simp only [Bool.or_eq_true, Bool.not_eq_true', not_or, Bool.not_eq_false] at h1
      push Not at h2 h3 h4
      exact ⟨h1, h2, h3.1, h3.2, h4.1, h4.2, fun hk => absurd hk h5⟩
  · intro h
    rw [if_neg (by simp [h.used.1, h.used.2]), if_neg (by simp [h.stop]),
      if_neg (by simp [h.prot, h.flags]), if_neg (by simp [h.kind, h.committed])]
    split_ifs with h5 h6
    · exact absurd (h.backing h5).1 h6
    · simpa using (h.backing h5).2
    · rfl

theorem findMerge_eq_some {a b : Slot} (h : findMerge t = some (a, b)) :
    a ≠ b ∧ CanMerge (t a) (t b) := by
  obtain ⟨i, -, hi⟩ := List.exists_of_findSome?_eq_some h
  split_ifs at hi with hu
  obtain ⟨j, -, hj⟩ := List.exists_of_findSome?_eq_some hi
  split_ifs at hj with hne
  dsimp only at hj
  split_ifs at hj with hm
  have hab : ordered t i j = (a, b) := Option.some.inj hj
  rw [hab] at hm
  refine ⟨?_, (canMerge_iff _ _).mp hm⟩
  rintro rfl
  rw [not_or] at hne
  unfold ordered at hab
  split_ifs at hab
  · exact hne.1 ((Prod.mk.inj hab).2.trans (Prod.mk.inj hab).1.symm)
  · exact hne.1 ((Prod.mk.inj hab).1.trans (Prod.mk.inj hab).2.symm)

def usedCount (t : Table) : ℕ := (Finset.univ.filter fun i => (t i).used = true).card

theorem usedCount_fuse {a b : Slot} (hab : a ≠ b) (ha : (t a).used = true)
    (hb : (t b).used = true) : usedCount (fuse t a b) + 1 = usedCount t := by
  have hset : (Finset.univ.filter fun i => (fuse t a b i).used = true) =
      (Finset.univ.filter fun i => (t i).used = true).erase b := by
    ext i
    simp only [Finset.mem_filter]
    unfold fuse vmRegionClear
    by_cases hib : i = b
    · subst hib
      simp [Region.cleared]
    · rw [update_of_ne hib]
      by_cases hia : i = a
      · subst hia
        simp [hib]
      · rw [update_of_ne hia]
        simp [hib]
  unfold usedCount
  rw [hset]
  exact Finset.card_erase_add_one (by simp [hb])

theorem findMerge_mergeRounds (k : ℕ) (t : Table) (hk : usedCount t ≤ k) :
    findMerge (mergeRounds k t) = none := by
  induction k generalizing t with
  | zero =>
    rw [mergeRounds]
    cases hf : findMerge t with
    | none => rfl
    | some ab =>
      obtain ⟨hab, hm⟩ := findMerge_eq_some hf
      have hcount := usedCount_fuse hab hm.used.1 hm.used.2
      exact absurd hk (by rw [← hcount]; exact Nat.not_succ_le_zero _)
  | succ k ih =>
    rw [mergeRounds]
    cases hf : findMerge t with
    | none => exact hf
    | some ab =>
      obtain ⟨hab, hm⟩ := findMerge_eq_some hf
      have hcount := usedCount_fuse hab hm.used.1 hm.used.2
      exact ih _ (Nat.le_of_succ_le_succ (hcount.trans_le hk))

theorem mergeNeighbors_stuck (t : Table) : findMerge (vmRegionMergeNeighbors t) = none := by
  refine findMerge_mergeRounds _ t ?_
  calc usedCount t ≤ (Finset.univ : Finset Slot).card := Finset.card_filter_le _ _
    _ = procVmregMax := by rw [Finset.card_univ, Fintype.card_fin]

section

variable {a b : Slot}

def fused (a b : Region) : Region := { a with length := u64 (a.length + b.length) }

theorem fuse_eq (hab : a ≠ b) : fuse t a b = update (vmRegionClear t b) a (fused (t a) (t b)) :=
  update_comm hab _ _ t

variable {ra rb : Region} (ha : ra.Native) (hb : rb.Native) (hm : CanMerge ra rb)

include ha hb in
theorem fused_length : (fused ra rb).length = ra.length + rb.length := by
  have h1 := ha.stop_le
  have h2 := hb.stop_le
  unfold vmUserLimit at h1 h2
  exact u64_of_lt (by omega)

include ha hb hm

theorem covers_fused (n : ℕ) : (fused ra rb).Covers n ↔ ra.Covers n ∨ rb.Covers n := by
  have hstop := hm.stop
  rw [ha.stop_eq] at hstop
  have hl := fused_length ha hb
  show (ra.used = true ∧ ra.base ≤ n * 4096 ∧ n * 4096 < ra.base + (fused ra rb).length) ↔ _
  rw [Region.Covers, Region.Covers, hm.used.1, hm.used.2]
  simp only [true_and]
  omega

theorem fused_native : (fused ra rb).Native := by
  have hstop := hm.stop
  rw [ha.stop_eq] at hstop
  have hl := fused_length ha hb
  have h1 := hb.stop_le
  have h2 := ha.length_dvd
  have h3 := hb.length_dvd
  have h4 := ha.length_pos
  refine ⟨ha.base_dvd, ?_, ?_, ha.base_le, ?_, ha.kind, ha.backing, ha.lazy, ha.guard⟩
  · omega
  · omega
  · show ra.base + (fused ra rb).length ≤ vmUserLimit
    omega

theorem norm_fused {n : ℕ} (hn : rb.Covers n) : (fused ra rb).norm n = rb.norm n := by
  have hstop := hm.stop
  rw [ha.stop_eq] at hstop
  have h2 := ha.length_dvd
  have h3 := hn.2.1
  unfold Region.norm Attr.norm
  by_cases hk : ra.kind = .anonShared
  · obtain ⟨hid, hpage⟩ := hm.backing hk
    have hk' : rb.kind = .anonShared := hm.kind.symm.trans hk
    rw [if_pos (show ((fused ra rb).attr n).kind = .anonShared from hk),
      if_pos (show (rb.attr n).kind = .anonShared from hk')]
    have hpages : vmRegionPageStartAt ra (n * 4096) = vmRegionPageStartAt rb (n * 4096) := by
      rw [vmRegionPageStartAt, vmRegionPageStartAt, if_neg (by omega), if_neg (by omega), ← hpage]
      unfold u32
      omega
    show Attr.mk ra.prot ra.flags ra.kind ra.backingId (vmRegionPageStartAt ra (n * 4096))
      ra.committed = rb.attr n
    rw [hm.prot, hm.flags, hm.kind, hid, hm.committed, hpages]
    rfl
  · have hk' : rb.kind ≠ .anonShared := fun hc => hk (hm.kind.trans hc)
    rw [if_neg (show ((fused ra rb).attr n).kind ≠ .anonShared from hk),
      if_neg (show (rb.attr n).kind ≠ .anonShared from hk')]
    show Attr.mk ra.prot ra.flags ra.kind ra.backingId 0 ra.committed =
      Attr.mk rb.prot rb.flags rb.kind rb.backingId 0 rb.committed
    rw [hm.prot, hm.flags, hm.kind, hm.committed, ha.backing hk, hb.backing hk']

omit ha hb hm

theorem fuse_spec (h : Valid t) (hab : a ≠ b) (hm : CanMerge (t a) (t b)) :
    Valid (fuse t a b) ∧ ∀ n y, PageAttr (fuse t a b) n y ↔ PageAttr t n y := by
  have ha := h.native a hm.used.1
  have hb := h.native b hm.used.2
  have hclear : vmRegionClear t b a = t a := update_of_ne hab _ t
  have hcov := covers_fused ha hb hm
  rw [fuse_eq hab]
  refine ⟨(h.clear b).place (fun _ => fused_native ha hb hm) fun n hn j hja hj => ?_, fun n y => ?_⟩
  · by_cases hjb : j = b
    · subst hjb
      rw [vmRegionClear, update_self] at hj
      exact not_covers_cleared n hj
    · rw [vmRegionClear, update_of_ne hjb] at hj
      cases (hcov n).mp hn with
      | inl hn => exact hja (h.apart j a n hj hn)
      | inr hn => exact hjb (h.apart j b n hj hn)
  · rw [PageAttr, at_update (h.clear b).apart, hclear, vmRegionClear, at_update h.apart]
    constructor
    · rintro (⟨hn, rfl⟩ | ⟨-, ⟨hc, -⟩ | ⟨-, hat⟩⟩)
      · cases (hcov n).mp hn with
        | inl hn => exact ⟨a, hn, rfl⟩
        | inr hn => exact ⟨b, hn, (norm_fused ha hb hm hn).symm⟩
      · exact absurd hc (not_covers_cleared n)
      · exact hat
    · rintro ⟨k, hk, rfl⟩
      by_cases hka : (t a).Covers n
      · rw [h.apart k a n hk hka]
        exact .inl ⟨(hcov n).mpr (.inl hka), rfl⟩
      · by_cases hkb : (t b).Covers n
        · rw [h.apart k b n hk hkb]
          exact .inl ⟨(hcov n).mpr (.inr hkb), norm_fused ha hb hm hkb⟩
        · exact .inr ⟨hka, Or.inr ⟨hkb, k, hk, rfl⟩⟩

end

theorem mergeRounds_spec (k : ℕ) (h : Valid t) : Valid (mergeRounds k t) ∧
    ∀ n y, PageAttr (mergeRounds k t) n y ↔ PageAttr t n y := by
  induction k generalizing t with
  | zero => exact ⟨h, fun _ _ => Iff.rfl⟩
  | succ k ih =>
    rw [mergeRounds]
    cases hf : findMerge t with
    | none => exact ⟨h, fun _ _ => Iff.rfl⟩
    | some ab =>
      obtain ⟨hab, hm⟩ := findMerge_eq_some hf
      obtain ⟨hv, hat⟩ := fuse_spec h hab hm
      obtain ⟨hv', hat'⟩ := ih hv
      exact ⟨hv', fun n y => (hat' n y).trans (hat n y)⟩

/-- **`vm_region_merge_neighbors`** keeps every attribute but the unused backing pages. -/
theorem mergeNeighbors_spec (h : Valid t) : Valid (vmRegionMergeNeighbors t) ∧
    ∀ n y, PageAttr (vmRegionMergeNeighbors t) n y ↔ PageAttr t n y :=
  mergeRounds_spec _ h

end TaterTOS.Vm
