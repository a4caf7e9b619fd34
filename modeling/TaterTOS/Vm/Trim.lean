import TaterTOS.Vm.Table

/-!
# Searches in a table and writes to it
-/

namespace TaterTOS.Vm

open Function Lib Slots List

variable {t : Table} {i : Slot} {base stop length : ℕ}
  {j slot : Slot} {x n : ℕ} {spill : Option Slot} {slots : List Slot}

/-! ### Unused slots -/

theorem allocSlot_spec (h : vmRegionAllocSlot t = some i) : (t i).used = false := by
  simpa using List.find?_some h

theorem allocSlot_none (h : vmRegionAllocSlot t = none) (i : Slot) : (t i).used = true := by
  simpa using List.find?_eq_none.mp h i (mem_finRange i)

theorem allocSlots_spec {k : ℕ} (h : vmRegionAllocSlots t k = some slots) :
    slots.length = k ∧ slots.Nodup ∧ ∀ i ∈ slots, (t i).used = false := by
  unfold vmRegionAllocSlots at h
  dsimp only at h
  split_ifs at h with hk
  obtain rfl := Option.some.inj h
  refine ⟨hk, ((nodup_finRange _).filter _).sublist (take_sublist _ _), fun i hi => ?_⟩
  simpa using (mem_filter.mp (mem_of_mem_take hi)).2

/-! ### Addresses -/

def Region.Has (r : Region) (x : ℕ) : Prop := r.used = true ∧ r.base ≤ x ∧ x < r.stop

theorem Valid.has_unique (h : Valid t) {i : Slot} (hi : (t i).Has x) (hj : (t j).Has x) :
    i = j := by
  have hni := h.native i hi.1
  have hnj := h.native j hj.1
  have hci := hni.covers_of_mem hi.1 hi.2.1 (hni.stop_eq ▸ hi.2.2)
  have hcj := hnj.covers_of_mem hj.1 hj.2.1 (hnj.stop_eq ▸ hj.2.2)
  exact h.apart i j _ hci hcj

theorem Valid.has_iff_covers (h : Valid t) (i : Slot) (n : ℕ) :
    (t i).Has (n * 4096) ↔ (t i).Covers n := by
  constructor
  · intro hi
    exact ⟨hi.1, hi.2.1, (h.native i hi.1).stop_eq ▸ hi.2.2⟩
  · intro hi
    exact ⟨hi.1, hi.2.1, (h.native i hi.1).stop_eq.symm ▸ hi.2.2⟩

theorem slotAt_spec (h : slotAt t base = some i) : (t i).Has base := by
  have hp := List.find?_some h
  simp only [Bool.and_eq_true, Bool.not_eq_true', Bool.or_eq_false_iff, decide_eq_false_iff_not,
    not_lt, not_le] at hp
  exact ⟨hp.1.1, hp.2.1, hp.2.2⟩

theorem slotAt_of_unique (hone : ∀ j, (t j).Has base → j = i) (hi : (t i).Has base) :
    slotAt t base = some i := by
  cases hf : slotAt t base with
  | none =>
    have hno := List.find?_eq_none.mp hf i (mem_finRange i)
    refine absurd ?_ hno
    have := hi.2.1
    have := hi.2.2
    simp only [Bool.and_eq_true, Bool.not_eq_true', Bool.or_eq_false_iff, decide_eq_false_iff_not]
    exact ⟨⟨hi.1, by omega⟩, by omega, by omega⟩
  | some j => rw [hone j (slotAt_spec hf)]

theorem Valid.slotAt_eq (h : Valid t) (hi : (t i).Has base) : slotAt t base = some i :=
  slotAt_of_unique (fun _ hj => h.has_unique hj hi) hi

theorem collect_one (hpos : (t i).length ≠ 0) (hstop : (t i).stop = (t i).base + (t i).length)
    (hslot : slotAt t (t i).base = some i) :
    vmRegionCollectCoveringSlots t (t i).base (t i).length = some [i] := by
  have hsum : u64 ((t i).base + (t i).length) = (t i).base + (t i).length := hstop
  -- the table has at least this slot
  obtain ⟨room, hroom⟩ : ∃ room, procVmregMax = room + 1 :=
    ⟨procVmregMax - 1, by have := i.isLt; omega⟩
  unfold vmRegionCollectCoveringSlots
  rw [if_neg hpos, hsum, if_neg (by omega), hroom, collectLoop, if_pos (by omega), hslot]
  dsimp only
  rw [hstop, if_neg (lt_irrefl _)]
  cases room with
  | zero | succ => rw [collectLoop, if_neg (lt_irrefl _)]; rfl

theorem findContaining_spec (h : vmRegionFindContaining t base length = some i) :
    0 < length ∧ base ≤ u64 (base + length) ∧ (t i).used = true ∧ (t i).base ≤ base ∧
      u64 (base + length) ≤ (t i).stop := by
  unfold vmRegionFindContaining at h
  split_ifs at h with h1 h2
  have hp := List.find?_some h
  simp only [Bool.and_eq_true, decide_eq_true_eq] at hp
  exact ⟨Nat.pos_of_ne_zero h1, not_lt.mp h2, hp.1.1, hp.2.1, hp.2.2⟩

theorem not_has_of_noOverlap (hl : 0 < length) (hw : base + length < 2 ^ 64)
    (hno : vmAnyRegionOverlap t base length = false) (i : Slot) (h1 : base ≤ x)
    (h2 : x < base + length) : ¬ (t i).Has x := by
  intro hx
  unfold vmAnyRegionOverlap at hno
  rw [u64_of_lt hw, if_neg hl.ne', if_neg (by omega), any_eq_false] at hno
  have hov := hno i (mem_finRange i)
  have h3 := hx.2.1
  have h4 := hx.2.2
  unfold vmRegionOverlaps at hov
  rw [hx.1, if_neg (by simp), if_neg (by omega)] at hov
  simp only [Bool.not_eq_true, Bool.not_eq_false', Bool.or_eq_true, decide_eq_true_eq] at hov
  omega

theorem anyRegionOverlap_spec (h : Valid t) (hl : 0 < length) (hw : base + length < 2 ^ 64) :
    vmAnyRegionOverlap t base length = false ↔
      ∀ i x, base ≤ x → x < base + length → ¬ (t i).Has x := by
  refine ⟨fun hno i x => not_has_of_noOverlap hl hw hno i, fun hno => ?_⟩
  unfold vmAnyRegionOverlap
  rw [u64_of_lt hw, if_neg hl.ne', if_neg (by omega), any_eq_false]
  intro i _ hov
  unfold vmRegionOverlaps at hov
  split_ifs at hov with hu hs
  have hu' : (t i).used = true := by simpa using hu
  have hn := h.native i hu'
  have hpos := hn.length_pos
  have hse := hn.stop_eq
  simp only [Bool.not_eq_true', Bool.or_eq_false_iff, decide_eq_false_iff_not] at hov
  exact hno i (max base (t i).base) (by omega) (by omega) ⟨hu', by omega, by omega⟩

/-! ### Covering a range -/

inductive Covering (t : Table) (stop : ℕ) : ℕ → List Slot → Prop
  | done {cursor : ℕ} : stop ≤ cursor → Covering t stop cursor []
  | step {cursor : ℕ} {slot : Slot} {slots : List Slot} : cursor < stop → (t slot).Has cursor →
      Covering t stop (min (t slot).stop stop) slots → Covering t stop cursor (slot :: slots)

theorem collectLoop_covering {room cursor : ℕ}
    (h : collectLoop t stop room cursor = some slots) : Covering t stop cursor slots := by
  induction room generalizing cursor slots with
  | zero =>
    unfold collectLoop at h
    split_ifs at h with hc
    obtain rfl := Option.some.inj h
    exact .done (not_lt.mp hc)
  | succ room ih =>
    unfold collectLoop at h
    split_ifs at h with hc
    · cases hs : slotAt t cursor with
      | none =>
        rw [hs] at h
        simp at h
      | some slot =>
        rw [hs] at h
        obtain ⟨rest, hrest, rfl⟩ := Option.map_eq_some_iff.mp h
        refine .step hc (slotAt_spec hs) (ih ?_)
        rw [← hrest]
        congr 1
        split_ifs <;> omega
    · obtain rfl := Option.some.inj h
      exact .done (not_lt.mp hc)

theorem collect_spec
    (h : vmRegionCollectCoveringSlots t base length = some slots) :
    0 < length ∧ base ≤ u64 (base + length) ∧ Covering t (u64 (base + length)) base slots := by
  unfold vmRegionCollectCoveringSlots at h
  split_ifs at h with h1 h2
  exact ⟨Nat.pos_of_ne_zero h1, not_lt.mp h2, collectLoop_covering h⟩

section

variable {cursor : ℕ} {slots : List Slot}

section

variable (h : Covering t stop cursor slots)
include h

theorem Covering.mem (hs : slot ∈ slots) :
    ∃ x, cursor ≤ x ∧ x < stop ∧ (t slot).Has x := by
  induction h with
  | done => exact absurd hs not_mem_nil
  | step hc hhas _ ih =>
    cases mem_cons.mp hs with
    | inl heq => exact ⟨_, le_rfl, hc, heq ▸ hhas⟩
    | inr hs =>
      obtain ⟨x, h1, h2, h3⟩ := ih hs
      have := hhas.2.2
      exact ⟨x, by omega, h2, h3⟩

theorem Covering.nodup : slots.Nodup := by
  induction h with
  | done => exact nodup_nil
  | step hc hhas hrest ih =>
    refine nodup_cons.mpr ⟨fun hmem => ?_, ih⟩
    obtain ⟨x, h1, h2, h3⟩ := hrest.mem hmem
    have := h3.2.2
    omega

theorem Covering.cover (h1 : cursor ≤ x) (h2 : x < stop) :
    ∃ slot ∈ slots, (t slot).Has x := by
  induction h with
  | done hc => exact absurd h2 (by omega)
  | @step cursor slot slots hc hhas _ ih =>
    by_cases hx : x < (t slot).stop
    · exact ⟨slot, mem_cons_self, hhas.1, hhas.2.1.trans h1, hx⟩
    · obtain ⟨slot', hmem, hx'⟩ := ih (by omega)
      exact ⟨slot', mem_cons_of_mem _ hmem, hx'⟩

theorem Covering.last (hne : slots ≠ []) :
    (t (slots.getLast hne)).Has (stop - 1) := by
  induction h with
  | done => exact absurd rfl hne
  | @step cursor slot slots hc hhas hrest ih =>
    cases slots with
    | nil =>
      cases hrest with
      | done hstop =>
        have := hhas.2.1
        exact ⟨hhas.1, show (t slot).base ≤ stop - 1 by omega,
          show stop - 1 < (t slot).stop by omega⟩
    | cons slot' slots =>
      exact ih (cons_ne_nil slot' slots)

theorem Covering.head (hc : cursor < stop) :
    ∃ slot rest, slots = slot :: rest ∧ (t slot).Has cursor := by
  cases h with
  | done hs => exact absurd hc (by omega)
  | step _ hhas _ => exact ⟨_, _, rfl, hhas⟩

end

end

/-! ### Writing parts of a region -/

/-- The table shows the attributes `a` on page `n`. -/
abbrev shown (t : Table) (n : ℕ) (a : Attr) : Prop := At Region.Covers Region.attr t n a

theorem Valid.shown_update (h : Valid t) (r : Region) {a : Attr} : shown (update t i r) n a ↔
    (r.Covers n ∧ r.attr n = a) ∨ (¬ (t i).Covers n ∧ shown t n a) := by
  rw [shown, at_update h.apart]

abbrev Shows (t : Table) (F : ℕ → Attr → Prop) : Prop := Valid t ∧ ∀ n a, shown t n a ↔ F n a

def Region.piece (r : Region) : Piece := ⟨r.prot, r.flags, r.committed⟩

structure Piece.Fits (p : Piece) (r : Region) : Prop where
  lazy : p.committed = false → p.prot = 0 ∧ (r.kind = .anonPrivate ∨ r.kind = .guard)
  guard : r.kind = .guard → p.committed = false

abbrev Region.part (r : Region) (b l : ℕ) (p : Piece) : Region :=
  span r b l p.prot p.flags p.committed

variable {r : Region}

theorem Region.Native.piece_fits (h : r.Native) : r.piece.Fits r := ⟨h.lazy, h.guard⟩

section

variable {src : Region} {b l : ℕ} {p : Piece}

structure IsPart (r : Region) (b l : ℕ) : Prop where
  base_dvd : 4096 ∣ b
  length_dvd : 4096 ∣ l
  pos : 0 < l
  base_le : r.base ≤ b
  stop_le : b + l ≤ r.base + r.length

theorem IsPart.native (h : IsPart src b l) (hs : src.Native) (hp : p.Fits src) :
    (src.part b l p).Native :=
  span_native p hs h.base_dvd h.length_dvd h.pos h.base_le h.stop_le hp.lazy hp.guard

theorem at_span (h : IsPart src b l) {a : Attr} :
    ((src.part b l p).Covers n ∧ (src.part b l p).attr n = a) ↔
      InRange b (b + l) n ∧ (src.attr n).set p = a := by
  rw [covers_span]
  constructor
  · rintro ⟨hn, rfl⟩
    exact ⟨hn, (attr_span p h.base_dvd h.base_le hn.1).symm⟩
  · rintro ⟨hn, rfl⟩
    exact ⟨hn, attr_span p h.base_dvd h.base_le hn.1⟩

theorem shrink_spec (h : Valid t) (hu : (t i).used = true) (hpart : IsPart (t i) b l)
    (hp : p.Fits (t i)) : Shows (update t i ((t i).part b l p)) fun n a =>
      (InRange b (b + l) n ∧ ((t i).attr n).set p = a) ∨ (¬ (t i).Covers n ∧ shown t n a) := by
  have hn := h.native i hu
  refine ⟨h.shrink (fun _ => hpart.native hn hp) fun n hc => ?_, fun n a => ?_⟩
  · have hc' := covers_span.mp hc
    have := hpart.base_le
    have := hpart.stop_le
    exact ⟨hu, by omega, by omega⟩
  · rw [h.shown_update, at_span hpart]

theorem spill_spec (h : Valid t) (hu : (t i).used = false) (hs : src.Native)
    (hpart : IsPart src b l) (hp : p.Fits src)
    (hfree : ∀ n, InRange b (b + l) n → ∀ a, ¬ shown t n a) :
    Shows (update t i (src.part b l p)) fun n a =>
      (InRange b (b + l) n ∧ (src.attr n).set p = a) ∨ shown t n a := by
  refine ⟨h.place (fun _ => hpart.native hs hp) fun n hc j _ hj => ?_, fun n a => ?_⟩
  · exact hfree n (covers_span.mp hc) _ (at_of_cov hj)
  · rw [h.shown_update, at_span hpart]
    have := not_covers_of_unused hu n
    tauto

theorem shrink_spill_spec (h : Valid t) (hu : (t i).used = true) {b1 l1 b2 l2 : ℕ} {p1 p2 : Piece}
    (hpart1 : IsPart (t i) b1 l1) (hpart2 : IsPart (t i) b2 l2) (hp1 : p1.Fits (t i))
    (hp2 : p2.Fits (t i)) (hdisj : b1 + l1 ≤ b2 ∨ b2 + l2 ≤ b1) (hj : (t j).used = false) :
    Shows (update (update t i ((t i).part b1 l1 p1)) j ((t i).part b2 l2 p2)) fun n a =>
      (InRange b2 (b2 + l2) n ∧ ((t i).attr n).set p2 = a) ∨
      (InRange b1 (b1 + l1) n ∧ ((t i).attr n).set p1 = a) ∨ (¬ (t i).Covers n ∧ shown t n a) := by
  have hji : j ≠ i := by
    rintro rfl
    exact Bool.false_ne_true (hj.symm.trans hu)
  obtain ⟨hv, hat⟩ := shrink_spec h hu hpart1 hp1
  have hj1 : (update t i ((t i).part b1 l1 p1) j).used = false := by
    rw [update_of_ne hji]
    exact hj
  obtain ⟨hv', hat'⟩ := spill_spec hv hj1 (h.native i hu) hpart2 hp2 (by
    intro n hr a hat1
    rw [hat n a] at hat1
    have := hpart2.base_le
    have := hpart2.stop_le
    unfold InRange at *
    rcases hat1 with ⟨hr1, -⟩ | ⟨hno, -⟩
    · omega
    · exact hno ⟨hu, by omega, by omega⟩)
  exact ⟨hv', fun n a => (hat' n a).trans (or_congr_right (hat n a))⟩

end

theorem Valid.at_iff (h : Valid t) (hc : (t i).Covers n) (a : Attr) :
    shown t n a ↔ a = (t i).attr n := by
  constructor
  · intro hat
    exact h.apart.unique hat (at_of_cov hc)
  · rintro rfl
    exact at_of_cov hc

theorem Valid.at_keep (h : Valid t) (hsub : ∀ n, InRange base stop n → (t i).Covers n)
    {P : ℕ → Prop} (hP : ∀ n, P n ↔ (t i).Covers n ∧ ¬ InRange base stop n) (n : ℕ) (a : Attr) :
    ((P n ∧ (t i).attr n = a) ∨ (¬ (t i).Covers n ∧ shown t n a)) ↔
      ¬ InRange base stop n ∧ shown t n a := by
  rw [hP n]
  by_cases hc : (t i).Covers n
  · rw [h.at_iff hc a]
    tauto
  · tauto

/-! ### Cutting a range out of a region -/

structure Cut (r : Region) (base stop : ℕ) : Prop where
  covers : ∀ n, r.Covers n ↔ InRange r.base r.stop n
  le : r.base ≤ base ∧ base < stop ∧ stop ≤ r.stop
  head : base ≠ r.base → IsPart r r.base (sub64 base r.base)
  head_stop : r.base + sub64 base r.base = base
  tail : stop ≠ r.stop → IsPart r stop (sub64 r.stop stop)
  tail_stop : stop + sub64 r.stop stop = r.stop

theorem Region.Native.cut (hn : r.Native) (hu : r.used = true) (hb : 4096 ∣ base)
    (hs : 4096 ∣ stop) (h1 : r.base ≤ base) (hlt : base < stop) (h2 : stop ≤ r.stop) :
    Cut r base stop := by
  have hse := hn.stop_eq
  have h3 := hn.base_dvd
  have h4 := hn.length_dvd
  have h5 := hn.stop_le
  have hlim : vmUserLimit < 2 ^ 64 := by decide
  have hhead : sub64 base r.base = base - r.base := sub64_of_le h1 (by omega)
  have htail : sub64 r.stop stop = r.stop - stop := sub64_of_le h2 (by omega)
  refine ⟨fun n => ?_, ⟨h1, hlt, h2⟩, fun hne => ?_, by omega, fun hne => ?_, by omega⟩
  · rw [Region.Covers, hu, hse, InRange]
    simp
  · exact ⟨h3, by omega, by omega, le_rfl, by omega⟩
  · exact ⟨hs, by omega, by omega, by omega, by omega⟩

theorem Cut.rest (h : Cut r base stop) (n : ℕ) :
    InRange stop r.stop n ∨ InRange r.base base n ↔ r.Covers n ∧ ¬ InRange base stop n := by
  rw [h.covers n]
  have := h.le
  unfold InRange
  omega

theorem Cut.rest_tail (h : Cut r base stop) (hb : base = r.base) (n : ℕ) :
    InRange stop r.stop n ↔ r.Covers n ∧ ¬ InRange base stop n := by
  rw [← h.rest n]
  unfold InRange
  omega

theorem Cut.rest_head (h : Cut r base stop) (hs : stop = r.stop) (n : ℕ) :
    InRange r.base base n ↔ r.Covers n ∧ ¬ InRange base stop n := by
  rw [← h.rest n]
  unfold InRange
  omega

theorem Cut.sub (h : Cut r base stop) (hn : InRange base stop n) : r.Covers n := by
  rw [h.covers n]
  have := h.le
  unfold InRange at *
  omega

/-! ### Unmapping -/

def SpillOk (t : Table) (r : Region) (base stop : ℕ) (spill : Option Slot) : Prop :=
  r.base < base → stop < r.stop → ∃ j, spill = some j ∧ (t j).used = false

theorem trimOne_spec (h : Valid t) (hlt : base < stop) (hb : 4096 ∣ base) (hs : 4096 ∣ stop)
    (hi : (t i).Has base) (hstop : stop ≤ (t i).stop) (hspill : SpillOk t (t i) base stop spill) :
    Shows (trimOne t i spill base stop) fun n a => ¬ InRange base stop n ∧ shown t n a := by
  have hn := h.native i hi.1
  have hcut := hn.cut hi.1 hb hs hi.2.1 hlt hstop
  have hle := hcut.le
  have hkeep := fun {P} => @Valid.at_keep t i base stop h (fun n => hcut.sub) P
  unfold trimOne
  dsimp only
  split_ifs with hc1 hc2 hc3
  · refine ⟨h.clear i, fun n a => ?_⟩
    rw [vmRegionClear, h.shown_update, hcut.covers n, ← hc1.1, ← hc1.2]
    exact or_iff_right fun hc => not_covers_cleared n hc.1
  · obtain ⟨hv, hat⟩ := shrink_spec h hi.1 (hcut.tail (by omega)) hn.piece_fits
    refine ⟨hv, fun n a => (hat n a).trans (hkeep (fun n => ?_) n a)⟩
    rw [hcut.tail_stop]
    exact hcut.rest_tail hc2 n
  · obtain ⟨hv, hat⟩ := shrink_spec h hi.1 (hcut.head hc2) hn.piece_fits
    refine ⟨hv, fun n a => (hat n a).trans (hkeep (fun n => ?_) n a)⟩
    rw [hcut.head_stop]
    exact hcut.rest_head hc3 n
  · obtain ⟨j, rfl, hj⟩ := hspill (by omega) (by omega)
    obtain ⟨hv, hat⟩ := shrink_spill_spec h hi.1 (hcut.head hc2) (hcut.tail hc3) hn.piece_fits
      hn.piece_fits (.inl (by rw [hcut.head_stop]; omega)) hj
    refine ⟨hv, fun n a => (hat n a).trans ?_⟩
    beta_reduce
    rw [← or_assoc, ← or_and_right, hcut.head_stop, hcut.tail_stop]
    exact hkeep (hcut.rest) n a

/-! ### Several regions -/

theorem foldl_clear_eq (middle : List Slot) (t : Table) (x : Slot) :
    middle.foldl vmRegionClear t x = if x ∈ middle then Region.cleared else t x := by
  induction middle generalizing t with
  | nil => rfl
  | cons m middle ih =>
    rw [foldl_cons, ih, vmRegionClear]
    by_cases hx : x = m
    · subst hx
      simp
    · simp [hx]

section

variable {first last : Slot} {middle : List Slot}

def headPart (r : Region) (base : ℕ) : Region :=
  if r.base < base then span r r.base (sub64 base r.base) r.prot r.flags r.committed
  else Region.cleared

def tailPart (r : Region) (stop : ℕ) : Region :=
  if stop < r.stop then span r stop (sub64 r.stop stop) r.prot r.flags r.committed
  else Region.cleared

theorem trimMany_apply (x : Slot) : trimMany t first middle last base stop x =
      if x = last then tailPart (t last) stop
      else if x ∈ middle then Region.cleared
      else if x = first then headPart (t first) base
      else t x := by
  have hfirst : (if (t first).base < base then
      vmRegionFillSpanFromParent t first (t first) (t first).base (sub64 base (t first).base)
        (t first).prot (t first).flags (t first).committed
      else vmRegionClear t first) = update t first (headPart (t first) base) := by
    unfold headPart
    split_ifs <;> rfl
  unfold trimMany
  rw [hfirst]
  have hlast : ∀ t1 : Table, (if stop < (t last).stop then
      vmRegionFillSpanFromParent t1 last (t last) stop (sub64 (t last).stop stop)
        (t last).prot (t last).flags (t last).committed
      else vmRegionClear t1 last) = update t1 last (tailPart (t last) stop) := by
    intro t1
    unfold tailPart
    split_ifs <;> rfl
  rw [hlast, update_apply, foldl_clear_eq, update_apply]

/-- The region `r'` has the pages of `r` in `P`. -/
structure Part (r r' : Region) (P : ℕ → Prop) : Prop where
  native : r'.used = true → r'.Native
  covers : ∀ n, r'.Covers n ↔ r.Covers n ∧ P n
  attr : ∀ n, r'.Covers n → r'.attr n = r.attr n

theorem Part.cleared {P : ℕ → Prop} (h : ∀ n, r.Covers n → ¬P n) :
    Part r Region.cleared P :=
  ⟨fun hc => absurd hc (by decide),
    fun n => iff_of_false (not_covers_cleared n) fun hn => h n hn.1 hn.2,
    fun n hn => absurd hn (not_covers_cleared n)⟩

theorem Part.congr {r r' : Region} {P Q : ℕ → Prop} (h : Part r r' P)
    (hPQ : ∀ n, r.Covers n → (P n ↔ Q n)) : Part r r' Q :=
  ⟨h.native, fun n => (h.covers n).trans (and_congr_right (hPQ n)), h.attr⟩

variable {r : Region} (hr : r.Native) (hu : r.used = true)

include hr hu

theorem IsPart.part {b l : ℕ} (h : IsPart r b l) :
    Part r (span r b l r.prot r.flags r.committed) (InRange b (b + l)) := by
  refine ⟨fun _ => h.native hr hr.piece_fits, fun n => covers_span.trans ?_, fun n hn =>
    attr_span r.piece h.base_dvd h.base_le (covers_span.mp hn).1⟩
  refine (and_iff_right_of_imp fun hn => ?_).symm
  exact ⟨hu, h.base_le.trans hn.1, hn.2.trans_le h.stop_le⟩

theorem headPart_spec (hb : 4096 ∣ base) (h1 : r.Has base) :
    Part r (headPart r base) fun n => n * 4096 < base := by
  have hse := hr.stop_eq
  have h2 := h1.2.1
  have h3 := h1.2.2
  have h4 := hr.stop_le
  have h5 := hr.base_dvd
  have hlim : vmUserLimit < 2 ^ 64 := by decide
  unfold headPart
  split_ifs with hlt
  · rw [sub64_of_le h2 (by omega)]
    refine (IsPart.part hr hu ⟨h5, by omega, by omega, le_rfl, by omega⟩).congr fun n hn => ?_
    have := hn.2.1
    unfold InRange
    omega
  · refine .cleared fun n hn => ?_
    have := hn.2.1
    omega

theorem tailPart_spec (hs : 4096 ∣ stop) (h1 : r.base ≤ stop) :
    Part r (tailPart r stop) fun n => stop ≤ n * 4096 := by
  have hse := hr.stop_eq
  have h2 := hr.length_dvd
  have h4 := hr.stop_le
  have h5 := hr.base_dvd
  have hlim : vmUserLimit < 2 ^ 64 := by decide
  unfold tailPart
  split_ifs with hlt
  · rw [sub64_of_le hlt.le (by omega)]
    refine (IsPart.part hr hu ⟨hs, by omega, by omega, h1, by omega⟩).congr fun n hn => ?_
    have := hn.2.2
    unfold InRange
    omega
  · refine .cleared fun n hn => ?_
    have := hn.2.2
    omega

omit hr hu

theorem trimMany_spec (h : Valid t) (hlt : base < stop) (hb : 4096 ∣ base) (hs : 4096 ∣ stop)
    (hcov : Covering t stop base (first :: (middle ++ [last]))) :
    Shows (trimMany t first middle last base stop) fun n a => ¬ InRange base stop n ∧
      shown t n a := by
  have hnd := hcov.nodup
  rw [nodup_cons, mem_append, mem_singleton, not_or, nodup_append] at hnd
  obtain ⟨⟨hfm, hfl⟩, -, -, hml⟩ := hnd
  have hmem : ∀ x ∈ first :: (middle ++ [last]), ∃ y, base ≤ y ∧ y < stop ∧ (t x).Has y :=
    fun x hx => hcov.mem hx
  have hfirst : (t first).Has base := by
    obtain ⟨slot, rest, heq, hhas⟩ := hcov.head hlt
    rw [(List.cons.inj heq).1]
    exact hhas
  have hlast : (t last).Has (stop - 1) := by
    have := hcov.last (by simp)
    simpa using this
  -- a region of the range that is not the first starts inside, one that is not the last ends there
  have hstart : ∀ x ∈ first :: (middle ++ [last]), x ≠ first → base < (t x).base := by
    intro x hx hne
    obtain ⟨y, h1, h2, hy⟩ := hmem x hx
    by_contra hle
    have := hy.2.2
    exact hne (h.has_unique ⟨hy.1, not_lt.mp hle, by omega⟩ hfirst)
  have hend : ∀ x ∈ first :: (middle ++ [last]), x ≠ last → (t x).stop < stop := by
    intro x hx hne
    obtain ⟨y, h1, h2, hy⟩ := hmem x hx
    by_contra hle
    have := hy.2.1
    exact hne (h.has_unique ⟨hy.1, by omega, by omega⟩ hlast)
  have hout : ∀ x ∉ first :: (middle ++ [last]), ∀ n, (t x).Covers n → ¬ InRange base stop n := by
    intro x hx n hc hr
    obtain ⟨y, hy, hhas⟩ := hcov.cover hr.1 hr.2
    exact hx (h.apart x y n hc ((h.has_iff_covers y n).mp hhas) ▸ hy)
  have happ := fun x => @trimMany_apply t base stop first last middle x
  have hnat : ∀ {x y}, (t x).Has y → (t x).Native := fun hx => h.native _ hx.1
  have hhead := headPart_spec (hnat hfirst) hfirst.1 hb hfirst
  have hlastBase : (t last).base ≤ stop := by
    have := hlast.2.1
    omega
  have htail := tailPart_spec (hnat hlast) hlast.1 hs hlastBase
  -- slot by slot, exactly the pages of the range are lost
  have hslot : ∀ x, Part (t x) (trimMany t first middle last base stop x)
      fun n => ¬ InRange base stop n := by
    intro x
    rw [happ x]
    split_ifs with hx1 hx2 hx3
    · subst hx1
      refine htail.congr fun n hc => ?_
      have := hstart x (by simp) (Ne.symm hfl)
      have := hc.2.1
      unfold InRange
      omega
    · have hx : x ∈ first :: (middle ++ [last]) := by simp [hx2]
      have h1 := hstart x hx fun heq => hfm (heq ▸ hx2)
      have h2 := hend x hx hx1
      refine .cleared fun n hc hno => ?_
      have := (h.native x hc.1).stop_eq
      have := hc.2.1
      have := hc.2.2
      unfold InRange at hno
      omega
    · subst hx3
      refine hhead.congr fun n hc => ?_
      have := hend x (by simp) hfl
      have := (h.native x hc.1).stop_eq
      have := hc.2.2
      unfold InRange
      omega
    · have hx : x ∉ first :: (middle ++ [last]) := by simp [hx1, hx2, hx3]
      exact ⟨h.native x, fun n => ⟨fun hc => ⟨hc, hout x hx n hc⟩, fun hc => hc.1⟩, fun _ _ => rfl⟩
  exact ⟨⟨fun x => (hslot x).native, h.apart.restrict fun x => (hslot x).covers⟩, fun n a =>
    at_restrict (fun x => (hslot x).covers) fun x => (hslot x).attr⟩

end

theorem spillSlot_ok (h : spillSlot t [slot] base stop = some spill) :
    SpillOk t (t slot) base stop spill := by
  intro h1 h2
  rw [spillSlot, if_pos ⟨h1, h2⟩] at h
  obtain ⟨j, hj, rfl⟩ := Option.map_eq_some_iff.mp h
  exact ⟨j, rfl, allocSlot_spec hj⟩

theorem trimRegions_spec (h : Valid t) (hlt : base < stop) (hb : 4096 ∣ base) (hs : 4096 ∣ stop)
    (hcov : Covering t stop base slots) (hspill : spillSlot t slots base stop = some spill) :
    Shows (trimRegions t slots spill base stop) fun n a => ¬ InRange base stop n ∧ shown t n a := by
  match slots with
  | [] =>
    cases hcov with
    | done hstop => exact absurd hlt (by omega)
  | [slot] =>
    cases hcov with
    | step _ hhas hrest =>
      cases hrest with
      | done hstop =>
        exact trimOne_spec h hlt hb hs hhas (by omega) (spillSlot_ok hspill)
  | first :: second :: rest =>
    have hne : second :: rest ≠ [] := cons_ne_nil second rest
    have hsplit := dropLast_append_getLast hne
    rw [← hsplit] at hcov
    exact trimMany_spec h hlt hb hs hcov

/-! ### Changing the protection -/

section

variable {inner outer : Piece} {slots : List Slot}

/-- **The writes of a change of protection** give the pages of the range the piece `inner`, and
the other pages of the region the piece `outer`. -/
theorem splitRegion_spec (h : Valid t) (hu : (t i).used = true) (hb : 4096 ∣ base)
    (hl : 4096 ∣ length) (hpos : 0 < length) (h1 : (t i).base ≤ base)
    (h2 : base + length ≤ (t i).stop) (hin : inner.Fits (t i)) (hout : outer.Fits (t i))
    (hslots : vmRegionAllocSlots t (slotsNeeded (t i) base (base + length)) = some slots) :
    Shows (splitRegion t i slots (t i) base length inner outer) fun n a =>
      (InRange base (base + length) n ∧ ((t i).attr n).set inner = a) ∨
      ((t i).Covers n ∧ ¬ InRange base (base + length) n ∧ ((t i).attr n).set outer = a) ∨
      (¬ (t i).Covers n ∧ shown t n a) := by
  have hn := h.native i hu
  have hcut : Cut (t i) base (base + length) :=
    hn.cut hu hb (Nat.dvd_add hb hl) h1 (by omega) h2
  have hse := hn.stop_eq
  have hstop : u64 (base + length) = base + length := by
    have := hn.stop_le
    have : vmUserLimit < 2 ^ 64 := by decide
    exact u64_of_lt (by omega)
  have hinner : IsPart (t i) base length := ⟨hb, hl, hpos, h1, by omega⟩
  obtain ⟨hlen, hnd, hfree⟩ := allocSlots_spec hslots
  unfold splitRegion
  simp only [hstop]
  by_cases hwhole : base = (t i).base ∧ base + length = (t i).stop
  · rw [if_pos hwhole]
    obtain ⟨hv, hat⟩ := shrink_spec h hu hinner hin
    refine ⟨hv, fun n a => (hat n a).trans (or_congr_right ?_)⟩
    refine (or_iff_right ?_).symm
    rintro ⟨hc, hno, -⟩
    rw [hcut.covers n, ← hwhole.1, ← hwhole.2] at hc
    exact hno hc
  · rw [if_neg hwhole]
    unfold slotsNeeded at hlen
    split_ifs at hlen with hone
    · obtain ⟨j, rfl⟩ := length_eq_one_iff.mp hlen
      have hj := hfree j (mem_singleton.mpr rfl)
      split_ifs with hbase
      · obtain ⟨hv, hat⟩ := shrink_spill_spec h hu hinner (hcut.tail (by omega)) hin hout
          (.inl le_rfl) hj
        refine ⟨hv, fun n a => (hat n a).trans ?_⟩
        beta_reduce
        rw [hcut.tail_stop, hcut.rest_tail hbase n, and_assoc, or_left_comm]
      · obtain ⟨hv, hat⟩ := shrink_spill_spec h hu (hcut.head hbase) hinner hout hin
          (.inl hcut.head_stop.le) hj
        refine ⟨hv, fun n a => (hat n a).trans ?_⟩
        beta_reduce
        rw [hcut.head_stop, hcut.rest_head (by omega) n, and_assoc]
    · obtain ⟨j, k, rfl⟩ := length_eq_two.mp hlen
      have hj := hfree j (by simp)
      have hk := hfree k (by simp)
      have hkj : k ≠ j := fun heq => (nodup_cons.mp hnd).1 (by simp [heq])
      have hki : k ≠ i := by
        rintro rfl
        exact Bool.false_ne_true (hk.symm.trans hu)
      rw [not_or] at hone
      obtain ⟨hv, hat⟩ := shrink_spill_spec h hu (hcut.head hone.1) hinner hout hin
        (.inl hcut.head_stop.le) hj
      have hk1 : (update (update t i ((t i).part (t i).base (sub64 base (t i).base) outer)) j
          ((t i).part base length inner) k).used = false := by
        rw [update_of_ne hkj, update_of_ne hki]
        exact hk
      obtain ⟨hv', hat'⟩ := spill_spec hv hk1 hn (hcut.tail hone.2) hout (by
        intro n hr a hat1
        rw [hat n a, hcut.covers n, hcut.head_stop] at hat1
        rw [hcut.tail_stop] at hr
        unfold InRange at *
        omega)
      refine ⟨hv', fun n a => (hat' n a).trans ?_⟩
      beta_reduce
      rw [hat n a, or_left_comm, hcut.head_stop, hcut.tail_stop]
      refine or_congr_right ?_
      rw [← or_assoc, ← or_and_right, hcut.rest n, and_assoc]

end

end TaterTOS.Vm
