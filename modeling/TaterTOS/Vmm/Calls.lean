import TaterTOS.Vmm.Tables

/-!
# What the calls do to the maps
-/

namespace TaterTOS.Vmm

open Function Lib Radix List

variable {K R : Set ℕ} {s s' : State} {r r' q i c e : ℕ} {l : List ℕ}
  {s1 s2 s3 : State} {n k : ℕ} {l' : List ℕ} {P : ℕ → Prop}

structure Frame (K R : Set ℕ) (r : ℕ) (s s' : State) : Prop where
  base : s'.kernelPml4 = s.kernelPml4
  kernel : ∀ p ∈ K, s'.mem p = s.mem p
  high : ∀ r' ∈ R, ∀ j, 256 ≤ j → s'.mem r' j = s.mem r' j
  paths : ∀ r' ∈ R, r' ≠ r → ∀ l, UserPath l → tableAt s' r' l = tableAt s r' l
  tables : ∀ r' ∈ R, r' ≠ r → ∀ l, UserPath l → ∀ q, tableAt s r' l = some q → s'.mem q = s.mem q

theorem Frame.refl (K R : Set ℕ) (r : ℕ) (s : State) : Frame K R r s s :=
  ⟨rfl, fun _ _ => rfl, fun _ _ _ _ => rfl, fun _ _ _ _ _ => rfl, fun _ _ _ _ _ _ _ => rfl⟩

theorem Frame.trans (h1 : Frame K R r s1 s2) (h2 : Frame K R r s2 s3) : Frame K R r s1 s3 where
  base := h2.base.trans h1.base
  kernel p hp := (h2.kernel p hp).trans (h1.kernel p hp)
  high r' hr' j hj := (h2.high r' hr' j hj).trans (h1.high r' hr' j hj)
  paths r' hr' hne l hl := (h2.paths r' hr' hne l hl).trans (h1.paths r' hr' hne l hl)
  tables r' hr' hne l hl q hq :=
    (h2.tables r' hr' hne l hl q ((h1.paths r' hr' hne l hl).trans hq)).trans
      (h1.tables r' hr' hne l hl q hq)

theorem Frame.of_mem_eq (hb : s'.kernelPml4 = s.kernelPml4) (hm : s'.mem = s.mem) :
    Frame K R r s s' := by
  refine ⟨hb, fun p _ => congrFun hm p, fun r' _ j _ => by rw [hm], fun r' _ _ l _ => ?_,
    fun r' _ _ l _ q _ => congrFun hm q⟩
  unfold tableAt
  rw [hm]

theorem Frame.absMap (h : Frame K R r s s') (hr' : r' ∈ R) (hne : r' ≠ r) (n : ℕ) :
    absMap s' r' n = absMap s r' n := by
  unfold Vmm.absMap
  split_ifs with hn
  · rw [h.paths r' hr' hne _ (userPath_path hn)]
    cases hq : tableAt s r' (path n) with
    | none => rfl
    | some q =>
        rw [Option.bind_some, Option.bind_some, h.tables r' hr' hne _ (userPath_path hn) q hq]
  · rfl

theorem Entries.of_mem_eq (h : Entries P R s) (hm : s'.mem = s.mem) : Entries P R s' := by
  intro r hr l i q hl hq hp
  unfold tableAt at hq
  rw [hm] at hq hp ⊢
  exact h r hr l i q hl hq hp

theorem Tables.of_isTable (h : Tables K R s) {R' : Set ℕ} (hsep : Sep tableOf UserPath R' s'.mem)
    (hnz : ∀ r ∈ R', r ≠ 0) (hbase : s'.kernelPml4 = s.kernelPml4)
    (hanswers : s'.answers = s.answers) (hsmall : Entries (isLarge · = false) R' s')
    (htab : ∀ x, IsTable R' s' x → IsTable R s x ∨ x ∉ K ∧ x ∉ s.answers) : Tables K R' s' := by
  refine ⟨hsep, hnz, hbase ▸ h.kernel, fun x hx => ?_, hsmall, fun a ha ha0 => ?_,
    hanswers ▸ h.distinct⟩
  · rcases htab x hx with hx | hx
    · exact h.apart x hx
    · exact hx.1
  · rw [hanswers] at ha
    obtain ⟨h1, h2, h3⟩ := h.fresh a ha ha0
    refine ⟨h1, h2, fun hx => ?_⟩
    rcases htab a hx with hx | hx
    · exact h3 hx
    · exact hx.2 ha

/-! ### Writing a page that is no table -/

section

variable (hT : ¬ IsTable R s c) (f : ℕ → ℕ)
include hT

theorem aside_mem (hr : r ∈ R) (hl : UserPath l) (hq : tableAt s r l = some q) :
    update s.mem c f q = s.mem q := by
  refine update_of_ne ?_ _ _
  rintro rfl
  exact hT ⟨r, hr, l, hl, hq⟩

theorem Entries.aside (h : Entries P R s) : Entries P R { s with mem := update s.mem c f } := by
  intro r hr l i q hl hq hp
  have hl1 := userPath_closed l i hl
  have hq := (node_update userPath_closed hT f hr hl1).symm.trans hq
  dsimp only at hp ⊢
  rw [aside_mem hT f hr hl1 hq] at hp ⊢
  exact h r hr l i q hl hq hp

theorem Tables.aside (h : Tables K R s) : Tables K R { s with mem := update s.mem c f } := by
  exact h.of_isTable (h.sep.clear userPath_closed hT f) h.nonzero rfl rfl
    (Entries.aside hT f h.small) fun x hx => .inl ((isNode_update userPath_closed hT f).mp hx)

theorem Frame.aside (hK : c ∉ K) : Frame K R r s { s with mem := update s.mem c f } :=
  ⟨rfl, fun _ hp => update_of_ne (ne_of_mem_of_not_mem hp hK) _ _,
    fun _ hr' j _ => congrFun (aside_mem hT f hr' userPath_nil rfl) j,
    fun _ hr' _ _ hl => node_update userPath_closed hT f hr' hl,
    fun _ hr' _ _ hl _ hq => aside_mem hT f hr' hl hq⟩

end

/-! ### Writing one entry -/

@[simp] theorem State.set_mem (s : State) (t i e : ℕ) : (s.set t i e).mem = write s.mem t i e := rfl

theorem Tables.frame_set (h : Tables K R s) (hr : r ∈ R) (hl : UserPath l)
    (hq : tableAt s r l = some q) (hi : l = [] → i < 256) : Frame K R r s (s.set q i e) := by
  refine ⟨rfl, fun p hp => ?_, fun r' hr' j hj => ?_, fun r' hr' hne l' hl' => ?_,
    fun r' hr' hne l' hl' q' hq' => ?_⟩
  · refine write_of_ne_node s.mem i e ?_
    rintro rfl
    exact h.apart p ⟨r, hr, l, hl, hq⟩ hp
  · refine write_of_ne s.mem e ?_
    rintro ⟨rfl, rfl⟩
    obtain ⟨-, hl0⟩ := h.sep r' hr' r hr [] l userPath_nil hl r' rfl hq
    have := hi hl0.symm
    omega
  · exact node_write h.sep userPath_closed hr hl hq hr' hl' fun hc => hne hc.1
  · refine write_of_ne_node s.mem i e ?_
    rintro rfl
    exact hne (h.sep r' hr' r hr l' l hl' hl q' hq' hq).1

theorem Tables.frame_setLeaf (h : Tables K R s) (hr : r ∈ R) (hn : n < userPages)
    (hq : tableAt s r (path n) = some q) : Frame K R r s (s.set q i e) :=
  h.frame_set hr (userPath_path hn) hq fun hc => by simp [path] at hc

section

variable (hsep : Sep tableOf UserPath R s.mem) (hr : r ∈ R) (hl : UserPath l) (hlen : l.length = 3)
  (hq : tableAt s r l = some q)
include hsep hr hl hlen hq

theorem tableAt_setLeaf (hr' : r' ∈ R) (hl' : UserPath l') :
    tableAt (s.set q i e) r' l' = tableAt s r' l' := by
  refine hsep.leaf userPath_closed hr hl hq (fun hok => ?_) hr' hl'
  have := hok.1
  simp only [length_append, length_singleton] at this
  omega

theorem Entries.setLeaf (h : Entries P R s) : Entries P R (s.set q i e) := by
  intro r' hr' l' j x hl' hx hp
  have hl'' := userPath_closed l' j hl'
  rw [tableAt_setLeaf hsep hr hl hlen hq hr' hl''] at hx
  have hne : x ≠ q := by
    rintro rfl
    obtain ⟨-, rfl⟩ := hsep r' hr' r hr l' l hl'' hl x hx hq
    have := hl'.1
    simp only [length_append, length_singleton] at this
    omega
  have hm : (s.set q i e).mem x = s.mem x := write_of_ne_node s.mem i e hne
  rw [hm] at hp ⊢
  exact h r' hr' l' j x hl' hx hp

omit hsep in
theorem Tables.setLeaf (h : Tables K R s) : Tables K R (s.set q i e) := by
  have hnode : ∀ {r' l'}, r' ∈ R → UserPath l' →
      tableAt (s.set q i e) r' l' = tableAt s r' l' := fun hr' hl' =>
    tableAt_setLeaf h.sep hr hl hlen hq hr' hl'
  refine h.of_isTable ?_ h.nonzero rfl rfl (Entries.setLeaf h.sep hr hl hlen hq h.small) ?_
  · intro r1 hr1 r2 hr2 l1 l2 hl1 hl2 x hx1 hx2
    exact h.sep r1 hr1 r2 hr2 l1 l2 hl1 hl2 x ((hnode hr1 hl1).symm.trans hx1)
      ((hnode hr2 hl2).symm.trans hx2)
  · rintro x ⟨r', hr', l', hl', hx⟩
    exact .inl ⟨r', hr', l', hl', (hnode hr' hl').symm.trans hx⟩

end

theorem Tables.absMap_setLeaf (h : Tables K R s) (hr : r ∈ R) (hn : n < userPages)
    (hq : tableAt s r (path n) = some q) (hr' : r' ∈ R) (n' : ℕ) :
    absMap (s.set q (slot n) e) r' n' = if r' = r ∧ n' = n then decode e else absMap s r' n' := by
  unfold absMap
  by_cases hn' : n' < userPages
  · have hl' := userPath_path hn'
    rw [if_pos hn', if_pos hn', tableAt_setLeaf h.sep hr (userPath_path hn) rfl hq hr' hl']
    by_cases heq : r' = r ∧ n' = n
    · obtain ⟨rfl, rfl⟩ := heq
      rw [hq]
      simp
    · rw [if_neg heq]
      cases hq' : tableAt s r' (path n') with
      | none => rfl
      | some q' =>
        have hm : (s.set q (slot n) e).mem q' (slot n') = s.mem q' (slot n') := by
          refine write_of_ne s.mem e ?_
          rintro ⟨rfl, hs⟩
          obtain ⟨h1, h2⟩ := h.sep r' hr' r hr _ _ hl' (userPath_path hn) q' hq' hq
          exact heq ⟨h1, path_inj hn' hn h2 hs⟩
        simp only [Option.bind_some, hm]
  · rw [if_neg hn', if_neg hn', if_neg]
    rintro ⟨-, rfl⟩
    exact hn' hn

/-! ### A new table -/

structure NewTable (K R : Set ℕ) (s : State) (c : ℕ) (s' : State) : Prop where
  tables : Tables K R s'
  answers : s.answers = c :: s'.answers
  unused : c ∉ s'.answers
  nonzero : c ≠ 0
  isFrame : IsFrame c
  apart : c ∉ K
  fresh : ¬ IsTable R s' c
  zero : ∀ j, s'.mem c j = 0
  same : ∀ p ≠ c, s'.mem p = s.mem p
  base : s'.kernelPml4 = s.kernelPml4
  paths : ∀ r ∈ R, ∀ l, UserPath l → tableAt s' r l = tableAt s r l

theorem Tables.dropAnswer (h : Tables K R s) {a : ℕ} {as : List ℕ} (ha : s.answers = a :: as) :
    Tables K R { s with answers := as } := by
  refine ⟨h.sep, h.nonzero, h.kernel, h.apart, h.small, fun b hb => ?_, ?_⟩
  · exact h.fresh b (by rw [ha]; exact mem_cons_of_mem _ hb)
  · have := h.distinct
    rw [ha, filter_cons] at this
    split_ifs at this
    · exact (nodup_cons.mp this).2
    · exact this

theorem allocTable_spec (h : Tables K R s) :
    (∃ s', allocTable s = (0, s') ∧ Tables K R s' ∧ s'.mem = s.mem ∧
      s'.kernelPml4 = s.kernelPml4 ∧ (s.answers = [] ∨ ∃ as, s.answers = 0 :: as)) ∨
    ∃ c s', allocTable s = (c, s') ∧ NewTable K R s c s' := by
  unfold allocTable
  cases ha : s.answers with
  | nil => exact .inl ⟨s, rfl, h, rfl, rfl, Or.inl rfl⟩
  | cons c as =>
    dsimp only
    have h1 := h.dropAnswer ha
    by_cases hc : c = 0
    · subst hc
      exact .inl ⟨_, rfl, h1, rfl, rfl, Or.inr ⟨as, rfl⟩⟩
    · rw [if_neg hc]
      refine .inr ⟨c, _, rfl, ?_⟩
      obtain ⟨hf, hK, hT⟩ := h.fresh c (by rw [ha]; exact mem_cons_self) hc
      have hnd := h.distinct
      rw [ha, filter_cons_of_pos (by simpa using hc)] at hnd
      have hcas : c ∉ as := fun hm =>
        (nodup_cons.mp hnd).1 (mem_filter.mpr ⟨hm, by simpa using hc⟩)
      exact ⟨h1.aside (s := { s with answers := as }) hT _, ha, hcas, hc, hf, hK,
        fun hx => hT ((isNode_update userPath_closed hT _).mp hx), fun j => by simp,
        fun p hp => update_of_ne hp _ _, rfl, fun r hr l hl =>
          node_update userPath_closed hT _ hr hl⟩

theorem NewTable.mem_eq (h : NewTable K R s c s') (hr : r ∈ R) (hl : UserPath l)
    (hq : tableAt s r l = some q) : s'.mem q = s.mem q := by
  refine h.same q ?_
  rintro rfl
  exact h.fresh ⟨r, hr, l, hl, (h.paths r hr l hl).trans hq⟩

theorem NewTable.frame (h : NewTable K R s c s') : Frame K R r s s' :=
  ⟨h.base, fun p hp => h.same p (ne_of_mem_of_not_mem hp h.apart),
    fun _ hr' j _ => congrFun (h.mem_eq hr' userPath_nil rfl) j,
    fun r' hr' _ l' hl' => h.paths r' hr' l' hl', fun _ hr' _ _ hl' _ hx => h.mem_eq hr' hl' hx⟩

theorem NewTable.entries (h : NewTable K R s c s') (he : Entries P R s) : Entries P R s' := by
  intro r hr l i q hl hq hp
  have hl1 := userPath_closed l i hl
  rw [h.paths r hr l hl1] at hq
  rw [h.mem_eq hr hl1 hq] at hp ⊢
  exact he r hr l i q hl hq hp

section

abbrev State.link (s : State) (q i c flags : ℕ) : State := s.set q i (parentEntry c flags)

variable (h : NewTable K R s c s') (hr : r ∈ R) (hl : UserPath l) (hq : tableAt s' r l = some q)
  (flags : ℕ)

include h

theorem NewTable.tableOf_parentEntry : tableOf (parentEntry c flags) = some c := by
  rw [tableOf, isPresent_parentEntry, isLarge_parentEntry flags h.isFrame,
    frameOf_parentEntry flags h.isFrame]
  rfl

theorem NewTable.tableOf_zero (j : ℕ) : tableOf (s'.mem c j) = none := by
  rw [h.zero j]
  rfl

include hr hl hq

theorem NewTable.link_cases (hr' : r' ∈ R) (hl' : UserPath l') {q' : ℕ}
    (hq' : tableAt (s'.link q i c flags) r' l' = some q') :
    r' = r ∧ l' = l ++ [i] ∧ q' = c ∨ tableAt s' r' l' = some q' :=
  node_link_cases h.tables.sep userPath_closed hr hl hq (h.tableOf_parentEntry flags) h.fresh
    h.tableOf_zero hr' hl' hq'

theorem NewTable.entries_link (he : Entries P R s') (hP : P (parentEntry c flags)) :
    Entries P R (s'.link q i c flags) := by
  intro r' hr' l' j x hl' hx hp
  by_cases hxq : x = q ∧ j = i
  · obtain ⟨rfl, rfl⟩ := hxq
    rw [State.set_mem, write_self]
    exact hP
  · have hm : (s'.link q i c flags).mem x j = s'.mem x j := write_of_ne s'.mem _ hxq
    rw [hm] at hp ⊢
    rcases h.link_cases hr hl hq flags hr' (userPath_closed l' j hl') hx with ⟨-, -, rfl⟩ | hx
    · rw [h.zero j] at hp
      cases hp
    · exact he r' hr' l' j x hl' hx hp

theorem NewTable.link : Tables K R (s'.link q i c flags) := by
  refine h.tables.of_isTable (h.tables.sep.link userPath_closed hr hl hq
    (h.tableOf_parentEntry flags) h.fresh h.tableOf_zero) h.tables.nonzero rfl rfl
    (h.entries_link hr hl hq flags h.tables.small (isLarge_parentEntry flags h.isFrame)) ?_
  rintro x ⟨r', hr', l', hl', hx⟩
  rcases h.link_cases hr hl hq flags hr' hl' hx with ⟨-, -, rfl⟩ | hx
  · exact .inr ⟨h.apart, h.unused⟩
  · exact .inl ⟨r', hr', l', hl', hx⟩

theorem NewTable.tableAt_link :
    tableAt (s'.link q i c flags) r (l ++ [i]) = some c := by
  have := @node_link _ _ _ tableOf _ _ UserPath R s'.mem r c q l i _ h.tables.sep userPath_closed hr
    hl hq (h.tableOf_parentEntry flags) h.fresh h.tableOf_zero []
  unfold tableAt
  simpa using this

theorem NewTable.frame_link (hi : l = [] → i < 256) :
    Frame K R r s (s'.link q i c flags) :=
  h.frame.trans (h.tables.frame_set hr hl hq hi)

theorem NewTable.absMap_link (hlen : l.length < 3) (hp : isPresent (s.mem q i) = false)
    (hr' : r' ∈ R) (n : ℕ) : absMap (s'.link q i c flags) r' n = absMap s r' n := by
  unfold absMap
  by_cases hn : n < userPages
  · have hmem : ∀ x, tableAt s r' (path n) = some x →
        (s'.link q i c flags).mem x = s.mem x := by
      intro x hx
      have hxq : x ≠ q := by
        rintro rfl
        have hx' := (h.paths r' hr' _ (userPath_path hn)).trans hx
        obtain ⟨-, rfl⟩ := h.tables.sep r' hr' r hr _ _ (userPath_path hn) hl x hx' hq
        exact absurd hlen (by simp [path])
      rw [State.set_mem, write_of_ne_node s'.mem i _ hxq, h.mem_eq hr' (userPath_path hn) hx]
    by_cases hthrough : r' = r ∧ l ++ [i] <+: path n
    · obtain ⟨rfl, t, ht⟩ := hthrough
      -- before there was nothing behind the entry, now there is an empty table
      have hold : tableAt s r' (path n) = none := by
        have hnone : tableAt s r' (l ++ [i]) = none := by
          rw [h.paths r' hr l hl] at hq
          unfold tableAt at *
          rw [node_concat, hq, Option.bind_some, tableOf, hp]
          rfl
        unfold tableAt at *
        rw [← ht, node_append, hnone]
        rfl
      have hnew : tableAt (s'.link q i c flags) r' (path n) =
          if t = [] then some c else none := by
        rw [← ht]
        exact node_link h.tables.sep userPath_closed hr hl hq (h.tableOf_parentEntry flags) h.fresh
          h.tableOf_zero t
      rw [hold, hnew]
      split_ifs
      · have hcq : c ≠ q := by
          rintro rfl
          exact h.fresh ⟨r', hr, l, hl, hq⟩
        have hz : (s'.link q i c flags).mem c (slot n) = 0 := by
          rw [State.set_mem, write_of_ne_node s'.mem i _ hcq, h.zero]
        rw [Option.bind_some, hz]
        rfl
      · rfl
    · have hsame : tableAt (s'.link q i c flags) r' (path n) = tableAt s r' (path n) :=
        (node_write h.tables.sep userPath_closed hr hl hq hr' (userPath_path hn) hthrough).trans
        (h.paths r' hr' _ (userPath_path hn))
      rw [hsame]
      cases hx : tableAt s r' (path n) with
      | none => rfl
      | some x => rw [Option.bind_some, Option.bind_some, hmem x hx]
  · rw [if_neg hn, if_neg hn]

end

/-! ### The calls -/

structure Grown (K R : Set ℕ) (r : ℕ) (s s' : State) : Prop where
  tables : Tables K R s'
  frame : Frame K R r s s'
  maps : ∀ r' ∈ R, ∀ n, absMap s' r' n = absMap s r' n

theorem Grown.trans (h1 : Grown K R r s1 s2) (h2 : Grown K R r s2 s3) : Grown K R r s1 s3 :=
  ⟨h2.tables, h1.frame.trans h2.frame, fun r' hr' n => (h2.maps r' hr' n).trans (h1.maps r' hr' n)⟩

theorem Grown.refl (h : Tables K R s) : Grown K R r s s :=
  ⟨h, Frame.refl K R r s, fun _ _ _ => rfl⟩

theorem Grown.of_mem_eq (h : Tables K R s') (hb : s'.kernelPml4 = s.kernelPml4)
    (hm : s'.mem = s.mem) : Grown K R r s s' := by
  refine ⟨h, Frame.of_mem_eq hb hm, fun r' _ n => ?_⟩
  unfold absMap tableAt
  rw [hm]

def Supply (k : ℕ) (s : State) : Prop := ∃ as bs, s.answers = as ++ bs ∧ as.length = k ∧ 0 ∉ as

theorem Supply.of_succ (h : Supply (k + 1) s) : Supply k s := by
  obtain ⟨as, bs, he, hlen, hz⟩ := h
  obtain ⟨as, a, rfl⟩ : ∃ as' a, as = as' ++ [a] :=
    ⟨_, _, (dropLast_append_getLast (ne_nil_of_length_eq_add_one hlen)).symm⟩
  refine ⟨as, a :: bs, by simp [he], by simpa using hlen, fun hm => hz (by simp [hm])⟩

theorem Supply.head (h : Supply (k + 1) s) :
    ∃ a as, s.answers = a :: as ∧ a ≠ 0 ∧ Supply k { s with answers := as } := by
  obtain ⟨as, bs, he, hlen, hz⟩ := h
  cases as with
  | nil => simp at hlen
  | cons a as =>
    rw [mem_cons, not_or] at hz
    exact ⟨a, as ++ bs, he, Ne.symm hz.1, as, bs, rfl, by simpa using hlen, hz.2⟩

section

variable (h : Tables K R s) (hr : r ∈ R)
include h hr

theorem getOrAllocTable_spec (hl : UserPath (l ++ [i]))
    (hq : tableAt s r l = some q) (flags : ℕ) :
    ∃ o s', getOrAllocTable s q i flags = (o, s') ∧ Grown K R r s s' ∧
      (∀ t, o = some t → tableAt s' r (l ++ [i]) = some t) ∧
      ∀ k, Supply (k + 1) s → o.isSome ∧ Supply k s' := by
  unfold getOrAllocTable
  have hi : l = [] → i < 256 := by
    rintro rfl
    exact hl.2 i rfl
  cases hp : isPresent (s.mem q i) with
  | true =>
    refine ⟨_, s, rfl, Grown.refl h, fun t ht => ?_, fun k hk => ⟨rfl, hk.of_succ⟩⟩
    rw [h.tableAt_concat hr hl hq, hp]
    exact ht
  | false =>
    rcases allocTable_spec h with ⟨s', ha, ht, hm, hb, hno⟩ | ⟨c, s', ha, hnew⟩
    · rw [ha]
      refine ⟨none, s', rfl, Grown.of_mem_eq ht hb hm, by simp, fun k hk => ?_⟩
      obtain ⟨a, as, he, hne, -⟩ := hk.head
      rcases hno with hno | ⟨as', hno⟩
      · rw [hno] at he
        simp at he
      · rw [hno, List.cons.injEq] at he
        exact absurd he.1.symm hne
    · have hl1 := userPath_closed l i hl
      have hq1 := (hnew.paths r hr l hl1).trans hq
      have hlen : l.length < 3 := by simpa using hl.1
      rw [ha]
      dsimp only
      rw [if_neg hnew.nonzero]
      refine ⟨_, _, rfl, ⟨hnew.link hr hl1 hq1 flags, hnew.frame_link hr hl1 hq1 flags hi,
        fun r' hr' n => hnew.absMap_link hr hl1 hq1 flags hlen hp hr' n⟩,
        fun t ht => ?_, fun k hk => ?_⟩
      · rw [State.set_mem, write_self, frameOf_parentEntry flags hnew.isFrame] at ht
        rw [hnew.tableAt_link hr hl1 hq1 flags]
        exact ht
      · obtain ⟨a, as, he, -, hs⟩ := hk.head
        rw [hnew.answers, List.cons.injEq] at he
        refine ⟨rfl, ?_⟩
        obtain ⟨as', bs, he', hrest⟩ := hs
        exact ⟨as', bs, he.2.trans he', hrest⟩

theorem mapUser_cases {J : State → Prop} {virt : ℕ}
    (hv : virt < userVaTop) (phys flags : ℕ) (hJ : J s)
    (hkeep : ∀ s l i q, Tables K R s → UserPath (l ++ [i]) → tableAt s r l = some q → J s →
      J (getOrAllocTable s q i flags).2) :
    ∃ s', Grown K R r s s' ∧ J s' ∧ (vmmMapUser s r virt phys flags = (false, s') ∧ ¬ Supply 3 s ∨
        ∃ pt, tableAt s' r (path (virt / 4096)) = some pt ∧ vmmMapUser s r virt phys flags =
          (true, s'.set pt (slot (virt / 4096)) (leafEntry phys flags))) := by
  obtain ⟨hp1, hp2, hp3⟩ := userPath_walk hv
  rw [vmmMapUser, if_neg (not_le.mpr hv), (path_eq virt).1, (path_eq virt).2]
  obtain ⟨o1, s1, he1, hg1, ht1, hs1⟩ := getOrAllocTable_spec h hr hp1 rfl flags
  have hJ1 := hkeep s _ _ _ h hp1 rfl hJ
  rw [he1] at hJ1 ⊢
  cases o1 with
  | none => exact ⟨s1, hg1, hJ1, .inl ⟨rfl, fun hsup => absurd (hs1 2 hsup).1 (by simp)⟩⟩
  | some pdpt =>
    obtain ⟨o2, s2, he2, hg2, ht2, hs2⟩ :=
      getOrAllocTable_spec hg1.tables hr hp2 (ht1 pdpt rfl) flags
    have hJ2 := hkeep s1 _ _ _ hg1.tables hp2 (ht1 pdpt rfl) hJ1
    dsimp only
    rw [he2] at hJ2 ⊢
    cases o2 with
    | none => exact ⟨s2, hg1.trans hg2, hJ2, .inl ⟨rfl, fun hsup =>
        absurd (hs2 1 (hs1 2 hsup).2).1 (by simp)⟩⟩
    | some pd =>
      obtain ⟨o3, s3, he3, hg3, ht3, hs3⟩ :=
        getOrAllocTable_spec hg2.tables hr hp3 (ht2 pd rfl) flags
      have hJ3 := hkeep s2 _ _ _ hg2.tables hp3 (ht2 pd rfl) hJ2
      dsimp only
      rw [he3] at hJ3 ⊢
      refine ⟨s3, (hg1.trans hg2).trans hg3, hJ3, ?_⟩
      cases o3 with
      | none => exact .inl ⟨rfl, fun hsup => absurd (hs3 0 (hs2 1 (hs1 2 hsup).2).2).1 (by simp)⟩
      | some pt => exact .inr ⟨pt, ht3 pt rfl, rfl⟩

/-- **`vmm_map_user`** sets exactly the one key, or no key at all when a table is missing. -/
theorem mapUser_spec (virt phys flags : ℕ) :
    ∃ ok s', vmmMapUser s r virt phys flags = (ok, s') ∧ Tables K R s' ∧ Frame K R r s s' ∧
      (∀ r' ∈ R, ∀ n, absMap s' r' n = if ok = true ∧ r' = r ∧ n = virt / 4096
        then some (frameOf phys, (flags &&& pteFlagMask) ||| flagPresent) else absMap s r' n) ∧
      (ok = true → virt < userVaTop) ∧ (virt < userVaTop → Supply 3 s → ok = true) := by
  by_cases hv : userVaTop ≤ virt
  · rw [vmmMapUser, if_pos hv]
    exact ⟨false, s, rfl, h, Frame.refl K R r s, by simp, by simp, fun hlt => by omega⟩
  rw [not_le] at hv
  have hn := div_lt_userPages.mpr hv
  obtain ⟨s', hg, -, ⟨he, hno⟩ | ⟨pt, hpt, he⟩⟩ :=
    mapUser_cases (J := fun _ => True) h hr hv phys flags trivial fun _ _ _ _ _ _ _ _ => trivial
  · exact ⟨false, s', he, hg.tables, hg.frame, by simpa using hg.maps, by simp, fun _ hsup =>
      absurd hsup hno⟩
  · refine ⟨true, _, he, hg.tables.setLeaf hr (userPath_path hn) rfl hpt,
      hg.frame.trans (hg.tables.frame_setLeaf hr hn hpt), fun r' hr' n => ?_, fun _ => hv,
      fun _ _ => rfl⟩
    rw [hg.tables.absMap_setLeaf hr hn hpt hr', decode_leafEntry, hg.maps r' hr']
    simp

def State.rewrite (s : State) (g : ℕ → ℕ) : Option (ℕ × ℕ) → State
  | none => s
  | some (t, i) => s.set t i (g (s.mem t i))

theorem Tables.rewrite_spec (virt : ℕ) {g : ℕ → ℕ}
    {f : ℕ × ℕ → Option (ℕ × ℕ)} (hg : ∀ e, decode (g e) = f (frameOf e, e &&& pteFlagMask)) :
    Tables K R (s.rewrite g (vmmLookupUserPte s r virt)) ∧
      Frame K R r s (s.rewrite g (vmmLookupUserPte s r virt)) ∧
      ∀ r' ∈ R, ∀ n, absMap (s.rewrite g (vmmLookupUserPte s r virt)) r' n =
        if r' = r ∧ n = virt / 4096 then (absMap s r n).bind f else absMap s r' n := by
  have hfound := h.found hr virt
  generalize vmmLookupUserPte s r virt = o at hfound
  cases hfound with
  | none habs =>
    refine ⟨h, Frame.refl K R r s, fun r' _ n => ?_⟩
    split_ifs with heq
    · rw [State.rewrite, heq.1, heq.2, habs]
      rfl
    · rfl
  | some hv htab he _ habs =>
    have hn := div_lt_userPages.mpr hv
    refine ⟨h.setLeaf hr (userPath_path hn) rfl htab, h.frame_setLeaf hr hn htab,
      fun r' hr' n => ?_⟩
    rw [State.rewrite, h.absMap_setLeaf hr hn htab hr', hg, he]
    split_ifs with heq
    · rw [heq.2, habs, Option.bind_some]
    · rfl

theorem Tables.unmapUser_eq (virt : ℕ) :
    vmmUnmapUser s r virt = s.rewrite (fun _ => 0) (vmmLookupUserPte s r virt) := by
  rw [vmmUnmapUser, h.lookup_spec hr, if_neg (h.nonzero r hr)]
  by_cases hv : virt < userVaTop
  · rw [if_neg (not_le.mpr hv), if_pos hv, (path_eq virt).2]
    have hw := h.walk hr hv
    generalize tableAt s r (path (virt / 4096)) = t at hw ⊢
    cases hw with
    | pt he hd hl hc hl' =>
      unfold pde pdpte pml4e at *
      simp only [he, hd, hc, hl', Option.bind_some]
      cases isPresent _ <;> rfl
    | _ => simp_all [pml4e, pdpte, pde, State.rewrite]
  · rw [if_pos (not_lt.mp hv), if_neg hv]
    rfl

end

theorem protectUser_eq (s : State) (r virt flags : ℕ) : vmmProtectUser s r virt flags =
    ((vmmLookupUserPte s r virt).isSome,
      s.rewrite (protectEntry · flags) (vmmLookupUserPte s r virt)) := by
  unfold vmmProtectUser
  cases vmmLookupUserPte s r virt <;> rfl

theorem unmapUser_spec (h : Tables K R s) (hr : r ∈ R) (virt : ℕ) :
    Tables K R (vmmUnmapUser s r virt) ∧ Frame K R r s (vmmUnmapUser s r virt) ∧
      ∀ r' ∈ R, ∀ n, absMap (vmmUnmapUser s r virt) r' n =
        if r' = r ∧ n = virt / 4096 then none else absMap s r' n := by
  rw [h.unmapUser_eq hr]
  simpa using h.rewrite_spec hr virt (g := fun _ => 0) (f := fun _ => none) fun _ => decode_zero

theorem protectUser_spec (h : Tables K R s) (hr : r ∈ R) (virt flags : ℕ) :
    ∃ ok s', vmmProtectUser s r virt flags = (ok, s') ∧ Tables K R s' ∧ Frame K R r s s' ∧
      ok = (absMap s r (virt / 4096)).isSome ∧
      ∀ r' ∈ R, ∀ n, absMap s' r' n = if r' = r ∧ n = virt / 4096
        then (absMap s r n).map fun x => (x.1, protectEntry x.2 flags) else absMap s r' n := by
  obtain ⟨ht, hf, hmap⟩ := h.rewrite_spec hr virt
    (f := fun x => some (x.1, protectEntry x.2 flags)) (decode_protectEntry · flags)
  refine ⟨_, _, protectUser_eq s r virt flags, ht, hf, ?_, fun r' hr' n => ?_⟩
  · have hfound := h.found hr virt
    generalize vmmLookupUserPte s r virt = o at hfound
    cases hfound with
    | none habs => simp [habs]
    | some _ _ _ _ habs => simp [habs]
  · rw [hmap r' hr' n, Option.map_eq_bind]
    rfl

/-! ### A new address space -/

theorem copyEntries_eq (c : ℕ) (is : List ℕ) (s : State) (hne : s.kernelPml4 ≠ c) :
    ∃ f, is.foldl (fun s i => s.set c i (s.mem s.kernelPml4 i)) s =
        { s with mem := update s.mem c f } ∧
      ∀ j, f j = if j ∈ is then s.mem s.kernelPml4 j else s.mem c j := by
  induction is generalizing s with
  | nil => exact ⟨s.mem c, by rw [update_eq_self]; rfl, fun j => by simp⟩
  | cons i is ih =>
    obtain ⟨f, he, hf⟩ := ih (s.set c i (s.mem s.kernelPml4 i)) hne
    have hk : (s.set c i (s.mem s.kernelPml4 i)).mem s.kernelPml4 = s.mem s.kernelPml4 :=
      write_of_ne_node s.mem i _ hne
    refine ⟨f, he.trans ?_, fun j => ?_⟩
    · rw [State.set_mem, write, update_idem]
      rfl
    · rw [hf j]
      show (if j ∈ is then (s.set c i (s.mem s.kernelPml4 i)).mem s.kernelPml4 j
        else write s.mem c i (s.mem s.kernelPml4 i) c j) = _
      rw [hk]
      by_cases hji : j = i
      · subst hji
        simp
      · rw [write_of_ne s.mem _ (fun hc => hji hc.2)]
        simp [hji]

/-- A page apart from the trees whose lower half is empty becomes the root of a new tree. -/
theorem Tables.root (h : Tables K R s) (hT : ¬ IsTable R s c) (hz : c ≠ 0) (hK : c ∉ K)
    (ha : c ∉ s.answers) (hlow : ∀ j, UserPath [j] → s.mem c j = 0) : Tables K (insert c R) s := by
  have hzero : ∀ j, UserPath [j] → tableOf (s.mem c j) = none := fun j hj =>
    congrArg tableOf (hlow j hj)
  refine h.of_isTable (h.sep.root hT hzero userPath_closed) ?_ rfl rfl ?_ ?_
  · rintro r (rfl | hr)
    · exact hz
    · exact h.nonzero r hr
  · rintro r (rfl | hr) l i q hl hq hp
    · obtain ⟨rfl, rfl⟩ := node_root hzero userPath_closed (userPath_closed l i hl) hq
      rw [hlow i hl] at hp
      cases hp
    · exact h.small r hr l i q hl hq hp
  · rintro x ⟨r, rfl | hr, l, hl, hq⟩
    · rw [(node_root hzero userPath_closed hl hq).2]
      exact .inr ⟨hK, ha⟩
    · exact .inl ⟨r, hr, l, hl, hq⟩

/-- **`vmm_create_address_space`** fails and changes nothing, or adds an empty address space that
shares the upper half of the kernel's. -/
theorem createAddressSpace_spec (h : Tables K R s) :
    (∃ s', vmmCreateAddressSpace s = (0, s') ∧ Tables K R s' ∧ s'.mem = s.mem ∧
      s'.kernelPml4 = s.kernelPml4) ∨
    ∃ c s', vmmCreateAddressSpace s = (c, s') ∧ c ≠ 0 ∧ c ∉ R ∧ Tables K (insert c R) s' ∧
      Frame K R c s s' ∧ (∀ r ∈ R, ∀ n, absMap s' r n = absMap s r n) ∧
      (∀ n, absMap s' c n = none) ∧ (∀ j < 256, s'.mem c j = 0) ∧
      ∀ j, 256 ≤ j → j < 512 → s'.mem c j = s.mem s.kernelPml4 j := by
  unfold vmmCreateAddressSpace
  rcases allocTable_spec h with ⟨s', ha, ht, hm, hb, -⟩ | ⟨c, s', ha, hnew⟩
  · rw [ha]
    exact .inl ⟨s', rfl, ht, hm, hb⟩
  rw [ha]
  dsimp only
  rw [if_neg hnew.nonzero]
  have hkc : s'.kernelPml4 ≠ c := by
    intro hc
    exact hnew.apart (hc ▸ hnew.tables.kernel)
  obtain ⟨f, he, hf⟩ := copyEntries_eq c (List.range' 256 256) s' hkc
  rw [he]
  have hlow : ∀ j < 256, update s'.mem c f c j = 0 := by
    intro j hj
    rw [update_self, hf j, if_neg (by simp only [mem_range'_1]; omega), hnew.zero j]
  have hcR : c ∉ R := fun hc => hnew.fresh ⟨c, hc, [], userPath_nil, rfl⟩
  have hframe : Frame K R c s { s' with mem := update s'.mem c f } :=
    hnew.frame.trans (.aside hnew.fresh f hnew.apart)
  refine .inr ⟨c, _, rfl, hnew.nonzero, hcR, ?_, hframe, fun r hr =>
    hframe.absMap hr (ne_of_mem_of_not_mem hr hcR), fun n => ?_, hlow, fun j h1 h2 => ?_⟩
  · exact (hnew.tables.aside hnew.fresh f).root
      (fun hx => hnew.fresh ((isNode_update userPath_closed hnew.fresh f).mp hx)) hnew.nonzero
      hnew.apart hnew.unused fun j hj => hlow j (hj.2 j rfl)
  · unfold absMap
    split_ifs with hn
    · cases hq : tableAt { s' with mem := update s'.mem c f } c (path n) with
      | none => rfl
      | some q =>
        have := (node_root (fun j hj => congrArg tableOf (hlow j (hj.2 j rfl))) userPath_closed
          (userPath_path hn) hq).1
        simp [path] at this
    · rfl
  · show update s'.mem c f c j = _
    rw [update_self, hf j, if_pos (by simp only [mem_range'_1]; omega), hnew.base,
      hnew.same _ (hnew.base ▸ hkc)]

end TaterTOS.Vmm
