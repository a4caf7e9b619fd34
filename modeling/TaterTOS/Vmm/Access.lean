import TaterTOS.Vmm.Runs

/-!
# Effective access to a user page

The processor grants an access to a page only if the entries on all four levels allow it. The
tables are made once, with the permissions of the first mapping under them, and shared by the later
ones.

* `Entries P R s`: all entries for tables below the roots `R` satisfy `P`;
* `Entries.step`: a call keeps this, if the entries of the tables it makes satisfy `P`;
* `grants_map`: as long as tables are made for user mappings only, a page has the access that its
  mapping asked for.
-/

namespace TaterTOS.Vmm

open Lib Radix List

variable {flags : ℕ} {P : ℕ → Prop}

/-! ### Entries for tables -/

section

variable {P : ℕ → Prop} {K R : Set ℕ} {s s' : State} {r q i c e : ℕ} {l : List ℕ}

theorem Entries.getOrAllocTable (h : Entries P R s) (ht : Tables K R s) (hr : r ∈ R)
    (hl : UserPath (l ++ [i])) (hq : tableAt s r l = some q)
    (hP : ∀ c, IsFrame c → c ≠ 0 → P (parentEntry c flags)) :
    Entries P R (getOrAllocTable s q i flags).2 := by
  unfold Vmm.getOrAllocTable
  cases hp : isPresent (s.mem q i) with
  | true => exact h
  | false =>
    rcases allocTable_spec ht with ⟨s', ha, -, hm, -⟩ | ⟨c, s', ha, hnew⟩
    · rw [ha]
      exact h.of_mem_eq hm
    · have hl1 := userPath_closed l i hl
      rw [ha]
      dsimp only
      rw [if_neg hnew.nonzero]
      exact hnew.entries_link hr hl1 ((hnew.paths r hr l hl1).trans hq) flags (hnew.entries h)
        (hP c hnew.isFrame hnew.nonzero)

theorem mapUser_of_tableAt (ht : Tables K R s) (hr : r ∈ R) {virt pt : ℕ} (hv : virt < userVaTop)
    (hpt : tableAt s r (path (virt / 4096)) = some pt) (phys flags : ℕ) :
    vmmMapUser s r virt phys flags = (true, s.set pt (ptIndex virt) (leafEntry phys flags)) := by
  have hw := ht.walk hr hv
  rw [hpt] at hw
  cases hw with
  | pt he hd hl hc hl' =>
    unfold pde pdpte pml4e at *
    simp [vmmMapUser, Nat.not_le.mpr hv, Vmm.getOrAllocTable, he, hd, hc]

section

variable (h : Entries P R s) (ht : Tables K R s) (hr : r ∈ R)
include h ht hr

theorem Entries.mapUser (virt phys : ℕ) (hP : (∀ c, IsFrame c → c ≠ 0 → P (parentEntry c flags)) ∨
      (tableAt s r (path (virt / 4096))).isSome = true) :
    Entries P R (vmmMapUser s r virt phys flags).2 := by
  by_cases hv : userVaTop ≤ virt
  · rw [vmmMapUser, if_pos hv]
    exact h
  rw [not_le] at hv
  have hp3 := userPath_path (div_lt_userPages.mpr hv)
  rcases hP with hP | hP
  · obtain ⟨s', hg, h', ⟨he, -⟩ | ⟨pt, hpt, he⟩⟩ := mapUser_cases ht hr hv phys flags h
      fun s l i q ht hl hq h => h.getOrAllocTable ht hr hl hq hP
    · rw [he]
      exact h'
    · rw [he]
      exact Entries.setLeaf hg.tables.sep hr hp3 rfl hpt h'
  · obtain ⟨pt, hpt⟩ := Option.isSome_iff_exists.mp hP
    rw [mapUser_of_tableAt ht hr hv hpt]
    exact Entries.setLeaf ht.sep hr hp3 rfl hpt h

theorem Entries.rewrite (virt : ℕ)
    (g : ℕ → ℕ) : Entries P R (s.rewrite g (vmmLookupUserPte s r virt)) := by
  have hfound := ht.found hr virt
  generalize vmmLookupUserPte s r virt = o at hfound
  cases hfound with
  | none => exact h
  | some hv htab =>
    exact Entries.setLeaf ht.sep hr (userPath_path (div_lt_userPages.mpr hv)) rfl htab h

theorem Entries.unmapUser (virt : ℕ) :
    Entries P R (vmmUnmapUser s r virt) := by
  rw [ht.unmapUser_eq hr]
  exact h.rewrite ht hr virt _

theorem Entries.protectUser
    (virt flags : ℕ) : Entries P R (vmmProtectUser s r virt flags).2 := by
  rw [protectUser_eq]
  exact h.rewrite ht hr virt _

end

theorem Entries.createAddressSpace (h : Entries P R s) (ht : Tables K R s) :
    (vmmCreateAddressSpace s).1 = 0 ∧ Entries P R (vmmCreateAddressSpace s).2 ∨
      (vmmCreateAddressSpace s).1 ≠ 0 ∧
        Entries P (insert (vmmCreateAddressSpace s).1 R) (vmmCreateAddressSpace s).2 := by
  rcases createAddressSpace_spec ht with ⟨s', he, -, hm, -⟩ | ⟨c, s', he, hc, hcR, -, hf, -, -,
    hlow, -⟩
  · rw [he]
    exact .inl ⟨rfl, h.of_mem_eq hm⟩
  · rw [he]
    refine .inr ⟨hc, fun r hr l i q hl hq hp => ?_⟩
    have hl' := userPath_closed l i hl
    rcases Set.mem_insert_iff.mp hr with rfl | hr
    · have hroot : ∀ j, UserPath [j] → tableOf (s'.mem r j) = none := by
        intro j hj
        rw [hlow j (hj.2 j rfl)]
        rfl
      obtain ⟨rfl, rfl⟩ := node_root hroot userPath_closed hl' hq
      rw [hlow i (hl.2 i rfl)] at hp
      cases hp
    · have hne : r ≠ c := fun hrc => hcR (hrc ▸ hr)
      rw [hf.paths r hr hne l hl'] at hq
      rw [hf.tables r hr hne l hl' q hq] at hp ⊢
      exact h r hr l i q hl hq hp

end

/-! ### Runs -/

def Op.Makes (P : ℕ → Prop) (y : System) : Op → Prop
  | .map n virt _ flags => (∀ c, IsFrame c → c ≠ 0 → P (parentEntry c flags.toNat)) ∨
      ∀ r, y.spaces[n]? = some r → (tableAt y.state r (path (virt.toNat / 4096))).isSome = true
  | _ => True

theorem Entries.step {s0 : State} {y : System} {op : Op}
    (h : Entries P {r | r ∈ y.spaces} y.state) (hr : Refines s0 y) (hop : op.Makes P y) :
    Entries P {r | r ∈ (step y op).spaces} (step y op).state := by
  cases op with
  | create =>
    unfold Vmm.step
    dsimp only
    rcases h.createAddressSpace hr.tables with ⟨hc, h'⟩ | ⟨hc, h'⟩
    · rw [if_pos hc]
      exact h'
    · rw [if_neg hc]
      have hroots : {r | r ∈ y.spaces ++ [(vmmCreateAddressSpace y.state).1]} =
          insert (vmmCreateAddressSpace y.state).1 {r | r ∈ y.spaces} := by
        ext r
        simp [or_comm]
      rw [hroots]
      exact h'
  | map n virt phys flags =>
    simp only [Vmm.step]
    split
    · exact h
    · next r hn =>
      exact h.mapUser hr.tables (mem_of_getElem? hn) _ _ (hop.imp_right fun ht => ht r hn)
  | unmap n virt =>
    simp only [Vmm.step]
    split
    · exact h
    · next r hn => exact h.unmapUser hr.tables (mem_of_getElem? hn) _
  | protect n virt flags =>
    simp only [Vmm.step]
    split
    · exact h
    · next r hn => exact h.protectUser hr.tables (mem_of_getElem? hn) _ _

def AllMake (P : ℕ → Prop) : System → List Op → Prop
  | _, [] => True
  | y, op :: ops => op.Makes P y ∧ AllMake P (step y op) ops

theorem Entries.run {s0 : State} {ops : List Op} : ∀ {y : System},
    Entries P {r | r ∈ y.spaces} y.state → Refines s0 y → AllMake P y ops →
    Entries P {r | r ∈ (run y ops).spaces} (run y ops).state := by
  induction ops with
  | nil => intro y h _ _; exact h
  | cons op ops ih => intro y h hr hops; exact ih (h.step hr hops.1) (hr.step op).refines hops.2

/-! ### Access -/

def pte (s : State) (r virt : ℕ) : ℕ := s.mem (frameOf (pde s r virt)) (ptIndex virt)

def grants (s : State) (r virt bit : ℕ) : Bool :=
  (pml4e s r virt).testBit bit && (pdpte s r virt).testBit bit && (pde s r virt).testBit bit &&
    (pte s r virt).testBit bit

def IsOpen (entry : ℕ) : Prop := entry.testBit 1 = true ∧ entry.testBit 2 = true

theorem isOpen_parentEntry (c : ℕ) (h : flags.testBit 2 = true) : IsOpen (parentEntry c flags) := by
  unfold IsOpen parentEntry
  simp [h, show flagWrite.testBit 1 = true by decide,
    show flagUser.testBit 2 = true by decide]

theorem testBit_of_flags {entry bit : ℕ} (hb : bit = 1 ∨ bit = 2)
    (h : entry &&& pteFlagMask = (flags &&& pteFlagMask) ||| flagPresent) :
    entry.testBit bit = flags.testBit bit := by
  have hmask : pteFlagMask.testBit bit = true ∧ flagPresent.testBit bit = false := by
    rcases hb with rfl | rfl <;> decide
  have hbit := congrArg (Nat.testBit · bit) h
  simpa [hmask] using hbit

section

variable {K R : Set ℕ} {s : State} {r virt pt : ℕ}

theorem grants_eq (h : Entries IsOpen R s) (ht : Tables K R s) (hr : r ∈ R)
    (hv : virt < userVaTop) (hpt : tableAt s r (path (virt / 4096)) = some pt) {bit : ℕ}
    (hb : bit = 1 ∨ bit = 2) : grants s r virt bit = (s.mem pt (ptIndex virt)).testBit bit := by
  obtain ⟨hp1, hp2, hp3⟩ := userPath_walk hv
  have hw := ht.walk hr hv
  rw [hpt] at hw
  cases hw with
  | pt he hd hl hc hl' =>
    have h1 := ht.tableAt_concat hr hp1 rfl
    rw [show isPresent (s.mem r (pml4Index virt)) = true from he] at h1
    have h2 := ht.tableAt_concat hr hp2 h1
    rw [show isPresent (s.mem (frameOf (s.mem r (pml4Index virt))) (pdptIndex virt)) = true
      from hd] at h2
    have ho1 := h r hr [] _ r hp1 rfl he
    have ho2 := h r hr _ _ _ hp2 h1 hd
    have ho3 := h r hr _ _ _ hp3 h2 hc
    have hopen : ∀ {e : ℕ}, IsOpen e → e.testBit bit = true := by
      rintro e ⟨h1, h2⟩
      rcases hb with rfl | rfl
      · exact h1
      · exact h2
    unfold grants pte pde pdpte pml4e
    rw [hopen ho1, hopen ho2, hopen ho3]
    rfl

end

theorem AllMake.of_concat {op : Op} : ∀ {ops : List Op} {y : System},
    AllMake P y (ops ++ [op]) → AllMake P y ops ∧ op.Makes P (run y ops)
  | [], _, h => ⟨trivial, h.1⟩
  | _ :: _, _, h => ⟨⟨h.1, (AllMake.of_concat h.2).1⟩, (AllMake.of_concat h.2).2⟩

/-- **A user mapping grants the access that it asks for**, after calls that make tables for user
mappings only. -/
theorem grants_map {y₀ : System} (h₀ : Initial y₀) {ops : List Op} (n : ℕ)
    (virt phys flags : UInt64)
    (hops : AllMake IsOpen y₀ (ops ++ [.map n virt phys flags])) {r : ℕ}
    (hn : (run y₀ ops).spaces[n]? = some r)
    (hok : succeeds (run y₀ ops) (.map n virt phys flags) = true) :
    let s := (run y₀ (ops ++ [.map n virt phys flags])).state
    grants s r virt.toNat 2 = flags.toNat.testBit 2 ∧
      grants s r virt.toNat 1 = flags.toNat.testBit 1 := by
  obtain ⟨hbefore, hlast⟩ := hops.of_concat
  have hnone : Entries IsOpen {r | r ∈ y₀.spaces} y₀.state := by
    intro r hr
    rw [h₀.spaces] at hr
    exact absurd hr not_mem_nil
  have href := h₀.refines.run ops
  have hentries := (hnone.run h₀.refines hbefore).step href hlast
  have htables := (href.step (.map n virt phys flags)).refines.tables
  obtain ⟨ok, s', he, -, -, hmap, hv, -⟩ := mapUser_spec href.tables (mem_of_getElem? hn)
    virt.toNat phys.toNat flags.toNat
  simp only [succeeds, hn, he] at hok
  subst hok
  have hr := mem_of_getElem? hn
  have hstep : step (run y₀ ops) (.map n virt phys flags) = ⟨s', (run y₀ ops).spaces⟩ := by
    simp only [step, hn, he]
  have hrun : run y₀ (ops ++ [.map n virt phys flags]) = ⟨s', (run y₀ ops).spaces⟩ := by
    rw [run, foldl_append]
    exact hstep
  rw [hstep] at hentries htables
  rw [hrun]
  have habs := hmap r hr (virt.toNat / 4096)
  rw [if_pos ⟨rfl, rfl, rfl⟩, absMap_eq, if_pos (hv rfl)] at habs
  obtain ⟨pt, hpt, hdec⟩ := Option.bind_eq_some_iff.mp habs
  rw [(path_eq _).2] at hdec
  unfold decode at hdec
  split_ifs at hdec with hp
  have hflags := (Prod.mk.inj (Option.some.inj hdec)).2
  refine ⟨?_, ?_⟩
  · rw [grants_eq hentries htables hr (hv rfl) hpt (.inr rfl)]
    exact testBit_of_flags (.inr rfl) hflags
  · rw [grants_eq hentries htables hr (hv rfl) hpt (.inl rfl)]
    exact testBit_of_flags (.inl rfl) hflags

theorem grants_map_beside :
    let s := (run fourPages [.create, .map 0 0x400000 0x7000 7, .map 0 0x401000 0x8000 3]).state
    grants s 0x2000 0x401000 2 = false ∧ grants s 0x2000 0x401000 1 = true := by
  have h := @grants_map fourPages fourPages_initial [.create, .map 0 0x400000 0x7000 7] 0 0x401000
    0x8000 3
    ⟨trivial, .inl fun c _ _ => isOpen_parentEntry c (by decide), .inr fun r hr => ?_, trivial⟩
    0x2000 (by decide +kernel) (by decide +kernel)
  · exact h
  · have hr' : r = 0x2000 := by
      have hs : (run fourPages [.create, .map 0 0x400000 0x7000 7]).spaces[0]? = some 0x2000 := by
        decide +kernel
      exact Option.some.inj (hr.symm.trans hs)
    subst hr'
    decide +kernel

/-- The tables made for a page without the flag keep users from the page beside it. -/
theorem user_page_denied : let y := run fourPages [.create, .map 0 0x400000 0x7000 3]
    let s := (step y (.map 0 0x401000 0x8000 7)).state
    succeeds y (.map 0 0x401000 0x8000 7) = true ∧
      grants s 0x2000 0x401000 2 = false ∧ (7 : UInt64).toNat.testBit 2 = true := by
  decide +kernel

end TaterTOS.Vmm
