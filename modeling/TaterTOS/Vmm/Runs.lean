import TaterTOS.Vmm.Calls
import TaterTOS.Vmm.PageMap

/-!
# Runs of the page-table calls
-/

namespace TaterTOS.Vmm

open Lib Radix List

/-! ### The abstract machine -/

abbrev Maps := List PageMap

def System.maps (y : System) : Maps := y.spaces.map (absMap y.state)

def Maps.step (m : Maps) (ok : Bool) : Op → Maps
  | .create => if ok then m ++ [PageMap.empty] else m
  | .map n virt phys flags =>
    if ok then m.modify n fun f => f.map virt.toNat phys.toNat flags.toNat else m
  | .unmap n virt => m.modify n fun f => f.unmap virt.toNat
  | .protect n virt flags => m.modify n fun f => f.protect virt.toNat flags.toNat

def succeeds (y : System) : Op → Bool
  | .create => (vmmCreateAddressSpace y.state).1 != 0
  | .map n virt phys flags => match y.spaces[n]? with
    | none => false
    | some pml4 => (vmmMapUser y.state pml4 virt.toNat phys.toNat flags.toNat).1
  | .unmap _ _ => true
  | .protect n virt flags => match y.spaces[n]? with
    | none => false
    | some pml4 => (vmmProtectUser y.state pml4 virt.toNat flags.toNat).1

def target (y : System) : Op → ℕ
  | .create => 0
  | .map n _ _ _ => (y.spaces[n]?).getD 0
  | .unmap n _ => (y.spaces[n]?).getD 0
  | .protect n _ _ => (y.spaces[n]?).getD 0

/-! ### The kernel's tables -/

def KernelPath (l : List ℕ) : Prop := l.length ≤ 3 ∧ (∀ i ∈ l.head?, 256 ≤ i) ∧ ∀ i ∈ l, i < 512

/-- The kernel's root table and the tables that its entries `256..511` lead to. -/
def kernelTables (s : State) : Set ℕ := {q | ∃ l, KernelPath l ∧ tableAt s s.kernelPml4 l = some q}

/-- Before the first address space: the pages that `alloc_table` will answer with are page frames,
all different and apart from the kernel's tables. -/
structure Initial (y : System) : Prop where
  spaces : y.spaces = []
  fresh : ∀ a ∈ y.state.answers, a ≠ 0 → IsFrame a ∧ a ∉ kernelTables y.state
  distinct : (y.state.answers.filter (· ≠ 0)).Nodup

/-! ### Steps -/

structure Refines (s₀ : State) (y : System) : Prop where
  tables : Tables (kernelTables s₀) {r | r ∈ y.spaces} y.state
  nodup : y.spaces.Nodup
  base : y.state.kernelPml4 = s₀.kernelPml4
  kernel : ∀ q ∈ kernelTables s₀, y.state.mem q = s₀.mem q
  high : ∀ r ∈ y.spaces, ∀ j, 256 ≤ j → j < 512 → y.state.mem r j = s₀.mem s₀.kernelPml4 j

theorem kernelPml4_mem_kernelTables (s : State) : s.kernelPml4 ∈ kernelTables s :=
  ⟨[], ⟨by simp, by simp, by simp⟩, rfl⟩

theorem Initial.refines {y : System} (h : Initial y) : Refines y.state y := by
  have hno : ∀ r, r ∉ {r | r ∈ y.spaces} := by
    intro r hr
    rw [h.spaces] at hr
    exact not_mem_nil hr
  have hnot : ∀ q, ¬ IsTable {r | r ∈ y.spaces} y.state q := fun q ⟨r, hr, _⟩ => hno r hr
  refine ⟨⟨fun r hr => absurd hr (hno r), fun r hr => absurd hr (hno r),
    kernelPml4_mem_kernelTables y.state, fun q hq => absurd hq (hnot q),
    fun r hr => absurd hr (hno r), fun a ha ha0 => ?_, h.distinct⟩, ?_, rfl, fun _ _ => rfl,
    fun r hr => absurd hr (hno r)⟩
  · exact ⟨(h.fresh a ha ha0).1, (h.fresh a ha ha0).2, hnot a⟩
  · rw [h.spaces]
    exact nodup_nil

/-- What a call must leave alone: the kernel's tables, the upper half of every address space, and
all tables of the address spaces it is not about. -/
structure Untouched (s₀ : State) (y : System) (op : Op) (y' : System) : Prop where
  kernel : ∀ q ∈ kernelTables s₀, y'.state.mem q = y.state.mem q
  high : ∀ r ∈ y.spaces, ∀ j, 256 ≤ j → y'.state.mem r j = y.state.mem r j
  paths : ∀ r ∈ y.spaces, r ≠ target y op → ∀ l, UserPath l →
    tableAt y'.state r l = tableAt y.state r l
  tables : ∀ r ∈ y.spaces, r ≠ target y op → ∀ l, UserPath l → ∀ q,
    tableAt y.state r l = some q → y'.state.mem q = y.state.mem q

section

variable {s₀ : State} {y : System} {n r : ℕ} {s' : State}

theorem Untouched.refl (op : Op) : Untouched s₀ y op y :=
  ⟨fun _ _ => rfl, fun _ _ _ _ => rfl, fun _ _ _ _ _ => rfl, fun _ _ _ _ _ _ _ => rfl⟩

theorem Untouched.of_frame {op : Op} {y' : System} (ht : target y op = r)
    (hf : Frame (kernelTables s₀) {r | r ∈ y.spaces} r y.state y'.state) :
    Untouched s₀ y op y' :=
  ⟨hf.kernel, hf.high, fun r' hr' hne => hf.paths r' hr' (ht ▸ hne),
    fun r' hr' hne => hf.tables r' hr' (ht ▸ hne)⟩

theorem maps_modify (h : Refines s₀ y) (hn : y.spaces[n]? = some r)
    (g : PageMap → PageMap) (hg : absMap s' r = g (absMap y.state r))
    (hother : ∀ r' ∈ y.spaces, r' ≠ r → absMap s' r' = absMap y.state r') :
    System.maps ⟨s', y.spaces⟩ = y.maps.modify n g := by
  unfold System.maps
  refine ext_getElem? fun k => ?_
  rw [List.getElem?_modify, List.getElem?_map, List.getElem?_map]
  cases hk : y.spaces[k]? with
  | none => rfl
  | some r' =>
    simp only [Option.map_some, Option.map_eq_map]
    by_cases hnk : n = k
    · subst hnk
      rw [hn] at hk
      rw [if_pos rfl, ← Option.some.inj hk, hg]
    · rw [if_neg hnk, hother r' (mem_of_getElem? hk)]
      rintro rfl
      obtain ⟨hn1, hn2⟩ := List.getElem?_eq_some_iff.mp hn
      obtain ⟨hk1, hk2⟩ := List.getElem?_eq_some_iff.mp hk
      exact hnk ((h.nodup.getElem_inj_iff).mp (hn2.trans hk2.symm))

theorem Refines.updated (h : Refines s₀ y)
    (ht : Tables (kernelTables s₀) {r | r ∈ y.spaces} s')
    (hf : Frame (kernelTables s₀) {r | r ∈ y.spaces} r y.state s') : Refines s₀ ⟨s', y.spaces⟩ :=
  ⟨ht, h.nodup, hf.base.trans h.base, fun q hq => (hf.kernel q hq).trans (h.kernel q hq),
    fun r' hr' j h1 h2 => (hf.high r' hr' j h1).trans (h.high r' hr' j h1 h2)⟩

structure Simulates (s₀ : State) (y : System) (op : Op) (y' : System) : Prop where
  refines : Refines s₀ y'
  maps : y'.maps = y.maps.step (succeeds y op) op
  untouched : Untouched s₀ y op y'

theorem modify_none (hn : y.spaces[n]? = none) (g : PageMap → PageMap) :
    y.maps.modify n g = y.maps := by
  have hnone : y.maps[n]? = none := by rw [System.maps, List.getElem?_map, hn, Option.map_none]
  refine ext_getElem? fun k => ?_
  rw [List.getElem?_modify]
  by_cases hk : n = k
  · subst hk
    rw [hnone]
    rfl
  · simp [hk]

section

variable (h : Refines s₀ y)
include h

theorem maps_update (hn : y.spaces[n]? = some r) {p : ℕ}
    (v : PageMap → Option (ℕ × ℕ))
    (hmap : ∀ r' ∈ {r | r ∈ y.spaces}, ∀ k, absMap s' r' k =
      if r' = r ∧ k = p then v (absMap y.state r) else absMap y.state r' k) :
    System.maps ⟨s', y.spaces⟩ = y.maps.modify n fun f => Function.update f p (v f) := by
  apply maps_modify h hn
  · funext k
    rw [hmap r (mem_of_getElem? hn) k, Function.update_apply]
    simp
  · intro r' hr' hne
    funext k
    rw [hmap r' hr' k, if_neg (fun hc => hne hc.1)]

theorem simulates_create : Simulates s₀ y .create (step y .create) := by
  unfold step
  rcases createAddressSpace_spec h.tables with ⟨s', he, ht, hm, hb⟩ |
    ⟨c, s', he, hc0, hcR, ht, hf, hmaps, hnew, -, hcopy⟩
  · have hf : Frame (kernelTables s₀) {r | r ∈ y.spaces} 0 y.state s' := Frame.of_mem_eq hb hm
    rw [he]
    dsimp only
    rw [if_pos rfl]
    refine ⟨h.updated ht hf, ?_, Untouched.of_frame rfl hf⟩
    rw [Maps.step, succeeds, he]
    simp only [bne_self_eq_false, Bool.false_eq_true, if_false]
    unfold System.maps absMap tableAt
    rw [hm]
  · rw [he]
    dsimp only
    rw [if_neg hc0]
    have hroots : {r | r ∈ y.spaces ++ [c]} = insert c {r | r ∈ y.spaces} := by
      ext r
      simp [or_comm]
    have hne : ∀ r ∈ y.spaces, r ≠ c := fun r hr hrc => hcR (hrc ▸ hr)
    refine ⟨⟨hroots ▸ ht, ?_, hf.base.trans h.base, fun q hq =>
      (hf.kernel q hq).trans (h.kernel q hq), fun r hr j h1 h2 => ?_⟩, ?_,
      ⟨hf.kernel, hf.high, fun r hr _ => hf.paths r hr (hne r hr),
        fun r hr _ => hf.tables r hr (hne r hr)⟩⟩
    · rw [nodup_append]
      refine ⟨h.nodup, nodup_singleton c, fun a ha b hb => ?_⟩
      rw [mem_singleton.mp hb]
      exact hne a ha
    · cases mem_append.mp hr with
      | inl hr => exact (hf.high r hr j h1).trans (h.high r hr j h1 h2)
      | inr hr =>
        rw [mem_singleton.mp hr, hcopy j h1 h2, h.base, h.kernel _ (kernelPml4_mem_kernelTables s₀)]
    · rw [Maps.step, succeeds, he]
      simp only [bne_iff_ne, ne_eq, hc0, System.maps, map_append,
        map_cons, map_nil]
      congr 1
      · exact map_congr_left fun r hr => funext (hmaps r hr)
      · rw [show absMap s' c = PageMap.empty from funext hnew]

theorem simulates_map (n : ℕ) (virt phys flags : UInt64) :
    Simulates s₀ y (.map n virt phys flags) (step y (.map n virt phys flags)) := by
  cases hn : y.spaces[n]? with
  | none =>
    simp only [step, hn]
    refine ⟨h, ?_, Untouched.refl _⟩
    rw [Maps.step, succeeds, hn]
    simp
  | some r =>
    obtain ⟨ok, s', he, ht, hf, hmap, -⟩ := mapUser_spec h.tables (mem_of_getElem? hn)
      virt.toNat phys.toNat flags.toNat
    simp only [step, hn, he]
    refine ⟨h.updated ht hf, ?_, Untouched.of_frame (by rw [target, hn]; rfl) hf⟩
    have hok : succeeds y (.map n virt phys flags) = ok := by simp only [succeeds, hn, he]
    rw [Maps.step, hok]
    cases ok with
    | true =>
      exact maps_update h hn (fun _ => _) (by simpa using hmap)
    | false =>
      exact map_congr_left fun r' hr' => funext fun k => by simpa using hmap r' hr' k

theorem simulates_unmap (n : ℕ) (virt : UInt64) :
    Simulates s₀ y (.unmap n virt) (step y (.unmap n virt)) := by
  cases hn : y.spaces[n]? with
  | none =>
    simp only [step, hn]
    refine ⟨h, ?_, Untouched.refl _⟩
    rw [Maps.step, modify_none hn]
  | some r =>
    obtain ⟨ht, hf, hmap⟩ := unmapUser_spec h.tables (mem_of_getElem? hn) virt.toNat
    simp only [step, hn]
    refine ⟨h.updated ht hf, ?_, Untouched.of_frame (by rw [target, hn]; rfl) hf⟩
    exact maps_update h hn (fun _ => none) hmap

theorem simulates_protect (n : ℕ) (virt flags : UInt64) :
    Simulates s₀ y (.protect n virt flags) (step y (.protect n virt flags)) := by
  cases hn : y.spaces[n]? with
  | none =>
    simp only [step, hn]
    refine ⟨h, ?_, Untouched.refl _⟩
    rw [Maps.step, modify_none hn]
  | some r =>
    obtain ⟨ok, s', he, ht, hf, -, hmap⟩ := protectUser_spec h.tables (mem_of_getElem? hn)
      virt.toNat flags.toNat
    simp only [step, hn, he]
    refine ⟨h.updated ht hf, ?_, Untouched.of_frame (by rw [target, hn]; rfl) hf⟩
    apply maps_update h hn fun f =>
      (f (virt.toNat / 4096)).map fun x => (x.1, protectEntry x.2 flags.toNat)
    intro r' hr' k
    rw [hmap r' hr' k]
    split_ifs with hc
    · rw [hc.2]
    · rfl

theorem Refines.step (op : Op) : Simulates s₀ y op (step y op) := by
  cases op with
  | create => exact simulates_create h
  | map n virt phys flags => exact simulates_map h n virt phys flags
  | unmap n virt => exact simulates_unmap h n virt
  | protect n virt flags => exact simulates_protect h n virt flags

theorem Refines.run (ops : List Op) : Refines s₀ (run y ops) := by
  induction ops generalizing y with
  | nil => exact h
  | cons op ops ih => exact ih (h.step op).refines

theorem Refines.reads (hn : y.spaces[n]? = some r) (virt : UInt64) :
    ∃ f : PageMap, y.maps[n]? = some f ∧
      vmmVirtToPhysUser y.state r virt.toNat = f.virtToPhys virt.toNat ∧
      vmmQueryUserFlags y.state r virt.toNat = f.queryFlags virt.toNat := by
  refine ⟨absMap y.state r, ?_, h.tables.virtToPhysUser_eq (mem_of_getElem? hn) _,
    h.tables.queryUserFlags_eq (mem_of_getElem? hn) _⟩
  rw [System.maps, List.getElem?_map, hn, Option.map_some]

end

end

/-! ### The protection flags -/

theorem testBit_protectMask (i : ℕ) : protectMask.testBit i = decide (i = 1 ∨ i = 2 ∨ i = 63) := by
  have h : protectMask = 2 ^ 1 ||| 2 ^ 2 ||| 2 ^ 63 := by decide
  rw [h, Nat.testBit_or, Nat.testBit_or, Nat.testBit_two_pow, Nat.testBit_two_pow,
    Nat.testBit_two_pow]
  simp only [Bool.or_assoc, Bool.decide_or, eq_comm]

theorem testBit_protectEntry {f : ℕ} (flags : ℕ) (hf : f < 2 ^ 64) (hp : f.testBit 0 = true)
    (i : ℕ) : (protectEntry f flags).testBit i =
      if i = 1 ∨ i = 2 ∨ i = 63 then flags.testBit i else f.testBit i := by
  have hpresent : flagPresent.testBit i = decide (i = 0) := by
    rw [show flagPresent = 2 ^ 0 from rfl, Nat.testBit_two_pow]
    simp only [eq_comm]
  rw [protectEntry, Nat.testBit_or, Nat.testBit_or, Nat.testBit_and, Nat.testBit_and,
    testBit_not64 _ _ (by decide), testBit_protectMask, hpresent]
  by_cases hi : i = 1 ∨ i = 2 ∨ i = 63
  · have h0 : i ≠ 0 := by omega
    simp [hi, h0]
  · by_cases h0 : i = 0
    · subst h0
      simp [hp]
    · by_cases h64 : i < 64
      · simp [hi, h0, h64]
      · have hlt : f < 2 ^ i := lt_of_lt_of_le hf (Nat.pow_le_pow_right (by norm_num) (by omega))
        simp [hi, h0, Nat.testBit_lt_two_pow hlt]

theorem absMap_flags {s : State} {r n p f : ℕ} (h : absMap s r n = some (p, f)) :
    f < 2 ^ 64 ∧ f.testBit 0 = true := by
  have hdecode : ∃ e, decode e = some (p, f) := by
    unfold absMap at h
    split_ifs at h
    obtain ⟨q, -, hq⟩ := Option.bind_eq_some_iff.mp h
    exact ⟨_, hq⟩
  obtain ⟨e, he⟩ := hdecode
  unfold decode at he
  split_ifs at he with hp
  have hf : e &&& pteFlagMask = f := (Prod.mk.inj (Option.some.inj he)).2
  rw [isPresent_eq] at hp
  have hbit : pteFlagMask.testBit 0 = true := by decide
  refine ⟨?_, ?_⟩
  · rw [← hf]
    exact lt_of_le_of_lt Nat.and_le_right (by decide)
  · rw [← hf, Nat.testBit_and, hp]
    rfl

/-! ### The refinement -/

/-- The page tables of the system `y` stand for its maps: the readers answer with them, every call
changes them as the abstract machine does, and nothing else changes. -/
structure Refinement (s₀ : State) (y : System) : Prop where
  reads : ∀ (n r : ℕ), y.spaces[n]? = some r → ∀ virt : UInt64, ∃ f : PageMap,
    y.maps[n]? = some f ∧ vmmVirtToPhysUser y.state r virt.toNat = f.virtToPhys virt.toNat ∧
    vmmQueryUserFlags y.state r virt.toNat = f.queryFlags virt.toNat
  steps : ∀ op, (step y op).maps = y.maps.step (succeeds y op) op
  untouched : ∀ op, Untouched s₀ y op (step y op)
  kernel : ∀ q ∈ kernelTables s₀, y.state.mem q = s₀.mem q
  high : ∀ r ∈ y.spaces, ∀ j, 256 ≤ j → j < 512 → y.state.mem r j = s₀.mem s₀.kernelPml4 j
  flags : ∀ f ∈ y.maps, ∀ n x, f n = some x → ∀ flags i, (protectEntry x.2 flags).testBit i =
    if i = 1 ∨ i = 2 ∨ i = 63 then flags.testBit i else x.2.testBit i
  map_fails : ∀ (n : ℕ) (virt phys flags : UInt64), succeeds y (.map n virt phys flags) = true →
    n < y.spaces.length ∧ virt.toNat < userVaTop
  map_succeeds : ∀ (n : ℕ) (virt phys flags : UInt64), n < y.spaces.length →
    virt.toNat < userVaTop → Supply 3 y.state → succeeds y (.map n virt phys flags) = true
  protect_succeeds : ∀ (n : ℕ) (virt flags : UInt64), succeeds y (.protect n virt flags) = true ↔
    ∃ f, y.maps[n]? = some f ∧ (f (virt.toNat / 4096)).isSome = true

section

variable {s₀ : State} {y : System}

theorem succeeds_map_iff (h : Refines s₀ y) (n : ℕ) (virt phys flags : UInt64) :
    (succeeds y (.map n virt phys flags) = true → n < y.spaces.length ∧ virt.toNat < userVaTop) ∧
    (n < y.spaces.length → virt.toNat < userVaTop → Supply 3 y.state →
      succeeds y (.map n virt phys flags) = true) := by
  cases hn : y.spaces[n]? with
  | none =>
    have := List.getElem?_eq_none_iff.mp hn
    simp only [succeeds, hn]
    exact ⟨fun hc => absurd hc (by simp), fun hc => by omega⟩
  | some r =>
    obtain ⟨ok, s', he, -, -, -, hfail, hok⟩ := mapUser_spec h.tables (mem_of_getElem? hn)
      virt.toNat phys.toNat flags.toNat
    have hlt := (List.getElem?_eq_some_iff.mp hn).1
    simp only [succeeds, hn, he]
    exact ⟨fun hc => ⟨hlt, hfail hc⟩, fun _ => hok⟩

theorem succeeds_protect_iff (h : Refines s₀ y) (n : ℕ) (virt flags : UInt64) :
    succeeds y (.protect n virt flags) = true ↔
      ∃ f, y.maps[n]? = some f ∧ (f (virt.toNat / 4096)).isSome = true := by
  cases hn : y.spaces[n]? with
  | none => simp [succeeds, System.maps, hn]
  | some r =>
    obtain ⟨ok, s', he, -, -, hok, -⟩ := protectUser_spec h.tables (mem_of_getElem? hn)
      virt.toNat flags.toNat
    simp [succeeds, System.maps, hn, he, hok]

end

/-- **The user page tables refine finite maps**, in every state that calls on address spaces made
by `vmm_create_address_space` reach. -/
theorem run_refinement {y₀ : System} (h₀ : Initial y₀) (ops : List Op) :
    Refinement y₀.state (run y₀ ops) := by
  have h := h₀.refines.run ops
  refine ⟨fun n r hn virt => h.reads hn virt, fun op => (h.step op).maps,
    fun op => (h.step op).untouched, h.kernel, h.high, fun f hf n x hx flags i => ?_,
    fun n virt phys flags => (succeeds_map_iff h n virt phys flags).1,
    fun n virt phys flags => (succeeds_map_iff h n virt phys flags).2,
    succeeds_protect_iff h⟩
  obtain ⟨r, -, rfl⟩ := mem_map.mp hf
  obtain ⟨hlt, hp⟩ := absMap_flags hx
  exact testBit_protectEntry flags hlt hp i

def emptyKernel (as : List ℕ) : System := ⟨⟨fun _ _ => 0, 0x1000, as⟩, []⟩

theorem emptyKernel_initial {as : List ℕ} (hframe : ∀ a ∈ as, IsFrame a ∧ a ≠ 0x1000)
    (hd : (as.filter (· ≠ 0)).Nodup) : Initial (emptyKernel as) := by
  refine ⟨rfl, fun a ha _ => ⟨(hframe a ha).1, ?_⟩, hd⟩
  rintro ⟨l, -, hl⟩
  have hzero : ∀ j, tableOf ((emptyKernel as).state.mem 0x1000 j) = none := by
    intro j
    show tableOf 0 = none
    decide
  exact (hframe a ha).2 (@node_root _ _ _ tableOf (fun _ => True) _ _ _ _ (fun j _ => hzero j)
    (fun _ _ _ => trivial) trivial hl).2

def fourPages : System := emptyKernel [0x2000, 0x3000, 0x4000, 0x5000]

theorem fourPages_initial : Initial fourPages := emptyKernel_initial (by decide) (by decide)

theorem fourPages_refinement :
    Refinement fourPages.state (run fourPages [.create, .map 0 0x400000 0x7000 7]) ∧
      vmmVirtToPhysUser (run fourPages [.create, .map 0 0x400000 0x7000 7]).state 0x2000 0x400123 =
        0x7123 :=
  ⟨run_refinement fourPages_initial _, by decide +kernel⟩

/-- **No page is two tables.** Different user paths, in any address spaces, lead to different
tables, none of them the kernel's. -/
theorem tables_apart {y₀ : System} (h₀ : Initial y₀) (ops : List Op) {r r' q : ℕ} {l l' : List ℕ}
    (hr : r ∈ (run y₀ ops).spaces) (hr' : r' ∈ (run y₀ ops).spaces) (hl : UserPath l)
    (hl' : UserPath l') (hne : r = r' → l ≠ l') (hq : tableAt (run y₀ ops).state r l = some q) :
    tableAt (run y₀ ops).state r' l' ≠ some q ∧ q ∉ kernelTables y₀.state := by
  have h := (h₀.refines.run ops).tables
  refine ⟨fun hq' => ?_, h.apart q ⟨r, hr, l, hl, hq⟩⟩
  obtain ⟨hrr, hll⟩ := h.sep r hr r' hr' l l' hl hl' q hq hq'
  exact hne hrr hll

def fiveFrames : System := emptyKernel [0x2000, 0x3000, 0x4000, 0x5000, 0x6000]

def twoMaps : List Op := [.create, .map 0 0x400000 0x7000 7, .map 0 0x600000 0x8000 7]

theorem fiveFrames_apart : let s := (run fiveFrames twoMaps).state
    tableAt s 0x2000 [0, 0, 2] = some 0x5000 ∧ tableAt s 0x2000 [0, 0, 3] = some 0x6000 ∧
      tableAt s 0x2000 [0, 0, 3] ≠ some 0x5000 ∧ 0x5000 ∉ kernelTables fiveFrames.state := by
  have hinit : Initial fiveFrames := emptyKernel_initial (by decide) (by decide)
  have htable : tableAt (run fiveFrames twoMaps).state 0x2000 [0, 0, 2] = some 0x5000 := by
    decide +kernel
  have hspace : 0x2000 ∈ (run fiveFrames twoMaps).spaces := by decide +kernel
  exact ⟨htable, by decide +kernel, tables_apart hinit twoMaps hspace hspace ⟨by decide, by simp⟩
    ⟨by decide, by simp⟩ (by decide) htable⟩

end TaterTOS.Vmm
