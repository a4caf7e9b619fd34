import TaterTOS.Vmm.Access

/-!
# Destroying an address space

A model of `vmm_destroy_address_space` and the functions below it. The physical allocator keeps its
bitmap elsewhere, so that the tables can be read while they are freed; what the calls do is the
list of the runs of pages that they hand back, in order.

* `destroy_exact`: the whole teardown, in every state that the calls reach.
-/

namespace TaterTOS.Vmm

open Function Lib Radix List

/-! ### The source -/

def isNofree (entry : ℕ) : Bool := entry &&& flagNofree != 0

abbrev Freed := ℕ × ℕ

def vmmFreeLeafEntry (entry pages : ℕ) : List Freed :=
  if !isPresent entry || isNofree entry then []
  else if frameOf entry = 0 then [] else [(frameOf entry, pages)]

def vmmDestroyPt (s : State) (pt : ℕ) : List Freed :=
  if pt = 0 then []
  else (List.range 512).flatMap (fun i => vmmFreeLeafEntry (s.mem pt i) 1) ++ [(pt, 1)]

def destroyTable (s : State) (pages : ℕ) (destroy : ℕ → List Freed) (table : ℕ) : List Freed :=
  if table = 0 then []
  else (List.range 512).flatMap (fun i =>
    if !isPresent (s.mem table i) then []
    else if isLarge (s.mem table i) then vmmFreeLeafEntry (s.mem table i) pages
    else destroy (frameOf (s.mem table i))) ++ [(table, 1)]

def vmmDestroyPd (s : State) : ℕ → List Freed := destroyTable s 512 (vmmDestroyPt s)

def vmmDestroyPdpt (s : State) : ℕ → List Freed := destroyTable s (512 * 512) (vmmDestroyPd s)

def vmmDestroyAddressSpace (s : State) (pml4 : ℕ) : List Freed :=
  if pml4 = 0 then []
  else (List.range 256).flatMap (fun i =>
    if !isPresent (s.mem pml4 i) then []
    else if isLarge (s.mem pml4 i) then []
    else vmmDestroyPdpt s (frameOf (s.mem pml4 i))) ++ [(pml4, 1)]

/-! ### What an address space owns -/

/-- The address space `r` owns the run `x` at the path `l`: the table there, or the frame of the
page with this path. -/
def At (s : State) (r : ℕ) (l : List ℕ) (x : Freed) : Prop :=
  (∀ i ∈ l, i < 512) ∧ (UserPath l ∧ tableAt s r l = some x.1 ∧ x.2 = 1 ∨
      ∃ l0 i pt, l = l0 ++ [i] ∧ l0.length = 3 ∧ UserPath l0 ∧ tableAt s r l0 = some pt ∧
        x ∈ vmmFreeLeafEntry (s.mem pt i) 1)

/-- The address space `r` has the table `q` at the path `l`. -/
def TableAt (s : State) (r : ℕ) (l : List ℕ) (q : ℕ) : Prop :=
  UserPath l ∧ (∀ i ∈ l, i < 512) ∧ tableAt s r l = some q

section

variable {K R : Set ℕ} {s : State} {r q i : ℕ} {l t : List ℕ}

theorem TableAt.at_iff (h : TableAt s r l q) (x : Freed) : At s r l x ↔ x = (q, 1) := by
  obtain ⟨hl, hi, hq⟩ := h
  constructor
  · rintro ⟨-, ⟨-, ht, hx⟩ | ⟨l0, i, pt, rfl, h3, -⟩⟩
    · rw [hq] at ht
      exact Prod.ext (Option.some.inj ht).symm hx
    · have := hl.1
      simp only [length_append, length_singleton] at this
      omega
  · rintro rfl
    exact ⟨hi, .inl ⟨hl, hq, rfl⟩⟩

theorem At.lt {x : Freed} (h : At s r (l ++ i :: t) x) : i < 512 :=
  h.1 i (by simp)

theorem At.head_lt {x : Freed} (h : At s r (i :: t) x) : i < 256 := by
  rcases h.2 with ⟨hl, -⟩ | ⟨l0, j, pt, he, h3, hl0, -⟩
  · exact hl.2 i rfl
  · cases l0 with
    | nil => simp at h3
    | cons k l0 =>
      rw [cons_append, List.cons.injEq] at he
      exact he.1 ▸ hl0.2 k rfl

theorem not_at_of_none (hlen : l.length ≤ 3) (hq : tableAt s r l = none) (t : List ℕ)
    (x : Freed) : ¬ At s r (l ++ t) x := by
  have hnone : ∀ t, tableAt s r (l ++ t) = none := by
    intro t
    unfold tableAt at hq ⊢
    rw [node_append, hq]
    rfl
  rintro ⟨-, ⟨-, ht, -⟩ | ⟨l0, j, pt, he, h3, -, ht, -⟩⟩
  · rw [hnone] at ht
    cases ht
  · obtain ⟨t', rfl⟩ : l <+: l0 :=
      List.prefix_of_prefix_length_le ⟨t, he⟩ (List.prefix_append l0 [j]) (by omega)
    rw [hnone] at ht
    cases ht

theorem forall_mem_concat_lt (hl : ∀ i ∈ l, i < 512) (hi : i < 512) : ∀ j ∈ l ++ [i], j < 512 := by
  intro j hj
  rcases mem_append.mp hj with hj | hj
  · exact hl j hj
  · exact mem_singleton.mp hj ▸ hi

theorem leaf_lists (hlen : l.length = 3) (h : TableAt s r l q) (hi : i < 512) :
    Lists (At s r) (l ++ [i]) (vmmFreeLeafEntry (s.mem q i) 1) := by
  obtain ⟨hl, hl', hq⟩ := h
  refine ⟨fun x => ⟨fun hx => ⟨[], ?_⟩, ?_⟩, ?_⟩
  · rw [append_nil]
    exact ⟨forall_mem_concat_lt hl' hi, .inr ⟨l, i, q, rfl, hlen, hl, hq, hx⟩⟩
  · rintro ⟨t, -, ⟨ht, -⟩ | ⟨l0, j, pt, he, h3, -, ht, hx⟩⟩
    · have hle := ht.1
      simp only [length_append, length_singleton] at hle
      omega
    · rw [append_assoc] at he
      obtain ⟨rfl, hrest⟩ := append_inj he (hlen.trans h3.symm)
      rw [hq] at ht
      rw [singleton_append, List.cons.injEq] at hrest
      rw [hrest.1, Option.some.inj ht]
      exact hx
  · unfold vmmFreeLeafEntry
    split_ifs <;> simp

def OwnTable (s : State) (r q : ℕ) : Prop :=
  ∃ l, UserPath l ∧ (∀ i ∈ l, i < 512) ∧ tableAt s r l = some q

section

variable (ht : Tables K R s) (hr : r ∈ R) (hu : ∀ l l' x, At s r l x → At s r l' x → l = l')
  {destroy : ℕ → List Freed}

include ht hr in
/-- What the source does with an entry of a table above the last level. -/
theorem entry_lists (h : TableAt s r l q) (hli : UserPath (l ++ [i])) (hi : i < 512)
    {leaf : List Freed}
    (hdestroy : ∀ q, TableAt s r (l ++ [i]) q → Lists (At s r) (l ++ [i]) (destroy q)) :
    Lists (At s r) (l ++ [i]) (if !isPresent (s.mem q i) then []
      else if isLarge (s.mem q i) then leaf else destroy (frameOf (s.mem q i))) := by
  have hnext := ht.tableAt_concat hr hli h.2.2
  cases hp : isPresent (s.mem q i) with
  | false =>
    rw [hp] at hnext
    exact .nil fun t x => not_at_of_none hli.1 hnext t x
  | true =>
    rw [hp, if_pos rfl] at hnext
    simp only [ite_not_true, ht.small r hr l i q hli h.2.2 hp]
    exact hdestroy _ ⟨hli, forall_mem_concat_lt h.2.1 hi, hnext⟩

include ht hr hu in
theorem destroyTable_lists {d : ℕ} (hd : d < 3) (hlen : l.length = d) (hne : l ≠ [])
    (h : TableAt s r l q) (hq0 : q ≠ 0) (pages : ℕ)
    (hdestroy : ∀ l q, l.length = d + 1 → TableAt s r l q → Lists (At s r) l (destroy q)) :
    Lists (At s r) l (destroyTable s pages destroy q) := by
  rw [destroyTable, if_neg hq0]
  refine Lists.node hu h.at_iff (fun i hi => ?_) fun i t x h => h.lt
  have hli : UserPath (l ++ [i]) := by
    refine ⟨by simp; omega, fun j hj => h.1.2 j ?_⟩
    rw [List.head?_append_of_ne_nil _ hne] at hj
    exact hj
  exact entry_lists ht hr h hli hi fun q hq => hdestroy _ q (by simp [hlen]) hq

include ht hr hu in
theorem destroyAddressSpace_lists (hnz : ∀ q, OwnTable s r q → q ≠ 0) :
    Lists (At s r) [] (vmmDestroyAddressSpace s r) := by
  have hpt : ∀ l q, l.length = 2 + 1 → TableAt s r l q → Lists (At s r) l (vmmDestroyPt s q) := by
    intro l q hlen h
    rw [vmmDestroyPt, if_neg (hnz q ⟨l, h⟩)]
    exact Lists.node hu h.at_iff (fun i hi => leaf_lists hlen h hi) fun i t x h => h.lt
  have hpd : ∀ l q, l.length = 1 + 1 → TableAt s r l q → Lists (At s r) l (vmmDestroyPd s q) :=
    fun l q hlen h => destroyTable_lists ht hr hu (by norm_num) hlen
      (ne_nil_of_length_eq_add_one hlen) h (hnz q ⟨l, h⟩) _ hpt
  have hpdpt : ∀ l q, l.length = 0 + 1 → TableAt s r l q → Lists (At s r) l (vmmDestroyPdpt s q) :=
    fun l q hlen h => destroyTable_lists ht hr hu (by norm_num) hlen
      (ne_nil_of_length_eq_add_one hlen) h (hnz q ⟨l, h⟩) _ hpd
  have hroot : TableAt s r [] r := ⟨userPath_nil, by simp, rfl⟩
  rw [vmmDestroyAddressSpace, if_neg (ht.nonzero r hr)]
  refine Lists.node hu hroot.at_iff (fun i hi => ?_) fun i t x h => h.head_lt
  exact entry_lists ht hr hroot ⟨by simp, by simpa using hi⟩ (by omega) fun q => hpdpt _ q rfl

end

end

/-! ### Tables and pages -/

section

variable {s : State} {r : ℕ} {l : List ℕ} {x : Freed}

theorem isNofree_eq (e : ℕ) : isNofree e = e.testBit 9 := by
  rw [isNofree, flagNofree, show 0x200 = 2 ^ 9 from rfl, Nat.and_two_pow]
  cases e.testBit 9 <;> simp

theorem mem_freeLeafEntry {e : ℕ} : x ∈ vmmFreeLeafEntry e 1 ↔
    x.2 = 1 ∧ x.1 ≠ 0 ∧ ∃ f, decode e = some (x.1, f) ∧ f.testBit 9 = false := by
  have hbit : (e &&& pteFlagMask).testBit 9 = isNofree e := by
    have hmask : pteFlagMask.testBit 9 = true := by decide
    rw [Nat.testBit_and, hmask, Bool.and_true, isNofree_eq]
  unfold vmmFreeLeafEntry decode
  cases hp : isPresent e <;> cases hn : isNofree e
  all_goals simp only [Bool.not_false, Bool.not_true, Bool.or_false, Bool.or_true, if_true,
    if_false, not_mem_nil, false_iff, reduceCtorEq, false_and,
    exists_false, and_false]
  · by_cases h0 : frameOf e = 0
    · rw [if_pos h0]
      simp only [not_mem_nil, false_iff, Option.some.injEq, Prod.mk.injEq]
      rintro ⟨-, hx, f, ⟨hf, -⟩, -⟩
      exact hx (hf.symm.trans h0)
    · rw [if_neg h0, mem_singleton]
      constructor
      · rintro rfl
        exact ⟨rfl, h0, _, rfl, hbit.trans hn⟩
      · rintro ⟨h2, -, f, hf, -⟩
        exact Prod.ext (Prod.mk.inj (Option.some.inj hf)).1.symm h2
  · rintro ⟨-, -, f, hf, hf9⟩
    rw [← (Prod.mk.inj (Option.some.inj hf)).2, hbit, hn] at hf9
    cases hf9

theorem exists_page {i : ℕ} (hlen : l.length = 3) (hl : UserPath l) (hl' : ∀ j ∈ l, j < 512)
    (hi : i < 512) : ∃ n < userPages, path n = l ∧ slot n = i := by
  match l, hlen with
  | [a, b, c], _ =>
    have ha : a < 256 := hl.2 a rfl
    have hb := hl' b (by simp)
    have hc := hl' c (by simp)
    refine ⟨((a * 512 + b) * 512 + c) * 512 + i, ?_, ?_, ?_⟩
    · unfold userPages
      omega
    · simp only [path, List.cons.injEq, and_true]
      omega
    · unfold slot
      omega

def OwnFrame (s : State) (r p : ℕ) : Prop :=
  p ≠ 0 ∧ ∃ n f, absMap s r n = some (p, f) ∧ f.testBit 9 = false

theorem At.cases (h : At s r l x) : x.2 = 1 ∧ (TableAt s r l x.1 ∨
      x.1 ≠ 0 ∧ ∃ n f, l = path n ++ [slot n] ∧ absMap s r n = some (x.1, f) ∧
        f.testBit 9 = false) := by
  rcases h with ⟨hl, ⟨hp, ht, hx⟩ | ⟨l0, i, pt, rfl, h3, hp, ht, hx⟩⟩
  · exact ⟨hx, .inl ⟨hp, hl, ht⟩⟩
  · obtain ⟨hx2, hx1, f, hf, hf9⟩ := mem_freeLeafEntry.mp hx
    obtain ⟨n, hn, rfl, rfl⟩ := exists_page h3 hp (fun j hj => hl j (by simp [hj]))
      (hl i (by simp))
    refine ⟨hx2, .inr ⟨hx1, n, f, rfl, ?_, hf9⟩⟩
    rw [absMap, if_pos hn, ht]
    exact hf

theorem At.of_absMap {n f : ℕ} (hx2 : x.2 = 1) (hx1 : x.1 ≠ 0) (h : absMap s r n = some (x.1, f))
    (hf : f.testBit 9 = false) :
    At s r (path n ++ [slot n]) x := by
  unfold absMap at h
  split_ifs at h with hn
  obtain ⟨pt, hpt, hdec⟩ := Option.bind_eq_some_iff.mp h
  refine ⟨fun j hj => ?_, .inr ⟨path n, slot n, pt, rfl, rfl, userPath_path hn, hpt,
    mem_freeLeafEntry.mpr ⟨hx2, hx1, f, hdec, hf⟩⟩⟩
  simp only [path, slot, mem_append, mem_cons, not_mem_nil, or_false] at hj
  omega

theorem exists_at : (∃ l, At s r l x) ↔ x.2 = 1 ∧ (OwnTable s r x.1 ∨ OwnFrame s r x.1) := by
  constructor
  · rintro ⟨l, hl⟩
    obtain ⟨hx, ht | ⟨h0, n, f, -, hn, hf⟩⟩ := hl.cases
    · exact ⟨hx, .inl ⟨l, ht⟩⟩
    · exact ⟨hx, .inr ⟨h0, n, f, hn, hf⟩⟩
  · rintro ⟨hx, ⟨l, hp, hi, ht⟩ | ⟨h0, n, f, hn, hf⟩⟩
    · exact ⟨l, hi, .inl ⟨hp, ht, hx⟩⟩
    · exact ⟨_, At.of_absMap hx h0 hn hf⟩

end

/-! ### Runs -/

def IsNonzero (entry : ℕ) : Prop := frameOf entry ≠ 0

theorem allMake_isNonzero (y : System) (ops : List Op) : AllMake IsNonzero y ops := by
  induction ops generalizing y with
  | nil => trivial
  | cons op ops ih =>
    refine ⟨?_, ih _⟩
    cases op with
    | map n virt phys flags =>
      refine .inl fun c hc h0 => ?_
      rw [IsNonzero, frameOf_parentEntry _ hc]
      exact h0
    | create | unmap | protect => trivial

theorem OwnTable.ne_zero {K R : Set ℕ} {s : State} {r q : ℕ} (h : OwnTable s r q)
    (he : Entries IsNonzero R s) (ht : Tables K R s) (hr : r ∈ R) : q ≠ 0 := by
  obtain ⟨l, hl, -, hq⟩ := h
  rcases eq_nil_or_concat' l with rfl | ⟨l, i, rfl⟩
  · rw [← Option.some.inj hq]
    exact ht.nonzero r hr
  · unfold tableAt at hq
    rw [node_concat] at hq
    obtain ⟨p, hp, hc⟩ := Option.bind_eq_some_iff.mp hq
    unfold tableOf at hc
    split_ifs at hc with hpr
    rw [← Option.some.inj hc]
    exact he r hr l i p hl hp (Bool.and_eq_true_iff.mp hpr).1

section

variable {s0 : State} {y : System} {r q : ℕ} {l t : List ℕ}

theorem KernelPath.of_append (h : KernelPath (l ++ t)) : KernelPath l := by
  refine ⟨by have := h.1; simp at this; omega, fun i hi => h.2.1 i ?_, fun i hi => h.2.2 i ?_⟩
  · cases l with
    | nil => cases hi
    | cons j l => exact hi
  · exact mem_append_left _ hi

theorem Refines.tableAt_kernel (h : Refines s0 y) (hr : r ∈ y.spaces) (hl : KernelPath l)
    (hne : l ≠ []) : tableAt y.state r l = tableAt s0 s0.kernelPml4 l := by
  have hbelow : ∀ t l0 q, KernelPath (l0 ++ t) → tableAt s0 s0.kernelPml4 l0 = some q →
      tableAt y.state q t = tableAt s0 q t := by
    intro t
    induction t with
    | nil => exact fun l0 q _ _ => rfl
    | cons i t ih =>
      intro l0 q hl0 hq
      have hmem := h.kernel q ⟨l0, hl0.of_append, hq⟩
      unfold tableAt at ih hq ⊢
      rw [node, hmem]
      refine Option.bind_congr fun q' hq' => ih (l0 ++ [i]) q' (by simpa using hl0) ?_
      rw [node_concat, hq]
      exact hq'
  cases l with
  | nil => exact absurd rfl hne
  | cons i l =>
    unfold tableAt
    rw [node, h.high r hr i (hl.2.1 i rfl) (hl.2.2 i (by simp))]
    refine Option.bind_congr fun q' hq' => hbelow l [i] q' hl ?_
    unfold tableAt
    rw [node, hq']
    rfl

end

/-- **Destroying an address space frees what it owns**: after any calls, its tables and the frames
of its pages without the flag, each one once, where such a frame belongs to one page only and no
table is mapped. -/
theorem destroy_exact {y₀ : System} (h₀ : Initial y₀) (ops : List Op) {r : ℕ}
    (hr : r ∈ (run y₀ ops).spaces)
    (hsingle : ∀ n n' p f f', absMap (run y₀ ops).state r n = some (p, f) → f.testBit 9 = false →
      absMap (run y₀ ops).state r n' = some (p, f') → n' = n)
    (hdistinct : ∀ n p f, absMap (run y₀ ops).state r n = some (p, f) →
      ¬ OwnTable (run y₀ ops).state r p ∧ p ∉ kernelTables y₀.state) :
    let s := (run y₀ ops).state
    (vmmDestroyAddressSpace s r).Nodup ∧ (∀ x, x ∈ vmmDestroyAddressSpace s r ↔
        x.2 = 1 ∧ (OwnTable s r x.1 ∨ OwnFrame s r x.1)) ∧
      (∀ n p f k, absMap s r n = some (p, f) → f.testBit 9 = true →
        (p, k) ∉ vmmDestroyAddressSpace s r) ∧
      ∀ l q k, KernelPath l → l ≠ [] → tableAt s r l = some q →
        (q, k) ∉ vmmDestroyAddressSpace s r := by
  have href := h₀.refines.run ops
  have hentries : Entries IsNonzero {r | r ∈ (run y₀ ops).spaces} (run y₀ ops).state := by
    refine Entries.run (fun r hr => ?_) h₀.refines (allMake_isNonzero y₀ ops)
    rw [Set.mem_ofPred_eq, h₀.spaces] at hr
    exact absurd hr not_mem_nil
  intro s
  have hu : ∀ l l' x, At s r l x → At s r l' x → l = l' := by
    intro l l' x h h'
    obtain ⟨-, ht | ⟨-, n, f, rfl, hn, hf⟩⟩ := h.cases
    · obtain ⟨-, ht' | ⟨-, n', f', -, hn', -⟩⟩ := h'.cases
      · exact (href.tables.sep r hr r hr l l' ht.1 ht'.1 _ ht.2.2 ht'.2.2).2
      · exact absurd ⟨l, ht⟩ (hdistinct n' _ _ hn').1
    · obtain ⟨-, ht' | ⟨-, n', f', rfl, hn', -⟩⟩ := h'.cases
      · exact absurd ⟨l', ht'⟩ (hdistinct n _ _ hn).1
      · rw [hsingle n n' _ f f' hn hf hn']
  have hlists := destroyAddressSpace_lists href.tables hr hu
    fun q hq => hq.ne_zero hentries href.tables hr
  have hmem : ∀ x, x ∈ vmmDestroyAddressSpace s r ↔
      x.2 = 1 ∧ (OwnTable s r x.1 ∨ OwnFrame s r x.1) := by
    intro x
    rw [hlists.mem x, ← exists_at]
    rfl
  refine ⟨hlists.nodup, hmem, fun n p f k hn hf hfreed => ?_, fun l q k hl hne hq hfreed => ?_⟩
  · rcases ((hmem _).mp hfreed).2 with ht | ⟨-, n', f', hn', hf'⟩
    · exact (hdistinct n p f hn).1 ht
    · obtain rfl := hsingle n' n p f' f hn' hf' hn
      rw [(Prod.mk.inj (Option.some.inj (hn.symm.trans hn'))).2, hf'] at hf
      cases hf
  · have hkernel : q ∈ kernelTables y₀.state :=
      ⟨l, hl, (href.tableAt_kernel hr hl hne).symm.trans hq⟩
    rcases ((hmem _).mp hfreed).2 with ⟨l', hl', -, hq'⟩ | ⟨-, n', f', hn', -⟩
    · exact href.tables.apart q ⟨r, hr, l', hl', hq'⟩ hkernel
    · exact (hdistinct n' _ _ hn').2 hkernel

def fivePages : System := emptyKernel [0x2000, 0x3000, 0x4000, 0x5000, 0x7000]

theorem fivePages_initial : Initial fivePages := emptyKernel_initial (by decide) (by decide)

abbrev onePage : System := run fivePages [.create, .map 0 0x400000 0x7000 7]

theorem onePage_absMap :
    absMap onePage.state 0x2000 = update PageMap.empty 0x400 (some (0x7000, 7)) := by
  have href := fivePages_initial.refines
  have h1 := (href.step .create).maps
  have h2 := ((href.step .create).refines.step (.map 0 0x400000 0x7000 7)).maps
  have hok1 : succeeds fivePages .create = true := by decide +kernel
  have hok2 : succeeds (step fivePages .create) (.map 0 0x400000 0x7000 7) = true := by
    decide +kernel
  rw [h1, hok1, hok2] at h2
  have hspaces : onePage.spaces = [0x2000] := by decide +kernel
  have hmaps : onePage.maps = [PageMap.empty.map 0x400000 0x7000 7] := h2
  rw [System.maps, hspaces] at hmaps
  exact head_eq_of_cons_eq hmaps

theorem destroy_exact_one_page : let s := (run fivePages [.create, .map 0 0x400000 0x7000 7]).state
    (vmmDestroyAddressSpace s 0x2000).Nodup ∧ (0x7000, 1) ∈ vmmDestroyAddressSpace s 0x2000 := by
  have hmap : ∀ n x, absMap onePage.state 0x2000 n = some x → n = 0x400 ∧ x = (0x7000, 7) := by
    intro n x hx
    rw [onePage_absMap, update_apply] at hx
    split_ifs at hx with hn
    · exact ⟨hn, (Option.some.inj hx).symm⟩
    · cases hx
  have href := fivePages_initial.refines.run [.create, .map 0 0x400000 0x7000 7]
  have hfresh := href.tables.fresh 0x7000 (by decide +kernel) (by norm_num)
  have hr : 0x2000 ∈ onePage.spaces := by decide +kernel
  have hdistinct : ∀ n p f, absMap onePage.state 0x2000 n = some (p, f) →
      ¬ OwnTable onePage.state 0x2000 p ∧ p ∉ kernelTables fivePages.state := by
    intro n p f h
    obtain rfl := (Prod.mk.inj (hmap n _ h).2).1
    exact ⟨fun ⟨l, hl, _, hq⟩ => hfresh.2.2 ⟨_, hr, l, hl, hq⟩, hfresh.2.1⟩
  obtain ⟨hnodup, hmem, -⟩ := destroy_exact fivePages_initial
    [.create, .map 0 0x400000 0x7000 7] hr
    (fun n n' p f f' h _ h' => (hmap n' _ h').1.trans (hmap n _ h).1.symm) hdistinct
  refine ⟨hnodup, (hmem _).mpr ⟨rfl, .inr ⟨by norm_num, 0x400, 7, ?_, by decide⟩⟩⟩
  rw [onePage_absMap, update_self]

/-- A page mapped to frame `0` is not given back. -/
theorem frame_zero_kept : let s := (run fivePages [.create, .map 0 0x400000 0 7]).state
    absMap s 0x2000 0x400 = some (0, 7) ∧ Nat.testBit 7 9 = false ∧
      (0, 1) ∉ vmmDestroyAddressSpace s 0x2000 :=
  ⟨by decide +kernel, by decide, by decide +kernel⟩

end TaterTOS.Vmm
