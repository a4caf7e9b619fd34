import TaterTOS.Vm.Pages

/-!
# Anonymous shared objects

* `sharedReleaseRange_eq`: releasing references to pages that are referred to once.
-/

namespace TaterTOS.Vm

open Function Lib Vmm List

variable {s : State} {id : Fin vmSharedMax}
  {is new : List ℕ} {s' s'' : State} {c k : ℕ} {frame : ℕ → ℕ} {s : State}

@[simp] theorem setObject_self (s : State) (id : Fin vmSharedMax) (obj : SharedObject) :
    (s.setObject id obj).objects id = obj := by simp [State.setObject]

theorem setObject_of_ne (s : State) {id id' : Fin vmSharedMax} (h : id' ≠ id)
    (obj : SharedObject) : (s.setObject id obj).objects id' = s.objects id' := by
  simp [State.setObject, h]

/-! ### Destroying an object -/

def SharedObject.frames (obj : SharedObject) (is : List ℕ) : List ℕ :=
  (is.map obj.pages).filter (· ≠ 0)

theorem SharedObject.mem_frames {obj : SharedObject} {f : ℕ} :
    f ∈ obj.frames is ↔ ∃ i ∈ is, obj.pages i = f ∧ f ≠ 0 := by
  simp only [SharedObject.frames, mem_filter, mem_map, decide_eq_true_eq]
  constructor
  · rintro ⟨⟨i, hi, rfl⟩, hf⟩
    exact ⟨i, hi, rfl, hf⟩
  · rintro ⟨i, hi, rfl, hf⟩
    exact ⟨⟨i, hi, rfl⟩, hf⟩

def SharedObject.erase (obj : SharedObject) (is : List ℕ) : SharedObject :=
  { obj with pages := fun j => if j ∈ is then 0 else obj.pages j }

theorem SharedObject.erase_nil (obj : SharedObject) : obj.erase [] = obj := by
  simp [SharedObject.erase]

theorem SharedObject.erase_cons (obj : SharedObject) (i : ℕ) (is : List ℕ) :
    SharedObject.erase { obj with pages := update obj.pages i 0 } is = obj.erase (i :: is) := by
  unfold SharedObject.erase
  congr 1
  funext j
  by_cases hj : j = i
  · subst hj
    simp
  · simp [hj]

theorem SharedObject.frames_update {obj : SharedObject} {i : ℕ} (hi : i ∉ is) (v : ℕ) :
    SharedObject.frames { obj with pages := update obj.pages i v } is = obj.frames is := by
  unfold SharedObject.frames
  congr 1
  refine map_congr_left fun j hj => ?_
  have hne : j ≠ i := fun heq => hi (heq ▸ hj)
  exact update_of_ne hne v obj.pages

theorem destroyPage_foldl (is : List ℕ) (hnd : is.Nodup) (s : State) : is.foldl (destroyPage id) s =
      { s with
        objects := update s.objects id ((s.objects id).erase is)
        pool := ((s.objects id).frames is).foldl Pool.put s.pool } := by
  induction is generalizing s with
  | nil =>
    rw [SharedObject.erase_nil, update_eq_self]
    rfl
  | cons i is ih =>
    obtain ⟨hi, hnd⟩ := nodup_cons.mp hnd
    rw [foldl_cons, ih hnd, ← SharedObject.erase_cons]
    unfold destroyPage
    by_cases hz : (s.objects id).pages i = 0
    · have hsame : update (s.objects id).pages i 0 = (s.objects id).pages := by
        rw [← hz, update_eq_self]
      have hf : (s.objects id).frames (i :: is) = (s.objects id).frames is := by
        simp [SharedObject.frames, hz]
      rw [hsame, hf]
      simp only [hz, if_true]
    · have hf : (s.objects id).frames (i :: is) =
          (s.objects id).pages i :: (s.objects id).frames is := by
        simp [SharedObject.frames, hz]
      rw [hf]
      simp only [hz, if_false, setObject_self, SharedObject.frames_update hi]
      rw [State.setObject, update_idem]
      rfl

theorem sharedDestroy_eq (hu : (s.objects id).used = true) : vmSharedDestroy s id = { s with
      objects := update s.objects id SharedObject.reset
      pool := ((s.objects id).frames (List.range (s.objects id).pageCount)).foldl Pool.put
        s.pool } := by
  rw [vmSharedDestroy, hu, if_neg (by simp), destroyPage_foldl _ nodup_range, State.setObject,
    update_idem]

/-! ### Creating an object -/

/-- From `s` to `s'`, the first `k` of the `c` pages of the new object `id` got frames. -/
structure Created (s s' : State) (id : Fin vmSharedMax) (c k : ℕ) : Prop where
  took : Took s s' {f | ∃ i < k, (s'.objects id).pages i = f} []
  pages : s'.pages = s.pages
  other : ∀ id', id' ≠ id → s'.objects id' = s.objects id'
  used : (s'.objects id).used = true
  count : (s'.objects id).pageCount = c
  frame : ∀ i < k, (s'.objects id).pages i ≠ 0 ∧
    frameOf ((s'.objects id).pages i) = (s'.objects id).pages i
  inj : ∀ i < k, ∀ j < k, (s'.objects id).pages i = (s'.objects id).pages j → i = j
  rest : ∀ i, k ≤ i → (s'.objects id).pages i = 0
  refs : ∀ i, (s'.objects id).pageRefs i = if i < k then 1 else 0

theorem Created.destroy (h : Created s s' id c k) (hfree : (s.objects id).used = false)
    (hk : k ≤ c) (hi : Idle s' s'') : Kept s (vmSharedDestroy s'' id) := by
  obtain ⟨⟨new, ht⟩, hp, ho⟩ := hi
  have hu : (s''.objects id).used = true := ho ▸ h.used
  rw [sharedDestroy_eq hu]
  refine ⟨⟨_, (h.took.then ht).put_back
    (l := (s''.objects id).frames (List.range (s''.objects id).pageCount)) ?_ (fun f => ?_) rfl rfl
    rfl rfl⟩, hp.trans h.pages, fun id' => ?_⟩
  · rw [ho]
    refine (pairwise_filter.mpr ?_)
    rw [pairwise_map]
    refine nodup_range.imp_of_mem ?_
    intro i j _ _ hij hi _ heq
    rw [decide_eq_true_eq] at hi
    have hi' : i < k := by
      by_contra hle
      exact hi (h.rest i (not_lt.mp hle))
    have hj' : j < k := by
      by_contra hle
      exact hi (heq.trans (h.rest j (not_lt.mp hle)))
    exact hij (h.inj i hi' j hj' heq)
  · rw [SharedObject.mem_frames, ho, h.count]
    constructor
    · rintro ⟨i, -, rfl, hz⟩
      refine ⟨i, ?_, rfl⟩
      by_contra hle
      exact hz (h.rest i (not_lt.mp hle))
    · rintro ⟨i, hi, rfl⟩
      exact ⟨i, mem_range.mpr (by omega), rfl, (h.frame i hi).1⟩
  · dsimp only
    by_cases hne : id' = id
    · subst hne
      exact .inr ⟨hfree, by rw [update_self]; rfl⟩
    · exact .inl (by rw [update_of_ne hne, ho, h.other id' hne])

theorem Created.step {s s1 s2 : State} {a : ℕ} (h : Created s s1 id c k) (hz : a ≠ 0)
    (hfa : frameOf a = a) (ht : Took s1 s2 {a} []) (hp : s2.pages = s1.pages)
    (ho : s2.objects = s1.objects) :
    Created s (s2.setObject id { s2.objects id with
      pages := update (s2.objects id).pages k a
      pageRefs := update (s2.objects id).pageRefs k 1 }) id c (k + 1) := by
  have hold : ∀ i, i ≠ k → update (s1.objects id).pages k a i = (s1.objects id).pages i :=
    fun i hi => update_of_ne hi _ _
  have hself : update (s1.objects id).pages k a k = a := update_self _ _ _
  have hfresh : ∀ i < k, (s1.objects id).pages i ≠ a := by
    intro i hi hia
    exact ((h.took.free a).mp (ht.offers a (.inl rfl)).2.2).2.1 ⟨i, hi, hia⟩
  rw [ho]
  refine ⟨?_, hp.trans h.pages, fun id' hne => ?_, ?_, ?_, ?_, ?_, ?_, ?_⟩
  · have hset : {f | ∃ i < k + 1, update (s1.objects id).pages k a i = f} =
        {f | ∃ i < k, (s1.objects id).pages i = f} ∪ {a} := by
      ext f
      constructor
      · rintro ⟨i, hi, rfl⟩
        by_cases hik : i = k
        · subst hik
          exact .inr hself
        · exact .inl ⟨i, by omega, (hold i hik).symm⟩
      · rintro (⟨i, hi, rfl⟩ | rfl)
        · exact ⟨i, by omega, hold i (by omega)⟩
        · exact ⟨k, by omega, hself⟩
    simp only [setObject_self]
    rw [hset]
    exact { h.took.trans ht with }
  · rw [setObject_of_ne _ hne, ho]
    exact h.other id' hne
  all_goals simp only [setObject_self]
  · exact h.used
  · exact h.count
  · intro i hi
    by_cases hik : i = k
    · subst hik
      rw [hself]
      exact ⟨hz, hfa⟩
    · rw [hold i hik]
      exact h.frame i (by omega)
  · intro i hi j hj he
    by_cases hik : i = k
    · by_cases hjk : j = k
      · rw [hik, hjk]
      · rw [hik, hself, hold j hjk] at he
        exact absurd he.symm (hfresh j (by omega))
    · rw [hold i hik] at he
      by_cases hjk : j = k
      · rw [hjk, hself] at he
        exact absurd he (hfresh i (by omega))
      · rw [hold j hjk] at he
        exact h.inj i (by omega) j (by omega) he
  · intro i hi
    rw [hold i (by omega)]
    exact h.rest i (by omega)
  · intro i
    rw [update_apply, h.refs i]
    split_ifs <;> omega

theorem createLoop_spec (hfree : (s.objects id).used = false) (m : ℕ) :
    ∀ (k : ℕ) (s1 : State), k + m = c →
    Created s s1 id c k → ∃ ok s', createLoop id (List.range' k m) s1 = (ok, s') ∧
      (ok = false ∧ Kept s s' ∨ ok = true ∧ Created s s' id c c) := by
  induction m with
  | zero =>
    intro k s1 hk hc
    obtain rfl : k = c := by omega
    exact ⟨true, s1, rfl, Or.inr ⟨rfl, hc⟩⟩
  | succ m ih =>
    intro k s1 hk hc
    rw [List.range'_succ, createLoop]
    obtain ⟨a, s2, ha, hp, ho, -, hcase⟩ := allocPage_spec s1
    rw [ha]
    dsimp only
    rcases hcase with ⟨rfl, ht⟩ | ⟨hz, hfa, ht⟩
    · exact ⟨false, _, rfl, Or.inl ⟨rfl, hc.destroy hfree (by omega) ⟨⟨_, ht⟩, hp, ho⟩⟩⟩
    · rw [if_neg hz]
      exact ih (k + 1) _ (by omega) (hc.step hz hfa ht hp ho)

theorem nextOk_spec (s : State) : ∃ ok e, nextOk s = (ok, { s with env := e }) := by
  unfold nextOk
  cases s.env.oks with
  | nil => exact ⟨true, s.env, rfl⟩
  | cons ok oks => exact ⟨ok, _, rfl⟩

theorem kmalloc_spec (s : State) (size : ℕ) :
    ∃ ok e, kmalloc s size = (ok, { s with env := e }) ∧ (size = 0 → ok = false) := by
  unfold kmalloc
  split_ifs with hz
  · exact ⟨false, s.env, rfl, fun _ => rfl⟩
  · obtain ⟨ok, e, he⟩ := nextOk_spec s
    exact ⟨ok, e, he, fun h => absurd h hz⟩

/-- **`vm_shared_create`** fails and changes nothing, or makes an object with a frame for each of
its pages in a slot that was free. -/
theorem sharedCreate_spec (s : State) (c : ℕ) : ∃ o s', vmSharedCreate s c = (o, s') ∧
    (o = none ∧ Kept s s' ∨
      ∃ id, o = some id ∧ (s.objects id).used = false ∧ 0 < c ∧ Created s s' id c c) := by
  unfold vmSharedCreate
  cases hslot : vmSharedAllocSlot s with
  | none => exact ⟨none, s, rfl, Or.inl ⟨rfl, Kept.refl s⟩⟩
  | some id =>
    have hunused : (s.objects id).used = false := by simpa using List.find?_some hslot
    dsimp only
    -- a failed allocation of the arrays leaves the slot reset
    have hreset : ∀ e, Kept s { s.setObject id SharedObject.reset with env := e } := by
      refine fun e => ⟨⟨[], { Took.refl s with }⟩, rfl, fun id' => ?_⟩
      by_cases hne : id' = id
      · subst hne
        exact .inr ⟨hunused, congrArg SharedObject.used (setObject_self s id' _)⟩
      · exact .inl (setObject_of_ne s hne _)
    obtain ⟨ok, e, he, hzero⟩ := kmalloc_spec (s.setObject id SharedObject.reset) (c * 8)
    rw [he]
    cases ok with
    | false => exact ⟨none, _, rfl, Or.inl ⟨rfl, hreset e⟩⟩
    | true =>
      have hc : 0 < c := by
        by_contra hle
        exact Bool.true_eq_false_eq_False (hzero (by omega))
      obtain ⟨ok, e, he, -⟩ :=
        kmalloc_spec { s.setObject id SharedObject.reset with env := e } (c * 4)
      rw [he]
      cases ok with
      | false => exact ⟨none, _, rfl, Or.inl ⟨rfl, hreset e⟩⟩
      | true =>
        simp only [ite_not_true]
        generalize hs : State.setObject _ id _ = s2
        have hstart : Created s s2 id c 0 := by
          have hset : {f | ∃ i < 0, (s2.objects id).pages i = f} = ∅ := by
            ext f
            simp
          subst hs
          refine ⟨?_, rfl, fun id' hne => ?_, ?_, ?_, fun i hi => absurd hi (Nat.not_lt_zero i),
            fun i hi => absurd hi (Nat.not_lt_zero i), fun i _ => ?_, fun i => ?_⟩
          · rw [hset]
            exact { Took.refl s with }
          · exact (setObject_of_ne _ hne _).trans (setObject_of_ne s hne _)
          all_goals simp
        obtain ⟨ok, s3, he3, hcase⟩ := createLoop_spec hunused c 0 _ (by omega) hstart
        rw [range_eq_range', he3]
        rcases hcase with ⟨rfl, hno⟩ | ⟨rfl, hyes⟩
        · exact ⟨none, s3, rfl, Or.inl ⟨rfl, hno⟩⟩
        · exact ⟨some id, s3, rfl, Or.inr ⟨id, rfl, hunused, hc, hyes⟩⟩

/-! ### Mapping an object -/

/-- From `s` to `s'`, the `k` pages from `b` on were mapped to the frames `frame 0`, `frame 1`, … -/
structure Mapped (s s' : State) (b k flags : ℕ) (frame : ℕ → ℕ) (new : List ℕ) : Prop where
  took : Took s s' ∅ new
  objects : s'.objects = s.objects
  out : ∀ n, ¬ (b ≤ n ∧ n < b + k) → s'.pages n = s.pages n
  entry : ∀ i < k, s'.pages (b + i) = some (frame i, flags)

theorem Mapped.good {b flags : ℕ} (h : Mapped s s' b k flags frame new)
    (hg : GoodPages s.pages) (hf : ∀ i < k, frame i ≠ 0 ∧ frameOf (frame i) = frame i) :
    GoodPages s'.pages := by
  intro n x hx
  by_cases hn : b ≤ n ∧ n < b + k
  · obtain ⟨i, rfl⟩ : ∃ i, n = b + i := ⟨n - b, by omega⟩
    rw [h.entry i (by omega)] at hx
    obtain rfl := Option.some.inj hx
    exact hf i (by omega)
  · rw [h.out n hn] at hx
    exact hg n x hx

theorem Mapped.undo {base mapped flags : ℕ}
    (h : Mapped s s' (base / 4096) (mapped / 4096) flags frame new) (hg : GoodPages s.pages)
    (hf : ∀ i < mapped / 4096, frame i ≠ 0 ∧ frameOf (frame i) = frame i) (hw : Whole base mapped)
    (hnone : ∀ n, InRange base (base + mapped) n → s.pages n = none) (hi : Idle s' s'') :
    Idle s (vmUnmapPagesOnly s'' base mapped) := by
  obtain ⟨⟨new', ht⟩, hp, ho⟩ := hi
  have hg' : GoodPages s''.pages := hp ▸ h.good hg hf
  rw [unmapPagesOnly_eq hg' hw]
  refine ⟨⟨_, { h.took.then ht with }⟩, ?_, ho.trans h.objects⟩
  funext n
  show erasePages s''.pages (pageNums base mapped) n = s.pages n
  unfold erasePages
  rw [hp]
  split_ifs with hn
  · exact (hnone n ((mem_pageNums hw n).mp hn)).symm
  · exact h.out n (mt mem_range'_1.mpr hn)

section

variable {s0 : State} {base total flags : ℕ} {obj : SharedObject} (hg : GoodPages s0.pages)
  (hw : Whole base total) (hnone : ∀ n, InRange base (base + total) n → s0.pages n = none)
  (hsmall : total / 4096 < 2 ^ 32)
  (hf : ∀ i < total / 4096, obj.pages i ≠ 0 ∧ frameOf (obj.pages i) = obj.pages i)

include hg hw hnone hsmall hf in
theorem mapSharedLoop_spec (m : ℕ) : ∀ (k : ℕ) (s : State) (new : List ℕ),
    k + m = total / 4096 → Mapped s0 s (base / 4096) k (pteFlags flags) obj.pages new →
    ∃ ok s', mapSharedLoop base flags 0 obj (List.range' k m) (k * 4096) s = (ok, s') ∧
      (ok = false ∧ Idle s0 s' ∨ ok = true ∧ ∃ new,
          Mapped s0 s' (base / 4096) (total / 4096) (pteFlags flags) obj.pages new) := by
  induction m with
  | zero =>
    intro k s new hk hm
    obtain rfl : k = total / 4096 := by omega
    exact ⟨true, s, rfl, Or.inr ⟨rfl, new, hm⟩⟩
  | succ m ih =>
    intro k s new hk hm
    have hb := hw.base_dvd
    have hstop := hw.stop_le
    have hlim : vmUserLimit < userVaTop := by decide
    have h64 : userVaTop < 2 ^ 64 := by decide
    obtain ⟨hz, hfa⟩ := hf k (by omega)
    have hva : u64 (base + k * 4096) = (base / 4096 + k) * 4096 := by
      rw [u64_of_lt (by omega)]
      omega
    have htop : (base / 4096 + k) * 4096 < userVaTop := by omega
    have hpage : s.pages (base / 4096 + k) = none := by
      rw [hm.out _ (by omega)]
      exact hnone _ ⟨by omega, by omega⟩
    have hwm : Whole base (k * 4096) := ⟨hb, Nat.dvd_mul_left _ _, by omega⟩
    have hkk : k * 4096 / 4096 = k := Nat.mul_div_cancel k (by norm_num)
    have hundo : ∀ {s'' : State}, Idle s s'' → Idle s0 (vmUnmapPagesOnly s'' base (k * 4096)) := by
      intro s'' hi
      have hm' : Mapped s0 s (base / 4096) (k * 4096 / 4096) (pteFlags flags) obj.pages new := by
        rw [hkk]
        exact hm
      have hnone' : ∀ n, InRange base (base + k * 4096) n → s0.pages n = none := by
        rintro n ⟨h1, h2⟩
        have hle : k * 4096 ≤ total := by omega
        exact hnone n ⟨h1, lt_of_lt_of_le h2 (Nat.add_le_add_left hle base)⟩
      exact hm'.undo hg (fun i hi => hf i (by omega)) hwm hnone' hi
    rw [List.range'_succ, mapSharedLoop]
    simp only [zero_add, u32_of_lt (show k < 2 ^ 32 by omega), if_neg hz, hva]
    obtain ⟨new1, ht1, ho1, hcase⟩ := mapPage_spec s htop hpage hfa flags
    generalize vmmMapUser s ((base / 4096 + k) * 4096) (obj.pages k) flags = s1 at ht1 ho1 hcase ⊢
    rcases hcase with ⟨hv, hp1⟩ | ⟨hv, hp1⟩
    · rw [hv, if_pos (show frameOf 0 ≠ obj.pages k from Ne.symm hz), unmapUser_page s1 htop]
      have hpages : update s1.pages (base / 4096 + k) none = s.pages := by
        rw [hp1, ← hpage, update_eq_self]
      exact ⟨false, _, rfl, Or.inl ⟨rfl, hundo ⟨⟨_, { ht1 with }⟩, hpages, ho1⟩⟩⟩
    · rw [hv, hfa, if_neg (not_not.mpr rfl)]
      have hnext : Mapped s0 s1 (base / 4096) (k + 1) (pteFlags flags) obj.pages (new1 ++ new) := by
        refine ⟨hm.took.then ht1, ho1.trans hm.objects, fun n hn => ?_, fun i hi => ?_⟩
        · rw [hp1, update_of_ne (by omega)]
          exact hm.out n (by omega)
        · by_cases hik : i = k
          · subst hik
            rw [hp1, update_self]
          · rw [hp1, update_of_ne (by omega)]
            exact hm.entry i (by omega)
      have := ih (k + 1) s1 _ (by omega) hnext
      rw [add_mul] at this
      exact this

end

/-- **`vm_map_shared_pages`** of a new object that has as many pages as the range: all pages are
mapped to the frames of the object, or none. -/
theorem mapSharedPages_spec {s0 s : State} {base length : ℕ} (hc : Created s0 s id c c)
    (hg : GoodPages s0.pages) (hw : Whole base length) (hlen : c = length / 4096)
    (hsmall : c < 2 ^ 32) (hnone : ∀ n, InRange base (base + length) n → s0.pages n = none)
    (prot : ℕ) :
    ∃ ok s', vmMapSharedPages s base length prot id 0 = (ok, s') ∧
      (ok = false ∧ Idle s s' ∨
        ok = true ∧ ∃ new, Mapped s s' (base / 4096) (length / 4096)
          (pteFlags (vmProtToPteFlags prot ||| flagNofree)) (s.objects id).pages new) := by
  unfold vmMapSharedPages
  simp only [hc.used, hc.count, Nat.sub_zero, ← hlen, u32_of_lt hsmall, lt_irrefl]
  have hstart : Mapped s s (base / 4096) 0 (pteFlags (vmProtToPteFlags prot ||| flagNofree))
      (s.objects id).pages [] :=
    ⟨Took.refl s, rfl, fun _ _ => rfl, fun i hi => absurd hi (Nat.not_lt_zero i)⟩
  have hloop := mapSharedLoop_spec (by rw [hc.pages]; exact hg) hw (by rw [hc.pages]; exact hnone)
    (hlen ▸ hsmall) (hlen ▸ hc.frame) c 0 s [] (by omega) hstart
  rw [range_eq_range', hlen]
  rw [hlen] at hloop
  exact hloop

end TaterTOS.Vm
