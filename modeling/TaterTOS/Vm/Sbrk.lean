import TaterTOS.Vm.Pages
import TaterTOS.Lib.Memory

/-!
# Growing the heap

A model of `SYS_SBRK` and `sbrk_rollback_pages` in `kernel/proc/syscall.c`, over the pages and the
allocator of a process, the end of its heap and the bytes of physical memory.

* `sbrk_atomic`: the call, in every state without a page at frame `0`.
-/

namespace TaterTOS.Vm

open Function Lib Vmm

/-! ### The source -/

structure Heap extends State where
  heapEnd : UInt64
  mem : Mem

def sbrkRollbackPages (s : State) (vaStart vaEnd : ℕ) : State :=
  (pageAddrs vaStart (vaEnd - vaStart)).foldl releasePage s

def sbrkFlags : ℕ := flagPresent ||| flagWrite ||| flagUser ||| flagNoExecute

def sbrkLoop (start : ℕ) : List ℕ → Heap → Bool × Heap
  | [], h => (true, h)
  | va :: vas, h =>
    if vmmVirtToPhysUser h.toState va ≠ 0 then
      (false, { h with toState := sbrkRollbackPages h.toState start va })
    else
      let (pa, s) := pmmAllocPage h.toState
      if pa = 0 then (false, { h with toState := sbrkRollbackPages s start va })
      else
        let s := vmmMapUser s va pa sbrkFlags
        let mapped := vmmVirtToPhysUser s va
        if frameOf mapped ≠ pa then
          let s := if mapped ≠ 0 then vmmUnmapUser s va else s
          (false, { h with toState := sbrkRollbackPages (pmmFreePage s pa) start va })
        else sbrkLoop start vas { h with toState := s, mem := fill h.mem pa 4096 0 }

def sysSbrk (h : Heap) (a1 : UInt64) : Except Error ℕ × Heap :=
  let inc := a1.toNat
  let oldEnd := h.heapEnd.toNat
  if inc = 0 then (.ok oldEnd, h)
  -- the increment is signed
  else if 2 ^ 63 ≤ inc then (.error .inval, h)
  else
    let newEnd := u64 (oldEnd + inc)
    if newEnd < oldEnd ∨ userVaTop < newEnd then (.error .nomem, h)
    else
      let oldPageEnd := alignUp oldEnd 4096
      let newPageEnd := alignUp newEnd 4096
      if userVaTop < newPageEnd then (.error .nomem, h)
      else match sbrkLoop oldPageEnd (pageAddrs oldPageEnd (newPageEnd - oldPageEnd)) h with
        | (false, h) => (.error .nomem, h)
        | (true, h) => (.ok oldEnd, { h with heapEnd := UInt64.ofNat newEnd })

/-! ### New pages -/

structure Grew (h0 h : Heap) (b k flags : ℕ) (new : List ℕ) : Prop where
  committed : Committed h0.toState h.toState b k flags new
  absent : ∀ n, b ≤ n → n < b + k → h0.pages n = none
  kept : ∀ f, frameOf f = f → h0.pool.free f = false → ∀ i < 4096, h.mem (f + i) = h0.mem (f + i)
  heapEnd : h.heapEnd = h0.heapEnd

/-- From `h0` to `h` nothing happened to the process but that its page tables took frames. -/
structure Untouched (h0 h : Heap) : Prop where
  took : ∃ new, Took h0.toState h.toState ∅ new
  pages : h.pages = h0.pages
  kept : ∀ f, frameOf f = f → h0.pool.free f = false → ∀ i < 4096, h.mem (f + i) = h0.mem (f + i)
  heapEnd : h.heapEnd = h0.heapEnd

theorem Untouched.refl (h : Heap) : Untouched h h :=
  ⟨⟨[], Took.refl _⟩, rfl, fun _ _ _ _ _ => rfl, rfl⟩

theorem fill_of_ne {m : Mem} {a f i : ℕ} (ha : frameOf a = a) (hf : frameOf f = f) (hne : f ≠ a)
    (hi : i < 4096) : fill m a 4096 0 (f + i) = m (f + i) := by
  rw [frameOf_eq] at ha hf
  refine Frame.fill m a 4096 0 (f + i) ?_
  omega

theorem Grew.empty (h : Heap) (b flags : ℕ) : Grew h h b 0 flags [] where
  committed := Committed.empty h.toState b _
  absent n h1 h2 := by omega
  kept _ _ _ _ _ := rfl
  heapEnd := rfl

section

variable {h0 h : Heap} {b k flags : ℕ} {new new' : List ℕ} {s : State}

theorem Grew.undo (hgrew : Grew h0 h b k flags new) (hg : GoodPages h0.pages)
    (htop : (b + k) * 4096 ≤ userVaTop) (hi : Idle h.toState s) :
    Untouched h0 { h with toState := ((List.range' b k).map (· * 4096)).foldl releasePage s } := by
  have hback := hgrew.committed.undo hg (fun n h1 h2 => by omega) hgrew.absent hi
  exact ⟨hback.took, hback.pages, hgrew.kept, hgrew.heapEnd⟩

section

variable {a : ℕ} (hgrew : Grew h0 h b k flags new) (ht : Took h.toState s {a} new')

include hgrew ht

theorem Grew.fresh : h0.pool.free a = true ∧ a ∉ framesAt h.pages b k := by
  have hfree := (hgrew.committed.took.free a).mp (ht.offers a (.inl rfl)).2.2
  exact ⟨hfree.1, hfree.2.1⟩

theorem Grew.step (hz : a ≠ 0) (hfa : frameOf a = a) (habsent : h.pages (b + k) = none)
    (hp : s.pages = update h.pages (b + k) (some (a, flags))) (ho : s.objects = h.objects) :
    Grew h0 { h with toState := s, mem := fill h.mem a 4096 0 } b (k + 1) flags (new' ++ new) := by
  have hc := hgrew.committed
  refine ⟨hc.step hz hfa ht hp ho, fun n h1 h2 => ?_, fun f hf hused i hi => ?_, hgrew.heapEnd⟩
  · by_cases hn : n = b + k
    · rw [hn, ← hc.out (b + k) (by omega)]
      exact habsent
    · exact hgrew.absent n h1 (by omega)
  · have hne : f ≠ a := by
      rintro rfl
      rw [(hgrew.fresh ht).1] at hused
      cases hused
    exact (fill_of_ne hfa hf hne hi).trans (hgrew.kept f hf hused i hi)

end

end

/-! ### The loop -/

structure Cleared (h0 h : Heap) (b k : ℕ) (new : List ℕ) : Prop
    extends Grew h0 h b k (pteFlags sbrkFlags) new where
  zero : ∀ n x, b ≤ n → n < b + k → h.pages n = some x → ∀ i < 4096, h.mem (x.1 + i) = 0

section

variable {h0 h : Heap} {b k : ℕ} {new new' : List ℕ} {s : State}

theorem Cleared.rollback (hc : Cleared h0 h b k new) (hg : GoodPages h0.pages)
    (htop : (b + k) * 4096 ≤ userVaTop) (hi : Idle h.toState s) :
    Untouched h0 { h with toState := sbrkRollbackPages s (b * 4096) ((b + k) * 4096) } := by
  have haddrs : pageAddrs (b * 4096) ((b + k) * 4096 - b * 4096) =
      (List.range' b k).map (· * 4096) := by
    have : userVaTop < 2 ^ 64 := by decide
    rw [pageAddrs_of_dvd (by omega) (by omega) (by omega), pageNums,
      Nat.mul_div_cancel b (by norm_num), show ((b + k) * 4096 - b * 4096) / 4096 = k by omega]
  unfold sbrkRollbackPages
  rw [haddrs]
  exact hc.undo hg htop hi

theorem Cleared.step (hc : Cleared h0 h b k new) {a : ℕ} (ht : Took h.toState s {a} new')
    (hz : a ≠ 0) (hfa : frameOf a = a) (habsent : h.pages (b + k) = none)
    (hp : s.pages = update h.pages (b + k) (some (a, pteFlags sbrkFlags)))
    (ho : s.objects = h.objects) :
    Cleared h0 { h with toState := s, mem := fill h.mem a 4096 0 } b (k + 1) (new' ++ new) := by
  refine ⟨hc.toGrew.step ht hz hfa habsent hp ho, fun n x h1 h2 hx i hi => ?_⟩
  rw [hp] at hx
  by_cases hn : n = b + k
  · rw [hn, update_self] at hx
    rw [← Option.some.inj hx]
    exact fill_apply h.mem 0 hi
  · rw [update_of_ne hn] at hx
    obtain ⟨f, hf, -, hff⟩ := hc.committed.entry n h1 (by omega)
    obtain rfl := Option.some.inj (hx.symm.trans hf)
    have hne : f ≠ a := fun hfa => (hc.fresh ht).2 ⟨n, h1, by omega, _, hf, hfa⟩
    exact (fill_of_ne hfa hff hne hi).trans (hc.zero n _ h1 (by omega) hf i hi)

theorem sbrkLoop_spec (hg : GoodPages h0.pages) {total : ℕ}
    (htop : (b + total) * 4096 ≤ userVaTop) (j : ℕ) : ∀ (k : ℕ) (h : Heap) (new : List ℕ),
    k + j = total → Cleared h0 h b k new →
    ∃ ok h', sbrkLoop (b * 4096) ((List.range' (b + k) j).map (· * 4096)) h = (ok, h') ∧
      (ok = false ∧ Untouched h0 h' ∨ ok = true ∧ ∃ new, Cleared h0 h' b total new) := by
  induction j with
  | zero =>
    intro k h new hk hc
    exact ⟨true, h, rfl, .inr ⟨rfl, new, by rwa [← hk]⟩⟩
  | succ j ih =>
    intro k h new hk hc
    have hgood := hc.committed.good hg
    have hn : (b + k) * 4096 < userVaTop := by omega
    have hroll {s : State} (hi : Idle h.toState s) := hc.rollback hg hn.le hi
    rw [List.range'_succ, List.map_cons, sbrkLoop]
    by_cases hpage : h.pages (b + k) = none
    · have hv0 := (virtToPhysUser_eq_zero hgood hn).mpr hpage
      rw [if_neg (not_not.mpr hv0)]
      obtain ⟨a, s1, ha, hcase⟩ := takePage_spec h.toState hn hpage sbrkFlags
      rw [ha]
      dsimp only
      rcases hcase with ⟨rfl, hi⟩ | ⟨hz, hfa, new2, s2, hmap, ht, ho2, ⟨hv, hp2⟩ | ⟨hv, hp2⟩⟩
      · exact ⟨false, _, rfl, .inl ⟨rfl, hroll hi⟩⟩
      · rw [if_neg hz, hmap, hv, if_pos (show frameOf 0 ≠ a from Ne.symm hz)]
        exact ⟨false, _, rfl, .inl ⟨rfl, hroll ⟨⟨_, ht.freePage⟩, hp2, ho2⟩⟩⟩
      · rw [if_neg hz, hmap, hv, hfa, if_neg (not_not.mpr rfl)]
        have hnext := hc.step ht hz hfa hpage hp2 ho2
        exact ih (k + 1) _ _ (by omega) hnext
    · rw [if_pos (mt (virtToPhysUser_eq_zero hgood hn).mp hpage)]
      exact ⟨false, _, rfl, .inl ⟨rfl, hroll (Idle.refl _)⟩⟩

end

/-! ### The call -/

structure Extended (h h' : Heap) (inc : ℕ) : Prop where
  heapEnd : h'.heapEnd.toNat = h.heapEnd.toNat + inc
  top : h'.heapEnd.toNat ≤ userVaTop
  fresh : ∀ n, h.heapEnd.toNat ≤ n * 4096 → n * 4096 < h'.heapEnd.toNat → h.pages n = none ∧
    ∃ f, h'.pages n = some (f, sbrkFlags) ∧ h.pool.free f = true ∧ ∀ i < 4096, h'.mem (f + i) = 0
  distinct : ∀ n n' x x', h.pages n = none → h.pages n' = none → h'.pages n = some x →
    h'.pages n' = some x' → x.1 = x'.1 → n = n'
  out : ∀ n, ¬ (h.heapEnd.toNat ≤ n * 4096 ∧ n * 4096 < h'.heapEnd.toNat) → h'.pages n = h.pages n
  kept : ∀ f, frameOf f = f → h.pool.free f = false → ∀ i < 4096, h'.mem (f + i) = h.mem (f + i)

theorem Cleared.extended {h h' : Heap} {inc b k : ℕ} {new : List ℕ} (hgrew : Cleared h h' b k new)
    (htop : h.heapEnd.toNat + inc ≤ userVaTop) (hb : b = (h.heapEnd.toNat + 4095) / 4096)
    (hk : b + k = (h.heapEnd.toNat + inc + 4095) / 4096) :
    Extended h { h' with heapEnd := UInt64.ofNat (h.heapEnd.toNat + inc) } inc := by
  have hc := hgrew.committed
  have hlt : userVaTop < 2 ^ 64 := by decide
  have hend : (UInt64.ofNat (h.heapEnd.toNat + inc)).toNat = h.heapEnd.toNat + inc :=
    UInt64.toNat_ofNat_of_lt' (lt_of_le_of_lt htop hlt)
  -- a page starts between the two ends if and only if the loop visits it
  have hin : ∀ n, h.heapEnd.toNat ≤ n * 4096 ∧ n * 4096 < h.heapEnd.toNat + inc ↔
      b ≤ n ∧ n < b + k := fun n => by omega
  have hnew : ∀ n x, h.pages n = none → h'.pages n = some x → b ≤ n ∧ n < b + k := by
    intro n x hn hx
    by_contra hout
    rw [hc.out n hout, hn] at hx
    cases hx
  refine ⟨hend, hend.trans_le htop, fun n h1 h2 => ?_, ?_, fun n hn => ?_, hgrew.kept⟩
  · obtain ⟨h1, h2⟩ := (hin n).mp ⟨h1, hend ▸ h2⟩
    obtain ⟨f, hf, -, -⟩ := hc.entry n h1 h2
    refine ⟨hgrew.absent n h1 h2, f, hf, ?_, hgrew.zero n _ h1 h2 hf⟩
    exact (hc.took.offers f (.inl ⟨n, h1, h2, _, hf, rfl⟩)).2.2
  · intro n n' x x' hn hn' hx hx'
    have h1 := hnew n x hn hx
    have h2 := hnew n' x' hn' hx'
    exact hc.inj n n' x x' h1.1 h1.2 h2.1 h2.2 hx hx'
  · exact hc.out n (mt (hin n).mpr (hend ▸ hn))

/-- **`SYS_SBRK`**: an error leaves the heap, the pages and the free frames but those for page
tables as they were; otherwise the pages from the old end to the new one are new. -/
theorem sbrk_atomic (h : Heap) (hg : GoodPages h.pages) (a1 : UInt64) :
    (∀ e h', sysSbrk h a1 = (.error e, h') → Untouched h h') ∧
      ∀ b h', sysSbrk h a1 = (.ok b, h') → b = h.heapEnd.toNat ∧
        (a1 = 0 ∧ h' = h ∨ 0 < a1.toNat ∧ a1.toNat < 2 ^ 63 ∧ Extended h h' a1.toNat) := by
  have hsame := Untouched.refl h
  have hu : userVaTop = 2 ^ 47 := by decide
  unfold sysSbrk
  dsimp only
  split_ifs with h1 h2 h3 h4
  · refine ⟨by simp, ?_⟩
    rintro b h' ⟨⟩
    exact ⟨rfl, .inl ⟨UInt64.toNat_inj.mp h1, rfl⟩⟩
  · exact ⟨by rintro e h' ⟨⟩; exact hsame, by simp⟩
  · exact ⟨by rintro e h' ⟨⟩; exact hsame, by simp⟩
  · exact ⟨by rintro e h' ⟨⟩; exact hsame, by simp⟩
  · have hnew : u64 (h.heapEnd.toNat + a1.toNat) = h.heapEnd.toNat + a1.toNat := by
      unfold u64 at h3 ⊢
      omega
    rw [hnew] at h3 h4 ⊢
    have hold := @alignUp_two_pow h.heapEnd.toNat 12 (by norm_num) (by omega)
    have hnext := @alignUp_two_pow (h.heapEnd.toNat + a1.toNat) 12 (by norm_num) (by omega)
    norm_num at hold hnext
    rw [hold, hnext]
    obtain ⟨k, hk⟩ : ∃ k, (h.heapEnd.toNat + 4095) / 4096 + k =
        (h.heapEnd.toNat + a1.toNat + 4095) / 4096 := ⟨_, Nat.add_sub_cancel' (by omega)⟩
    rw [pageAddrs_of_dvd (Nat.dvd_mul_left _ _) (by omega) (by omega), pageNums,
      Nat.mul_div_cancel _ (by norm_num), ← hk, ← Nat.sub_mul, Nat.add_sub_cancel_left,
      Nat.mul_div_cancel _ (by norm_num)]
    obtain ⟨ok, h', hloop, hcase⟩ :=
      sbrkLoop_spec hg (b := (h.heapEnd.toNat + 4095) / 4096) (by omega) k 0 h [] (zero_add k)
        ⟨Grew.empty h _ _, fun n x h1 h2 => by omega⟩
    simp only [add_zero] at hloop
    rw [hloop]
    rcases hcase with ⟨rfl, hun⟩ | ⟨rfl, new, hgrew⟩
    · exact ⟨by rintro e h'' ⟨⟩; exact hun, by simp⟩
    · refine ⟨by simp, ?_⟩
      rintro b h'' ⟨⟩
      exact ⟨rfl, .inr ⟨Nat.pos_of_ne_zero h1, not_le.mp h2, hgrew.extended (by omega) rfl hk⟩⟩

def oneByte : Heap where
  regions _ := Region.cleared
  pages := update (fun _ => none) 0x10000000 (some (0x5000, sbrkFlags))
  tables := []
  fds _ := .none
  objects _ := SharedObject.reset
  pool := ⟨fun a => a == 0x6000, fun _ => 0, fun _ => 0⟩
  env := ⟨[0x6000], [], []⟩
  heapEnd := 0x10000000001
  mem _ := 1

theorem oneByte_good : GoodPages oneByte.pages := by
  refine GoodPages.updated (fun n x hx => absurd hx (by simp)) ?_
  rintro x ⟨⟩
  decide

theorem sbrk_atomic_oneByte : GoodPages oneByte.pages ∧
    Extended oneByte (sysSbrk oneByte 0x1000).2 0x1000 := by
  have hok : (sysSbrk oneByte 0x1000).1 = .ok 0x10000000001 := by decide +kernel
  generalize hrun : sysSbrk oneByte 0x1000 = r at hok ⊢
  obtain ⟨res, h'⟩ := r
  obtain rfl : res = .ok 0x10000000001 := hok
  refine ⟨oneByte_good, ?_⟩
  exact (((sbrk_atomic oneByte oneByte_good 0x1000).2 _ h' hrun).2.resolve_left
    fun h => absurd h.1 (by decide)).2.2

def hollow : Heap := { oneByte with pages := fun _ => none, heapEnd := 0x10000000800 }

theorem first_page_absent : (sysSbrk hollow 1).1 = .ok 0x10000000800 ∧
    (sysSbrk hollow 1).2.pages (0x10000000800 / 4096) = none := by
  decide +kernel

end TaterTOS.Vm
