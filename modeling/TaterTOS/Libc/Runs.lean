import TaterTOS.Libc.Allocating

/-!
# Runs of the allocator

Any sequence of `malloc`, `calloc`, `realloc` and `free`, with writes of the program into its live
blocks in between, over a kernel that fails at any call or hands out fresh memory.

* **`allocator_correct`**: every reachable world is sound, and in it every call terminates and keeps
  its promise;
* **`unaligned_block`**: memory that is fresh but not at a multiple of 16 makes `malloc` return a
  pointer that is not aligned.
-/

namespace TaterTOS.Libc

open Function Lib Vmm List

/-! ### Calls -/

inductive Call where
  | malloc (size : ℕ) (ans : Answers)
  | calloc (nmemb size : ℕ) (ans : Answers)
  | realloc (ptr size : ℕ) (ans : Answers)
  | free (ptr : ℕ)
  | write (ptr j : ℕ) (c : UInt8)

def Call.run (fuel : ℕ) (h : Heap) : Call → Option Outcome
  | .malloc size ans => h.malloc fuel size ans
  | .calloc nmemb size ans => h.calloc fuel nmemb size ans
  | .realloc ptr size ans => h.realloc fuel ptr size ans
  | .free ptr => h.free fuel ptr
  | .write ptr j c => some { ret := 0, heap := { h with mem := update h.mem (ptr + j) c } }

def Call.liveAfter (live : ℕ → Option ℕ) (ret : ℕ) : Call → ℕ → Option ℕ
  | .malloc size _ => if ret ≠ 0 then update live ret (some size) else live
  | .calloc nmemb size _ => if ret ≠ 0 then update live ret (some (nmemb * size)) else live
  | .realloc ptr size _ =>
    if ret ≠ 0 then update (update live ptr none) ret (some size)
    else if size = 0 then update live ptr none
    else live
  | .free ptr => update live ptr none
  | .write _ _ _ => live

def World.step (w : World) (c : Call) (r : Outcome) : World := w.after r (c.liveAfter w.live r.ret)

def World.Valid (w : World) (ptr : ℕ) : Prop := ptr = 0 ∨ ∃ n, w.live ptr = some n

def Call.Ok (w : World) : Call → Prop
  | .malloc size ans => ans.Fresh w size
  | .calloc nmemb size ans => ans.Fresh w (nmemb * size)
  | .realloc ptr size ans => w.Valid ptr ∧ ans.Fresh w size
  | .free ptr => w.Valid ptr
  | .write ptr j _ => ∃ n, w.live ptr = some n ∧ j < n

inductive World.Reachable : World → Prop where
  | start (h : Heap) (hfree : h.freeList = 0) : World.Reachable ⟨h, [], fun _ => none⟩
  | step {w : World} (h : World.Reachable w) {c : Call} (hc : c.Ok w) (fuel : ℕ)
      (hfuel : w.regions.length < fuel) {r : Outcome} (hr : c.run fuel w.heap = some r) :
      World.Reachable (w.step c r)

/-! ### Promises -/

def World.parts (w : World) : List (ℕ × ℕ) :=
  w.regions.flatMap fun r => (r.addr, headerSize) ::
    ((w.live (r.addr + headerSize)).map fun n => (r.addr + headerSize, n)).toList

structure World.Sound (w : World) : Prop where
  disjoint : w.parts.Pairwise fun a b => a.1 + a.2 ≤ b.1 ∨ b.1 + b.2 ≤ a.1
  listed : ∀ p n, w.live p = some n → (p, n) ∈ w.parts
  /-- The list ends, and it holds exactly the blocks from `fry_sbrk`, each once. -/
  freeList : ∃ l : List ℕ, Chain (nextBlock w.heap.mem) 0 w.heap.freeList l ∧ l.Nodup ∧
    ∀ a, a ∈ l ↔ ∃ r ∈ w.regions, r.mapped = false ∧ r.addr = a

def Call.asks : Call → Option ℕ
  | .malloc size _ => some size
  | .calloc nmemb size _ => some (nmemb * size)
  | .realloc _ size _ => some size
  | .free _ | .write _ _ _ => none

def Call.target : Call → ℕ
  | .malloc _ _ | .calloc _ _ _ => 0
  | .realloc ptr _ _ => ptr
  | .free ptr => ptr
  | .write ptr _ _ => ptr

structure Faithful (w : World) (c : Call) (r : Outcome) : Prop where
  /-- A block is aligned and as large as asked for. -/
  block : ∀ n, c.asks = some n → r.ret ≠ 0 → 16 ∣ r.ret ∧
    ∃ t ∈ (w.step c r).regions, r.ret = t.addr + headerSize ∧ r.ret + n ≤ t.addr + t.len
  /-- The other live blocks keep their bytes. -/
  kept : ∀ q k, w.live q = some k → q ≠ c.target → ∀ j < k, r.heap.mem (q + j) = w.heap.mem (q + j)
  /-- `realloc` keeps the bytes, at the new place or, if it fails, at the old one. -/
  moved : ∀ p n ans k, c = .realloc p n ans → w.live p = some k → n ≠ 0 →
    (r.ret ≠ 0 → ∀ j < min k n, r.heap.mem (r.ret + j) = w.heap.mem (p + j)) ∧
      (r.ret = 0 → ∀ j < k, r.heap.mem (p + j) = w.heap.mem (p + j))
  zeroed : ∀ k n ans, c = .calloc k n ans → r.ret ≠ 0 → ∀ j < k * n, r.heap.mem (r.ret + j) = 0

/-! ### Bytes of live blocks -/

variable {w : World} {s : Region} {m' : Mem} {r : Outcome} {ans : Answers}
  {p q k n j size fuel : ℕ}

theorem World.Inv.live_range (h : w.Inv) (hq : w.live q = some k) :
    ∃ t ∈ w.regions, q = t.addr + headerSize ∧ q + k ≤ t.addr + t.len := by
  obtain ⟨t, ht, rfl, hk⟩ := h.region_of_live hq
  have hroom := (h.header t ht).room
  exact ⟨t, ht, rfl, by omega⟩

theorem World.Inv.bytes_of_frame (h : w.Inv) (hs : s ∈ w.regions)
    (hframe : Frame w.heap.mem m' s.addr s.len) (hq : w.live q = some k)
    (hne : q ≠ s.addr + headerSize) (hj : j < k) : m' (q + j) = w.heap.mem (q + j) := by
  obtain ⟨t, ht, rfl, hk⟩ := h.live_range hq
  have hapart := h.apart_of_ne hs ht (fun heq => hne (by rw [heq]))
  unfold Region.Apart at hapart
  exact hframe _ (by omega)

theorem Allocated.bytes (h : w.Inv) (ha : Allocated w size r) (hq : w.live q = some k)
    (hj : j < k) : r.heap.mem (q + j) = w.heap.mem (q + j) := by
  obtain ⟨t, ht, rfl, hk⟩ := h.live_range hq
  have hne : t.addr + headerSize ≠ r.ret := by
    intro heq
    rw [heq, ha.unowned] at hq
    cases hq
  exact ha.data t ht hne _ (by omega) (by omega)

theorem World.after_live_ret (w : World) (r : Outcome) (size : ℕ) :
    (w.after r (update w.live r.ret (some size))).live r.ret = some size :=
  update_self _ _ _

theorem Allocated.ret_ne_zero (ha : Allocated w size r) : r.ret ≠ 0 := by
  intro hzero
  have hlive := w.after_live_ret r size
  rw [hzero] at hlive
  have hnone := ha.inv.live_zero
  rw [hzero] at hnone
  cases hnone

theorem World.Inv.block (h : w.Inv) (hp : w.live p = some n) :
    16 ∣ p ∧ ∃ t ∈ w.regions, p = t.addr + headerSize ∧ p + n ≤ t.addr + t.len := by
  obtain ⟨t, ht, rfl, hn⟩ := h.live_range hp
  exact ⟨dvd_add (h.placed t ht).2.2.1 (by decide), t, ht, rfl, hn⟩

/-! ### `calloc` and `realloc` -/

theorem World.Inv.write_data (h : w.Inv) (hs : s ∈ w.regions) {a len : ℕ}
    (hframe : Frame w.heap.mem m' a len) (ha : s.addr + headerSize ≤ a)
    (hlen : a + len ≤ s.addr + s.len) :
    World.Inv { w with heap := { w.heap with mem := m' } } := by
  have hread : readBlock m' s.addr = readBlock w.heap.mem s.addr :=
    readBlock_frame hframe (by omega)
  refine h.change hs (hframe.mono (by omega) hlen) ?_ ?_ fun _ _ => rfl
  · unfold nextBlock
    rw [hread]
  · exact (h.header s hs).congr hread

theorem Allocated.fill (ha : Allocated w size r) :
    Allocated w size { r with heap := { r.heap with mem := fill r.heap.mem r.ret size 0 } } := by
  obtain ⟨t, ht, hret, hsize⟩ := ha.inv.live_range (w.after_live_ret r size)
  have hframe := Frame.fill r.heap.mem r.ret size 0
  -- an old region other than the one allocated does not meet the new block
  have hout : ∀ s ∈ w.regions, s.addr + headerSize ≠ r.ret → t.Apart s := by
    intro s hs hne
    refine ha.inv.apart_of_ne ht (ha.kept s hs) fun heq => hne ?_
    rw [hret, heq]
  constructor
  · exact ha.inv.write_data ht hframe hret.ge hsize
  · exact ha.unowned
  · exact ha.kept
  · intro s hs hne x h1 h2
    have hapart := hout s hs hne
    unfold Region.Apart at hapart
    exact (hframe x (by omega)).trans (ha.data s hs hne x h1 h2)
  · intro s hs hne
    have hapart := hout s hs hne
    unfold Region.Apart at hapart
    exact (congrArg MallocBlock.size (readBlock_frame hframe (by omega))).trans (ha.sizes s hs hne)

theorem calloc_spec (h : w.Inv) {nmemb : ℕ} (hans : ans.Fresh w (nmemb * size))
    (hfuel : w.regions.length < fuel) :
    ∃ r, w.heap.calloc fuel nmemb size ans = some r ∧ (r = { ret := 0, heap := w.heap } ∨
        Allocated w (nmemb * size) r ∧ ∀ j < nmemb * size, r.heap.mem (r.ret + j) = 0) := by
  unfold Heap.calloc
  dsimp only
  split_ifs with hover
  · exact ⟨_, rfl, .inl rfl⟩
  · have hfit : u64 (nmemb * size) = nmemb * size := by
      refine u64_of_lt ?_
      rcases Nat.eq_zero_or_pos nmemb with rfl | hpos
      · simp
      · have hle : size ≤ maxSize / nmemb := not_lt.mp fun hlt => hover ⟨hpos.ne', hlt⟩
        have := (Nat.le_div_iff_mul_le hpos).mp hle
        rw [mul_comm] at this
        unfold maxSize at this
        omega
    obtain ⟨r, hr, hcase⟩ := malloc_spec h hans hfuel
    rw [hfit, hr]
    rcases hcase with ⟨rfl, -⟩ | ha
    · exact ⟨_, if_neg (not_not.mpr rfl), .inl rfl⟩
    · refine ⟨_, if_pos ha.ret_ne_zero, .inr ⟨ha.fill, fun j hj => ?_⟩⟩
      exact fill_apply _ _ hj

theorem resize_spec (h : w.Inv) (hs : s ∈ w.regions)
    (hlive : w.live (s.addr + headerSize) = some k)
    (hsize : size ≤ (readBlock w.heap.mem s.addr).size) :
    World.Inv { w with
      heap := { w.heap with mem := setField w.heap.mem s.addr .size size }
      live := update w.live (s.addr + headerSize) (some size) } := by
  have hhead := h.header s hs
  have hroom := hhead.room
  have htop := (h.placed s hs).2.2.2
  have hread := @readBlock_setSize w.heap.mem s.addr size (by unfold userVaTop at htop; omega)
  refine h.change hs ((frame_setField _ _ _ _).mono le_rfl (by omega)) ?_ ?_
    fun p hp => update_of_ne hp _ _
  · unfold nextBlock
    rw [hread]
  · rw [update_self]
    constructor <;> try rw [hread]
    · dsimp only
      omega
    · exact hhead.mapLen
    · exact hhead.magic
    · simpa [hlive] using hhead.flags
    · simp
    · rintro n ⟨rfl⟩
      exact le_rfl

theorem move_spec (h : w.Inv) (hp : w.live p = some k) (ha : Allocated w size r)
    (hgrow : (readBlock w.heap.mem (p - headerSize)).size < size) (hfuel : 0 < fuel) :
    ∃ f, Heap.move fuel r p = some f ∧ f.ret = r.ret ∧
      (w.after f (update (update w.live p none) r.ret (some size))).Inv ∧
      (∀ j < k, f.heap.mem (r.ret + j) = w.heap.mem (p + j)) ∧
      ∀ q n, w.live q = some n → q ≠ p → ∀ j < n, f.heap.mem (q + j) = w.heap.mem (q + j) := by
  obtain ⟨s, hs, rfl, hk⟩ := h.region_of_live hp
  rw [Nat.add_sub_cancel] at hgrow
  have hne : s.addr + headerSize ≠ r.ret := by
    intro heq
    rw [heq, ha.unowned] at hp
    cases hp
  obtain ⟨t, ht, hret, hsize⟩ := ha.inv.live_range (w.after_live_ret r size)
  have hroom := (h.header s hs).room
  have hapart : t.Apart s := by
    refine ha.inv.apart_of_ne ht (ha.kept s hs) fun heq => hne ?_
    rw [hret, heq]
  unfold Region.Apart at hapart
  -- the copy stays inside the new block, and its source has not changed since the call began
  have hsame := ha.sizes s hs hne
  have hframe := Lib.Frame.copy r.heap.mem r.ret (s.addr + headerSize)
    (readBlock w.heap.mem s.addr).size
  have hinv := ha.inv.write_data ht hframe hret.ge (by omega)
  have hlive : (w.after r (update w.live r.ret (some size))).live (s.addr + headerSize) =
      some k := (update_of_ne hne _ _).trans hp
  obtain ⟨f, hf, _, hfinv, hfframe⟩ := free_spec hinv hlive hfuel
  dsimp only [World.after] at hf hfframe
  refine ⟨{ ret := r.ret, heap := f.heap, sys := r.sys ++ f.sys }, ?_, rfl, ?_, ?_, ?_⟩
  · simp only [Heap.move, Nat.add_sub_cancel, hsame]
    rw [hf]
  · rw [update_comm hne]
    simpa only [World.after, foldl_append] using hfinv
  · intro j hj
    have hcopy := hfframe (r.ret + j) (by unfold headerSize at *; omega)
    rw [copy_apply _ (by omega) (by omega)] at hcopy
    exact hcopy.trans (ha.bytes h hp hj)
  · intro q n hq hqp j hj
    obtain ⟨u, hu, rfl, hn⟩ := h.live_range hq
    have hus := h.apart_of_ne hs hu (fun heq => hqp (by rw [heq]))
    have hut : t.Apart u := by
      refine ha.inv.apart_of_ne ht (ha.kept u hu) fun heq => ?_
      rw [← heq, ← hret, ha.unowned] at hq
      cases hq
    unfold Region.Apart at hus hut
    calc f.heap.mem (u.addr + headerSize + j)
        = copy r.heap.mem r.ret (s.addr + headerSize) (readBlock w.heap.mem s.addr).size
            (u.addr + headerSize + j) := hfframe _ (by omega)
      _ = r.heap.mem (u.addr + headerSize + j) := hframe _ (by omega)
      _ = w.heap.mem (u.addr + headerSize + j) := ha.bytes h hq hj

/-! ### Single calls -/

structure Behaves (w : World) (c : Call) (r : Outcome) : Prop where
  inv : (w.step c r).Inv
  kept : ∀ q k, w.live q = some k → q ≠ c.target → ∀ j < k, r.heap.mem (q + j) = w.heap.mem (q + j)
  moved : ∀ p n ans k, c = .realloc p n ans → w.live p = some k → n ≠ 0 →
    (r.ret ≠ 0 → ∀ j < min k n, r.heap.mem (r.ret + j) = w.heap.mem (p + j)) ∧
      (r.ret = 0 → NoMemory ans n ∧ r = { ret := 0, heap := w.heap })
  zeroed : ∀ k n ans, c = .calloc k n ans → r.ret ≠ 0 → ∀ j < k * n, r.heap.mem (r.ret + j) = 0

theorem Behaves.faithful {c : Call} (h : Behaves w c r) : Faithful w c r where
  block n hn hret := by
    refine h.inv.block ?_
    cases c <;> cases hn <;> simp [World.step, World.after, Call.liveAfter, hret]
  kept := h.kept
  moved p n ans k hc hp hn := (h.moved p n ans k hc hp hn).imp_right fun hfail hret _ _ => by
    rw [(hfail hret).2]
  zeroed := h.zeroed

theorem malloc_behaves (h : w.Inv) (hok : (Call.malloc size ans).Ok w)
    (hfuel : w.regions.length < fuel) :
    ∃ r, (Call.malloc size ans).run fuel w.heap = some r ∧ Behaves w (.malloc size ans) r := by
  obtain ⟨r, hr, ⟨rfl, -⟩ | ha⟩ := malloc_spec h hok hfuel
  · exact ⟨_, hr, h, fun _ _ _ _ _ _ => rfl, nofun, nofun⟩
  · refine ⟨r, hr, ?_, fun q k hq _ j hj => ha.bytes h hq hj, nofun, nofun⟩
    simpa only [World.step, Call.liveAfter, if_pos ha.ret_ne_zero] using ha.inv

theorem calloc_behaves (h : w.Inv) {nmemb : ℕ} (hok : (Call.calloc nmemb size ans).Ok w)
    (hfuel : w.regions.length < fuel) :
    ∃ r, (Call.calloc nmemb size ans).run fuel w.heap = some r ∧
      Behaves w (.calloc nmemb size ans) r := by
  obtain ⟨r, hr, rfl | ⟨ha, hzero⟩⟩ := calloc_spec h hok hfuel
  · exact ⟨_, hr, h, fun _ _ _ _ _ _ => rfl, nofun, fun _ _ _ _ hne => absurd rfl hne⟩
  · refine ⟨r, hr, ?_, fun q k hq _ j hj => ha.bytes h hq hj, nofun, ?_⟩
    · simpa only [World.step, Call.liveAfter, if_pos ha.ret_ne_zero] using ha.inv
    · rintro k n ans' ⟨⟩ _
      exact hzero

theorem free_behaves (h : w.Inv) (hok : (Call.free p).Ok w) (hfuel : 0 < fuel) :
    ∃ r, (Call.free p).run fuel w.heap = some r ∧ Behaves w (.free p) r := by
  rcases hok with rfl | ⟨k, hp⟩
  · obtain ⟨fuel, rfl⟩ := Nat.exists_eq_succ_of_ne_zero hfuel.ne'
    refine ⟨{ ret := 0, heap := w.heap }, rfl, ?_, fun _ _ _ _ _ _ => rfl, nofun, nofun⟩
    have hlive : update w.live 0 none = w.live :=
      update_eq_self_iff.mpr h.live_zero.symm
    simpa only [World.step, World.after, Call.liveAfter, hlive, foldl_nil] using h
  · obtain ⟨f, hf, _, hinv, hframe⟩ := free_spec h hp hfuel
    obtain ⟨s, hs, rfl⟩ := h.owner p k hp
    have hlen := h.headerSize_le hs
    refine ⟨f, hf, hinv, fun q n hq hne j hj => ?_, nofun, nofun⟩
    exact h.bytes_of_frame hs (hframe.mono le_rfl (by omega)) hq hne hj

theorem write_behaves (h : w.Inv) {c : UInt8} (hok : (Call.write p j c).Ok w) :
    ∃ r, (Call.write p j c).run fuel w.heap = some r ∧ Behaves w (.write p j c) r := by
  obtain ⟨n, hp, hj⟩ := hok
  obtain ⟨s, hs, rfl, hn⟩ := h.live_range hp
  have hframe : Frame w.heap.mem (update w.heap.mem (s.addr + headerSize + j) c)
      (s.addr + headerSize + j) 1 := fun x hx => update_of_ne (by omega) _ _
  refine ⟨_, rfl, h.write_data hs hframe (by omega) (by omega), fun q k hq hne i hi => ?_,
    nofun, nofun⟩
  exact h.bytes_of_frame hs (hframe.mono (by omega) (by omega)) hq hne hi

theorem realloc_behaves_live (h : w.Inv) (hans : ans.Fresh w n) (hfuel : w.regions.length < fuel)
    (hp : w.live p = some k) (hn : n ≠ 0) :
    ∃ r, (Call.realloc p n ans).run fuel w.heap = some r ∧ Behaves w (.realloc p n ans) r := by
  obtain ⟨s, hs, rfl, hk⟩ := h.region_of_live hp
  have hhead := h.header s hs
  have hlen := h.headerSize_le hs
  have hpos : s.addr + headerSize ≠ 0 := by unfold headerSize; omega
  simp only [Call.run, Heap.realloc, if_neg hpos, if_neg hn, Nat.add_sub_cancel,
    if_neg (not_not.mpr hhead.magic)]
  split_ifs with hfit
  · -- in place
    have hframe := frame_setField w.heap.mem s.addr .size n
    refine ⟨_, rfl, ?_, fun q i hq hne j hj => ?_, ?_, nofun⟩
    · simpa only [World.step, World.after, Call.liveAfter, if_pos hpos, update_idem,
        foldl_nil] using resize_spec h hs hp hfit
    · exact h.bytes_of_frame hs (hframe.mono le_rfl (by omega)) hq hne hj
    · rintro p' n' ans' k' ⟨⟩ _ _
      refine ⟨fun _ j _ => hframe (s.addr + headerSize + j) (by omega), fun hzero => ?_⟩
      exact absurd hzero hpos
  · obtain ⟨r, hr, hcase⟩ := malloc_spec h hans hfuel
    rw [hr]
    dsimp only
    rcases hcase with ⟨rfl, hnone⟩ | ha
    · -- no memory
      refine ⟨_, if_neg (not_not.mpr rfl), ?_, fun _ _ _ _ _ _ => rfl, ?_, nofun⟩
      · simpa [World.step, World.after, Call.liveAfter, hn] using h
      · rintro p' n' ans' k' ⟨⟩ _ _
        exact ⟨fun hne => absurd rfl hne, fun _ => ⟨hnone hn, rfl⟩⟩
    · -- to a new block
      obtain ⟨f, hf, hret, hinv, hdata, hother⟩ := move_spec h hp ha
        (by rw [Nat.add_sub_cancel]; omega) (Nat.zero_lt_of_lt hfuel)
      rw [if_pos ha.ret_ne_zero]
      refine ⟨f, hf, ?_, hother, ?_, nofun⟩
      · simpa only [World.step, Call.liveAfter, hret, if_pos ha.ret_ne_zero] using hinv
      · rintro p' n' ans' k' ⟨⟩ hp' _
        obtain rfl : k = k' := Option.some.inj (hp.symm.trans hp')
        rw [hret]
        exact ⟨fun _ j hj => hdata j (by omega), fun hzero => absurd hzero ha.ret_ne_zero⟩

theorem realloc_behaves (h : w.Inv) (hok : (Call.realloc p n ans).Ok w)
    (hfuel : w.regions.length < fuel) :
    ∃ r, (Call.realloc p n ans).run fuel w.heap = some r ∧ Behaves w (.realloc p n ans) r := by
  have hzero : update w.live 0 none = w.live :=
    update_eq_self_iff.mpr h.live_zero.symm
  obtain ⟨rfl | ⟨k, hp⟩, hans⟩ := hok
  · -- `malloc`
    obtain ⟨r, hr, hb⟩ := malloc_behaves h (show (Call.malloc n ans).Ok w from hans) hfuel
    refine ⟨r, hr, ?_, hb.kept, ?_, nofun⟩
    · have hinv := hb.inv
      simp only [World.step, Call.liveAfter, hzero] at hinv ⊢
      split_ifs at hinv ⊢ <;> exact hinv
    · rintro p' n' ans' k' ⟨⟩ hp' _
      rw [h.live_zero] at hp'
      cases hp'
  · by_cases hn : n = 0
    · -- `free`
      subst hn
      obtain ⟨f, hf, hret, _⟩ := free_spec h hp (Nat.zero_lt_of_lt hfuel)
      obtain ⟨f', hf', hb⟩ := free_behaves h (.inr ⟨k, hp⟩) (Nat.zero_lt_of_lt hfuel)
      obtain rfl : f = f' := Option.some.inj (hf.symm.trans hf')
      have hpos : p ≠ 0 := by
        rintro rfl
        rw [h.live_zero] at hp
        cases hp
      refine ⟨f, ?_, ?_, hb.kept, ?_, nofun⟩
      · simpa only [Call.run, Heap.realloc, if_neg hpos, if_true] using hf
      · have hinv := hb.inv
        simpa only [World.step, Call.liveAfter, hret, ne_eq, not_true, if_false, if_true] using hinv
      · rintro p' n' ans' k' ⟨⟩ _ hne
        exact absurd rfl hne
    · exact realloc_behaves_live h hans hfuel hp hn

theorem Call.behaves (h : w.Inv) {c : Call} (hok : c.Ok w) (hfuel : w.regions.length < fuel) :
    ∃ r, c.run fuel w.heap = some r ∧ Behaves w c r := by
  cases c with
  | malloc size ans => exact malloc_behaves h hok hfuel
  | calloc nmemb size ans => exact calloc_behaves h hok hfuel
  | realloc p n ans => exact realloc_behaves h hok hfuel
  | free p => exact free_behaves h hok (Nat.zero_lt_of_lt hfuel)
  | write p j c => exact write_behaves h hok

/-! ### Runs -/

theorem World.Reachable.inv (h : World.Reachable w) : w.Inv := by
  induction h with
  | start heap hfree => exact World.Inv.start heap hfree
  | step _ hc fuel hfuel hr ih =>
    obtain ⟨r', hr', hb⟩ := Call.behaves ih hc hfuel
    obtain rfl := Option.some.inj (hr.symm.trans hr')
    exact hb.inv

theorem World.Inv.part_range (h : w.Inv) (hs : s ∈ w.regions) {x : ℕ × ℕ}
    (hx : x ∈ (s.addr, headerSize) ::
      ((w.live (s.addr + headerSize)).map fun n => (s.addr + headerSize, n)).toList) :
    s.addr ≤ x.1 ∧ x.1 + x.2 ≤ s.addr + s.len := by
  have hlen := h.headerSize_le hs
  rcases mem_cons.mp hx with rfl | hx
  · exact ⟨le_rfl, by dsimp only; omega⟩
  · obtain ⟨n, hn, rfl⟩ : ∃ n, w.live (s.addr + headerSize) = some n ∧
        (s.addr + headerSize, n) = x := by simpa using hx
    have hroom := (h.header s hs).room
    have hasked := (h.header s hs).asked n hn
    omega

theorem World.Inv.sound (h : w.Inv) : w.Sound where
  disjoint := by
    refine pairwise_flatMap.mpr ⟨fun s hs => ?_, ?_⟩
    · refine pairwise_cons.mpr ⟨fun x hx => ?_, ?_⟩
      · obtain ⟨n, hn, rfl⟩ : ∃ n, w.live (s.addr + headerSize) = some n ∧
            (s.addr + headerSize, n) = x := by simpa using hx
        exact .inl le_rfl
      · cases w.live (s.addr + headerSize) <;> simp
    · refine h.apart.imp_of_mem fun {s t} hs ht hapart x hx y hy => ?_
      have hxr := h.part_range hs hx
      have hyr := h.part_range ht hy
      unfold Region.Apart at hapart
      omega
  listed p n hp := by
    obtain ⟨s, hs, rfl⟩ := h.owner p n hp
    refine mem_flatMap.mpr ⟨s, hs, mem_cons_of_mem _ ?_⟩
    simp [hp]
  freeList := ⟨sbrkBlocks w.regions, h.chain, h.chain.nodup, fun _ => mem_sbrkBlocks⟩

/-- **The allocator is correct**: in every world that calls lead to, headers, live blocks and the
free list are in order, and every call terminates and keeps its promise. -/
theorem allocator_correct (w : World) (hw : w.Reachable) :
    w.Sound ∧ ∀ c : Call, c.Ok w → ∀ fuel, w.regions.length < fuel →
      ∃ r, c.run fuel w.heap = some r ∧ Faithful w c r := by
  refine ⟨hw.inv.sound, fun c hc fuel hfuel => ?_⟩
  obtain ⟨r, hr, hb⟩ := Call.behaves hw.inv hc hfuel
  exact ⟨r, hr, hb.faithful⟩

def emptyHeap : Heap := ⟨fun _ => 0, 0⟩

def firstWorld : World :=
  World.step ⟨emptyHeap, [], fun _ => none⟩
    (.malloc 1 ⟨none, some ⟨0x10000000000, fun _ => 0⟩⟩)
    { ret := 0x10000000020
      heap := emptyHeap.grow ⟨0x10000000000, fun _ => 0⟩ 0 16
      sys := [.sbrk 0x10000000000 48] }

theorem firstWorld_reachable : firstWorld.Reachable := by
  refine .step (.start emptyHeap rfl) ?_ 1 Nat.zero_lt_one ?_
  · refine ⟨nofun, ?_⟩
    rintro g ⟨rfl⟩
    exact ⟨⟨by decide, by decide, by decide, by decide⟩, nofun⟩
  · rfl

/-- The world after a call that returns. -/
def World.next (fuel : ℕ) (w : World) (c : Call) : World :=
  ((c.run fuel w.heap).map (w.step c)).getD w

theorem World.Reachable.next (h : w.Reachable) (c : Call) (hc : c.Ok w)
    (hfuel : w.regions.length < fuel) : (w.next fuel c).Reachable := by
  unfold World.next
  cases hr : c.run fuel w.heap with
  | none => exact h
  | some r => exact h.step hc fuel hfuel hr

def sbrkAt (addr : ℕ) : Answers := ⟨none, some ⟨addr, fun _ => 0⟩⟩

/-- Two blocks, with a byte written into the first one. -/
def twoBlocks : World :=
  (firstWorld.next 2 (.malloc 100 (sbrkAt 0x10000000030))).next 3 (.write 0x10000000020 0 7)

theorem twoBlocks_reachable : twoBlocks.Reachable := by
  refine (firstWorld_reachable.next (.malloc 100 (sbrkAt 0x10000000030)) ⟨nofun, ?_⟩
    (by decide)).next
    (.write _ 0 7) ⟨1, by decide +kernel, by decide⟩ (by decide +kernel)
  rintro g ⟨rfl⟩
  exact ⟨⟨by decide, by decide, by decide, by decide⟩, by unfold Region.Apart; decide⟩

theorem twoBlocks_fresh : (sbrkAt 0x100000000c0).Fresh twoBlocks 50 := by
  refine ⟨nofun, ?_⟩
  rintro g ⟨rfl⟩
  exact ⟨⟨by decide, by decide, by decide, by decide⟩, by unfold Region.Apart; decide +kernel⟩

/-- The first of two blocks is moved behind the second one, which is freed. -/
theorem allocator_correct_moved :
    let w := (twoBlocks.next 3 (.realloc 0x10000000020 50 (sbrkAt 0x100000000c0))).next 4
      (.free 0x10000000050)
    w.live 0x100000000e0 = some 50 ∧ w.heap.mem 0x100000000e0 = 7 ∧ w.Sound := by
  refine ⟨by decide +kernel, by decide +kernel, (allocator_correct _ ((twoBlocks_reachable.next
    (.realloc _ 50 _) ⟨.inr ⟨1, by decide +kernel⟩, twoBlocks_fresh⟩ (by decide +kernel)).next
    (.free _) (.inr ⟨100, by decide +kernel⟩) (by decide +kernel))).1⟩

/-- **What fresh memory must be.** At an address that is no multiple of 16 it gives a pointer that
is not aligned; a mapping may be empty; memory at the address 0 does not get into the list; and
beyond user space a block can be so large that its size is taken for the magic of an aligned block,
and `free` writes outside of it. -/
theorem unaligned_block :
    (∃ g : Grant, ∃ r, (Call.malloc 1 ⟨none, some g⟩).run 1 emptyHeap = some r ∧ r.ret ≠ 0 ∧
      ¬ 16 ∣ r.ret) ∧
    (∃ g : Grant, ∃ r, (Call.malloc (2 ^ 64 - 64) ⟨some g, none⟩).run 1 emptyHeap = some r ∧
      r.ret ≠ 0 ∧ r.sys = [.mmap g.addr 0]) ∧
    (∃ r, (Call.malloc 1 (sbrkAt 0)).run 1 emptyHeap = some r ∧ r.ret ≠ 0 ∧ r.heap.freeList = 0) ∧
    ∃ (h : Heap) (g : Grant) (r₁ r₂ r₃ : Outcome) (x : ℕ),
      (Call.malloc mallocAlignedMagic ⟨some g, none⟩).run 1 h = some r₁ ∧
      (Call.realloc r₁.ret mallocAlignedMagic ⟨none, none⟩).run 1 r₁.heap = some r₂ ∧
      (Call.free r₁.ret).run 2 r₂.heap = some r₃ ∧ x < g.addr ∧
      r₃.heap.mem x ≠ r₂.heap.mem x := by
  refine ⟨⟨⟨8, fun _ => 0⟩, _, rfl, by decide, by decide⟩,
    ⟨⟨0x1000, fun _ => 0⟩, _, rfl, by decide, rfl⟩, ⟨_, rfl, by decide, rfl⟩,
    ⟨put (fun _ => 0) (0x5441544552415000 - 8) [0x4C, 0x4C, 0x41, 0x4D], 0⟩,
    ⟨0x6000000000000000, fun _ => 0⟩, _, _, _, 0x5441544552415000 - 4, rfl, rfl, rfl, by decide,
    by decide +kernel⟩

end TaterTOS.Libc
