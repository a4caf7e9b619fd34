import TaterTOS.Libc.Blocks

/-!
# What each call of the allocator does
-/

namespace TaterTOS.Libc

open Function Lib Vmm

def World.after (w : World) (r : Outcome) (live' : ℕ → Option ℕ) : World :=
  ⟨r.heap, r.sys.foldl Sys.apply w.regions, live'⟩

def Answers.Fresh (ans : Answers) (w : World) (size : ℕ) : Prop :=
  (∀ g, ans.mmap = some g → w.Fresh ⟨g.addr, mapLength (alignUp size 16), true⟩) ∧
    ∀ g, ans.sbrk = some g → w.Fresh ⟨g.addr, alignUp size 16 + headerSize, false⟩

structure Allocated (w : World) (size : ℕ) (r : Outcome) : Prop where
  inv : (w.after r (update w.live r.ret (some size))).Inv
  unowned : w.live r.ret = none
  kept : ∀ s ∈ w.regions, s ∈ r.sys.foldl Sys.apply w.regions
  data : ∀ s ∈ w.regions, s.addr + headerSize ≠ r.ret →
    ∀ x, s.addr + headerSize ≤ x → x < s.addr + s.len → r.heap.mem x = w.heap.mem x
  sizes : ∀ s ∈ w.regions, s.addr + headerSize ≠ r.ret →
    (readBlock r.heap.mem s.addr).size = (readBlock w.heap.mem s.addr).size

variable {w : World} {r s : Region} {size n fuel : ℕ} {ans : Answers} {g : Grant}

/-! ### Sizes -/

theorem alignUp_pow (v : ℕ) {k : ℕ} (hk : k ≤ 64) :
    alignUp v (2 ^ k) = u64 (v + 2 ^ k - 1) / 2 ^ k * 2 ^ k :=
  and_not64_two_pow _ hk (u64_lt _)

theorem le_alignUp_size (h : size ≤ maxSize - 15) : size ≤ alignUp size 16 := by
  unfold maxSize at h
  exact (alignUp_spec (k := 4) (by norm_num) (by omega)).1

theorem le_mapLength (h : 0 < mapLength size) (hsize : size ≤ maxSize - headerSize) :
    size + headerSize ≤ mapLength size := by
  unfold mapLength at *
  rw [show 4096 = 2 ^ 12 by norm_num, alignUp_pow _ (by norm_num)] at *
  unfold u64 maxSize headerSize at *
  omega

/-! ### New blocks -/

def Region.block (r : Region) (size : ℕ) : MallocBlock where
  size := size
  mapLen := if r.mapped then r.len else 0
  next := 0
  magic := mallocMagic
  flags := if r.mapped then flagMmap else 0

theorem readBlock_block (m : Mem) (hroom : size + headerSize ≤ r.len) (hlen : r.len ≤ userVaTop) :
    readBlock (writeBlock m r.addr (r.block size)) r.addr = r.block size := by
  unfold userVaTop at hlen
  refine readBlock_writeBlock ⟨?_, ?_, ?_, ?_, ?_⟩
  · show size < 2 ^ 64
    omega
  · show (if r.mapped then r.len else 0) < 2 ^ 64
    split_ifs <;> omega
  · norm_num [Region.block]
  · norm_num [Region.block, mallocMagic]
  · show (if r.mapped then flagMmap else 0) < 2 ^ 32
    split_ifs <;> norm_num [flagMmap]

theorem HeaderOk.new {m : Mem} (hread : readBlock m r.addr = r.block size) (hn : n ≤ size)
    (hroom : size + headerSize ≤ r.len) : HeaderOk m r (some n) := by
  constructor
  · rw [hread]
    exact hroom
  · rw [hread]
    rfl
  · rw [hread]
    rfl
  · rw [hread]
    simp [Region.block]
  · simp
  · rintro k ⟨rfl⟩
    rw [hread]
    exact hn

theorem frame_new (m contents : Mem) (a len : ℕ) (k : MallocBlock) (hlen : headerSize ≤ len) :
    Frame m (writeBlock (overlay m contents a len) a k) a len :=
  (Frame.overlay m contents a len).trans ((frame_writeBlock _ a k).mono le_rfl (by omega))

theorem frame_data {m' : Mem} (hframe : Frame w.heap.mem m' r.addr r.len) (hapart : r.Apart s)
    {x : ℕ} (h1 : s.addr + headerSize ≤ x) (h2 : x < s.addr + s.len) : m' x = w.heap.mem x := by
  unfold Region.Apart at hapart
  exact hframe x (by omega)

/-! ### `malloc` -/

theorem map_spec (h : w.Inv) (hn : n ≤ size) (hsize : size ≤ maxSize - headerSize)
    (hr : w.Fresh ⟨g.addr, mapLength size, true⟩) :
    Allocated w n
      { ret := g.addr + headerSize
        heap := w.heap.map g size (mapLength size)
        sys := [.mmap g.addr (mapLength size)] } := by
  have hroom := le_mapLength hr.1.2.1 hsize
  have hframe : Frame w.heap.mem (w.heap.map g size (mapLength size)).mem g.addr (mapLength size) :=
    frame_new w.heap.mem g.contents g.addr (mapLength size) _ (by omega)
  have hread := readBlock_block (r := ⟨g.addr, mapLength size, true⟩)
    (overlay w.heap.mem g.contents g.addr (mapLength size)) hroom
    (le_trans (Nat.le_add_left _ _) hr.1.2.2.2)
  constructor
  · exact h.mmap hr rfl hframe (HeaderOk.new hread hn hroom)
  · exact h.live_fresh hr
  · intro s hs
    exact List.mem_append_left _ hs
  · intro s hs _ x h1 h2
    exact frame_data hframe (hr.2 s hs) h1 h2
  · intro s hs _
    exact congrArg MallocBlock.size
      (h.readBlock_eq (r := ⟨g.addr, mapLength size, true⟩) hs hframe (hr.2 s hs))

theorem grow_eq (hn : n ≤ size) (hr : w.Fresh ⟨g.addr, size + headerSize, false⟩) :
    ∃ m, (∀ prev, w.heap.grow g prev size = if prev ≠ 0 then
        { w.heap with mem := setField m prev .next g.addr } else ⟨m, g.addr⟩) ∧
      Frame w.heap.mem m g.addr (size + headerSize) ∧
      HeaderOk m ⟨g.addr, size + headerSize, false⟩ (some n) ∧ nextBlock m g.addr = 0 := by
  have hread := readBlock_block (r := ⟨g.addr, size + headerSize, false⟩)
    (overlay w.heap.mem g.contents g.addr (size + headerSize)) le_rfl
    (le_trans (Nat.le_add_left _ _) hr.1.2.2.2)
  exact ⟨_, fun _ => rfl, frame_new w.heap.mem g.contents g.addr (size + headerSize) _ (by omega),
    HeaderOk.new hread hn le_rfl, congrArg MallocBlock.next hread⟩

theorem grow_spec (h : w.Inv) (hn : n ≤ size)
    (hr : w.Fresh ⟨g.addr, size + headerSize, false⟩) :
    Allocated w n
      { ret := g.addr + headerSize
        heap := w.heap.grow g ((sbrkBlocks w.regions).getLast?.getD 0) size
        sys := [.sbrk g.addr (size + headerSize)] } := by
  obtain ⟨m, hgrow, hframe, hnew, hnil⟩ := grow_eq hn hr
  have hkept : ∀ s ∈ w.regions, s ∈ w.regions ++ [⟨g.addr, size + headerSize, false⟩] :=
    fun s hs => List.mem_append_left _ hs
  rcases (sbrkBlocks w.regions).eq_nil_or_concat with hempty | ⟨l, prev, hlast⟩
  · rw [hempty, hgrow]
    refine ⟨h.sbrk_first hr rfl hframe hnew hnil hempty, h.live_fresh hr, hkept, ?_, ?_⟩
    · intro s hs _ x h1 h2
      exact frame_data hframe (hr.2 s hs) h1 h2
    · intro s hs _
      exact congrArg MallocBlock.size (h.readBlock_eq
        (r := ⟨g.addr, size + headerSize, false⟩) hs hframe (hr.2 s hs))
  · have hprev : prev ≠ 0 := h.chain.ne_nil prev (by rw [hlast]; simp)
    have hheap : w.heap.grow g ((sbrkBlocks w.regions).getLast?.getD 0) size =
        { w.heap with mem := setField m prev .next g.addr } := by
      rw [hgrow, hlast]
      simp [hprev]
    obtain ⟨t, ht, _, rfl⟩ := mem_sbrkBlocks.mp
      (show prev ∈ sbrkBlocks w.regions by rw [hlast]; simp)
    have htlen := h.headerSize_le ht
    have hlink := frame_setField m t.addr .next g.addr
    rw [hheap]
    refine ⟨h.sbrk_link hr rfl hframe hnew hnil (by simpa using hlast), h.live_fresh hr, hkept,
      ?_, ?_⟩
    · intro s hs _ x h1 h2
      have hout : x < t.addr ∨ t.addr + headerSize ≤ x := by
        by_cases heq : s = t
        · exact .inr (heq ▸ h1)
        · have hapart := h.apart_of_ne ht hs (Ne.symm heq)
          unfold Region.Apart at hapart
          omega
      exact (hlink x hout).trans (frame_data hframe (hr.2 s hs) h1 h2)
    · intro s hs _
      have hold := congrArg MallocBlock.size (h.readBlock_eq
        (r := ⟨g.addr, size + headerSize, false⟩) hs hframe (hr.2 s hs))
      refine Eq.trans ?_ hold
      by_cases heq : s = t
      · subst heq
        exact getField_setField_ne (by decide)
      · have hapart := h.apart_of_ne ht hs (Ne.symm heq)
        have hslen := h.headerSize_le hs
        unfold Region.Apart at hapart
        exact congrArg MallocBlock.size (readBlock_frame hlink (by omega))

theorem reuse_spec (h : w.Inv) (hn : n ≤ size) (hs : s ∈ w.regions) (hmapped : s.mapped = false)
    (hfits : fits w.heap.mem size s.addr = true) :
    Allocated w n
      { ret := s.addr + headerSize
        heap := { w.heap with
          mem := setField w.heap.mem s.addr .flags
            ((readBlock w.heap.mem s.addr).flags &&& not32 flagFree) } } := by
  have hhead := h.header s hs
  have hlen := h.headerSize_le hs
  obtain ⟨hfree, hsize⟩ : (readBlock w.heap.mem s.addr).flags &&& flagFree ≠ 0 ∧
      size ≤ (readBlock w.heap.mem s.addr).size := by simpa [fits] using hfits
  have hnone : w.live (s.addr + headerSize) = none := by
    by_contra hne
    rw [hhead.flags, if_neg hne, hmapped] at hfree
    exact hfree rfl
  have hflags : (readBlock w.heap.mem s.addr).flags &&& not32 flagFree = 0 := by
    rw [hhead.flags, if_pos hnone, hmapped]
    rfl
  have hframe := frame_setField w.heap.mem s.addr .flags 0
  have hread := @readBlock_setFlags w.heap.mem s.addr 0 (by norm_num)
  rw [hflags]
  constructor
  · refine h.change hs (hframe.mono le_rfl (by omega)) ?_ ?_ fun p hp => update_of_ne hp _ _
    · unfold nextBlock
      rw [hread]
    · rw [update_self]
      constructor <;> try rw [hread]
      · exact hhead.room
      · exact hhead.mapLen
      · exact hhead.magic
      · simp [hmapped]
      · simp
      · rintro k ⟨rfl⟩
        exact hn.trans hsize
  · exact hnone
  · exact fun t ht => ht
  · intro t ht hne x h1 h2
    have hapart := h.apart_of_ne hs ht (fun heq => hne (by rw [heq]))
    unfold Region.Apart at hapart
    exact hframe x (by omega)
  · intro t ht hne
    have hapart := h.apart_of_ne hs ht (fun heq => hne (by rw [heq]))
    have htlen := h.headerSize_le ht
    unfold Region.Apart at hapart
    exact congrArg MallocBlock.size (readBlock_frame hframe (by omega))

theorem mallocList_spec (h : w.Inv) (hn : n ≤ size) (hfuel : w.regions.length < fuel)
    (hans : ∀ g, ans.sbrk = some g → w.Fresh ⟨g.addr, size + headerSize, false⟩) :
    ∃ r, w.heap.mallocList fuel size ans = some r ∧
      (r = { ret := 0, heap := w.heap } ∧ ans.sbrk = none ∨ Allocated w n r) := by
  have hlength : (sbrkBlocks w.regions).length < fuel := by
    refine lt_of_le_of_lt ?_ hfuel
    simpa [sbrkBlocks] using List.length_filter_le _ _
  unfold Heap.mallocList
  rcases seek_spec (fits w.heap.mem size) 0 h.chain hlength with ⟨hseek, _⟩ | ⟨l1, x, l2, hl,
    hx, hseek⟩
  · rw [hseek]
    dsimp only
    cases hg : ans.sbrk with
    | none => exact ⟨_, rfl, .inl ⟨rfl, rfl⟩⟩
    | some g => exact ⟨_, rfl, .inr (grow_spec h hn (hans g hg))⟩
  · obtain ⟨s, hs, hmapped, rfl⟩ := mem_sbrkBlocks.mp
      (show x ∈ sbrkBlocks w.regions by rw [hl]; simp)
    rw [hseek]
    dsimp only
    rw [if_pos (h.placed s hs).1.ne']
    exact ⟨_, rfl, .inr (reuse_spec h hn hs hmapped hx)⟩

def NoMemory (ans : Answers) (size : ℕ) : Prop := ans.sbrk = none ∨ userVaTop < size

theorem malloc_spec (h : w.Inv) (hans : ans.Fresh w size) (hfuel : w.regions.length < fuel) :
    ∃ r, w.heap.malloc fuel size ans = some r ∧
      (r = { ret := 0, heap := w.heap } ∧ (size ≠ 0 → NoMemory ans size) ∨ Allocated w size r) := by
  have hlist (hn : size ≤ alignUp size 16) :
      ∃ r, w.heap.mallocList fuel (alignUp size 16) ans = some r ∧
      (r = { ret := 0, heap := w.heap } ∧ (size ≠ 0 → NoMemory ans size) ∨ Allocated w size r) := by
    obtain ⟨r, hr, hcase⟩ := mallocList_spec h hn hfuel hans.2
    exact ⟨r, hr, hcase.imp_left fun hnull => ⟨hnull.1, fun _ => .inl hnull.2⟩⟩
  unfold Heap.malloc
  dsimp only
  split_ifs with hzero hmax hover hlarge
  · exact ⟨_, rfl, .inl ⟨rfl, fun hne => absurd hzero hne⟩⟩
  · refine ⟨_, rfl, .inl ⟨rfl, fun _ => .inr (lt_of_le_of_lt ?_ hmax)⟩⟩
    unfold userVaTop maxSize
    omega
  · have hle : alignUp size 16 ≤ size + 15 := Nat.and_le_left.trans (Nat.mod_le _ _)
    refine ⟨_, rfl, .inl ⟨rfl, fun _ => .inr ?_⟩⟩
    unfold userVaTop
    unfold maxSize headerSize at hover
    omega
  · have hn := le_alignUp_size (not_lt.mp hmax)
    cases hg : ans.mmap with
    | none => exact hlist hn
    | some g => exact ⟨_, rfl, .inr (map_spec h hn (not_lt.mp hover) (hans.1 g hg))⟩
  · exact hlist (le_alignUp_size (not_lt.mp hmax))

/-! ### `free` -/

theorem not_isAligned (h : w.Inv) (hr : r ∈ w.regions) :
    isAligned w.heap.mem (r.addr + headerSize) = false := by
  have hroom := (h.header r hr).room
  have hplaced := (h.placed r hr).2.2.2
  have hsize : load w.heap.mem r.addr 8 = (readBlock w.heap.mem r.addr).size := rfl
  have hne : load w.heap.mem r.addr 8 ≠ mallocAlignedMagic := by
    unfold userVaTop at hplaced
    unfold mallocAlignedMagic
    omega
  simp [isAligned, hne]

theorem free_sbrk (h : w.Inv) (hr : r ∈ w.regions) (hmapped : r.mapped = false) : World.Inv { w with
      heap := { w.heap with mem := setField w.heap.mem r.addr .flags flagFree }
      live := update w.live (r.addr + headerSize) none } := by
  have hhead := h.header r hr
  have hlen := h.headerSize_le hr
  have hread := @readBlock_setFlags w.heap.mem r.addr flagFree (by norm_num [flagFree])
  refine h.change hr ((frame_setField _ _ _ _).mono le_rfl (by omega)) ?_ ?_
    fun p hp => update_of_ne hp _ _
  · unfold nextBlock
    rw [hread]
  · constructor <;> try rw [hread]
    · exact hhead.room
    · exact hhead.mapLen
    · exact hhead.magic
    · simp [hmapped]
    · simp [hmapped]
    · simp

theorem free_spec (h : w.Inv) {p : ℕ} (hp : w.live p = some n) (hfuel : 0 < fuel) :
    ∃ f, w.heap.free fuel p = some f ∧ f.ret = 0 ∧ (w.after f (update w.live p none)).Inv ∧
      Frame w.heap.mem f.heap.mem (p - headerSize) headerSize := by
  obtain ⟨r, hr, rfl, hn⟩ := h.region_of_live hp
  have hhead := h.header r hr
  have hflags : (readBlock w.heap.mem r.addr).flags = if r.mapped then flagMmap else 0 := by
    rw [hhead.flags, hp]
    simp
  obtain ⟨fuel, rfl⟩ := Nat.exists_eq_succ_of_ne_zero hfuel.ne'
  unfold Heap.free
  dsimp only
  rw [not_isAligned h hr,
    Nat.add_sub_cancel, if_neg (not_not.mpr hhead.magic), hflags]
  cases hmapped : r.mapped with
  | true =>
    exact ⟨_, rfl, rfl, h.munmap hr hmapped, Frame.refl _ _ _⟩
  | false =>
    exact ⟨_, rfl, rfl, free_sbrk h hr hmapped, frame_setField _ _ _ _⟩

end TaterTOS.Libc
