import TaterTOS.Vm.Shared

/-!
# New mappings

What `SYS_MMAP` can do to a process.
-/

namespace TaterTOS.Vm

open Function Lib Vmm List

variable {s : State} {length : ℕ}

/-! ### What a new mapping can be -/

/-- From `s` to `s'` the pages from `b` on were mapped to the frames of a file in memory, each page
unless a page table was missing. -/
structure MemfdMapped (s s' : State) (b flags : ℕ) (frames : List ℕ) : Prop where
  took : ∃ new, Took s s' ∅ new
  objects : s'.objects = s.objects
  out : ∀ n, ¬ (b ≤ n ∧ n < b + frames.length) → s'.pages n = s.pages n
  entry : ∀ i (hi : i < frames.length), s'.pages (b + i) =
    if (s.env.maps.getD i (true, [])).1 then some (frameOf (frames.get ⟨i, hi⟩), pteFlags flags)
    else s.pages (b + i)

def Memfd.frames (mf : Memfd) (length : ℕ) : List ℕ :=
  (mf.pages.take (((if length < mf.size then length else mf.size) + 4095) / 4096)).takeWhile (· ≠ 0)

/-- From `s` to `s'` the pages of the region `r` were filled, those of a mapped file from `file`. -/
inductive Filled (s : State) (file : Fd) : State → Region → Prop
  | lazy {r : Region} (hc : r.committed = false) : Filled s file s r
  | owned {s' : State} {r : Region} {new : List ℕ} (hc : r.committed = true)
      (hk : r.kind = .anonPrivate ∨ r.kind = .filePrivate)
      (h : Committed s s' (r.base / 4096) (r.length / 4096)
        (pteFlags (vmProtToPteFlags r.prot)) new) : Filled s file s' r
  | shared {s1 s' : State} {r : Region} {id : Fin vmSharedMax} {new : List ℕ}
      (hc : r.committed = true) (hk : r.kind = .anonShared) (hid : r.backingId = id.val)
      (hstart : r.backingPageStart = 0) (hfree : (s.objects id).used = false)
      (hsmall : r.length / 4096 < 2 ^ 32)
      (hcreated : Created s s1 id (r.length / 4096) (r.length / 4096))
      (hmapped : Mapped s1 s' (r.base / 4096) (r.length / 4096)
        (pteFlags (vmProtToPteFlags r.prot ||| flagNofree)) (s1.objects id).pages new) :
      Filled s file s' r
  | memfd {s' : State} {r : Region} {mf : Memfd} (hc : r.committed = true)
      (hk : r.kind = .anonShared) (hid : r.backingId = vmBackingNone)
      (hmf : file = .memfd mf)
      (h : MemfdMapped s s' (r.base / 4096) (memfdFlags r.prot) (mf.frames r.length)) :
      Filled s file s' r

/-- The region `r` came into the free slot `slot`, its pages filled from `s` to `s1`. -/
structure Adds (s : State) (file : Fd) (s1 s' : State) (slot : Slot) (r : Region) : Prop where
  available : Available s r.base r.length
  unused : (s.regions slot).used = false
  used : r.used = true
  native : r.Native
  supported : vmProtSupported r.prot = true
  filled : Filled s file s1 r
  eq : s' = s1.setRegions (update s.regions slot r)

def MapsRange (s : State) (file : Fd) (base length : ℕ) (out : Bool × State) : Prop :=
  out.1 = false ∧ Kept s out.2 ∨ out.1 = true ∧ ∃ s1 slot r, r.base = base ∧ r.length = length ∧
    Adds s file s1 out.2 slot r

/-! ### Files in memory -/

theorem MemfdMapped.nil (s : State) (b flags : ℕ) : MemfdMapped s s b flags [] :=
  ⟨⟨[], Took.refl s⟩, rfl, fun _ _ => rfl, fun i hi => absurd hi (Nat.not_lt_zero i)⟩

theorem MemfdMapped.cons {s' : State} {n pa flags : ℕ} {frames : List ℕ} (hv : n * 4096 < userVaTop)
    (h : MemfdMapped (vmmMapUser s (n * 4096) pa flags) s' (n + 1) flags frames) :
    MemfdMapped s s' n flags (pa :: frames) := by
  obtain ⟨new1, ht1, hp1, ho1, he1⟩ := mapUser_spec s hv pa flags
  obtain ⟨new2, ht2⟩ := h.took
  have hfirst : (vmmMapUser s (n * 4096) pa flags).pages n =
      if (s.env.maps.getD 0 (true, [])).1 then some (frameOf pa, pteFlags flags) else
        s.pages n := by
    have hanswer : mapAnswer s = s.env.maps.getD 0 (true, []) := by
      unfold mapAnswer
      cases s.env.maps <;> rfl
    rw [hp1, hanswer]
    split_ifs
    · rw [PageMap.map, Nat.mul_div_cancel n (by norm_num), update_self]
      rfl
    · rfl
  have hother : ∀ k, k ≠ n → (vmmMapUser s (n * 4096) pa flags).pages k = s.pages k := by
    intro k hk
    rw [hp1]
    split_ifs
    · rw [PageMap.map, Nat.mul_div_cancel n (by norm_num), update_of_ne hk]
    · rfl
  refine ⟨⟨_, ht1.then ht2⟩, h.objects.trans ho1, fun k hk => ?_, fun i hi => ?_⟩
  · rw [length_cons] at hk
    rw [h.out k (by omega), hother k (by omega)]
  · cases i with
    | zero =>
      rw [add_zero, h.out n (by omega), hfirst]
      rfl
    | succ i =>
      have hi' : i < frames.length := by simpa using hi
      have hentry := h.entry i hi'
      rw [he1] at hentry
      rw [show n + (i + 1) = n + 1 + i by omega, hentry, hother (n + 1 + i) (by omega)]
      cases s.env.maps <;> rfl

/-! ### The kinds of mappings -/

theorem Available.native {r : Region} (h : Available s r.base r.length)
    (hkind : r.kind ≠ .none) (hback : r.kind ≠ .anonShared → r.backingId = vmBackingNone)
    (hlazy : r.committed = false → r.prot = 0 ∧ (r.kind = .anonPrivate ∨ r.kind = .guard))
    (hguard : r.kind = .guard → r.committed = false) : r.Native :=
  ⟨h.whole.base_dvd, h.whole.length_dvd, h.pos, h.base_le, h.whole.stop_le, hkind, hback, hlazy,
    hguard⟩

theorem protSupported_zero : vmProtSupported 0 = true := by decide

section

variable {s : State} {file : Fd} {base length prot flags : ℕ} (hg : GoodPages s.pages)
  (hr : vmRangeAvailable s base length = true) (ha : Available s base length)
  (hp : vmProtSupported prot = true)

include hg hr ha hp

theorem mapAnonPrivate_spec :
    MapsRange s file base length (vmMapAnonPrivateRegion s base length prot flags) := by
  unfold vmMapAnonPrivateRegion
  simp only [ha.pos.ne', hr]
  by_cases hres : flags &&& mapReserve = 0
  · -- the pages are committed at once
    obtain ⟨ok, s1, he, hcase⟩ := commit_spec hg ha.whole ha.pos ha.pages prot
    simp only [hres, if_true, he]
    rcases hcase with ⟨rfl, hi⟩ | ⟨rfl, new, hc⟩
    · exact .inl ⟨rfl, hi.kept⟩
    · cases hslot : vmRegionAllocSlot s1.regions with
      | none => exact .inl ⟨rfl, (hc.rollback hg ha.whole ha.pages (Idle.refl s1)).kept⟩
      | some slot =>
        rw [hc.took.regions] at hslot ⊢
        refine .inr ⟨rfl, s1, slot, _, rfl, rfl, ha, allocSlot_spec hslot, rfl, ?_, hp,
          .owned rfl (.inl rfl) hc, rfl⟩
        exact Available.native ha (by simp) (fun _ => rfl) (by simp) (by simp)
  · simp only [hres, if_false, ne_eq]
    cases hslot : vmRegionAllocSlot s.regions with
    | none => exact .inl ⟨rfl, Kept.refl s⟩
    | some slot =>
      have hc : (flags &&& mapReserve == 0) = false := by simpa using hres
      refine .inr ⟨rfl, s, slot, _, rfl, rfl, ha, allocSlot_spec hslot, rfl, ?_,
        protSupported_zero, .lazy hc, rfl⟩
      exact Available.native ha (by simp) (fun _ => rfl) (by simp) (by simp)

omit hg hp in
theorem mapGuard_spec : MapsRange s file base length (vmMapGuardRegion s base length flags) := by
  unfold vmMapGuardRegion
  simp only [ha.pos.ne', hr]
  cases hslot : vmRegionAllocSlot s.regions with
  | none => exact .inl ⟨rfl, Kept.refl s⟩
  | some slot =>
    refine .inr ⟨rfl, s, slot, _, rfl, rfl, ha, allocSlot_spec hslot, rfl, ?_,
      protSupported_zero, .lazy rfl, rfl⟩
    exact Available.native ha (by simp) (fun _ => rfl) (by simp) (by simp)

theorem mapAnonShared_spec (hsmall : length / 4096 < 2 ^ 32 ∨ u32 (length / 4096) = 0) :
    MapsRange s file base length (vmMapAnonSharedRegion s base length prot flags) := by
  unfold vmMapAnonSharedRegion
  simp only [ha.pos.ne', hr]
  by_cases hzero : u32 (length / 4096) = 0
  · -- there is no object without pages
    obtain ⟨o, s1, he, ⟨rfl, hk⟩ | ⟨id, -, -, hpos, -⟩⟩ := sharedCreate_spec s 0
    · rw [hzero, he]
      exact .inl ⟨rfl, hk⟩
    · exact absurd hpos (lt_irrefl 0)
  replace hsmall : length / 4096 < 2 ^ 32 := hsmall.resolve_right hzero
  rw [u32_of_lt hsmall]
  obtain ⟨o, s1, he, hcase⟩ := sharedCreate_spec s (length / 4096)
  rw [he]
  rcases hcase with ⟨rfl, hk⟩ | ⟨id, rfl, hfree, -, hc⟩
  · exact .inl ⟨rfl, hk⟩
  · dsimp only
    obtain ⟨ok, s2, he2, hcase⟩ :=
      mapSharedPages_spec hc hg ha.whole rfl hsmall ha.pages prot
    rw [he2]
    -- whatever goes wrong from here on, the object is destroyed
    rcases hcase with ⟨rfl, hi⟩ | ⟨rfl, new, hm⟩
    · exact .inl ⟨rfl, hc.destroy hfree le_rfl hi⟩
    · cases hslot : vmRegionAllocSlot s2.regions with
      | none =>
        have hgood : GoodPages s1.pages := by
          rw [hc.pages]
          exact hg
        have hi := hm.undo hgood hc.frame ha.whole (by rw [hc.pages]; exact ha.pages) (Idle.refl s2)
        exact .inl ⟨rfl, hc.destroy hfree le_rfl hi⟩
      | some slot =>
        rw [hm.took.regions, hc.took.regions] at hslot ⊢
        refine .inr ⟨rfl, s2, slot, _, rfl, rfl, ha, allocSlot_spec hslot, rfl, ?_, hp,
          .shared rfl rfl rfl rfl hfree hsmall hc hm, rfl⟩
        exact Available.native ha (by simp) (fun h => absurd rfl h) (by simp) (by simp)

omit hg hr ha hp in
theorem readLoop_spec (vas : List ℕ) (s : State) : ∃ ok e, readLoop base length vas s =
    (ok, if ok then { s with env := e } else vmReleasePrivatePages
      { s with env := e } base length) := by
  induction vas generalizing s with
  | nil => exact ⟨true, s.env, rfl⟩
  | cons va vas ih =>
    rw [readLoop]
    split_ifs
    · exact ⟨false, s.env, rfl⟩
    · obtain ⟨ok, e, he⟩ := nextOk_spec s
      rw [he]
      cases ok with
      | false => exact ⟨false, e, rfl⟩
      | true => exact ih { s with env := e }

theorem mapFile_spec (fd : ℕ) :
    MapsRange s file base length (vmMapFileRegion s base length prot flags fd) := by
  unfold vmMapFileRegion
  simp only [hr]
  by_cases hfd : fd < 3 ∨ fdMax ≤ fd
  · rw [if_pos hfd]
    exact .inl ⟨rfl, Kept.refl s⟩
  · rw [if_neg hfd]
    cases s.fds fd with
    | none | memfd => exact .inl ⟨rfl, Kept.refl s⟩
    | file size =>
      obtain ⟨ok, s1, he, hcase⟩ := commit_spec hg ha.whole ha.pos ha.pages prot
      rw [he]
      dsimp only
      rcases hcase with ⟨rfl, hi⟩ | ⟨rfl, new, hc⟩
      · exact .inl ⟨rfl, hi.kept⟩
      · generalize (List.range _).map _ = vas
        obtain ⟨ok, e, he2⟩ := @readLoop_spec base length vas s1
        have hc' : Committed s { s1 with env := e } _ _ _ new :=
          { hc with took := { hc.took with } }
        have hback := (hc'.rollback hg ha.whole ha.pages (Idle.refl _)).kept
        rw [he2]
        cases ok with
        | false => exact .inl ⟨rfl, hback⟩
        | true =>
          simp only [if_true]
          cases hslot : vmRegionAllocSlot s1.regions with
          | none => exact .inl ⟨rfl, hback⟩
          | some slot =>
            rw [hc.took.regions] at hslot ⊢
            refine .inr ⟨rfl, { s1 with env := e }, slot, _, rfl, rfl, ha, allocSlot_spec hslot,
              rfl, ?_, hp, .owned rfl (.inr rfl) hc', rfl⟩
            exact Available.native ha (by simp) (fun _ => rfl) (by simp) (by simp)

omit hg hr ha hp in
theorem memfdMapLoop_spec (pas : List ℕ) (n remaining : ℕ) (s : State)
    (htop : n * 4096 + remaining ≤ vmUserLimit) :
    MemfdMapped s (memfdMapLoop flags pas (n * 4096) remaining s) n flags
      ((pas.take ((remaining + 4095) / 4096)).takeWhile (· ≠ 0)) := by
  induction pas generalizing n remaining s with
  | nil => simpa [memfdMapLoop] using MemfdMapped.nil s n flags
  | cons pa pas ih =>
    rw [memfdMapLoop]
    by_cases hrem : remaining = 0
    · simpa [hrem] using MemfdMapped.nil s n flags
    have hone : (remaining + 4095) / 4096 = (remaining - 1) / 4096 + 1 := by omega
    rw [if_neg hrem, hone, take_succ_cons]
    by_cases hpa : pa = 0
    · rw [if_pos hpa, takeWhile_cons_of_neg (by simpa using hpa)]
      exact MemfdMapped.nil s n flags
    · rw [if_neg hpa, takeWhile_cons_of_pos (by simpa using hpa)]
      have hlim : vmUserLimit < userVaTop := by decide
      have hdvd : 4096 ∣ vmUserLimit := by decide
      have hrest : ((if 4096 < remaining then remaining - 4096 else 0) + 4095) / 4096 =
          (remaining - 1) / 4096 := by split_ifs <;> omega
      have hroom : (n + 1) * 4096 + (if 4096 < remaining then remaining - 4096 else 0) ≤
          vmUserLimit := by
        have hn : 4096 ∣ n * 4096 := Nat.dvd_mul_left _ _
        rw [add_mul, one_mul]
        generalize n * 4096 = base at htop hn ⊢
        split_ifs <;> omega
      have hnext := ih (n + 1) (if 4096 < remaining then remaining - 4096 else 0)
        (vmmMapUser s (n * 4096) pa flags) hroom
      rw [hrest, add_mul] at hnext
      exact hnext.cons (by omega)

omit hg in
theorem mapMemfd_spec (mf : Memfd) :
    ∃ s1, MemfdMapped s s1 (base / 4096) (memfdFlags prot) (mf.frames length) ∧
      ((∀ i, (s.regions i).used = true) ∧
          vmMapMemfdRegion s base length prot flags mf = (false, s1) ∨
        ∃ s' slot r, vmMapMemfdRegion s base length prot flags mf = (true, s') ∧ r.base = base ∧
          r.length = length ∧ Adds s (.memfd mf) s1 s' slot r) := by
  unfold vmMapMemfdRegion
  simp only [hr]
  have hd := ha.whole.base_dvd
  have hbase : base / 4096 * 4096 = base := Nat.div_mul_cancel hd
  have hroom : base / 4096 * 4096 + (if length < mf.size then length else mf.size) ≤
      vmUserLimit := by
    have := ha.whole.stop_le
    split_ifs <;> omega
  have hm := @memfdMapLoop_spec (memfdFlags prot) mf.pages (base / 4096) _ s hroom
  rw [hbase] at hm
  refine ⟨_, hm, ?_⟩
  obtain ⟨new, ht⟩ := hm.took
  rw [ht.regions]
  cases hslot : vmRegionAllocSlot s.regions with
  | none => exact .inl ⟨allocSlot_none hslot, rfl⟩
  | some slot =>
    refine .inr ⟨_, slot, _, rfl, rfl, rfl, ha, allocSlot_spec hslot, rfl, ?_, hp,
      .memfd rfl rfl rfl rfl hm, rfl⟩
    exact Available.native ha (by simp) (fun h => absurd rfl h) (by simp) (by simp)

end

/-! ### Arguments -/

theorem and_page_mask (x : ℕ) : x &&& (4096 - 1) = x % 4096 := Nat.and_two_pow_sub_one_eq_mod x 12

theorem roundLength_spec {x : ℕ} (h : roundLength x = some length) :
    4096 ∣ length ∧ 0 < length ∧ length < 2 ^ 64 := by
  unfold roundLength at h
  split_ifs at h with h1
  dsimp only at h
  split_ifs at h with h2
  obtain rfl := Option.some.inj h
  have hlt : x + (4096 - 1) < 2 ^ 64 := by omega
  rw [u64_of_lt hlt, and_not64_page hlt] at h2 ⊢
  refine ⟨Nat.dvd_mul_left _ _, Nat.pos_of_ne_zero h2, ?_⟩
  omega

theorem roundLength_of_dvd {x : ℕ} (hd : 4096 ∣ x) (hpos : 0 < x) (hlt : x + 4096 ≤ 2 ^ 64) :
    roundLength x = some x := by
  have hround : u64 (x + (4096 - 1)) &&& not64 (4096 - 1) = x := by
    have hlt : x + (4096 - 1) < 2 ^ 64 := by omega
    rw [u64_of_lt hlt, and_not64_page hlt]
    omega
  unfold roundLength
  rw [if_neg (by omega), hround]
  exact if_neg hpos.ne'

theorem findFreeLoop_spec {maxStart : ℕ} (k : ℕ) : ∀ base, 4096 ∣ base →
    findFreeLoop s length maxStart k base ≠ 0 →
    vmRangeAvailable s (findFreeLoop s length maxStart k base) length = true ∧
      4096 ∣ findFreeLoop s length maxStart k base ∧
      findFreeLoop s length maxStart k base ≤ maxStart := by
  induction k with
  | zero => exact fun base _ h => absurd rfl h
  | succ k ih =>
    intro base hd h
    rw [findFreeLoop] at h ⊢
    split_ifs at h ⊢ with h1 h2
    · exact ⟨h2, hd, h1⟩
    · exact ih (base + 4096) (by omega) h
    · exact absurd rfl h

theorem mmapBase_spec {hint flags : ℕ} (hd : 4096 ∣ hint) (hlt : hint < 2 ^ 64)
    (h : mmapBase s hint length flags ≠ 0) :
    vmRangeAvailable s (mmapBase s hint length flags) length = true ∧
      4096 ∣ mmapBase s hint length flags ∧ mmapBase s hint length flags < 2 ^ 64 := by
  have hlim : vmUserLimit < 2 ^ 64 := by decide
  unfold mmapBase at h ⊢
  split_ifs at h ⊢ with h1 h2 h3
  · exact ⟨h2, hd, hlt⟩
  · exact absurd rfl h
  · exact ⟨h3.2, hd, hlt⟩
  · unfold vmFindFreeRange at h ⊢
    split_ifs at h ⊢
    · exact absurd rfl h
    · exact absurd rfl h
    · obtain ⟨h1, h2, h3⟩ := findFreeLoop_spec _ _ (by decide : 4096 ∣ vmUserBase) h
      exact ⟨h1, h2, lt_of_le_of_lt h3 (lt_of_le_of_lt (Nat.sub_le _ _) hlim)⟩

/-! ### The call -/

/-- The arguments ask for a shared anonymous mapping of so many pages that their number loses bits
in `(uint32_t)(length / PAGE_SIZE)`. A number that becomes `0` is refused. -/
def Narrowed (a2 a4 : UInt64) : Prop :=
  u32 a4.toNat &&& mapGuard = 0 ∧ u32 a4.toNat &&& mapAnon ≠ 0 ∧ u32 a4.toNat &&& mapShared ≠ 0 ∧
    ∃ length ∈ roundLength a2.toNat, length ≤ vmUserLimit - vmUserBase ∧
      2 ^ 32 ≤ length / 4096 ∧ u32 (length / 4096) ≠ 0

def mmapFile (s : State) (a4 a5 : UInt64) : Fd :=
  if u32 a4.toNat &&& mapGuard = 0 ∧ u32 a4.toNat &&& mapAnon = 0 ∧ 3 ≤ u32 a5.toNat ∧
    u32 a5.toNat < fdMax then s.fds (u32 a5.toNat) else .none

/-- What `SYS_MMAP` can do. A mapping of a file in memory that finds no slot is left behind. -/
inductive MmapResult (s : State) (file : Fd) (length : Option ℕ) : Except Error ℕ × State → Prop
  | failed {e : Error} {s' : State} (h : Kept s s') : MmapResult s file length (.error e, s')
  | added {s1 s' : State} {slot : Slot} {r : Region} (hlen : length = some r.length)
      (h : Adds s file s1 s' slot r) : MmapResult s file length (.ok r.base, s')
  | stray {s' : State} {mf : Memfd} {b l prot : ℕ} (hlen : length = some l)
      (hmf : file = .memfd mf) (hfull : ∀ i, (s.regions i).used = true)
      (ha : Available s (b * 4096) l)
      (h : MemfdMapped s s' b (memfdFlags prot) (mf.frames l)) :
      MmapResult s file length (.error .nomem, s')

theorem MmapResult.refuse {file : Fd} {length : Option ℕ} {c : Prop} [Decidable c]
    {e : Error} {out : Except Error ℕ × State} (h : ¬c → MmapResult s file length out) :
    MmapResult s file length (if c then (.error e, s) else out) := by
  split_ifs with hc
  · exact .failed (Kept.refl s)
  · exact h hc

theorem MapsRange.result {s' : State} {file : Fd} {base l : ℕ} {length : Option ℕ} {ok : Bool}
    (h : MapsRange s file base l (ok, s')) (hlen : length = some l) :
    MmapResult s file length (if ok then (.ok base, s') else (.error .nomem, s')) := by
  rcases h with ⟨hok, hk⟩ | ⟨hok, s1, slot, r, rfl, rfl, hadds⟩
  · obtain rfl : ok = false := hok
    exact .failed hk
  · obtain rfl : ok = true := hok
    exact .added hlen hadds

/-- **`SYS_MMAP`** fails and changes nothing, adds a region, or leaves the pages of a file in memory
behind. -/
theorem sysMmap_spec (hv : Valid s.regions) (hg : GoodPages s.pages)
    {a1 a2 a3 a4 a5 : UInt64} (hsmall : ¬ Narrowed a2 a4) :
    MmapResult s (mmapFile s a4 a5) (roundLength a2.toNat) (sysMmap s a1 a2 a3 a4 a5) := by
  unfold sysMmap
  cases hlen : roundLength a2.toNat with
  | none => exact .failed (Kept.refl s)
  | some length =>
    obtain ⟨hd, hpos, hlt⟩ := roundLength_spec hlen
    refine .refuse fun h1 => .refuse fun _ => .refuse fun _ => .refuse fun h4 => .refuse
      fun h5 => ?_
    have hp : vmProtSupported (u32 a3.toNat) = true := by
      simp only [Bool.or_eq_true, not_or, Bool.not_eq_true, Bool.not_eq_false'] at h1
      exact h1.1
    have hdvd : 4096 ∣ a1.toNat := by
      rw [and_page_mask] at h4
      omega
    obtain ⟨hr, hbd, hbl⟩ := mmapBase_spec hdvd a1.toNat_lt h5
    generalize mmapBase s a1.toNat length (u32 a4.toNat) = base at hr hbd hbl ⊢
    have ha := (rangeAvailable_iff hv hg hbd hd hbl hlt).mp hr
    by_cases hguard : u32 a4.toNat &&& mapGuard ≠ 0
    · rw [if_pos hguard]
      exact (mapGuard_spec hr ha).result rfl
    rw [if_neg hguard]
    by_cases hanon : u32 a4.toNat &&& mapAnon ≠ 0
    · rw [if_pos hanon]
      by_cases hshared : u32 a4.toNat &&& mapShared ≠ 0
      · rw [if_pos hshared]
        refine (mapAnonShared_spec hg hr ha hp ?_).result rfl
        by_contra hno
        rw [not_or, not_lt] at hno
        have h1 := ha.base_le
        have h2 := ha.whole.stop_le
        exact hsmall ⟨not_not.mp hguard, hanon, hshared, length, hlen, by omega, hno.1, hno.2⟩
      · rw [if_neg hshared]
        exact (mapAnonPrivate_spec hg hr ha hp).result rfl
    rw [if_neg hanon]
    by_cases hfd : 3 ≤ u32 a5.toNat ∧ u32 a5.toNat < fdMax
    · rw [if_pos hfd]
      cases hmf : s.fds (u32 a5.toNat) with
      | none | file => exact (mapFile_spec hg hr ha hp _).result rfl
      | memfd mf =>
        have hfile : mmapFile s a4 a5 = .memfd mf := by
          rw [mmapFile, if_pos ⟨not_not.mp hguard, not_not.mp hanon, hfd⟩, hmf]
        obtain ⟨s1, hm, ⟨hfull, he⟩ | ⟨s', slot, r, he, rfl, rfl, hadds⟩⟩ :=
          @mapMemfd_spec s base length _ (u32 a4.toNat) hr ha hp mf
        · simp only [he]
          have hbase : base / 4096 * 4096 = base := Nat.div_mul_cancel hbd
          exact .stray rfl hfile hfull (hbase.symm ▸ ha) hm
        · simp only [he]
          exact .added rfl (hfile.symm ▸ hadds)
    · rw [if_neg hfd]
      exact (mapFile_spec hg hr ha hp _).result rfl

end TaterTOS.Vm
