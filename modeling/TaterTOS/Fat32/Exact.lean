import TaterTOS.Fat32.Entries

/-!
# FAT32: functions on a device that works

What the functions read off the volume and change in it. As in `Volume`, a predicate `J` holds of
the volume after every write.
-/

namespace TaterTOS.Fat32

open Function Lib List

variable {fs : Fs} {V : Vol} {J : Vol → Prop} {s : Slot} {c n : ℕ} {l : List ℕ}
  {b : Sector} {prev h : ℕ}

theorem recordAt_apply {off i : ℕ} (hi : i < 32) : b (off + i) = recordAt b off i :=
  (if_pos hi).symm

def Claims (fs : Fs) (J : Vol → Prop) (V : Vol) (prev : ℕ) : Prop :=
  ∀ c, fs.IsCluster c → V.fat c = 0 → J (V.setFat c endMark) ∧
    ∀ k ≤ fs.sectorsPerCluster, J ((V.linkAfter prev c).zeroTo fs c k)

section

variable (hgood : fs.Good)
include hgood

/-! ### Entries -/

section

variable (hs : s.Ok fs) (hc : fs.IsCluster s.cluster)
include hs hc

theorem editEntry_exact {g : ℕ → Sector → Sector}
    {E : Record → Record} (hedit : ∀ off b, EditsAt off b (g off b))
    (hE : ∀ off b, ∀ i < 32, g off b (off + i) = E (recordAt b off) i)
    (hJ : J (V.putEntry s (E (V.entry s)))) :
    Yields fs J V (editEntry fs s g) true (V.putEntry s (E (V.entry s))) := by
  refine readData_bind hc hs.sector_lt fun b hb => ?_
  have hrec : recordAt b (fs.slotOff s) = V.entry s := by
    funext i
    by_cases hi : i < 32
    · have hoff : fs.slotOff s + 32 ≤ fs.bytesPerSector := by
        have hlt := slotOff_lt fs s
        have hdvd := slotOff_dvd hs
        have hdvd' := fs.bytes_dvd
        omega
      unfold recordAt
      rw [if_pos hi, Vol.entry_apply hi, hb _ (by omega), ← add_assoc, mul_comm]
      unfold Fs.slotOff
      rw [Nat.div_add_mod]
    · unfold recordAt Vol.entry
      rw [if_neg hi, if_neg hi]
  have heq :=
    Vol.setSector_eq_putEntry hs hb (hedit _ b) (fun i hi => hrec ▸ hE (fs.slotOff s) b i hi)
  rw [← heq] at hJ ⊢
  exact writeData_exact hgood hc hs.sector_lt hJ

theorem updateDirEntrySize_exact
    (hJ : J (V.putEntry s ((V.entry s).setSize n))) :
    Yields fs J V (updateDirEntrySize fs s n) true (V.putEntry s ((V.entry s).setSize n)) :=
  editEntry_exact hgood (E := (·.setSize n)) hs hc (fun off b i hi => putLe32_outside (by omega))
    (fun off b i hi => putLe32_shift (recordAt_apply hi)) hJ

theorem updateDirEntryCluster_exact
    (hJ : J (V.putEntry s ((V.entry s).setCluster c))) :
    Yields fs J V (updateDirEntryCluster fs s c) true
    (V.putEntry s ((V.entry s).setCluster c)) := by
  refine editEntry_exact hgood (E := (·.setCluster c)) hs hc (fun off b i hi => ?_)
    (fun off b i hi => ?_) hJ
  · unfold putCluster
    rw [putLe16_outside (by omega), putLe16_outside (by omega)]
  · exact putLe16_shift (putLe16_shift (recordAt_apply hi))

theorem markDirEntryDeleted_exact
    (hJ : J (V.putEntry s (V.entry s).delete)) :
    Yields fs J V (markDirEntryDeleted fs s) true (V.putEntry s (V.entry s).delete) := by
  refine editEntry_exact hgood (E := Record.delete) hs hc (fun off b i hi => ?_)
    (fun off b i hi => ?_) hJ
  · exact update_of_ne (by omega) _ _
  · unfold Record.delete
    by_cases h0 : i = 0
    · rw [h0]
      exact update_self _ _ _
    · rw [update_of_ne h0, update_of_ne (by omega)]
      exact recordAt_apply hi

theorem writeDirEntry_exact {e : Record}
    (hJ : J (V.putEntry s e)) : Yields fs J V (writeDirEntry fs s e) true (V.putEntry s e) := by
  refine editEntry_exact hgood (E := fun _ => e) hs hc (fun off b => putBytes_edits b off e)
    (fun off b i hi => ?_) hJ
  exact (recordAt_apply hi).trans (recordAt_putBytes b off e i hi)

end

/-! ### New clusters -/

theorem zeroSectors_exact (hc : fs.IsCluster c) (hJ : ∀ k ≤ fs.sectorsPerCluster,
    J (V.zeroTo fs c k)) :
    ∀ n k : ℕ, k + n = fs.sectorsPerCluster →
      Yields fs J (V.zeroTo fs c k) (zeroSectors (fs.clusterToLba c) k n) true
        (V.zeroTo fs c fs.sectorsPerCluster)
  | 0, k, hk => by
    obtain rfl : k = fs.sectorsPerCluster := hk
    exact .ret
  | n + 1, k, hk => by
    have hlt : k < fs.sectorsPerCluster := by omega
    have hstep := Vol.zeroTo_succ (V := V) (c := c) hlt
    unfold zeroSectors
    refine (writeData_exact hgood hc hlt (hstep ▸ hJ (k + 1) hlt)).bind ?_
    rw [hstep]
    exact zeroSectors_exact hc hJ n (k + 1) (by omega)

section

variable (hprev : prev < fs.clusterLimit)
include hprev

theorem linkAfter_exact (hc : fs.IsCluster c) (hJ : J (V.linkAfter prev c)) :
    Yields fs J (V.setFat c endMark) (linkAfter fs prev c) true (V.linkAfter prev c) := by
  unfold linkAfter
  unfold Vol.linkAfter at hJ ⊢
  split_ifs at hJ ⊢
  · exact .ret
  · have hlow : low28 c = c := Nat.mod_eq_of_lt (hc.2.trans (hgood.limit.trans_lt (by decide)))
    have hwrite := @writeFatEntry_exact fs (V.setFat c endMark) prev c J hgood hprev
    rw [hlow] at hwrite
    exact hwrite hJ

theorem claimCluster_exact (hc : fs.IsCluster c) (hfree : V.fat c = 0) (hJ : Claims fs J V prev) :
    Yields fs J V (claimCluster fs prev c) c (V.claim fs prev c) := by
  obtain ⟨hmark, hzero⟩ := hJ c hc hfree
  have hlink : J (V.linkAfter prev c) := by
    have := hzero 0 (Nat.zero_le _)
    rwa [Vol.zeroTo_zero] at this
  refine (writeFatEntry_exact hgood hc.2 hmark).bind ?_
  refine (linkAfter_exact hgood hprev hc hlink).bind ?_
  have hclear := zeroSectors_exact hgood hc hzero _ 0 (zero_add _)
  rw [Vol.zeroTo_zero] at hclear
  exact hclear.bind .ret

theorem allocFrom_exact (hJ : Claims fs J V prev) : ∀ n c : ℕ, 2 ≤ c → c + n = fs.clusterLimit →
      Runs fs J V (allocFrom fs prev c n) fun r m =>
        r = 0 ∧ At fs V m ∨ fs.IsCluster r ∧ V.fat r = 0 ∧ At fs (V.claim fs prev r) m
  | 0, c, h2, hn => .pure fun m hm => .inl ⟨rfl, hm⟩
  | n + 1, c, h2, hn => by
    have hc : fs.IsCluster c := ⟨h2, by omega⟩
    unfold allocFrom
    refine (readFatEntry_exact hc.2).bind ?_
    split_ifs with hfree
    · refine (claimCluster_exact hgood hprev hc hfree hJ).post ?_
      rintro r m ⟨hm, rfl⟩
      exact .inr ⟨hc, hfree, hm⟩
    · exact allocFrom_exact hJ n (c + 1) (by omega) (by omega)

theorem allocCluster_bind {α : Type} {f : ℕ → FatIo α} {Q : α → Media → Prop}
    (hJ : Claims fs J V prev)
    (hfull : Runs fs J V (f 0) Q) (hnew : ∀ c, fs.IsCluster c → V.fat c = 0 →
      Runs fs J (V.claim fs prev c) (f c) Q) :
    Runs fs J V (allocCluster fs prev >>= f) Q := by
  refine .bind (allocFrom_exact hgood hprev hJ _ 2 le_rfl (add_comm 2 _)) fun c => .or ?_ ?_
  · refine .of (fun _ hm => hm.1) ?_
    rintro rfl
    exact hfull.right
  · refine .of (p := fs.IsCluster c ∧ V.fat c = 0) (fun _ hm => ⟨hm.1, hm.2.1⟩)
      fun ⟨hc, hfree⟩ => ?_
    exact (hnew c hc hfree).right.right

end

/-! ### Chains -/

theorem freeChain_exact : ∀ (l : List ℕ) (fuel h : ℕ) (V : Vol), V.Chain h l → l.length ≤ fuel →
    (∀ c ∈ l, c < fs.clusterLimit) → (∀ l1 l2, l = l1 ++ l2 → J (V.freed l1)) →
      Runs fs J V (freeChain fs fuel h) fun _ m => At fs (V.freed l) m
  | [], fuel, h, V, hchain, _, _, _ => by
    rw [Vol.freed_nil]
    cases fuel with
    | zero => exact .pure fun m hm => hm
    | succ fuel =>
      unfold freeChain
      rw [if_neg hchain.nil_inv]
      exact .pure fun m hm => hm
  | c :: l, fuel + 1, h, V, hchain, hfuel, hlt, hJ => by
    have hnodup := hchain.nodup
    obtain ⟨rfl, hin, hnext⟩ := hchain.cons_inv
    have hc : h < fs.clusterLimit := hlt h mem_cons_self
    have hrest : (V.setFat h 0).Chain (V.fat h) l := by
      refine hnext.congr rfl fun c hmem => Vol.setFat_of_ne ?_
      rintro rfl
      exact (nodup_cons.mp hnodup).1 hmem
    have hfreed : ∀ l', (V.setFat h 0).freed l' = V.freed (h :: l') := fun l' => by
      rw [← Vol.freed_singleton, Vol.freed_append]
      rfl
    unfold freeChain
    rw [if_pos hin]
    refine (readFatEntry_exact hc).bind ?_
    refine (writeFatEntry_exact (v := 0) hgood hc ?_).bind ?_
    · have := hJ [h] l rfl
      rwa [Vol.freed_singleton] at this
    · refine ((freeChain_exact l fuel _ (V.setFat h 0) hrest (Nat.le_of_succ_le_succ hfuel)
        (fun c hc => hlt c (mem_cons_of_mem _ hc)) fun l1 l2 hl => ?_)).post fun _ m hm => ?_
      · rw [hfreed]
        exact hJ (h :: l1) l2 (congrArg (h :: ·) hl)
      · rw [← hfreed]
        exact hm

theorem fat32FreeChain_exact (hchain : V.Chain h l) (hlt : ∀ c ∈ l, c < fs.clusterLimit)
    (hJ : ∀ l1 l2, l = l1 ++ l2 → J (V.freed l1)) :
    Runs fs J V (fat32FreeChain fs h) fun _ m => At fs (V.freed l) m :=
  freeChain_exact hgood l _ h V hchain (Nat.le_succ_of_le (hchain.length_le hlt)) hlt hJ

omit hgood in
theorem walkChain_exact : ∀ (n i h : ℕ) (l : List ℕ), V.Chain h l → (hn : n < l.length) →
    i + n < fs.chainStepLimit → (∀ c ∈ l, c < fs.clusterLimit) →
      Yields fs J V (walkChain fs i h n) (l.get ⟨n, hn⟩) V
  | 0, i, h, c :: l, hchain, hn, _, _ => by
    obtain ⟨rfl, -, -⟩ := hchain.cons_inv
    exact .ret
  | n + 1, i, h, c :: l, hchain, hn, hi, hlt => by
    obtain ⟨rfl, hin, hnext⟩ := hchain.cons_inv
    unfold walkChain
    rw [if_neg (by omega), if_neg (by omega)]
    refine (readFatEntry_exact (hlt h mem_cons_self)).bind ?_
    exact walkChain_exact n (i + 1) _ l hnext (Nat.lt_of_succ_lt_succ hn) (by omega)
      fun c hc => hlt c (mem_cons_of_mem _ hc)

omit hgood in
theorem fat32WalkChain_exact {n : ℕ} (hchain : V.Chain h l) (hlt : ∀ c ∈ l, c < fs.clusterLimit)
    (hn : n < l.length) : Yields fs J V (fat32WalkChain fs h n) (l.get ⟨n, hn⟩) V := by
  refine walkChain_exact n 0 h l hchain hn ?_ hlt
  have := hchain.length_le hlt
  unfold Fs.chainStepLimit
  omega

end

/-! ### Directories -/

section

variable {σ ρ : Type} {f : Body σ ρ} {st : σ}

def Vol.walkSlots (V : Vol) (f : Body σ ρ) : List Slot → σ → Walk σ ρ
  | [], st => .next st
  | p :: ps, st =>
    match f st (V.entry p) p with
    | .done r => .done r
    | .next st => V.walkSlots f ps st

theorem Vol.walkSlots_append (A B : List Slot) : ∀ st : σ, V.walkSlots f (A ++ B) st =
    match V.walkSlots f A st with
    | .done r => .done r
    | .next st => V.walkSlots f B st := by
  induction A with
  | nil => exact fun _ => rfl
  | cons p A ih =>
    intro st
    rw [cons_append]
    dsimp only [Vol.walkSlots]
    cases f st (V.entry p) p with
    | done r => rfl
    | next st => exact ih st

def Walk.end (last : ℕ) : Walk σ ρ → WalkEnd σ ρ
  | .done r => .done r
  | .next st => .ended last st

theorem walkRecords_eq {base : ℕ} (hb : ∀ i < fs.bytesPerSector, b i = V.data c (base + i)) :
    ∀ (n off : ℕ) (st : σ),
    off + 32 * n ≤ fs.bytesPerSector → walkRecords f b c base off n st =
      V.walkSlots f ((List.range n).map fun k => ⟨c, base + off + 32 * k⟩) st
  | 0, _, _, _ => rfl
  | n + 1, off, st, hle => by
    have hrec : recordAt b off = V.entry ⟨c, base + off⟩ := by
      funext i
      unfold recordAt Vol.entry
      by_cases hi : i < 32
      · rw [if_pos hi, if_pos hi, hb _ (by omega), add_assoc]
      · rw [if_neg hi, if_neg hi]
    rw [range_succ_eq_map, map_cons, map_map]
    dsimp only [walkRecords, Vol.walkSlots]
    rw [Nat.mul_zero, add_zero, hrec]
    cases f st (V.entry ⟨c, base + off⟩) ⟨c, base + off⟩ with
    | done r => rfl
    | next st =>
      dsimp only
      rw [walkRecords_eq hb n (off + 32) st (by omega)]
      refine congrArg (V.walkSlots f · st) (map_congr_left fun k _ => ?_)
      exact congrArg (Slot.mk c) (by omega)

theorem walkSectors_exact (hc : fs.IsCluster c) :
    ∀ (n s : ℕ) (st : σ), s + n = fs.sectorsPerCluster →
    Yields fs J V (walkSectors fs f c s n st)
      (some (V.walkSlots f ((List.range (n * (fs.bytesPerSector / 32))).map
        fun k => ⟨c, s * fs.bytesPerSector + 32 * k⟩) st)) V
  | 0, s, st, _ => by
    rw [zero_mul]
    exact .ret
  | n + 1, s, st, hn => by
    have hdiv : 32 * (fs.bytesPerSector / 32) = fs.bytesPerSector :=
      Nat.mul_div_cancel' fs.bytes_dvd
    have hslots : ((List.range ((n + 1) * (fs.bytesPerSector / 32))).map
          fun k => (⟨c, s * fs.bytesPerSector + 32 * k⟩ : Slot)) =
        (List.range (fs.bytesPerSector / 32)).map (fun k => ⟨c, s * fs.bytesPerSector + 32 * k⟩) ++
        (List.range (n * (fs.bytesPerSector / 32))).map
          fun k => ⟨c, (s + 1) * fs.bytesPerSector + 32 * k⟩ := by
      rw [Nat.succ_mul, add_comm, range_add, map_append, map_map]
      refine congrArg _ (map_congr_left fun k _ => congrArg (Slot.mk c) ?_)
      rw [mul_add, hdiv, ← add_assoc, Nat.succ_mul s]
    rw [hslots, Vol.walkSlots_append]
    unfold walkSectors
    refine readData_bind hc (by omega) fun b hb => ?_
    have hwalk := walkRecords_eq (f := f) hb (fs.bytesPerSector / 32) 0 st (by omega)
    simp only [add_zero] at hwalk
    dsimp only
    rw [hwalk]
    cases V.walkSlots f _ st with
    | done r => exact .ret
    | next st => exact walkSectors_exact hc n (s + 1) st (by omega)

theorem walkClusters_exact : ∀ (l : List ℕ) (fuel prev h : ℕ) (st : σ), V.Chain h l →
    l.length ≤ fuel →
    (∀ c ∈ l, c < fs.clusterLimit) → Yields fs J V (walkClusters fs f fuel prev h st)
      ((V.walkSlots f (dirSlots fs l) st).end (l.getLast?.getD prev)) V
  | [], fuel, prev, h, st, hchain, _, _ => by
    unfold walkClusters
    rw [if_neg hchain.nil_inv]
    exact .ret
  | c :: l, fuel + 1, prev, h, st, hchain, hfuel, hlt => by
    obtain ⟨rfl, hin, hnext⟩ := hchain.cons_inv
    have hc : fs.IsCluster h := ⟨hin.1, hlt h mem_cons_self⟩
    have hslots : dirSlots fs (h :: l) = clusterSlots fs h ++ dirSlots fs l := rfl
    have hsectors :
        clusterSlots fs h = (List.range (fs.sectorsPerCluster * (fs.bytesPerSector / 32))).map
        fun k => ⟨h, 0 * fs.bytesPerSector + 32 * k⟩ := by
      unfold clusterSlots Fs.clusterSize
      rw [Nat.mul_div_assoc _ fs.bytes_dvd]
      simp only [zero_mul, zero_add]
    have hlast : (h :: l).getLast?.getD prev = l.getLast?.getD h := by
      cases l with
      | nil => rfl
      | cons x l => rw [List.getLast?_cons_cons, List.getLast?_cons]; rfl
    rw [hslots, Vol.walkSlots_append, hsectors, hlast]
    unfold walkClusters
    rw [if_pos hin]
    refine (walkSectors_exact hc _ 0 st (zero_add _)).bind ?_
    cases V.walkSlots f _ st with
    | done r => exact .ret
    | next st =>
      refine (readFatEntry_exact hc.2).bind ?_
      exact walkClusters_exact l fuel h _ st hnext (Nat.le_of_succ_le_succ hfuel)
        fun c hc => hlt c (mem_cons_of_mem _ hc)

theorem walkDir_exact (hchain : V.Chain h l) (hlt : ∀ c ∈ l, c < fs.clusterLimit) :
    Yields fs J V (walkDir fs f h st)
    ((V.walkSlots f (dirSlots fs l) st).end (l.getLast?.getD 0)) V :=
  walkClusters_exact l _ 0 h st hchain (Nat.le_succ_of_le (hchain.length_le hlt)) hlt

end

end TaterTOS.Fat32
