import TaterTOS.Fat32.Growth

/-!
# FAT32: writing to a file

A write through a handle that agrees with its entry changes that file and nothing else, in every
state of the volume on the way.
-/

namespace TaterTOS.Fat32

open Function Lib List

variable {fs : Fs} {V V0 V' : Vol} {L0 : Obj → List ℕ} {l : List ℕ} {s : Slot} {c : ℕ} {f : File}
  {l1 l2 : List ℕ} {skip k prev n : ℕ}

structure Current (fs : Fs) (V : Vol) (L : Obj → List ℕ) (f : File) : Prop where
  live : V.Live fs (some f.slot)
  file : V.isDir (some f.slot) = false
  first : f.firstCluster = (V.entry f.slot).firstCluster
  size : f.size ≤ (L (some f.slot)).length * fs.clusterSize
  /-- The size of a handle has 32 bits. -/
  size_lt : f.size < 2 ^ 32

def Safe (fs : Fs) (V0 : Vol) (L0 : Obj → List ℕ) (t : Obj) (V : Vol) : Prop :=
  ∃ L, Coherent fs V L apart ∧ Stays fs V0 L0 V L t

structure Writing (fs : Fs) (V0 : Vol) (L0 : Obj → List ℕ) (s : Slot) (V : Vol) (l : List ℕ) :
    Prop where
  coherent : Coherent fs V (update L0 (some s) l) apart
  covered : Covered fs V (update L0 (some s) l) ∅
  stays : Stays fs V0 L0 V (update L0 (some s) l) (some s)
  live : V.Live fs (some s)
  file : V.isDir (some s) = false

namespace Writing

theorem chain_eq : update L0 (some s) l (some s) = l := update_self _ _ _

theorem update_append : update (update L0 (some s) l) (some s)
    (update L0 (some s) l (some s) ++ [c]) = update L0 (some s) (l ++ [c]) := by
  rw [chain_eq, update_idem]

section

variable (h : Writing fs V0 L0 s V l)
include h

theorem safe : Safe fs V0 L0 (some s) V := ⟨_, h.coherent, h.stays⟩

theorem chain : V.Chain (V.entry s).firstCluster l := by
  have := h.coherent.chain _ h.live
  rwa [chain_eq] at this

theorem isCluster (hc : c ∈ l) : fs.IsCluster c :=
  h.coherent.isCluster h.live (chain_eq.symm ▸ hc)

theorem marked (hc : c ∈ l) : 2 ≤ V.fat c :=
  (h.coherent.marked _ h.live c (chain_eq.symm ▸ hc)).2

theorem mark (hfree : V.fat c = 0) :
    Safe fs V0 L0 (some s) (V.setFat c endMark) := by
  obtain ⟨-, hco, hstays⟩ := h.coherent.outside (fun o ho => h.coherent.not_mem_of_free hfree ho)
    (Vol.only_setFat (v := endMark))
  exact ⟨_, hco, h.stays.trans hstays⟩

theorem extend (hgood : fs.Good) (hl : l ≠ []) (hc : fs.IsCluster c)
    (hfree : V.fat c = 0) (hext : Vol.Extends (l.getLast hl) c V V') :
    Writing fs V0 L0 s V' (l ++ [c]) := by
  have hl' : update L0 (some s) l (some s) ≠ [] := by rwa [chain_eq]
  have hext' : Vol.Extends ((update L0 (some s) l (some s)).getLast hl') c V V' := by
    simpa only [chain_eq] using hext
  obtain ⟨hlive, hco, hstays⟩ := h.coherent.extendFile hgood hc hfree h.live h.file hl' hext'
  rw [update_append] at hco hstays
  have hslive := (hlive _).mpr h.live
  have hself : V'.isDir (some s) = V.isDir (some s) := congrArg Record.isDir
    (h.coherent.entry_self (h.coherent.extended_entry hfree hext) h.live)
  refine ⟨hco, ?_, h.stays.trans hstays, hslive, hself.trans h.file⟩
  rw [← update_append]
  exact h.covered.linked h.coherent h.live hl' hext' hlive

theorem bytes (hc : c ∈ l) (honly : Vol.Only c V V')
    (hfat : V'.fat = V.fat) : Writing fs V0 L0 s V' l := by
  obtain ⟨hlive, hco, hstays⟩ := h.coherent.inFile h.live h.file (chain_eq.symm ▸ hc) honly
    (congrFun hfat c)
  refine ⟨hco, ?_, h.stays.trans hstays, (hlive _).mpr h.live, ?_⟩
  · exact h.covered.extend hlive (fun c' _ hused => .inl (hfat ▸ hused)) (fun c' hc' => hc'.elim)
      fun _ _ _ => id
  · obtain ⟨o, ho, hdir, hs, hmem⟩ := h.coherent.slot_cluster h.live
    have hne : s.cluster ≠ c := by
      rintro rfl
      have heq := (h.coherent.disjoint o _ ho h.live _ hmem (chain_eq.symm ▸ hc)).resolve_right id
      rw [heq, h.file] at hdir
      exact Bool.false_ne_true hdir
    have hself : V'.isDir (some s) = V.isDir (some s) := congrArg Record.isDir (honly.entry hne)
    exact hself.trans h.file

theorem linked (hgood : fs.Good) (hl : l ≠ []) (hc : fs.IsCluster c) (hfree : V.fat c = 0) (k : ℕ) :
    Writing fs V0 L0 s ((V.linkAfter (l.getLast hl) c).zeroTo fs c k) (l ++ [c]) := by
  have hlast := h.marked (getLast_mem hl)
  have hge := (h.isCluster (getLast_mem hl)).1
  have hne : c ≠ l.getLast hl := fun heq => by
    rw [← heq] at hlast
    omega
  exact h.extend hgood hl hc hfree (Vol.extends_linkAfter (by omega) hne k)

theorem claims (hgood : fs.Good) (hl : l ≠ []) :
    Claims fs (Safe fs V0 L0 (some s)) V (l.getLast hl) :=
  fun _ hc hfree => ⟨h.mark hfree, fun k _ => (h.linked hgood hl hc hfree k).safe⟩

theorem allocCluster {α : Type} {f : ℕ → FatIo α} {Q : α → Media → Prop} (hgood : fs.Good)
    (hl : l ≠ []) (hlast : l.getLast hl = c)
    (hfull : Runs fs (Safe fs V0 L0 (some s)) V (f 0) Q)
    (hnew : ∀ c' V', c' ≠ 0 → Writing fs V0 L0 s V' (l ++ [c']) →
      Runs fs (Safe fs V0 L0 (some s)) V' (f c') Q) :
    Runs fs (Safe fs V0 L0 (some s)) V (allocCluster fs c >>= f) Q := by
  subst hlast
  refine allocCluster_bind hgood (h.isCluster (getLast_mem hl)).2 (h.claims hgood hl) hfull
    fun c' hc hfree => hnew c' _ ?_ (h.linked hgood hl hc hfree _)
  have := hc.1
  omega

end

end Writing

theorem Vol.Chain.next {h : ℕ} (hchain : V.Chain h (l1 ++ c :: l2)) :
    V.Chain (V.fat c) l2 := (Lib.Chain.suffix hchain).2.2

/-! ### The loops of a write -/

section

variable (hgood : fs.Good)
include hgood

theorem skipWrite_spec {pos : ℕ} : ∀ (fuel prev skip : ℕ) (V : Vol) (l1 l2 : List ℕ) (c : ℕ),
    Writing fs V0 L0 s V (l1 ++ c :: l2) → l1.length * fs.clusterSize + skip = pos →
    Runs fs (Safe fs V0 L0 (some s)) V (skipWrite fs fuel prev c skip) fun r m =>
      ∃ V' l', At fs V' m ∧ Writing fs V0 L0 s V' l' ∧ ∀ fuel' prev' c' skip',
        r = some (fuel', prev', c', skip') → ∃ l1' l2', l' = l1' ++ c' :: l2' ∧
        skip' < fs.clusterSize ∧ l1'.length * fs.clusterSize + skip' = pos := by
  intro fuel
  induction fuel with
  | zero =>
    intro prev skip V l1 l2 c h hpos
    unfold skipWrite
    split_ifs with hskip
    · refine .pure fun m hm => ⟨V, _, hm, h, ?_⟩
      rintro _ _ _ _ ⟨⟩
      exact ⟨l1, l2, rfl, hskip, hpos⟩
    · exact .pure fun m hm => ⟨V, _, hm, h, by simp⟩
  | succ fuel ih =>
    intro prev skip V l1 l2 c h hpos
    have hmem : c ∈ l1 ++ c :: l2 := mem_append_right _ mem_cons_self
    unfold skipWrite
    split_ifs with hskip
    · refine .pure fun m hm => ⟨V, _, hm, h, ?_⟩
      rintro _ _ _ _ ⟨⟩
      exact ⟨l1, l2, rfl, hskip, hpos⟩
    · have hadvance : (l1 ++ [c]).length * fs.clusterSize + (skip - fs.clusterSize) = pos := by
        rw [length_append, length_singleton, add_one_mul]
        omega
      refine (readFatEntry_exact (h.isCluster hmem).2).bind ?_
      have hrest := h.chain.next
      cases l2 with
      | nil =>
        have hend : eoc ≤ V.fat c := by
          have := h.marked hmem
          have := hrest.nil_inv
          omega
        have hl : l1 ++ [c] ≠ [] := append_ne_nil_of_right_ne_nil _ (cons_ne_nil _ _)
        rw [if_pos hend]
        refine h.allocCluster hgood hl (getLast_append_singleton _) ?_ fun newc V' hnewc h' => ?_
        · exact .pure fun m hm => ⟨V, _, hm, h, by simp⟩
        · rw [if_neg hnewc]
          exact ih c _ V' (l1 ++ [c]) [] newc h' hadvance
      | cons d l2 =>
        obtain ⟨hd, hin, -⟩ := hrest.cons_inv
        rw [if_neg (by omega), hd]
        refine ih c _ V (l1 ++ [c]) l2 d ?_ hadvance
        rwa [append_assoc]

omit hgood in
theorem startOff_eq (hk : ¬k < skip / fs.bytesPerSector) :
    max skip (k * fs.bytesPerSector) = k * fs.bytesPerSector + fs.startOff skip k ∧
      fs.startOff skip k < fs.bytesPerSector := by
  have hpos := fs.bytes_pos
  have hdiv := Nat.div_add_mod skip fs.bytesPerSector
  have hmod := Nat.mod_lt skip hpos
  unfold Fs.startOff
  split_ifs with heq
  · rw [← heq, mul_comm] at hdiv
    exact ⟨by omega, hmod⟩
  · have hle : (skip / fs.bytesPerSector + 1) * fs.bytesPerSector ≤ k * fs.bytesPerSector :=
      Nat.mul_le_mul_right _ (by omega)
    rw [add_one_mul, mul_comm (skip / _)] at hle
    exact ⟨by omega, hpos⟩

theorem writeSectors_spec (hc : c ∈ l) (hskip : skip < fs.clusterSize) :
    ∀ (n k : ℕ) (V : Vol) (data : List UInt8), k + n = fs.sectorsPerCluster →
    Writing fs V0 L0 s V l → Runs fs (Safe fs V0 L0 (some s)) V
      (writeSectors fs (fs.clusterToLba c) skip k n data) fun r m => ∃ V', At fs V' m ∧
        Writing fs V0 L0 s V' l ∧ r.2 = true ∧ r.1.length ≤ data.length ∧
        data.length - r.1.length + max skip (k * fs.bytesPerSector) ≤ fs.clusterSize
  | 0, k, V, data, hk, h => by
    refine .pure fun m hm => ⟨V, hm, h, rfl, le_rfl, ?_⟩
    obtain rfl : k = fs.sectorsPerCluster := hk
    have : fs.sectorsPerCluster * fs.bytesPerSector = fs.clusterSize := rfl
    dsimp only
    omega
  | n + 1, k, V, data, hk, h => by
    have hlt : k < fs.sectorsPerCluster := by omega
    have hsucc : (k + 1) * fs.bytesPerSector = k * fs.bytesPerSector + fs.bytesPerSector :=
      add_one_mul _ _
    have hle : (k + 1) * fs.bytesPerSector ≤ fs.clusterSize := Nat.mul_le_mul_right _ hlt
    unfold writeSectors
    split_ifs with hbefore
    · refine (writeSectors_spec hc hskip n (k + 1) V data (by omega) h).post ?_
      rintro r m ⟨V', hat, hw, hr, hleft, hsum⟩
      exact ⟨V', hat, hw, hr, hleft, by omega⟩
    · obtain ⟨hmax, hoff⟩ := startOff_eq hbefore
      refine readData_bind (h.isCluster hc) hlt fun b _ => ?_
      dsimp only
      generalize fs.startOff skip k = off at hmax hoff ⊢
      have h' := h.bytes hc (@Vol.only_setSector fs V c k
        (putBytes b off (data.take (min data.length (fs.bytesPerSector - off))))) rfl
      refine (writeData_exact hgood (h.isCluster hc) hlt h'.safe).bind ?_
      simp only [if_true]
      split_ifs with hall
      · refine .pure fun m hm => ⟨_, hm, h', rfl, Nat.zero_le _, ?_⟩
        dsimp only [length_nil]
        omega
      · refine (writeSectors_spec hc hskip n (k + 1) _ _ (by omega) h').post ?_
        rintro r m ⟨V', hat, hw, hr, hleft, hsum⟩
        rw [length_drop] at hleft hsum
        exact ⟨V', hat, hw, hr, by omega, by omega⟩

/-- Where the main loop of a write stands: at the cluster number `k` of the chain with `skip` bytes
to skip, or behind the chain. -/
inductive Cursor (fs : Fs) : List ℕ → ℕ → ℕ → ℕ → ℕ → Prop
  | inside (l1 l2 : List ℕ) (prev : ℕ) {c skip : ℕ} (hskip : skip < fs.clusterSize) (hc : c < eoc) :
      Cursor fs (l1 ++ c :: l2) l1.length prev c skip
  | behind (l1 : List ℕ) (prev : ℕ) {c : ℕ} (hc : eoc ≤ c) :
      Cursor fs (l1 ++ [prev]) (l1.length + 1) prev c 0

omit hgood in
theorem Cursor.le (h : Cursor fs l k prev c skip) :
    k * fs.clusterSize + skip ≤ l.length * fs.clusterSize := by
  cases h with
  | inside l1 l2 _ hskip hc =>
    rw [length_append, length_cons, add_mul, add_one_mul]
    omega
  | behind l1 _ hc =>
    rw [length_append]
    exact le_rfl

omit hgood in
theorem Writing.cursor (h : Writing fs V0 L0 s V (l1 ++ c :: l2)) :
    Cursor fs (l1 ++ c :: l2) (l1.length + 1) c (V.fat c) 0 := by
  have hrest := h.chain.next
  cases l2 with
  | nil =>
    refine .behind l1 c ?_
    have := h.marked (mem_append_right l1 (mem_singleton_self c))
    have := hrest.nil_inv
    omega
  | cons d l2 =>
    obtain ⟨hd, hin, -⟩ := hrest.cons_inv
    have hcur : Cursor fs ((l1 ++ [c]) ++ d :: l2) (l1 ++ [c]).length c d 0 :=
      .inside (l1 ++ [c]) l2 c fs.clusterSize_pos hin.2
    rw [append_assoc, length_append] at hcur
    rw [hd]
    exact hcur

theorem clusterOr_spec (h : Writing fs V0 L0 s V l) (hcur : Cursor fs l k prev c skip) :
    Runs fs (Safe fs V0 L0 (some s)) V (clusterOr fs prev c) fun r m =>
      ∃ V' l', At fs V' m ∧ Writing fs V0 L0 s V' l' ∧
        k * fs.clusterSize + skip ≤ l'.length * fs.clusterSize ∧ skip < fs.clusterSize ∧
        ∀ c', r = some c' → ∃ l1 l2, l' = l1 ++ c' :: l2 ∧ l1.length = k := by
  have hle := hcur.le
  unfold clusterOr
  cases hcur with
  | inside l1 l2 _ hskip hc =>
    rw [if_neg (by omega)]
    refine .pure fun m hm => ⟨V, _, hm, h, hle, hskip, ?_⟩
    rintro _ ⟨⟩
    exact ⟨l1, l2, rfl, rfl⟩
  | behind l1 _ hc =>
    have hl : l1 ++ [prev] ≠ [] := append_ne_nil_of_right_ne_nil _ (cons_ne_nil _ _)
    rw [if_pos hc]
    refine h.allocCluster hgood hl (getLast_append_singleton _) ?_ fun newc V' hnewc hw => ?_
    · exact .pure fun m hm => ⟨V, _, hm, h, hle, fs.clusterSize_pos, nofun⟩
    · rw [if_neg hnewc]
      refine .pure fun m hm => ⟨V', _, hm, hw, ?_, fs.clusterSize_pos, ?_⟩
      · refine Nat.mul_le_mul_right _ ?_
        rw [length_append, length_append]
        exact Nat.le_add_right _ _
      · rintro _ ⟨⟩
        exact ⟨l1 ++ [prev], [], rfl, by rw [length_append, length_singleton]⟩

theorem writeClusters_spec : ∀ (fuel prev c skip k : ℕ) (V : Vol) (l : List ℕ) (data : List UInt8),
    Writing fs V0 L0 s V l → Cursor fs l k prev c skip →
    Runs fs (Safe fs V0 L0 (some s)) V (writeClusters fs fuel prev c skip data)
      fun r m => ∃ V' l', At fs V' m ∧ Writing fs V0 L0 s V' l' ∧ r.1.length ≤ data.length ∧
        k * fs.clusterSize + skip + (data.length - r.1.length) ≤ l'.length * fs.clusterSize := by
  intro fuel
  induction fuel with
  | zero =>
    intro prev c skip k V l data h hcur
    have hdone : ∀ m, At fs V m → ∃ V' l', At fs V' m ∧ Writing fs V0 L0 s V' l' ∧
        data.length ≤ data.length ∧
        k * fs.clusterSize + skip + (data.length - data.length) ≤ l'.length * fs.clusterSize :=
      fun m hm => ⟨V, l, hm, h, le_rfl, by
        rw [Nat.sub_self]
        exact hcur.le⟩
    unfold writeClusters
    split_ifs
    · exact .pure hdone
    · exact .pure hdone
  | succ fuel ih =>
    intro prev c skip k V l data h hcur
    unfold writeClusters
    split_ifs
    · refine .pure fun m hm => ⟨V, l, hm, h, le_rfl, ?_⟩
      rw [Nat.sub_self]
      exact hcur.le
    refine .bind (clusterOr_spec hgood h hcur) fun r => .ex fun V' => .ex fun l' => ?_
    refine .fact fun hfact => ?_
    obtain ⟨h', hle, hskip, hr⟩ := hfact
    cases r with
    | none =>
      refine .pure fun m hm => ⟨V', l', hm, h', le_rfl, ?_⟩
      rw [Nat.sub_self]
      exact hle
    | some c' =>
      obtain ⟨l1, l2, rfl, rfl⟩ := hr c' rfl
      have hmem : c' ∈ l1 ++ c' :: l2 := mem_append_right _ mem_cons_self
      have hlen : l1.length * fs.clusterSize + fs.clusterSize ≤
          (l1 ++ c' :: l2).length * fs.clusterSize := by
        rw [length_append, length_cons, add_mul, add_one_mul]
        omega
      refine .bind (writeSectors_spec hgood hmem hskip _ 0 V' data (zero_add _) h') fun r => .ex
        fun V'' => ?_
      refine .fact fun hfact => ?_
      obtain ⟨h'', hr, hleft, hsum⟩ := hfact
      split_ifs with hstop
      · exact .pure fun m hm => ⟨V'', _, hm, h'', hleft, by omega⟩
      · refine (readFatEntry_exact (h''.isCluster hmem).2).bind ?_
        refine (ih c' _ 0 _ V'' _ r.1 h'' h''.cursor).post ?_
        rintro r' m ⟨V3, l3, hat, hw, hleft', hsum'⟩
        rw [add_one_mul] at hsum'
        exact ⟨V3, l3, hat, hw, hleft'.trans hleft, by omega⟩

/-! ### The call -/

omit hgood in
theorem Coherent.writing (hco : Coherent fs V0 L0 apart) (hcov : Covered fs V0 L0 ∅)
    (hs : V0.Live fs (some s)) (hfile : V0.isDir (some s) = false) :
    Writing fs V0 L0 s V0 (L0 (some s)) := by
  refine ⟨?_, ?_, ?_, hs, hfile⟩ <;> rw [update_eq_self]
  · exact hco
  · exact hcov
  · exact .refl _

omit hgood in
theorem Writing.edit {l' : List ℕ} (h : Writing fs V0 L0 s V l) {e : Record}
    (hzero : e 0 = V.entry s 0)
    (hattr : e.attr = (V.entry s).attr) (hchain : V.Chain e.firstCluster l')
    (hmarked : ∀ c ∈ l', c < fs.clusterLimit ∧ 2 ≤ V.fat c)
    (hhead : e.firstCluster < 2 ∨ e.firstCluster ∈ l')
    (hfresh : ∀ o, V.Live fs o → o ≠ some s → ∀ c ∈ l', c ∉ update L0 (some s) l o)
    (hsize : e.size ≤ l'.length * fs.clusterSize) :
    (∀ o, (V.putEntry s e).Live fs o ↔ V.Live fs o) ∧
      Coherent fs (V.putEntry s e) (update L0 (some s) l') apart ∧
      Stays fs V0 L0 (V.putEntry s e) (update L0 (some s) l') (some s) := by
  obtain ⟨-, -, -, -, hnode⟩ := h.coherent.parent h.live
  obtain ⟨hlive, hco, hstays⟩ :=
    h.coherent.editFile h.live h.file ((Record.node_congr hzero hattr).mpr hnode)
    ((Record.isDir_congr hattr).trans h.file) hchain hmarked hhead hfresh hsize
  rw [update_idem] at hco hstays
  exact ⟨hlive, hco, h.stays.trans hstays⟩

omit hgood in
theorem Writing.setSize (h : Writing fs V0 L0 s V l) (hlt : n < 2 ^ 32)
    (hn : n ≤ l.length * fs.clusterSize) :
    Writing fs V0 L0 s (V.putEntry s ((V.entry s).setSize n)) l := by
  have hchain := h.chain
  have hhead := h.coherent.head _ h.live
  rw [Writing.chain_eq] at hhead
  rw [← Record.setSize_firstCluster (n := n)] at hchain
  obtain ⟨hlive, hco, hstays⟩ := h.edit Record.setSize_head Record.setSize_attr hchain
    (fun c hc => ⟨(h.isCluster hc).2, h.marked hc⟩)
    (by
      exact hhead)
    (fun o ho hne c hc hmem => hne ((h.coherent.disjoint o _ ho h.live c hmem
      (Writing.chain_eq.symm ▸ hc)).resolve_right id))
    (by rwa [Record.setSize_size hlt])
  refine ⟨hco, ?_, hstays, (hlive _).mpr h.live, ?_⟩
  · exact h.covered.extend hlive (fun c' _ hused => .inl hused) (fun c' hc' => hc'.elim)
      fun _ _ _ => id
  · have hself := (V.putEntry_self s ((V.entry s).setSize n)).isDir
    exact hself.trans ((Record.isDir_congr Record.setSize_attr).trans h.file)

theorem advance_spec (h : Writing fs V0 L0 s V l) (hf : f.slot = s)
    (hle : f.pos + n ≤ l.length * fs.clusterSize) :
    Runs fs (Safe fs V0 L0 (some s)) V (advance fs f n)
      fun _ m => ∃ V', At fs V' m ∧ Writing fs V0 L0 s V' l := by
  have hlt : u32 (f.pos + n) < 2 ^ 32 := Nat.mod_lt _ (by norm_num)
  have hsize := h.setSize hlt ((Nat.mod_le _ _).trans hle)
  obtain ⟨hok, hc⟩ := h.coherent.slot_ok h.live
  unfold advance
  dsimp only
  rw [hf]
  split_ifs
  · exact (updateDirEntrySize_exact hgood hok hc hsize.safe).bind (.pure fun m hm => ⟨_, hm, hsize⟩)
  · exact .pure fun m hm => ⟨V, hm, h⟩

omit hgood in
theorem Coherent.firstCluster (hco : Coherent fs V0 L0 apart) (hcov : Covered fs V0 L0 ∅)
    (hcur : Current fs V0 L0 f) (hgood : fs.Good) (hempty : f.firstCluster < 2)
    (hc : fs.IsCluster c)
    (hfree : V0.fat c = 0) (honly : Vol.Only c V0 V) (hmark : V.fat c = endMark) :
    Writing fs V0 L0 f.slot (V.putEntry f.slot ((V.entry f.slot).setCluster c)) [c] := by
  have hlt : c < 2 ^ 32 := hc.lt_word hgood
  obtain ⟨hlive, hco', hstays⟩ := hco.outside (t := some f.slot)
    (fun o ho => hco.not_mem_of_free hfree ho) honly
  have hnil : L0 (some f.slot) = [] := by
    have hchain := hco.chain _ hcur.live
    have hlt : (V0.entry f.slot).firstCluster < 2 := hcur.first ▸ hempty
    have hlink : V0.Chain (V0.head fs (some f.slot)) [] := link_zero (.inl hlt)
    exact hchain.unique hlink
  have hself : V.entry f.slot = V0.entry f.slot := by
    obtain ⟨o, ho, -, -, hmem⟩ := hco.slot_cluster hcur.live
    exact honly.entry fun heq => hco.not_mem_of_free hfree ho (heq ▸ hmem)
  obtain ⟨-, -, -, -, hnode⟩ := hco'.parent ((hlive _).mpr hcur.live)
  have hfile : V.isDir (some f.slot) = false := (congrArg Record.isDir hself).trans hcur.file
  have hsize : (V.entry f.slot).size = 0 := by
    have := hco.size _ hcur.live hcur.file
    rw [hnil, length_nil, ← hself] at this
    omega
  have hchain : V.Chain ((V.entry f.slot).setCluster c).firstCluster [c] := by
    rw [Record.setCluster_firstCluster hlt]
    exact Vol.chain_singleton ⟨hc.1, hc.lt_eoc hgood⟩ hmark
  obtain ⟨hlive', hco'', hstays'⟩ := hco'.editFile ((hlive _).mpr hcur.live) hfile
    ((Record.node_congr Record.setCluster_head Record.setCluster_attr).mpr hnode)
    ((Record.isDir_congr Record.setCluster_attr).trans hfile) hchain
    (fun c' hc' => by
      rw [mem_singleton.mp hc', hmark]
      exact ⟨hc.2, endMark_ge⟩)
    (by
      rw [Record.setCluster_firstCluster hlt]
      exact .inr mem_cons_self)
    (fun o ho _ c' hc' hmem => hco.not_mem_of_free hfree ((hlive o).mp ho)
      (mem_singleton.mp hc' ▸ hmem))
    (by
      rw [Record.setCluster_size, hsize]
      exact Nat.zero_le _)
  refine ⟨hco'', ?_, hstays.trans hstays', (hlive' _).mpr ((hlive _).mpr hcur.live), ?_⟩
  · refine hcov.step (fun c' _ hused => ?_) (fun c' hc' => hc'.elim) fun o ho c' hc' _ => ?_
    · by_cases hnew : c' = c
      · refine .inr (.inr ⟨some f.slot, (hlive' _).mpr ((hlive _).mpr hcur.live), ?_⟩)
        rw [hnew, update_self]
        exact mem_cons_self
      · rw [Vol.putEntry_fat, honly.fat c' hnew] at hused
        exact .inl hused
    · refine .inr ⟨o, (hlive' _).mpr ((hlive _).mpr ho), ?_⟩
      rw [update_of_ne]
      · exact hc'
      · rintro rfl
        rw [hnil] at hc'
        cases hc'
  · have hself' := (V.putEntry_self f.slot ((V.entry f.slot).setCluster c)).isDir
    exact hself'.trans ((Record.isDir_congr Record.setCluster_attr).trans hfile)

theorem firstAlloc_spec (hco : Coherent fs V0 L0 apart) (hcov : Covered fs V0 L0 ∅)
    (hcur : Current fs V0 L0 f) : Runs fs (Safe fs V0 L0 (some f.slot)) V0
      (firstAlloc fs f) fun r m => ∃ V l, At fs V m ∧ Writing fs V0 L0 f.slot V l ∧
      ∀ f', r = some f' → f'.slot = f.slot ∧ f'.pos = f.pos ∧ ∃ l2, l = f'.firstCluster :: l2 := by
  have hstart := hco.writing hcov hcur.live hcur.file
  unfold firstAlloc
  split_ifs with hfirst hpos
  · refine .pure fun m hm => ⟨V0, _, hm, hstart, ?_⟩
    rintro _ ⟨⟩
    refine ⟨rfl, rfl, ?_⟩
    have hchain := hstart.chain
    rw [← hcur.first] at hchain
    have hhead := (hco.head _ hcur.live).resolve_left fun hlt => by
      have : f.firstCluster < 2 := hcur.first ▸ hlt
      omega
    cases hl : L0 (some f.slot) with
    | nil =>
      rw [hl] at hhead
      cases hhead
    | cons c l =>
      rw [hl] at hchain
      exact ⟨l, by rw [hchain.cons_inv.1]⟩
  · exact .pure fun m hm => ⟨V0, _, hm, hstart, nofun⟩
  · have hempty : f.firstCluster < 2 := by omega
    have hclaims : Claims fs (Safe fs V0 L0 (some f.slot)) V0 0 := by
      intro c hc hfree
      have hsafe : ∀ V', Vol.Only c V0 V' → Safe fs V0 L0 (some f.slot) V' := fun V' honly =>
        ⟨L0, (hco.outside (fun o ho => hco.not_mem_of_free hfree ho) honly).2⟩
      exact ⟨hsafe _ Vol.only_setFat, fun k _ => hsafe _ (Vol.only_linkAfter k)⟩
    refine allocCluster_bind hgood (Nat.succ_pos _) hclaims ?_ fun newc hc hfree => ?_
    · exact .pure fun m hm => ⟨V0, _, hm, hstart, nofun⟩
    · have hw := hco.firstCluster hcov hcur hgood hempty hc hfree
        (@Vol.only_linkAfter fs V0 newc fs.sectorsPerCluster) Vol.setFat_self
      obtain ⟨hok, hslot⟩ := hco.slot_ok hcur.live
      rw [if_neg (by have := hc.1; omega)]
      refine (updateDirEntryCluster_exact hgood hok hslot hw.safe).bind ?_
      refine .pure fun m hm => ⟨_, _, hm, hw, ?_⟩
      rintro _ ⟨⟩
      exact ⟨rfl, rfl, [], rfl⟩

theorem fat32Write_spec (hco : Coherent fs V0 L0 apart) (hcov : Covered fs V0 L0 ∅)
    (hcur : Current fs V0 L0 f) (data : List UInt8) :
    Runs fs (Safe fs V0 L0 (some f.slot)) V0 (fat32Write fs f data)
      fun _ m => ∃ V l, At fs V m ∧ Writing fs V0 L0 f.slot V l := by
  have hstart := hco.writing hcov hcur.live hcur.file
  unfold fat32Write
  split_ifs
  · exact .pure fun m hm => ⟨V0, _, hm, hstart⟩
  · exact .pure fun m hm => ⟨V0, _, hm, hstart⟩
  refine .bind (firstAlloc_spec hgood hco hcov hcur) fun r => .ex fun V => .ex fun l => ?_
  refine .fact fun ⟨hw, hr⟩ => ?_
  cases r with
  | none => exact .pure fun m hm => ⟨V, l, hm, hw⟩
  | some f' =>
    obtain ⟨hslot, hpos, l2, rfl⟩ := hr f' rfl
    refine .bind (skipWrite_spec hgood _ 0 f'.pos V [] l2 f'.firstCluster hw rfl)
      fun r => .ex fun V1 => .ex fun l1 => ?_
    refine .fact fun ⟨hw1, hr1⟩ => ?_
    cases r with
    | none => exact .pure fun m hm => ⟨V1, l1, hm, hw1⟩
    | some q =>
      obtain ⟨fuel, prev, cluster, skip⟩ := q
      obtain ⟨A, B, rfl, hskip, hsum⟩ := hr1 fuel prev cluster skip rfl
      have hin := (hw1.isCluster (mem_append_right A mem_cons_self)).lt_eoc hgood
      refine .bind (writeClusters_spec hgood fuel prev cluster skip A.length V1 _ data hw1
        (.inside A B prev hskip hin)) fun r => .ex fun V2 => .ex fun l2' => ?_
      refine .fact fun ⟨hw2, hleft, hle⟩ => ?_
      split_ifs
      · refine .bind (advance_spec hgood hw2 hslot (by omega)) fun f'' => .ex fun V3 => ?_
        exact .pure fun m hm => ⟨V3, _, hm⟩
      · exact .pure fun m hm => ⟨V2, _, hm, hw2⟩

end

end TaterTOS.Fat32
