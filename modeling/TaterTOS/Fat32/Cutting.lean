import TaterTOS.Fat32.Writing

/-!
# FAT32: shorter files

A truncation or an unlink frees clusters first and changes the entry afterwards. At the end the
volume is coherent again; on the way it is so only when there is nothing to free.
-/

namespace TaterTOS.Fat32

open Function Lib List

variable {fs : Fs} {V V0 : Vol} {L0 : Obj → List ℕ} {l l' : List ℕ} {s : Slot} {c : ℕ} {f : File}
  {J : Vol → Prop} {e : Record}

theorem Writing.shorten (h : Writing fs V0 L0 s V l) (V' : Vol) (hdata : V'.data = V.data)
    (hfat : ∀ c, c ∉ l → V'.fat c = V.fat c) (hfree : ∀ c ∈ l, c ∉ l' → V'.fat c = 0)
    (hsub : ∀ c ∈ l', c ∈ l) (hzero : e 0 = V.entry s 0)
    (hattr : e.attr = (V.entry s).attr) (hchain : V'.Chain e.firstCluster l')
    (hmarked : ∀ c ∈ l', 2 ≤ V'.fat c) (hhead : e.firstCluster < 2 ∨ e.firstCluster ∈ l')
    (hsize : e.size ≤ l'.length * fs.clusterSize) : Writing fs V0 L0 s (V'.putEntry s e) l' := by
  obtain ⟨o, ho, hdir, hmem, hnode⟩ := h.coherent.parent h.live
  have hself := V'.putEntry_self s e
  have hkind : e.isDir = false := (Record.isDir_congr hattr).trans h.file
  have hentry0 : ∀ p, V'.entry p = V.entry p := fun p => Vol.entry_congr (congrFun hdata _)
  have howner : ∀ o, V.Live fs o → o ≠ some s → ∀ c ∈ l, c ∉ update L0 (some s) l o :=
    fun o ho hne c hc hc' => hne ((h.coherent.disjoint o _ ho h.live c hc'
      (Writing.chain_eq.symm ▸ hc)).resolve_right id)
  have hfats : ∀ o, V.Live fs o → o ≠ some s → ∀ c ∈ update L0 (some s) l o,
      (V'.putEntry s e).fat c = V.fat c := fun o ho hne c hc =>
    hfat c fun hc' => howner o ho hne c hc' hc
  have hother : Others fs V (V'.putEntry s e) (update L0 (some s) l) (some s) :=
    fun o _ _ p hp hne => (Vol.putEntry_of_ne (mem_dirSlots.mp hmem).2.aligned
      (mem_dirSlots.mp hp).2.aligned fun heq => hne (congrArg some heq)).trans (hentry0 p)
  have hbytes := (h.coherent.putEntry_other ho hdir hmem e).2
  have hnot : ∀ {p : Prop}, e.isDir = true → p :=
    fun hd => absurd (hkind.symm.trans hd) Bool.false_ne_true
  obtain ⟨hlive, hco⟩ := h.coherent.file h.live h.file (hself.isDir.trans hkind)
    (hself.node_iff.mpr ((Record.node_congr hzero hattr).mpr hnode)) hfats hother
    (Vol.proper_putEntry hchain hnot (fun c hc => ⟨(h.isCluster (hsub c hc)).2, hmarked c hc⟩) hhead
      hnot fun _ => hsize)
    fun o ho hne c hc => howner o ho hne c (hsub c hc)
  rw [update_idem] at hco
  refine ⟨hco, ?_, h.stays.trans ⟨⟨fun p hp _ hne => hother.self h.coherent hp hne p rfl,
    fun p hp _ hne => hfats _ hp hne,
    fun p hp hf _ c hc => ?_⟩, fun p hp _ hne => ⟨(hlive _).mpr hp, ?_⟩⟩, (hlive _).mpr h.live, ?_⟩
  · refine h.covered.step (fun c _ hused => ?_) (fun c hc => hc.elim) fun o ho c hc hused => ?_
    · by_cases hc : c ∈ l
      · refine .inr (.inr ⟨some s, (hlive _).mpr h.live, ?_⟩)
        rw [update_self]
        by_contra hc'
        exact hused (hfree c hc hc')
      · exact .inl (hfat c hc ▸ hused)
    · refine .inr ⟨o, (hlive _).mpr ho, ?_⟩
      by_cases hne : o = some s
      · rw [hne, update_self] at hc ⊢
        by_contra hc'
        exact hused (hfree c hc hc')
      · rwa [update_of_ne hne] at hc ⊢
  · have := hbytes p hp hf c hc
    unfold Vol.putEntry at this ⊢
    rw [hdata]
    exact this
  · rw [update_of_ne hne, update_of_ne hne]
  · exact hself.isDir.trans hkind

/-! ### Truncation -/

theorem Writing.cut {l1 l2 : List ℕ} {k : ℕ} (h : Writing fs V0 L0 s V (l1 ++ k :: l2))
    (hzero : e 0 = V.entry s 0) (hattr : e.attr = (V.entry s).attr)
    (hfirst : e.firstCluster = (V.entry s).firstCluster)
    (hsize : e.size ≤ (l1 ++ [k]).length * fs.clusterSize) :
    Writing fs V0 L0 s (((V.freed l2).setFat k endMark).putEntry s e) (l1 ++ [k]) := by
  have hnodup := nodup_append.mp h.chain.nodup
  have hk : k ∉ l2 := (nodup_cons.mp hnodup.2.1).1
  have hfats : ∀ c ∈ l1, ((V.freed l2).setFat k endMark).fat c = V.fat c := by
    intro c hc
    have hck : c ≠ k := fun heq => hnodup.2.2 c hc k mem_cons_self heq
    rw [Vol.setFat_of_ne hck]
    exact if_neg fun hc' => hnodup.2.2 c hc c (mem_cons_of_mem _ hc') rfl
  have hhead := h.coherent.head _ h.live
  have hmem : ∀ c ∈ l1 ++ k :: l2, c ∉ l1 ++ [k] → c ∈ l2 := by
    intro c hc hc'
    rw [append_cons] at hc
    exact (mem_append.mp hc).resolve_left hc'
  refine h.shorten ((V.freed l2).setFat k endMark) rfl (fun c hc => ?_) (fun c hc hc' => ?_)
    (fun c hc => ?_) hzero hattr ?_
    (fun c hc => ?_) ?_ hsize
  · have hck : c ≠ k := by
      rintro rfl
      exact hc (mem_append_right _ mem_cons_self)
    rw [Vol.setFat_of_ne hck]
    exact if_neg fun hc' => hc (mem_append_right _ (mem_cons_of_mem _ hc'))
  · have hck : c ≠ k := fun heq => hk (heq ▸ hmem c hc hc')
    rw [Vol.setFat_of_ne hck]
    exact if_pos (hmem c hc hc')
  · rw [append_cons]
    exact mem_append_left _ hc
  · rw [hfirst]
    refine Lib.Chain.splice h.chain (fun c hc => ?_) ?_
    · rw [hfats c hc]
    · rw [Vol.setFat_self]
      exact link_endMark
  · rcases mem_append.mp hc with hc | hc
    · rw [hfats c hc]
      exact h.marked (mem_append_left _ hc)
    · rw [mem_singleton.mp hc, Vol.setFat_self]
      exact endMark_ge
  · rw [hfirst]
    refine hhead.imp_right fun hfirst' => ?_
    -- a chain starts with its first cluster
    have hchain := h.chain
    cases l1 with
    | nil | cons => exact hchain.cons_inv.1 ▸ mem_cons_self

theorem Writing.clear (h : Writing fs V0 L0 s V l) (hzero : e 0 = V.entry s 0)
    (hattr : e.attr = (V.entry s).attr) (hfirst : e.firstCluster = 0) (hsize : e.size = 0) :
    Writing fs V0 L0 s ((V.freed l).putEntry s e) [] := by
  refine h.shorten (V.freed l) rfl (fun c hc => if_neg hc) (fun c hc _ => if_pos hc)
    (fun _ => not_mem_nil.elim) hzero hattr ?_ (fun _ => not_mem_nil.elim) ?_ ?_
  · rw [hfirst]
    exact link_zero (.inl (by norm_num))
  · rw [hfirst]
    exact .inl (by norm_num)
  · rw [hsize]
    exact Nat.zero_le _

def Settled (fs : Fs) (V0 : Vol) (L0 : Obj → List ℕ) (t : Obj) (m : Media) : Prop :=
  ∃ V L, At fs V m ∧ Coherent fs V L apart ∧ Covered fs V L ∅ ∧ Stays fs V0 L0 V L t

theorem Coherent.settled {L : Obj → List ℕ} {t : Obj} (h : Coherent fs V L apart)
    (hcov : Covered fs V L ∅) (m : Media) (hat : At fs V m) : Settled fs V L t m :=
  ⟨V, L, hat, h, hcov, .refl _⟩

theorem Stays.settled {L : Obj → List ℕ} {t : Obj} {m : Media} (h : Stays fs V0 L0 V L t)
    (hs : Settled fs V L t m) : Settled fs V0 L0 t m := by
  obtain ⟨V', L', hat, hco, hcov, hstays⟩ := hs
  exact ⟨V', L', hat, hco, hcov, h.trans hstays⟩

theorem Writing.settled {m : Media} (h : Writing fs V0 L0 s V l) (hat : At fs V m) :
    Settled fs V0 L0 (some s) m :=
  ⟨V, _, hat, h.coherent, h.covered, h.stays⟩

section

variable (hgood : fs.Good) (hco : Coherent fs V0 L0 apart) (hcov : Covered fs V0 L0 ∅)
include hgood hco hcov

theorem truncateZero_spec (hcur : Current fs V0 L0 f) (hfirst : 2 ≤ f.firstCluster)
    (hJ : ∀ V', J V') :
    Runs fs J V0 (truncateZero fs f) fun _ m => Settled fs V0 L0 (some f.slot) m := by
  have hw := hco.writing hcov hcur.live hcur.file
  obtain ⟨hok, hc⟩ := hco.slot_ok hcur.live
  have hchain := hw.chain
  rw [← hcur.first] at hchain
  unfold truncateZero
  rw [if_pos hfirst]
  refine .bind (fat32FreeChain_exact hgood hchain (fun c hc => (hw.isCluster hc).2)
    fun _ _ _ => hJ _)
    fun _ => ?_
  refine (updateDirEntrySize_exact hgood hok hc (hJ _)).bind ?_
  refine (updateDirEntryCluster_exact hgood hok hc (hJ _)).bind ?_
  refine .pure fun m hat => ?_
  rw [Vol.putEntry_putEntry] at hat
  have hself := (V0.freed (L0 (some f.slot))).putEntry_self f.slot
    (((V0.freed (L0 (some f.slot))).entry f.slot).setSize 0)
  refine (hw.clear ?_ ?_ ?_ ?_).settled hat
  · rw [Record.setCluster_head, hself.head]
    rfl
  · rw [Record.setCluster_attr, hself.attr]
    rfl
  · exact Record.setCluster_firstCluster (by norm_num)
  · rw [Record.setCluster_size, hself.size, Record.setSize_size (by norm_num)]

theorem truncateKeep_spec (hcur : Current fs V0 L0 f) {n : ℕ} (hn : n < f.size) (hpos : 0 < n)
    (hJ : ∀ V', Safe fs V0 L0 (some f.slot) V' → J V')
    (hfree : (∀ V', J V') ∨ (n + fs.clusterSize - 1) / fs.clusterSize = (L0 (some f.slot)).length) :
    Runs fs J V0 (truncateKeep fs f n)
      fun _ m => Settled fs V0 L0 (some f.slot) m := by
  have hw := hco.writing hcov hcur.live hcur.file
  obtain ⟨hok, hc⟩ := hco.slot_ok hcur.live
  have hcs := fs.clusterSize_pos
  have hsize := hcur.size
  have hlt := hcur.size_lt
  unfold truncateKeep
  generalize hneed : (n + fs.clusterSize - 1) / fs.clusterSize = needed at hfree
  have hneeded : 0 < needed ∧ n ≤ needed * fs.clusterSize ∧ needed ≤ (L0 (some f.slot)).length := by
    have hdiv := Nat.div_add_mod (n + fs.clusterSize - 1) fs.clusterSize
    have hmod := Nat.mod_lt (n + fs.clusterSize - 1) hcs
    rw [hneed, mul_comm] at hdiv
    refine ⟨Nat.pos_of_ne_zero fun h0 => ?_, by omega, ?_⟩
    · rw [h0] at hdiv
      omega
    · refine Nat.le_of_lt_succ (Nat.lt_of_mul_lt_mul_right (a := fs.clusterSize) ?_)
      rw [Nat.succ_mul]
      omega
  obtain ⟨hn0, hnle, hlen⟩ := hneeded
  have hidx : needed - 1 < (L0 (some f.slot)).length := by omega
  have hchain := hw.chain
  rw [← hcur.first] at hchain
  refine .bind (fat32WalkChain_exact hchain (fun c hc => (hw.isCluster hc).2) hidx) fun k => ?_
  refine .fact fun hk => ?_
  obtain ⟨l1, l2, hl, hl1⟩ : ∃ l1 l2, L0 (some f.slot) = l1 ++ k :: l2 ∧
    l1.length = needed - 1 := by
    refine ⟨(L0 (some f.slot)).take (needed - 1), (L0 (some f.slot)).drop (needed - 1 + 1), ?_,
      length_take_of_le hidx.le⟩
    rw [hk, get_eq_getElem, ← drop_eq_getElem_cons hidx, take_append_drop]
  clear hk
  rw [hl] at hw hchain
  have hkmem : k ∈ l1 ++ k :: l2 := mem_append_right _ mem_cons_self
  have hkc := hw.isCluster hkmem
  rw [if_neg (by have := hkc.1; omega)]
  refine (readFatEntry_exact hkc.2).bind ?_
  have hrest := hw.chain.next
  -- when nothing is freed, every state on the way is safe
  have hsafe : (∀ V', J V') ∨ l2 = [] := hfree.imp_right fun heq => by
    rw [hl, length_append, length_cons] at heq
    exact length_eq_zero_iff.mp (by omega)
  have hfinal : Writing fs V0 L0 f.slot (((V0.freed l2).setFat k endMark).putEntry f.slot
      ((V0.entry f.slot).setSize n)) (l1 ++ [k]) := by
    refine hw.cut Record.setSize_head Record.setSize_attr Record.setSize_firstCluster ?_
    rw [Record.setSize_size (by omega), length_append, length_singleton, hl1,
      Nat.sub_add_cancel hn0]
    exact hnle
  have hmark : J ((V0.freed l2).setFat k endMark) := by
    rcases hsafe with hall | rfl
    · exact hall _
    · have hcut := hw.cut (e := V0.entry f.slot) rfl rfl rfl (by
        have := hco.size _ hcur.live hcur.file
        rwa [hl] at this)
      have hsame : ((V0.freed []).setFat k endMark).putEntry f.slot (V0.entry f.slot) =
          (V0.freed []).setFat k endMark :=
        Vol.putEntry_entry (V := (V0.freed []).setFat k endMark)
      rw [hsame] at hcut
      exact hJ _ hcut.safe
  have htail : Runs fs J (V0.freed l2) (do
      let _ ← writeFatEntry fs k endMark
      let _ ← updateDirEntrySize fs f.slot n
      return (0, { f with size := n, pos := min f.pos n }) : FatIo (ℤ × File))
      fun _ m => Settled fs V0 L0 (some f.slot) m := by
    refine (writeFatEntry_exact hgood hkc.2 hmark).bind ?_
    refine (updateDirEntrySize_exact hgood hok hc (hJ _ hfinal.safe)).bind ?_
    exact .pure fun m hm => hfinal.settled hm
  split_ifs with hin
  · have hne : l2 ≠ [] := by
      rintro rfl
      exact hrest.nil_inv hin
    have hall : ∀ V', J V' := hsafe.resolve_right hne
    refine .bind (fat32FreeChain_exact hgood hrest (fun c hc => (hw.isCluster
      (mem_append_right _ (mem_cons_of_mem _ hc))).2) fun _ _ _ => hall _) fun _ => htail
  · have hnil : l2 = [] := by
      cases l2 with
      | nil => rfl
      | cons d l2 =>
        obtain ⟨rfl, hin', -⟩ := hrest.cons_inv
        exact absurd hin' hin
    rwa [hnil] at htail

theorem fat32Truncate_spec (hcur : Current fs V0 L0 f) (n : ℕ)
    (hJ : ∀ V', Safe fs V0 L0 (some f.slot) V' → J V')
    (hfree : n < f.size → (∀ V', J V') ∨
      (n + fs.clusterSize - 1) / fs.clusterSize = (L0 (some f.slot)).length) :
    Runs fs J V0 (fat32Truncate fs f n)
      fun _ m => Settled fs V0 L0 (some f.slot) m := by
  have hw := hco.writing hcov hcur.live hcur.file
  unfold fat32Truncate
  split_ifs with hdir hsame hbig hzero
  · exact .pure fun m hm => hw.settled hm
  · exact .pure fun m hm => hw.settled hm
  · exact .pure fun m hm => hw.settled hm
  · have hfirst : 2 ≤ f.firstCluster := by
      by_contra hfirst
      have hnil : V0.Chain (V0.entry f.slot).firstCluster [] :=
        link_zero (.inl (hcur.first ▸ not_le.mp hfirst))
      have hsize := hcur.size
      rw [hw.chain.unique hnil, length_nil] at hsize
      omega
    refine truncateZero_spec hgood hco hcov hcur hfirst ((hfree (by omega)).resolve_right
      fun heq => ?_)
    -- a chain with a first cluster is not empty
    rw [hzero, Nat.div_eq_of_lt (by have := fs.clusterSize_pos; omega)] at heq
    have hhead := hco.head _ hcur.live
    rw [length_eq_zero_iff.mp heq.symm] at hhead
    rcases hhead with hhead | hhead
    · have : f.firstCluster < 2 := hcur.first ▸ hhead
      omega
    · cases hhead
  · exact truncateKeep_spec hgood hco hcov hcur (by omega) (by omega) hJ (hfree (by omega))

/-! ### Unlinking -/

omit hgood in
theorem Coherent.unlink (hs : V0.Live fs (some s)) (hfile : V0.isDir (some s) = false) :
    let V := (V0.freed (L0 (some s))).putEntry s ((V0.freed (L0 (some s))).entry s).delete
    Coherent fs V L0 apart ∧ Covered fs V L0 ∅ ∧ Stays fs V0 L0 V L0 (some s) := by
  intro V
  obtain ⟨o, ho, hdir, hmem, hnode⟩ := hco.parent hs
  have hself := (V0.freed (L0 (some s))).putEntry_self s ((V0.freed (L0 (some s))).entry s).delete
  have hfat : ∀ o, V0.Live fs o → o ≠ some s → ∀ c ∈ L0 o, V.fat c = V0.fat c :=
    fun o ho hne c hc =>
    if_neg fun hc' => hne ((hco.disjoint o _ ho hs c hc hc').resolve_right id)
  obtain ⟨hother, hbytes⟩ : Others fs V0 V L0 (some s) ∧ _ := hco.putEntry_other ho hdir hmem
    ((V0.freed (L0 (some s))).entry s).delete
  obtain ⟨hlive, hco'⟩ := hco.remove hs hfile hfat hother
    (fun hlisted => by
      have := (hself.isDeleted.trans Record.delete_isDeleted).symm.trans hlisted.2.1
      exact Bool.false_ne_true this.symm)
    (hself.isEnd.trans Record.delete_isEnd)
  refine ⟨hco', ?_,
    ⟨fun p hp _ hne => hother.self hco hp hne p rfl, fun p hp _ hne => hfat _ hp hne,
    fun p hp hf _ => hbytes p hp hf⟩, fun p hp _ hne => ⟨(hlive _).mpr ⟨hp, hne⟩, rfl⟩⟩
  intro c hc hused
  have hc' : c ∉ L0 (some s) := fun hmem => hused (if_pos hmem)
  have hold : V0.fat c ≠ 0 := (if_neg hc' : V.fat c = V0.fat c) ▸ hused
  refine (hcov c hc hold).imp_right ?_
  rintro ⟨o, ho, hmem⟩
  exact ⟨o, (hlive o).mpr ⟨ho, fun heq => hc' (heq ▸ hmem)⟩, hmem⟩

omit hgood hcov in
theorem Coherent.open_file {path : Str} {f : File}
    (hopen : V0.openAt fs fs.rootCluster (components (relative path)) = some f)
    (hfile : f.isDir = false) :
    ∃ s, V0.Live fs (some s) ∧ V0.isDir (some s) = false ∧ f = V0.fileAt s := by
  obtain ⟨o, s, ho, hdir, hs, hlisted, rfl⟩ := hco.openAt_some _ _ Vol.dirHead_root hopen
  have hfile' : (V0.entry s).isDir = false := hfile
  refine ⟨s, (hco.listed ho hdir hs hlisted).resolve_right fun hdot => ?_, hfile', rfl⟩
  rw [hdot.1] at hfile'
  exact Bool.false_ne_true hfile'.symm

theorem fat32Unlink_spec (path : Str)
    (hJ : ∀ f, V0.openAt fs fs.rootCluster (components (relative path)) = some f →
      ∀ V', Safe fs V0 L0 (some f.slot) V' → J V')
    (hfree : (∀ V', J V') ∨ ∀ f, V0.openAt fs fs.rootCluster (components (relative path)) = some f →
      f.isDir = false → f.firstCluster < 2) :
    Runs fs J V0 (fat32Unlink fs path) fun _ m => ∃ t, Settled fs V0 L0 t m := by
  have hsame : ∀ m, At fs V0 m → ∃ t, Settled fs V0 L0 t m := fun m hm =>
    ⟨none, hco.settled hcov m hm⟩
  refine (fat32Open_exact hco path).bind ?_
  cases hr : V0.openAt fs fs.rootCluster (components (relative path)) with
  | none => exact .pure hsame
  | some f =>
    dsimp only
    split_ifs with hdir hfirst
    · exact .pure hsame
    all_goals
      obtain ⟨s, hs, hfile, rfl⟩ := hco.open_file hr (Bool.eq_false_iff.mpr hdir)
      obtain ⟨hok, hc⟩ := hco.slot_ok hs
      obtain ⟨hco', hcov', hstays⟩ := hco.unlink hcov hs hfile
      have htail : Runs fs J (V0.freed (L0 (some s))) (do
          if ← markDirEntryDeleted fs s then return 0 else return -1 : FatIo ℤ)
          fun _ m => ∃ t, Settled fs V0 L0 t m := by
        refine (markDirEntryDeleted_exact hgood hok hc (hJ _ hr _ ⟨L0, hco', hstays⟩)).bind ?_
        exact .pure fun m hm => ⟨some s, _, L0, hm, hco', hcov', hstays⟩
    · have hall := hfree.resolve_right fun hnone => by
        have := hnone _ hr (Bool.eq_false_iff.mpr hdir)
        omega
      exact .bind (fat32FreeChain_exact hgood (hco.chain _ hs) (fun c hc => (hco.isCluster hs hc).2)
        fun _ _ _ => hall _) fun _ => htail
    · have hnil : V0.Chain (V0.head fs (some s)) [] := link_zero (.inl (not_le.mp hfirst))
      rwa [(hco.chain _ hs).unique hnil] at htail

end

end TaterTOS.Fat32
