import Mathlib.Data.List.TakeWhile
import TaterTOS.Fat32.Cutting

/-!
# FAT32: new entries
-/

namespace TaterTOS.Fat32

open Function Lib List

variable {fs : Fs} {V V' : Vol} {L : Obj → List ℕ} {o t : Obj} {l : List ℕ} {s : Slot} {c : ℕ}
  {e : Record} {J : Vol → Prop} {X : Set ℕ}
  {h cluster size : ℕ} {name path parent : Str} {attr : UInt8} {short : List UInt8}

theorem Vol.Tail.fill (h : V.Tail fs l) (hl : l.Nodup) (hfree : V.FirstFree (dirSlots fs l) s)
    (hother : ∀ p ∈ dirSlots fs l, p ≠ s → V'.entry p = V.entry p)
    (hs : (V'.entry s).isEnd = false) :
    V'.Tail fs l := by
  obtain ⟨A', B', hsplit, hA', -⟩ := hfree
  by_cases hend : (V.entry s).isEnd = true
  · obtain ⟨A, B, hAB, hA, hB⟩ := h
    -- the first end mark is the first free place
    obtain rfl : A = A' := (Vol.shown_eq hAB hA fun b hb => hB b (mem_of_mem_head? hb)).symm.trans
      (Vol.shown_eq hsplit (fun p hp => Bool.eq_false_iff.mpr fun hend => hA' p hp (.inl hend))
        fun b hb => Option.some.inj hb ▸ hend)
    obtain rfl : B = s :: B' := append_cancel_left (hAB.symm.trans hsplit)
    have hkeep : ∀ p ∈ A ++ B', V'.entry p = V.entry p := by
      have hnodup := nodup_middle.mp (hsplit ▸ nodup_dirSlots hl)
      refine fun p hp => hother p ?_ (ne_of_mem_of_not_mem hp (nodup_cons.mp hnodup).1)
      rw [hsplit]
      exact mem_append.mpr ((mem_append.mp hp).imp_right (mem_cons_of_mem _))
    refine ⟨A ++ [s], B', by rw [hsplit, append_cons], fun p hp => ?_, fun p hp => ?_⟩
    · rcases mem_append.mp hp with hp | hp
      · rw [hkeep p (mem_append_left _ hp)]
        exact hA p hp
      · rw [mem_singleton.mp hp]
        exact hs
    · rw [hkeep p (mem_append_right _ hp)]
      exact hB p (mem_cons_of_mem _ hp)
  · refine h.congr fun p hp => ?_
    by_cases heq : p = s
    · rw [heq, hs, Bool.eq_false_iff.mpr hend]
    · rw [hother p hp heq]

/-! ### Placing an entry -/

theorem mem_firstFree {ps : List Slot} (hs : V.FirstFree ps s) : s ∈ ps ∧ (V.entry s).Free := by
  obtain ⟨A, B, rfl, -, hfree⟩ := hs
  exact ⟨mem_append_right _ mem_cons_self, hfree⟩

/-- What a new entry in the directory at `h` may lead to: nothing, or a directory of its own with
nothing but the entries for itself and for its parent. -/
structure Leaf (fs : Fs) (V : Vol) (L : Obj → List ℕ) (e : Record) (l : List ℕ) (h : ℕ) : Prop where
  node : e.Node
  size : e.size = 0
  chain : V.Chain e.firstCluster l
  marked : ∀ c ∈ l, c < fs.clusterLimit ∧ 2 ≤ V.fat c
  head : e.firstCluster < 2 ∨ e.firstCluster ∈ l
  dir : e.isDir = true → 2 ≤ e.firstCluster
  apart : ∀ o, V.Live fs o → ∀ c ∈ l, c ∉ L o
  tail : e.isDir = true → V.Tail fs l
  kids : ∀ s ∈ dirSlots fs l, ¬(V.entry s).Node
  dots : ∀ s ∈ dirSlots fs l, (V.entry s).Listed → (V.entry s).isDir = true ∧
    ((V.entry s).firstCluster < 2 ∨ (V.entry s).firstCluster = h ∨
      e.isDir = true ∧ (V.entry s).firstCluster = e.firstCluster)

theorem Coherent.place (h : Coherent fs V L apart) (ho : V.Live fs o) (hdir : V.isDir o = true)
    (hs : V.FirstFree (dirSlots fs (L o)) s) (hf : Leaf fs V L e l (V.head fs o)) :
    (∀ o, (V.putEntry s e).Live fs o ↔ V.Live fs o ∨ o = some s) ∧
      Coherent fs (V.putEntry s e) (update L (some s) l) apart ∧
      Stays fs V L (V.putEntry s e) (update L (some s) l) t := by
  obtain ⟨hmem, hfree⟩ := mem_firstFree hs
  have hnot : ¬(V.entry s).Node := fun hnode => hfree.not_listed hnode.1
  have hne : ∀ o, V.Live fs o → o ≠ some s := by
    rintro o ho rfl
    exact h.not_live hnot ho
  obtain ⟨hother, hbytes⟩ := h.putEntry_other ho hdir hmem e
  have hself := V.putEntry_self s e
  have hnew : ∀ p ∈ dirSlots fs l, (V.putEntry s e).entry p = V.entry p := by
    intro p hp
    refine Vol.putEntry_of_ne (mem_dirSlots.mp hmem).2.aligned (mem_dirSlots.mp hp).2.aligned ?_
    rintro rfl
    exact hf.apart o ho _ (mem_dirSlots.mp hp).1 (mem_dirSlots.mp hmem).1
  have hp : Proper fs (V.putEntry s e) (some s) l := Vol.proper_putEntry hf.chain
    (fun hd => (hf.tail hd).congr fun p hp => by rw [hnew p hp]) hf.marked hf.head hf.dir
    fun _ => hf.size.symm ▸ Nat.zero_le _
  have hnode := hself.node_iff.mpr hf.node
  have hdots : (∀ o, (V.putEntry s e).Live fs o ↔ V.Live fs o ∨ o = some s) →
      ((V.putEntry s e).entry s).isDir = true → ∀ p ∈ dirSlots fs l,
      ((V.putEntry s e).entry p).Listed → (V.putEntry s e).entry p 0 = dot →
      (V.putEntry s e).DotOk fs ((V.putEntry s e).entry p) := by
    intro hlive hd p hp hlisted _
    rw [hnew p hp] at hlisted ⊢
    obtain ⟨hisDir, hlead⟩ := hf.dots p hp hlisted
    refine ⟨hisDir, ?_⟩
    rcases hlead with hlt | hparent | ⟨-, hown⟩
    · exact .inl hlt
    · have hstay := hother.self h ho (hne o ho)
      exact .inr ⟨o, (hlive o).mpr (.inl ho), (isDir_eq hstay).trans hdir,
        (head_eq hstay).trans hparent.symm⟩
    · exact .inr ⟨some s, (hlive _).mpr (.inr rfl), hd, hself.firstCluster.trans hown.symm⟩
  obtain ⟨hlive, hco⟩ : (∀ o, (V.putEntry s e).Live fs o ↔ V.Live fs o ∨ o = some s) ∧
      Coherent fs (V.putEntry s e) (update L (some s) l) apart :=
    h.add ho hdir hmem hnot (fun _ _ _ _ => rfl) hother hnode hp
      ((h.tail o ho hdir).fill (h.chain o ho).nodup hs (hother.place ho hdir) hnode.not_isEnd)
      (fun o ho c hc hc' => absurd hc' (hf.apart o ho c hc))
      (fun _ p hp hp' => absurd (hnew p hp ▸ hp') (hf.kids p hp)) hdots
  exact ⟨hlive, hco, ⟨fun p hp _ _ => hother.self h hp (hne _ hp) p rfl, fun _ _ _ _ _ _ => rfl,
    fun p hp hf _ => hbytes p hp hf⟩,
    fun p hp _ _ => ⟨(hlive _).mpr (.inl hp), update_of_ne (hne _ hp) _ _⟩⟩

theorem Covered.place (h : Covered fs V L X) (hlive : ∀ o, (V.putEntry s e).Live fs o ↔
    V.Live fs o ∨ o = some s) (hnot : ¬V.Live fs (some s)) (hX : ∀ c ∈ X, c ∈ l) :
    Covered fs (V.putEntry s e) (update L (some s) l) ∅ := by
  refine h.step (fun c _ hused => .inl hused)
    (fun c hc _ => .inr ⟨some s, (hlive _).mpr (.inr rfl), ?_⟩)
    fun o ho c hc _ => .inr ⟨o, (hlive _).mpr (.inl ho), ?_⟩
  · rw [update_self]
    exact hX c hc
  · rw [update_of_ne]
    · exact hc
    · rintro rfl
      exact hnot ho

theorem Leaf.congr {L' : Obj → List ℕ} (hf : Leaf fs V L e l h) (hfat : ∀ c ∈ l, V'.fat c = V.fat c)
    (hdata : ∀ c ∈ l, V'.data c = V.data c) (hapart : ∀ o, V'.Live fs o → ∀ c ∈ l, c ∉ L' o) :
    Leaf fs V' L' e l h := by
  have hentry : ∀ s ∈ dirSlots fs l, V'.entry s = V.entry s := fun s hs =>
    Vol.entry_congr (hdata _ (mem_dirSlots.mp hs).1)
  refine ⟨hf.node, hf.size, hf.chain.congr rfl hfat, fun c hc => ?_, hf.head, hf.dir, hapart,
    fun hd =>
    (hf.tail hd).congr fun s hs => by rw [hentry s hs], fun s hs => ?_, fun s hs => ?_⟩
  · rw [hfat c hc]
    exact hf.marked c hc
  · rw [hentry s hs]
    exact hf.kids s hs
  · rw [hentry s hs]
    exact hf.dots s hs

theorem Vol.claim_isEnd {prev : ℕ} (hs : s ∈ clusterSlots fs c) :
    ((V.claim fs prev c).entry s).isEnd = true := by
  obtain ⟨rfl, hok⟩ := mem_clusterSlots.mp hs
  have hzero : (V.claim fs prev s.cluster).entry s 0 = 0 := by
    rw [Vol.entry_apply (by norm_num)]
    unfold Vol.claim Vol.zeroTo
    dsimp only
    rw [update_self]
    exact if_pos hok.offset_lt
  unfold Record.isEnd
  rw [hzero]
  rfl

theorem clusterSlots_eq (fs : Fs) (c : ℕ) : ∃ n, clusterSlots fs c =
    ⟨c, 0⟩ :: ⟨c, 32⟩ :: (List.range n).map fun k => ⟨c, 32 * (k + 2)⟩ := by
  have hle : 2 ≤ fs.clusterSize / 32 := by
    have := fs.bytes_ge.trans fs.bytes_le
    omega
  obtain ⟨n, hn⟩ := Nat.exists_eq_add_of_le hle
  refine ⟨n, ?_⟩
  unfold clusterSlots
  rw [hn, range_add, map_append, map_map]
  refine congrArg (_ :: _ :: ·) (map_congr_left fun k _ => ?_)
  rw [comp_apply, add_comm]

section

variable (hgood : fs.Good) (hco : Coherent fs V L apart)
include hgood hco

theorem Coherent.growDir (hcov : Covered fs V L X) (ho : V.Live fs o) (hdir : V.isDir o = true)
    (hl : L o ≠ []) (hc : fs.IsCluster c) (hfree : V.fat c = 0)
    (hfull : ∀ s ∈ dirSlots fs (L o), ¬(V.entry s).Free) :
    let V' := V.claim fs ((L o).getLast hl) c
    let L' := update L o (L o ++ [c])
    (∀ o, V'.Live fs o ↔ V.Live fs o) ∧ Coherent fs V' L' apart ∧ Covered fs V' L' X ∧
      Stays fs V L V' L' t ∧ V'.FirstFree (dirSlots fs (L' o)) ⟨c, 0⟩ ∧ V'.isDir o = true ∧
      V'.head fs o = V.head fs o ∧ Vol.Extends ((L o).getLast hl) c V V' := by
  intro V' L'
  have hL' : L' o = L o ++ [c] := update_self _ _ _
  have hlast := hco.isCluster ho (getLast_mem hl)
  have hne : c ≠ (L o).getLast hl := fun heq =>
    hco.not_mem_of_free hfree ho (heq ▸ getLast_mem hl)
  have hext : Vol.Extends ((L o).getLast hl) c V V' :=
    Vol.extends_linkAfter (by have := hlast.1; omega) hne _
  have hentry := hco.extended_entry hfree hext
  have hself : ∀ s, o = some s → V'.entry s = V.entry s := fun s hs =>
    hco.entry_self hentry (hs ▸ ho)
  obtain ⟨hlive, hco', hstays⟩ := hco.extendDir (t := t) hgood hc hfree ho hdir hl hext
    fun s hs => Vol.claim_isEnd hs
  refine ⟨hlive, hco', hcov.linked hco ho hl hext hlive, hstays, ?_, (isDir_eq hself).trans hdir,
    head_eq hself, hext⟩
  obtain ⟨n, hB⟩ := clusterSlots_eq fs c
  refine ⟨dirSlots fs (L o), ⟨c, 32⟩ :: (List.range n).map fun k => ⟨c, 32 * (k + 2)⟩, ?_,
    fun p hp => ?_, .inl (Vol.claim_isEnd ?_)⟩
  · rw [hL', dirSlots_append, dirSlots_singleton, hB]
  · rw [hentry o ho hdir p hp]
    exact hfull p hp
  · rw [hB]
    exact mem_cons_self

omit hgood in
theorem Coherent.giveBack (hcov : Covered fs V L X) (hapart : ∀ o, V.Live fs o → cluster ∉ L o)
    (hX : ∀ c ∈ X, c = cluster) :
    Coherent fs (V.setFat cluster 0) L apart ∧ Covered fs (V.setFat cluster 0) L ∅ ∧
      Stays fs V L (V.setFat cluster 0) L t := by
  obtain ⟨hlive, hco', hstays⟩ := hco.outside (t := t) hapart (Vol.only_setFat (v := 0))
  refine ⟨hco', ?_, hstays⟩
  refine hcov.step (fun c _ hused => .inl ?_) (fun c hc hused => ?_)
    fun o ho c hc _ => .inr ⟨o, (hlive o).mpr ho, hc⟩
  · have hne : c ≠ cluster := fun heq => hused (heq ▸ Vol.setFat_self)
    rwa [Vol.setFat_of_ne hne] at hused
  · exact absurd (hX c hc ▸ Vol.setFat_self) hused

theorem placeAt_spec (hcov : Covered fs V L X) (ho : V.Live fs o) (hdir : V.isDir o = true)
    (hs : V.FirstFree (dirSlots fs (L o)) s) (hf : Leaf fs V L e l (V.head fs o))
    (hX : ∀ c ∈ X, c ∈ l) (hJ : J (V.putEntry s e)) : Runs fs J V (do
      if ← writeDirEntry fs s e then return 0
      else
        if cluster ≠ 0 then fat32FreeChain fs cluster
        return -1 : FatIo ℤ) fun _ m => Settled fs V L none m := by
  obtain ⟨hmem, hfree⟩ := mem_firstFree hs
  obtain ⟨hc, hok⟩ := mem_dirSlots.mp hmem
  obtain ⟨hlive, hco', hstays⟩ := hco.place (t := none) ho hdir hs hf
  have hnot : ¬V.Live fs (some s) := hco.not_live fun hnode => hfree.not_listed hnode.1
  refine (writeDirEntry_exact hgood hok (hco.isCluster ho hc) hJ).bind ?_
  exact .pure fun m hm => ⟨_, _, hm, hco', hcov.place hlive hnot hX, hstays⟩

theorem placeEntry_spec (hcov : Covered fs V L X) (ho : V.Live fs o) (hdir : V.isDir o = true)
    (hf : Leaf fs V L e l (V.head fs o)) (hX : ∀ c ∈ X, c ∈ l)
    (hl : cluster = 0 ∧ l = [] ∨ cluster ≠ 0 ∧ l = [cluster] ∧ e.firstCluster = cluster)
    (hJ : ∀ V', Safe fs V L none V' → J V')
    (hgrow : (∀ V', J V') ∨ ∃ p ∈ dirSlots fs (L o), (V.entry p).Free) :
    Runs fs J V (placeEntry fs (V.head fs o) e cluster)
      fun _ m => Settled fs V L none m := by
  have hne : L o ≠ [] := by
    intro hnil
    have hhead := hco.head o ho
    have := hco.dir o ho hdir
    rw [hnil] at hhead
    rcases hhead with hhead | hhead
    · omega
    · cases hhead
  have hall : (∀ s ∈ dirSlots fs (L o), ¬(V.entry s).Free) → ∀ V', J V' := fun hfull =>
    hgrow.resolve_right fun ⟨p, hp, hfree⟩ => hfull p hp hfree
  refine findFreeDirSlot_bind hgood (hco.ranged ho) hne (fun hfull c _ _ =>
    ⟨hall hfull _, fun _ _ => hall hfull _⟩) ?_ (fun s hs => ?_) fun hfull c hc hfree => ?_
  · split_ifs with hzero
    · obtain ⟨-, rfl, hfirst⟩ := hl.resolve_left fun h => hzero h.1
      obtain ⟨hco', hcov', hstays⟩ := hco.giveBack (t := none) hcov
        (fun o ho => hf.apart o ho _ mem_cons_self) fun c hc => mem_singleton.mp (hX c hc)
      have hchain := hf.chain
      rw [hfirst] at hchain
      refine .bind (fat32FreeChain_exact hgood hchain (fun c hc => (hf.marked c hc).1)
        fun l1 l2 hsplit => hJ _ ?_) fun _ => ?_
      · cases l1 with
        | nil =>
          exact ⟨L, hco, .refl _⟩
        | cons x l1 =>
          obtain ⟨rfl, hnil⟩ := List.cons.inj hsplit
          rw [(append_eq_nil_iff.mp hnil.symm).1, Vol.freed_singleton]
          exact ⟨L, hco', hstays⟩
      · refine .pure fun m hm => ⟨_, L, ?_, hco', hcov', hstays⟩
        rwa [Vol.freed_singleton] at hm
    · obtain ⟨-, rfl⟩ := hl.resolve_right fun h => h.1 (not_not.mp hzero)
      refine .pure fun m hm => ⟨V, L, hm, hco, ?_, .refl _⟩
      exact hcov.step (fun c _ hused => .inl hused) (fun c hc _ => nomatch hX c hc)
        fun o ho c hc _ => .inr ⟨o, ho, hc⟩
  · obtain ⟨-, hco', hstays⟩ := hco.place (t := none) ho hdir hs hf
    exact placeAt_spec hgood hco hcov ho hdir hs hf hX (hJ _ ⟨_, hco', hstays⟩)
  · obtain ⟨hlive, hco', hcov', hstays, hfirst, hdir', hhead, hext⟩ :=
      hco.growDir (t := none) hgood hcov ho hdir hne hc hfree hfull
    have hnew : c ∉ l := fun hmem => by
      have := (hf.marked c hmem).2
      omega
    have hlast : ∀ c' ∈ l, c' ≠ (L o).getLast hne := fun c' hc' heq =>
      hf.apart o ho c' hc' (heq ▸ getLast_mem hne)
    have hf' : Leaf fs (V.claim fs ((L o).getLast hne) c) (update L o (L o ++ [c])) e l
        ((V.claim fs ((L o).getLast hne) c).head fs o) := by
      rw [hhead]
      refine hf.congr (fun c' hc' => hext.fat c' (hlast c' hc') fun heq => hnew (heq ▸ hc'))
        (fun c' hc' => hext.data c' fun heq => hnew (heq ▸ hc')) fun o' ho' c' hc' hmem => ?_
      have ho' := (hlive o').mp ho'
      by_cases heq : o' = o
      · rw [heq, update_self, mem_append, mem_singleton] at hmem
        rcases hmem with hmem | rfl
        · exact hf.apart o ho c' hc' hmem
        · exact hnew hc'
      · rw [update_of_ne heq] at hmem
        exact hf.apart o' ho' c' hc' hmem
    exact (placeAt_spec hgood hco' hcov' ((hlive o).mpr ho) hdir' hfirst hf' hX (hall hfull _)).post
      fun _ _ => hstays.settled

end

/-! ### New directories -/

structure Vol.NewDir (fs : Fs) (V : Vol) (c parent : ℕ) : Prop where
  mark : V.fat c = endMark
  self : (V.entry ⟨c, 0⟩).Same (newEntry dotName attrDir c 0)
  up : (V.entry ⟨c, 32⟩).Same (newEntry dotDotName attrDir parent 0)
  rest : ∀ s ∈ clusterSlots fs c, s.offset ≠ 0 → s.offset ≠ 32 → (V.entry s).isEnd = true

theorem Vol.newDir_dots {parent : ℕ} {b : Sector} (hmark : V.fat c = endMark)
    (hzero : ∀ o < fs.clusterSize, V.data c o = 0) (hb : ∀ i < fs.bytesPerSector, b i = 0) :
    (V.setSector fs c 0
      (putBytes (putBytes b 0 ((List.range 32).map (newEntry dotName attrDir c 0))) 32
      ((List.range 32).map (newEntry dotDotName attrDir parent 0)))).NewDir fs c parent := by
  have hbytes := fs.bytes_ge
  have hsize := fs.bytes_le
  have hdata : ∀ b' : Sector, ∀ o < fs.bytesPerSector, (V.setSector fs c 0 b').data c o = b' o := by
    intro b' o ho
    unfold Vol.setSector
    dsimp only
    rw [update_self, if_pos ⟨by omega, Nat.div_eq_of_lt ho⟩, Nat.mod_eq_of_lt ho]
  refine ⟨hmark, fun i hi => ?_, fun i hi => ?_, fun s hs h0 h32 => ?_⟩
  · rw [Vol.entry_apply hi]
    dsimp only
    rw [hdata _ _ (by omega), putBytes_outside (by omega)]
    exact (recordAt_apply hi).trans (recordAt_putBytes b 0 _ i hi)
  · rw [Vol.entry_apply hi]
    dsimp only
    rw [hdata _ _ (by omega)]
    exact (recordAt_apply hi).trans (recordAt_putBytes _ 32 _ i hi)
  · obtain ⟨rfl, hok⟩ := mem_clusterSlots.mp hs
    have hlen : ∀ e : Record, ((List.range 32).map e).length = 32 := fun e => by
      rw [length_map, length_range]
    have h64 : 64 ≤ s.offset := by
      have := hok.aligned
      omega
    have hvalue : ∀ b' : Sector, (∀ i, 64 ≤ i → b' i = b i) →
        (V.setSector fs s.cluster 0 b').entry s 0 = 0 := by
      intro b' hb'
      rw [Vol.entry_apply (by norm_num), add_zero]
      by_cases hlt : s.offset < fs.bytesPerSector
      · rw [hdata _ _ hlt, hb' _ h64, hb _ hlt]
      · unfold Vol.setSector
        dsimp only
        rw [update_self, if_neg]
        · exact hzero _ hok.offset_lt
        · rintro ⟨-, hdiv⟩
          rw [Nat.div_eq_zero_iff] at hdiv
          omega
    unfold Record.isEnd
    rw [hvalue]
    · rfl
    · intro i hi
      rw [putBytes_outside (by rw [hlen]; omega), putBytes_outside (by rw [hlen]; omega)]

theorem Vol.NewDir.leaf (hgood : fs.Good) (hc : fs.IsCluster c) (hh : h < 2 ^ 32)
    (hnew : V.NewDir fs c (fs.parentField h)) (hnode : e.Node) (hsize : e.size = 0)
    (hfirst : e.firstCluster = c) (hdir : e.isDir = true) (hapart : ∀ o, V.Live fs o → c ∉ L o) :
    Leaf fs V L e [c] h := by
  have hlt := hc.lt_word hgood
  have hdots : ∀ s ∈ clusterSlots fs c, (V.entry s).isEnd = true ∨ V.entry s 0 = dot ∧
      (V.entry s).isDir = true ∧ ((V.entry s).firstCluster = c ∨
        (V.entry s).firstCluster = fs.parentField h) ∧ (V.entry s).isEnd = false := by
    intro s hs
    obtain ⟨hcl, hok⟩ := mem_clusterSlots.mp hs
    by_cases h0 : s.offset = 0
    · obtain rfl : s = ⟨c, 0⟩ := by
        cases s
        exact Slot.mk.injEq .. ▸ ⟨hcl, h0⟩
      refine .inr ⟨hnew.self.head, ?_,
        .inl (hnew.self.firstCluster.trans (newEntry_firstCluster hlt)), ?_⟩
      · exact hnew.self.isDir.trans (by unfold Record.isDir; rw [newEntry_attr]; decide)
      · exact hnew.self.isEnd
    · by_cases h32 : s.offset = 32
      · obtain rfl : s = ⟨c, 32⟩ := by
          cases s
          exact Slot.mk.injEq .. ▸ ⟨hcl, h32⟩
        have hfield : fs.parentField h < 2 ^ 32 := by
          unfold Fs.parentField
          split_ifs <;> omega
        refine .inr ⟨hnew.up.head, ?_,
          .inr (hnew.up.firstCluster.trans (newEntry_firstCluster hfield)), ?_⟩
        · exact hnew.up.isDir.trans (by unfold Record.isDir; rw [newEntry_attr]; decide)
        · exact hnew.up.isEnd
      · exact .inl (hnew.rest s hs h0 h32)
  have hparent : fs.parentField h < 2 ∨ fs.parentField h = h := by
    unfold Fs.parentField
    split_ifs
    · exact .inl (by norm_num)
    · exact .inr rfl
  have hmem : ∀ s ∈ dirSlots fs [c], s ∈ clusterSlots fs c := fun s hs => by
    rwa [dirSlots_singleton] at hs
  refine ⟨hnode, hsize, ?_, fun c' hc' => ?_, .inr (hfirst ▸ mem_cons_self),
    fun _ => hfirst.symm ▸ hc.1, fun o ho c' hc' => mem_singleton.mp hc' ▸ hapart o ho, fun _ => ?_,
    fun s hs hsnode => ?_, fun s hs hlisted => ?_⟩
  · rw [hfirst]
    exact Vol.chain_singleton ⟨hc.1, hc.lt_eoc hgood⟩ hnew.mark
  · rw [mem_singleton.mp hc', hnew.mark]
    exact ⟨hc.2, endMark_ge⟩
  · obtain ⟨n, hslots⟩ := clusterSlots_eq fs c
    refine ⟨[⟨c, 0⟩, ⟨c, 32⟩], (List.range n).map fun k => ⟨c, 32 * (k + 2)⟩, ?_, ?_,
      fun s hs => ?_⟩
    · rw [dirSlots_singleton, hslots]
      rfl
    · intro s hs
      rcases mem_cons.mp hs with rfl | hs
      · exact hnew.self.isEnd
      · rw [mem_singleton.mp hs]
        exact hnew.up.isEnd
    · obtain ⟨k, -, rfl⟩ := mem_map.mp hs
      refine hnew.rest _ ?_ (by dsimp only; omega) (by dsimp only; omega)
      rw [hslots]
      exact mem_cons_of_mem _ (mem_cons_of_mem _ hs)
  · rcases hdots s (hmem s hs) with hend | ⟨hdot, -⟩
    · rw [hsnode.not_isEnd] at hend
      exact Bool.false_ne_true hend
    · exact hsnode.2 hdot
  · rcases hdots s (hmem s hs) with hend | ⟨-, hisDir, hlead, -⟩
    · rw [hlisted.not_isEnd] at hend
      exact absurd hend Bool.false_ne_true
    · refine ⟨hisDir, ?_⟩
      rcases hlead with hlead | hlead
      · exact .inr (.inr ⟨hdir, hlead.trans hfirst.symm⟩)
      · rw [hlead]
        exact hparent.imp_right .inl

theorem writeDots_exact (hgood : fs.Good) (hc : fs.IsCluster c) (dir : ℕ)
    (hJ : ∀ V', Vol.Only c V V' → J V') :
    Runs fs J (V.claim fs 0 c) (writeDots fs dir c) fun r m => r = true ∧
      ∃ V', At fs V' m ∧ Vol.Only c V V' ∧ V'.NewDir fs c (fs.parentField dir) := by
  have honly : Vol.Only c V (V.claim fs 0 c) := Vol.only_linkAfter _
  have hzero : ∀ o < fs.clusterSize, (V.claim fs 0 c).data c o = 0 := by
    intro o ho
    unfold Vol.claim Vol.zeroTo
    dsimp only
    rw [update_self]
    exact if_pos ho
  unfold writeDots
  refine readData_bind hc fs.cluster_pos fun b hb => ?_
  have hb : ∀ i < fs.bytesPerSector, b i = 0 := by
    intro i hi
    rw [hb i hi, zero_mul, zero_add]
    exact hzero i (hi.trans_le fs.bytes_le)
  have hwrite := @writeData_exact fs (V.claim fs 0 c) c 0
    (putBytes (putBytes b 0 ((List.range 32).map (newEntry dotName attrDir c 0))) 32
      ((List.range 32).map (newEntry dotDotName attrDir (fs.parentField dir) 0)))
    J hgood hc fs.cluster_pos (hJ _ (honly.trans Vol.only_setSector))
  refine hwrite.bind ?_
  refine .pure fun m hm => ⟨rfl, _, hm, honly.trans Vol.only_setSector, ?_⟩
  exact Vol.newDir_dots Vol.setFat_self hzero hb

theorem createCluster_bind {α : Type} {f : Option ℕ → FatIo α} {Q : α → Media → Prop}
    (hgood : fs.Good) (dir : ℕ) (attr : UInt8)
    (hJ : ∀ c V', V.fat c = 0 → Vol.Only c V V' → J V')
    (hnone : Runs fs J V (f none) Q)
    (hfile : attr &&& attrDir = 0 → Runs fs J V (f (some 0)) Q)
    (hdir : attr &&& attrDir ≠ 0 → ∀ c V', fs.IsCluster c → V.fat c = 0 → Vol.Only c V V' →
      V'.NewDir fs c (fs.parentField dir) → Runs fs J V' (f (some c)) Q) :
    Runs fs J V (createCluster fs dir attr >>= f) Q := by
  unfold createCluster
  split_ifs with hattr
  · exact hfile hattr
  · rw [bind_assoc]
    refine allocCluster_bind hgood (Nat.succ_pos _) (fun c hc hfree =>
      ⟨hJ c _ hfree Vol.only_setFat, fun k _ => hJ c _ hfree (Vol.only_linkAfter k)⟩) hnone
      fun c hc hfree => ?_
    rw [if_neg (by have := hc.1; omega), bind_assoc]
    refine .bool (writeDots_exact hgood hc dir fun V' honly => hJ c V' hfree honly)
      (.of (fun _ hm => hm.1) nofun) (Spec.right (.ex fun V' => ?_))
    exact .fact fun ⟨honly, hnew⟩ => hdir hattr c V' hc hfree honly hnew

/-! ### Names -/

/-- The names and attributes for which the search sees the new entry: the path is a C string, the
short name does not start with the mark of a deleted entry, and the entry is no volume label. -/
structure CreateOk (path : Str) (attr : UInt8) : Prop where
  string : (0 : UInt8) ∉ path
  name : ∀ parent name short, splitPath path = some (parent, name) →
    buildShortName name = some short → short.head? ≠ some 0xE5
  attr : attr &&& attrVolume = 0

theorem upper_ne {b k : UInt8} (hk : k < 0x41) (hb : b ≠ k) : upper b ≠ k := by
  unfold upper
  split_ifs with hrange
  · rintro rfl
    have h1 := UInt8.le_iff_toNat_le.mp hrange.1
    have h2 := UInt8.lt_iff_toNat_lt.mp hk
    rw [UInt8.toNat_sub_of_le _ _ (UInt8.le_iff_toNat_le.mpr (by
      have : (32 : UInt8).toNat = 32 := rfl
      have : (0x61 : UInt8).toNat = 97 := rfl
      omega))] at h2
    have : (32 : UInt8).toNat = 32 := rfl
    have : (0x61 : UInt8).toNat = 97 := rfl
    have : (0x41 : UInt8).toNat = 65 := rfl
    omega
  · exact hb

theorem buildShortName_head (h : buildShortName name = some short) :
    ∃ b ∈ name, b ≠ dot ∧ short.head? = some (upper b) ∧ 0 < short.length := by
  unfold buildShortName at h
  dsimp only at h
  split_ifs at h with h1 h2 h3 h4
  cases h
  cases hbase : name.takeWhile (· != dot) with
  | nil =>
    rw [hbase] at h2
    exact absurd (.inr rfl) h2
  | cons b base =>
    have hmem : b ∈ name.takeWhile (· != dot) := hbase ▸ mem_cons_self
    refine ⟨b, (takeWhile_sublist _).subset hmem, ?_, rfl, ?_⟩
    · have hne := mem_takeWhile_imp hmem
      exact bne_iff_ne.mp hne
    · exact Nat.succ_pos _

theorem splitPath_mem (h : splitPath path = some (parent, name)) : ∀ b ∈ name, b ∈ path := by
  have hrel : ∀ b ∈ relative path, b ∈ path := by
    intro b hb
    unfold relative at hb
    split_ifs at hb
    · exact mem_of_mem_tail hb
    · exact hb
  unfold splitPath at h
  dsimp only at h
  split_ifs at h
  · cases h
    exact fun b hb => hrel b (mem_of_mem_take hb)
  · cases h
    intro b hb
    have := (takeWhile_sublist _).subset (mem_reverse.mp (mem_of_mem_take hb))
    exact hrel b (mem_reverse.mp this)

theorem isVolume_archive (a : UInt8) : (a ||| attrArchive) &&& attrVolume = a &&& attrVolume := by
  apply UInt8.toNat_inj.mp
  rw [UInt8.toNat_and, UInt8.toNat_or, Nat.and_or_distrib_right]
  exact Nat.or_zero _

theorem archive_ne_lfn {a : UInt8} : a ||| attrArchive ≠ attrLfn := by
  intro heq
  have hbit := congrArg (fun x => x.toNat &&& 0x20) heq
  rw [UInt8.toNat_or, Nat.and_or_distrib_right] at hbit
  exact absurd (Nat.or_eq_zero_iff.mp hbit).2 (by decide)

theorem CreateOk.node (h : CreateOk path attr) (hsplit : splitPath path = some (parent, name))
    (hshort : buildShortName name = some short) (cluster size : ℕ) :
    (newEntry short (attr ||| attrArchive) cluster size).Node := by
  obtain ⟨b, hb, hdot, hhead, hlen⟩ := buildShortName_head hshort
  have hbzero : b ≠ 0 := fun heq => h.string (heq ▸ splitPath_mem hsplit b hb)
  have hfirst : newEntry short (attr ||| attrArchive) cluster size 0 = upper b := by
    cases short with
    | nil => cases hhead
    | cons x short => exact Option.some.inj hhead
  have hdel : upper b ≠ 0xE5 := fun heq => h.name parent name short hsplit hshort (heq ▸ hhead)
  refine ⟨⟨?_, ?_, ?_, ?_⟩, ?_⟩
  · unfold Record.isEnd
    rw [hfirst]
    exact beq_eq_false_iff_ne.mpr (upper_ne (by decide) hbzero)
  · unfold Record.isDeleted
    rw [hfirst]
    exact beq_eq_false_iff_ne.mpr hdel
  · unfold Record.isLfn
    exact beq_eq_false_iff_ne.mpr archive_ne_lfn
  · unfold Record.isVolume
    rw [newEntry_attr, isVolume_archive, h.attr]
    rfl
  · rw [hfirst]
    exact upper_ne (by decide) hdot

/-! ### The call -/

theorem newEntry_isDir {name : List UInt8} :
    (newEntry name (attr ||| attrArchive) cluster size).isDir = (attr &&& attrDir != 0) := by
  unfold Record.isDir
  rw [newEntry_attr, isDir_archive]

theorem leaf_file (hnode : e.Node) (hsize : e.size = 0) (hfirst : e.firstCluster = 0)
    (hfile : e.isDir = false) : Leaf fs V L e [] h := by
  have hnot : ∀ {p : Prop}, e.isDir = true → p := fun hd => by
    rw [hfile] at hd
    exact absurd hd Bool.false_ne_true
  exact ⟨hnode, hsize, link_zero (.inl (by omega)), fun _ => not_mem_nil.elim,
    .inl (by omega), hnot, fun _ _ _ => not_mem_nil.elim, hnot, fun _ => not_mem_nil.elim,
    fun _ => not_mem_nil.elim⟩

section

variable (hgood : fs.Good) (hco : Coherent fs V L apart) (hcov : Covered fs V L ∅)
include hgood hco hcov

theorem createIn_spec (ho : V.Live fs o) (hdir : V.isDir o = true)
    (hnode : ∀ short cluster, buildShortName name = some short →
      (newEntry short (attr ||| attrArchive) cluster 0).Node)
    (hJ : ∀ V', Safe fs V L none V' → J V')
    (hgrow : (∀ V', J V') ∨ ∃ p ∈ dirSlots fs (L o), (V.entry p).Free) :
    Runs fs J V (createIn fs (V.head fs o) name attr)
      fun _ m => Settled fs V L none m := by
  have hsame : ∀ m, At fs V m → Settled fs V L none m := hco.settled hcov
  have hlt : V.head fs o < 2 ^ 32 := by
    have hlimit : V.head fs o < fs.clusterLimit := by
      have h2 := hco.dir o ho hdir
      rcases hco.head o ho with hhead | hhead
      · omega
      · exact (hco.marked o ho _ hhead).1
    exact lt_trans (lt_of_lt_of_le hlimit hgood.limit) (by decide)
  refine .option (findInDir_exact (hco.ranged ho)) ?_ fun _ => .pure fun m hm => hsame m hm.1
  cases hshort : buildShortName name with
  | none => exact .pure fun m hm => hsame m hm.1
  | some short =>
    have hsafe : ∀ c V', V.fat c = 0 → Vol.Only c V V' → J V' := fun c V' hfree honly =>
      hJ V' ⟨L, (hco.outside (fun o ho => hco.not_mem_of_free hfree ho) honly).2⟩
    refine Spec.left (createCluster_bind hgood _ attr hsafe ?_ (fun hattr => ?_)
      fun hattr cluster V' hc hfree honly hnew => ?_)
    · exact .pure hsame
    · refine placeEntry_spec hgood hco hcov ho hdir (leaf_file (hnode short 0 hshort)
        (newEntry_size (by norm_num)) (newEntry_firstCluster (by norm_num)) ?_)
        (fun c hc => hc.elim) (.inl ⟨rfl, rfl⟩) hJ hgrow
      rw [newEntry_isDir, hattr]
      rfl
    · have hout : ∀ o, V.Live fs o → cluster ∉ L o := fun o ho => hco.not_mem_of_free hfree ho
      obtain ⟨hlive, hco', hstays⟩ := hco.outside (t := none) hout honly
      have hentry : ∀ o, V.Live fs o → ∀ p ∈ dirSlots fs (L o), V'.entry p = V.entry p :=
        fun o ho p hp => honly.entry fun heq => hout o ho (heq ▸ (mem_dirSlots.mp hp).1)
      have hself : ∀ s, o = some s → V'.entry s = V.entry s := fun s hs =>
        hco.entry_self (fun o ho _ => hentry o ho) (hs ▸ ho)
      have hcov' : Covered fs V' L {cluster} := by
        refine hcov.step (fun c _ hused => ?_) (fun c hc => hc.elim)
          fun o ho c hc _ => .inr ⟨o, (hlive o).mpr ho, hc⟩
        by_cases heq : c = cluster
        · exact .inr (.inl heq)
        · exact .inl (honly.fat c heq ▸ hused)
      have hcl := hc.lt_word hgood
      have hleaf : Leaf fs V' L (newEntry short (attr ||| attrArchive) cluster 0) [cluster]
          (V'.head fs o) := by
        rw [head_eq hself]
        refine hnew.leaf hgood hc hlt (hnode short cluster hshort) (newEntry_size (by norm_num))
          (newEntry_firstCluster hcl) ?_ fun o ho => hout o ((hlive o).mp ho)
        rw [newEntry_isDir]
        exact bne_iff_ne.mpr hattr
      have hplace := placeEntry_spec hgood hco' hcov' ((hlive o).mpr ho)
        ((isDir_eq hself).trans hdir) hleaf (fun c hc => mem_singleton.mpr hc)
        (.inr ⟨by have := hc.1; omega, rfl, newEntry_firstCluster hcl⟩)
        (fun V'' ⟨L'', hco'', hstays''⟩ => hJ V'' ⟨L'', hco'', hstays.trans hstays''⟩)
        (hgrow.imp_right fun ⟨p, hp, hfree⟩ => ⟨p, hp, (hentry o ho p hp).symm ▸ hfree⟩)
      rw [head_eq hself] at hplace
      exact hplace.post fun _ _ => hstays.settled

def Vol.ParentAt (fs : Fs) (V : Vol) (path : Str) (h : ℕ) : Prop :=
  ∃ parent name, splitPath path = some (parent, name) ∧
    V.resolveAt fs fs.rootCluster (components parent) = some h

theorem fat32Create_spec (hok : CreateOk path attr) (hparent : ∀ h, V.ParentAt fs path h → 2 ≤ h)
    (hJ : ∀ V', Safe fs V L none V' → J V')
    (hgrow : (∀ V', J V') ∨ ∀ h, V.ParentAt fs path h → ∃ p ∈ V.slotsAt fs h, (V.entry p).Free) :
    Runs fs J V (fat32Create fs path attr) fun _ m => Settled fs V L none m := by
  have hsame : ∀ m, At fs V m → Settled fs V L none m := hco.settled hcov
  unfold fat32Create
  cases hsplit : splitPath path with
  | none => exact .pure hsame
  | some q =>
    obtain ⟨parent, name⟩ := q
    refine (resolveDirCluster_exact hco parent).bind ?_
    cases hr : V.resolveAt fs fs.rootCluster (components parent) with
    | none => exact .pure hsame
    | some h =>
      have hat : V.ParentAt fs path h := ⟨parent, name, hsplit, hr⟩
      obtain ⟨o, ho, hdir, rfl⟩ := (hco.resolveAt_some _ _ Vol.dirHead_root hr).resolve_left
        (not_lt.mpr (hparent h hat))
      have hslots := (hco.ranged ho).chain.slotsAt (hco.ranged ho).lt
      refine createIn_spec hgood hco hcov ho hdir (fun short cluster hshort =>
        hok.node hsplit hshort cluster 0) hJ (hgrow.imp_right fun hfree => ?_)
      obtain ⟨p, hp, hpfree⟩ := hfree _ hat
      exact ⟨p, hslots ▸ hp, hpfree⟩

end

end TaterTOS.Fat32
