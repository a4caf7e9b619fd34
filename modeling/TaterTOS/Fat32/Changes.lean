import TaterTOS.Fat32.Search

/-!
# FAT32: changes of the tree

What the changes of a volume do to its live objects.
-/

namespace TaterTOS.Fat32

open Function Lib List

variable {fs : Fs} {V V' : Vol} {L L' : Obj → List ℕ} {T : Obj → Obj → Prop} {o o' : Obj}
    {l : List ℕ}
  {s s0 : Slot} {c : ℕ} {e : Record}

structure Fits (fs : Fs) (V : Vol) (o : Obj) (l : List ℕ) : Prop where
  chain : V.Chain (V.head fs o) l
  tail : V.isDir o = true → V.Tail fs l

theorem Coherent.fits (h : Coherent fs V L T) (ho : V.Live fs o) : Fits fs V o (L o) :=
  ⟨h.chain o ho, h.tail o ho⟩

theorem Fits.child_iff (h : Fits fs V o l) : V.Child fs o o' ↔
    V.isDir o = true ∧ ∃ s, s ∈ dirSlots fs l ∧ (V.entry s).Node ∧ o' = some s :=
  Vol.child_iff h.chain h.tail

theorem Vol.Tail.congr (h : V.Tail fs l)
    (hend : ∀ s ∈ dirSlots fs l, (V'.entry s).isEnd = (V.entry s).isEnd) : V'.Tail fs l := by
  obtain ⟨A, B, hAB, hA, hB⟩ := h
  refine ⟨A, B, hAB, fun s hs => ?_, fun s hs => ?_⟩
  · rw [hend s (hAB ▸ mem_append_left B hs)]
    exact hA s hs
  · rw [hend s (hAB ▸ mem_append_right A hs)]
    exact hB s hs

theorem Coherent.live_congr (h : Coherent fs V L T) (hfits : ∀ o, V.Live fs o → Fits fs V' o (L' o))
    (hdir : ∀ o, V.Live fs o → V'.isDir o = V.isDir o)
    (hnodes : ∀ o, V.Live fs o → V.isDir o = true → ∀ s,
      (s ∈ dirSlots fs (L' o) ∧ (V'.entry s).Node ↔ s ∈ dirSlots fs (L o) ∧ (V.entry s).Node)) :
    V'.Live fs o ↔ V.Live fs o := by
  apply reach_congr
  intro a b ha
  rw [(hfits a ha).child_iff, (h.fits ha).child_iff, hdir a ha]
  refine and_congr_right fun hd => exists_congr fun s => ?_
  rw [← and_assoc, ← and_assoc, hnodes a ha hd s]

theorem head_eq (h : ∀ s, o = some s → V'.entry s = V.entry s) : V'.head fs o = V.head fs o := by
  cases o with
  | none => rfl
  | some s => exact congrArg Record.firstCluster (h s rfl)

theorem isDir_eq (h : ∀ s, o = some s → V'.entry s = V.entry s) : V'.isDir o = V.isDir o := by
  cases o with
  | none => rfl
  | some s => exact congrArg Record.isDir (h s rfl)

structure Proper (fs : Fs) (V : Vol) (o : Obj) (l : List ℕ) : Prop extends Fits fs V o l where
  marked : ∀ c ∈ l, c < fs.clusterLimit ∧ 2 ≤ V.fat c
  head : V.head fs o < 2 ∨ V.head fs o ∈ l
  dir : V.isDir o = true → 2 ≤ V.head fs o
  size : ∀ s, o = some s → V.isDir o = false → (V.entry s).size ≤ l.length * fs.clusterSize

theorem Coherent.proper (h : Coherent fs V L T) (ho : V.Live fs o) : Proper fs V o (L o) := by
  refine ⟨h.fits ho, h.marked o ho, h.head o ho, h.dir o ho, ?_⟩
  rintro s rfl
  exact h.size s ho

theorem Coherent.of_proper (h : ∀ o, V.Live fs o → Proper fs V o (L o))
    (hdisjoint : ∀ o o', V.Live fs o → V.Live fs o' → ∀ c ∈ L o, c ∈ L o' → o = o' ∨ T o o')
    (hdots : ∀ o, V.Live fs o → V.isDir o = true → ∀ s ∈ dirSlots fs (L o), (V.entry s).Listed →
      V.entry s 0 = dot → V.DotOk fs (V.entry s)) : Coherent fs V L T where
  chain o ho := (h o ho).chain
  marked o ho := (h o ho).marked
  head o ho := (h o ho).head
  dir o ho := (h o ho).dir
  disjoint := hdisjoint
  size s hs := (h _ hs).size s rfl
  tail o ho := (h o ho).tail
  dots := hdots

theorem Proper.congr (h : Proper fs V o l) (hself : ∀ s, o = some s → V'.entry s = V.entry s)
    (hfat : ∀ c ∈ l, V'.fat c = V.fat c) (htail : V.isDir o = true → V'.Tail fs l) :
    Proper fs V' o l := by
  have hhead : V'.head fs o = V.head fs o := head_eq hself
  have hkind : V'.isDir o = V.isDir o := isDir_eq hself
  refine ⟨⟨h.chain.congr hhead hfat, hkind ▸ htail⟩, fun c hc => ?_, ?_, ?_, fun s hs => ?_⟩
  · rw [hfat c hc]
    exact h.marked c hc
  · rw [hhead]
    exact h.head
  · rw [hkind, hhead]
    exact h.dir
  · rw [hkind, hself s hs]
    exact h.size s hs

theorem disjoint_update {P : Obj → Prop} {x : Obj}
    (h : ∀ a b, P a → P b → ∀ c ∈ L a, c ∈ L b → a = b ∨ T a b)
    (hshare : ∀ o, P o → o ≠ x → ∀ c ∈ l, c ∈ L o → T x o ∧ T o x) {a b : Obj} (ha : P a ∨ a = x)
    (hb : P b ∨ b = x) :
    ∀ c ∈ update L x l a, c ∈ update L x l b → a = b ∨ T a b := by
  intro c hca hcb
  by_cases hax : a = x <;> by_cases hbx : b = x
  · exact .inl (hax.trans hbx.symm)
  · rw [hax, update_self] at hca
    rw [update_of_ne hbx] at hcb
    exact .inr (hax ▸ (hshare b (hb.resolve_right hbx) hbx c hca hcb).1)
  · rw [update_of_ne hax] at hca
    rw [hbx, update_self] at hcb
    exact .inr (hbx ▸ (hshare a (ha.resolve_right hax) hax c hcb hca).2)
  · rw [update_of_ne hax] at hca
    rw [update_of_ne hbx] at hcb
    exact h a b (ha.resolve_right hax) (hb.resolve_right hbx) c hca hcb

def Others (fs : Fs) (V V' : Vol) (L : Obj → List ℕ) (x : Obj) : Prop :=
  ∀ o, V.Live fs o → V.isDir o = true → ∀ s ∈ dirSlots fs (L o), some s ≠ x → V'.entry s = V.entry s

theorem Others.self {x : Obj} (hx : Others fs V V' L x) (h : Coherent fs V L T) (ho : V.Live fs o)
    (hne : o ≠ x) : ∀ s, o = some s → V'.entry s = V.entry s := by
  rintro s rfl
  obtain ⟨o, ho, hdir, hs, -⟩ := h.parent ho
  exact hx o ho hdir s hs hne

theorem Others.place (hx : Others fs V V' L (some s0)) (ho : V.Live fs o)
    (hdir : V.isDir o = true) :
    ∀ s ∈ dirSlots fs (L o), s ≠ s0 → V'.entry s = V.entry s := fun s hs hne =>
  hx o ho hdir s hs fun heq => hne (Option.some.inj heq)

theorem Vol.DotOk.mono (h : V.DotOk fs e)
    (hkeep : ∀ o, V.Live fs o → V.isDir o = true → V'.Live fs o ∧ V'.isDir o = true ∧
      V'.head fs o = V.head fs o) : V'.DotOk fs e := by
  refine ⟨h.1, h.2.imp_right ?_⟩
  rintro ⟨o, ho, hdir, hhead⟩
  obtain ⟨ho', hdir', hhead'⟩ := hkeep o ho hdir
  exact ⟨o, ho', hdir', hhead'.trans hhead⟩

/-! ### One object changes -/

theorem Record.Listed.not_isEnd (h : e.Listed) : e.isEnd = false := h.1

theorem Record.Node.not_isEnd (h : e.Node) : e.isEnd = false := h.1.1

structure Entered (fs : Fs) (V V' : Vol) (L : Obj → List ℕ) (x : Obj) : Prop where
  other : ∀ o, V.Live fs o → V.isDir o = true → ∀ s ∈ dirSlots fs (L o), some s ≠ x →
    V'.entry s = V.entry s
  node : ∀ s, x = some s → (V'.entry s).Node
  kind : V'.isDir x = V.isDir x
  dirHead : V.isDir x = true → V'.head fs x = V.head fs x

section

variable {x : Obj}

section

variable (he : Entered fs V V' L x) (h : Coherent fs V L T)
include he h

theorem Entered.isDir_eq (ho : V.Live fs o) :
    V'.isDir o = V.isDir o := by
  by_cases hne : o = x
  · rw [hne]
    exact he.kind
  · exact Fat32.isDir_eq (Others.self he.other h ho hne)

theorem Entered.head_eq (ho : V.Live fs o)
    (hdir : V.isDir o = true) : V'.head fs o = V.head fs o := by
  by_cases hne : o = x
  · subst hne
    exact he.dirHead hdir
  · exact Fat32.head_eq (Others.self he.other h ho hne)

theorem Entered.node_iff (hx : V.Live fs x)
    (ho : V.Live fs o) (hdir : V.isDir o = true) (hs : s ∈ dirSlots fs (L o)) :
    ((V'.entry s).Node ↔ (V.entry s).Node) ∧ (V'.entry s).isEnd = (V.entry s).isEnd := by
  by_cases hsx : some s = x
  · subst hsx
    obtain ⟨-, -, -, -, hnode⟩ := h.parent hx
    have hnode' := he.node s rfl
    exact ⟨iff_of_true hnode' hnode, by rw [hnode'.not_isEnd, hnode.not_isEnd]⟩
  · rw [he.other o ho hdir s hs hsx]
    exact ⟨Iff.rfl, rfl⟩

end

theorem Coherent.change (h : Coherent fs V L T) (hx : V.Live fs x) (he : Entered fs V V' L x)
    (hfat : ∀ o, V.Live fs o → o ≠ x → ∀ c ∈ L o, V'.fat c = V.fat c) (hp : Proper fs V' x l)
    (hshare : ∀ o, V.Live fs o → o ≠ x → ∀ c ∈ l, c ∈ L o → T x o ∧ T o x)
    (hold : V.isDir x = true → ∀ s ∈ dirSlots fs (L x), s ∈ dirSlots fs l)
    (hnew : V.isDir x = true → ∀ s ∈ dirSlots fs l, s ∈ dirSlots fs (L x) ∨
      (V'.entry s).isEnd = true) :
    (∀ o, V'.Live fs o ↔ V.Live fs o) ∧ Coherent fs V' (update L x l) T := by
  have hL : ∀ o, o ≠ x → update L x l o = L o := fun o hne => update_of_ne hne _ _
  have hLx : update L x l x = l := update_self _ _ _
  have hdir : ∀ o, V.Live fs o → V'.isDir o = V.isDir o := fun o => he.isDir_eq h
  -- the places of a directory after the change that are no end marks are those before it
  have hslot : ∀ o, V.Live fs o → V.isDir o = true → ∀ s ∈ dirSlots fs (update L x l o),
      (V'.entry s).isEnd = false → s ∈ dirSlots fs (L o) := by
    intro o ho hd s hs hend
    by_cases hne : o = x
    · subst hne
      rw [hLx] at hs
      refine (hnew hd s hs).resolve_right fun hend' => ?_
      rw [hend] at hend'
      exact Bool.false_ne_true hend'
    · rwa [hL o hne] at hs
  have hproper : ∀ o, V.Live fs o → Proper fs V' o (update L x l o) := by
    intro o ho
    by_cases hne : o = x
    · rw [hne, hLx]
      exact hp
    · rw [hL o hne]
      exact (h.proper ho).congr (Others.self he.other h ho hne) (hfat o ho hne) fun hd =>
        (h.tail o ho hd).congr fun s hs => (he.node_iff h hx ho hd hs).2
  have hlive : ∀ o, V'.Live fs o ↔ V.Live fs o := by
    intro o
    refine h.live_congr (fun o ho => (hproper o ho).toFits) hdir fun o ho hd s => ?_
    constructor
    · rintro ⟨hs, hnode⟩
      have hs := hslot o ho hd s hs hnode.not_isEnd
      exact ⟨hs, (he.node_iff h hx ho hd hs).1.mp hnode⟩
    · rintro ⟨hs, hnode⟩
      refine ⟨?_, (he.node_iff h hx ho hd hs).1.mpr hnode⟩
      by_cases hne : o = x
      · subst hne
        rw [hLx]
        exact hold hd s hs
      · rwa [hL o hne]
  refine ⟨hlive, .of_proper (fun o ho => hproper o ((hlive o).mp ho)) (fun a b ha hb => ?_) ?_⟩
  · exact disjoint_update h.disjoint hshare (.inl ((hlive a).mp ha)) (.inl ((hlive b).mp hb))
  · intro o ho hd s hs hlisted hdot
    have ho := (hlive o).mp ho
    rw [hdir o ho] at hd
    have hs := hslot o ho hd s hs hlisted.not_isEnd
    have hsx : some s ≠ x := fun hsx => (he.node s hsx.symm).2 hdot
    rw [he.other o ho hd s hs hsx] at hlisted hdot ⊢
    refine (h.dots o ho hd s hs hlisted hdot).mono fun o' ho' hd' => ?_
    exact ⟨(hlive o').mpr ho', (hdir o' ho').trans hd', he.head_eq h ho' hd'⟩

end

theorem Coherent.same (h : Coherent fs V L T)
    (hfat : ∀ o, V.Live fs o → ∀ c ∈ L o, V'.fat c = V.fat c)
    (hentry : ∀ o, V.Live fs o → V.isDir o = true → ∀ s ∈ dirSlots fs (L o),
      V'.entry s = V.entry s) :
    (∀ o, V'.Live fs o ↔ V.Live fs o) ∧ Coherent fs V' L T := by
  have hroot : V.Live fs none := .refl
  have he : Entered fs V V' L none :=
    ⟨fun o ho hd s hs _ => hentry o ho hd s hs, nofun, rfl, fun _ => rfl⟩
  have hp : Proper fs V' none (L none) := (h.proper hroot).congr nofun (hfat none hroot) fun hd =>
    (h.tail none hroot hd).congr fun s hs => by rw [hentry none hroot hd s hs]
  have := h.change hroot he (fun o ho _ => hfat o ho) hp (fun o ho hne c hc hc' =>
      ⟨(h.disjoint none o hroot ho c hc hc').resolve_left (Ne.symm hne),
        (h.disjoint o none ho hroot c hc' hc).resolve_left hne⟩)
    (fun _ s hs => hs) fun _ s hs => .inl hs
  rwa [update_eq_self] at this

theorem Coherent.file (h : Coherent fs V L T) (hlive : V.Live fs (some s0))
    (hfile : V.isDir (some s0) = false) (hkind : (V'.entry s0).isDir = false)
    (hnode : (V'.entry s0).Node)
    (hfat : ∀ o, V.Live fs o → o ≠ some s0 → ∀ c ∈ L o, V'.fat c = V.fat c)
    (hother : Others fs V V' L (some s0)) (hp : Proper fs V' (some s0) l)
    (hfresh : ∀ o, V.Live fs o → o ≠ some s0 → ∀ c ∈ l, c ∉ L o) :
    (∀ o, V'.Live fs o ↔ V.Live fs o) ∧ Coherent fs V' (update L (some s0) l) T := by
  have hnot : ∀ {p : Prop}, V.isDir (some s0) = true → p := fun hd => by
    rw [hfile] at hd
    exact absurd hd Bool.false_ne_true
  refine h.change hlive ⟨hother, ?_, hkind.trans hfile.symm, hnot⟩ hfat hp
    (fun o ho hne c hc hc' => absurd hc' (hfresh o ho hne c hc)) hnot hnot
  rintro s ⟨⟩
  exact hnode

theorem Coherent.grow (h : Coherent fs V L T) (ho : V.Live fs o) (hdir : V.isDir o = true)
    (hentry : ∀ o, V.Live fs o → V.isDir o = true → ∀ s ∈ dirSlots fs (L o), V'.entry s = V.entry s)
    (hclear : ∀ s ∈ clusterSlots fs c, (V'.entry s).isEnd = true)
    (hfat : ∀ o', V.Live fs o' → o' ≠ o → ∀ c ∈ L o', V'.fat c = V.fat c)
    (hchain : V'.Chain (V.head fs o) (L o ++ [c]))
    (hmarked : ∀ c' ∈ L o ++ [c], c' < fs.clusterLimit ∧ 2 ≤ V'.fat c')
    (hshare : ∀ o', V.Live fs o' → o' ≠ o → ∀ c' ∈ L o ++ [c], c' ∈ L o' → T o o' ∧ T o' o) :
    (∀ o, V'.Live fs o ↔ V.Live fs o) ∧ Coherent fs V' (update L o (L o ++ [c])) T := by
  have hself : ∀ s, o = some s → V'.entry s = V.entry s ∧ (V.entry s).Node := by
    rintro s rfl
    obtain ⟨o, ho, hdir, hs, hnode⟩ := h.parent ho
    exact ⟨hentry o ho hdir s hs, hnode⟩
  have hhead : V'.head fs o = V.head fs o := head_eq fun s hs => (hself s hs).1
  have hkind : V'.isDir o = V.isDir o := isDir_eq fun s hs => (hself s hs).1
  have hslots : dirSlots fs (L o ++ [c]) = dirSlots fs (L o) ++ clusterSlots fs c := by
    rw [dirSlots_append, dirSlots_singleton]
  have hp : Proper fs V' o (L o ++ [c]) := by
    refine ⟨⟨hhead.symm ▸ hchain, fun _ => ?_⟩, hmarked, ?_, ?_, fun s _ hfile => ?_⟩
    · obtain ⟨A, B, hAB, hA, hB⟩ :=
        (h.tail o ho hdir).congr fun s hs => by rw [hentry o ho hdir s hs]
      refine ⟨A, B ++ clusterSlots fs c, ?_, hA, fun s hs => ?_⟩
      · rw [hslots, hAB, append_assoc]
      · exact (mem_append.mp hs).elim (hB s) (hclear s)
    · rw [hhead]
      exact (h.head o ho).imp_right (mem_append_left _)
    · rw [hkind, hhead]
      exact h.dir o ho
    · rw [hkind, hdir] at hfile
      exact absurd hfile.symm Bool.false_ne_true
  refine h.change ho ⟨fun o ho hd s hs _ => hentry o ho hd s hs, fun s hs => ?_, hkind,
    fun _ => hhead⟩
    hfat hp hshare (fun _ s hs => ?_) fun _ s hs => ?_
  · rw [(hself s hs).1]
    exact (hself s hs).2
  · rw [hslots]
    exact mem_append_left _ hs
  · rw [hslots] at hs
    exact (mem_append.mp hs).imp_right (hclear s)

/-! ### Entries come and go -/

theorem Coherent.not_live (h : Coherent fs V L T) (hfree : ¬(V.entry s).Node) :
    ¬V.Live fs (some s) := by
  intro hs
  obtain ⟨-, -, -, -, hnode⟩ := h.parent hs
  exact hfree hnode

theorem Coherent.add {T' : Obj → Obj → Prop} (h : Coherent fs V L apart) (ho : V.Live fs o)
    (hdir : V.isDir o = true) (hs0 : s0 ∈ dirSlots fs (L o)) (hfree : ¬(V.entry s0).Node)
    (hfat : ∀ o, V.Live fs o → ∀ c ∈ L o, V'.fat c = V.fat c) (hother : Others fs V V' L (some s0))
    (hnode : (V'.entry s0).Node) (hp : Proper fs V' (some s0) l) (htail : V'.Tail fs (L o))
    (hshare : ∀ o, V.Live fs o → ∀ c ∈ l, c ∈ L o → T' (some s0) o ∧ T' o (some s0))
    (hkids : (V'.entry s0).isDir = true → ∀ s ∈ dirSlots fs l, (V'.entry s).Node →
      V.Live fs (some s) ∨ s = s0)
    (hdots : (∀ o, V'.Live fs o ↔ V.Live fs o ∨ o = some s0) → (V'.entry s0).isDir = true →
      ∀ s ∈ dirSlots fs l, (V'.entry s).Listed → V'.entry s 0 = dot → V'.DotOk fs (V'.entry s)) :
    (∀ o, V'.Live fs o ↔ V.Live fs o ∨ o = some s0) ∧ Coherent fs V' (update L (some s0) l) T' := by
  have hnew : ∀ o, V.Live fs o → o ≠ some s0 := by
    rintro o ho rfl
    exact h.not_live hfree ho
  have hL : ∀ o, V.Live fs o → update L (some s0) l o = L o := fun o ho =>
    update_of_ne (hnew o ho) _ _
  have hLx : update L (some s0) l (some s0) = l := update_self _ _ _
  have hself : ∀ o, V.Live fs o → ∀ s, o = some s → V'.entry s = V.entry s := fun o ho =>
    hother.self h ho (hnew o ho)
  have hkind : ∀ o, V.Live fs o → V'.isDir o = V.isDir o := fun o ho => isDir_eq (hself o ho)
  -- the place belongs to one directory
  have hplace : ∀ o', V.Live fs o' → s0 ∈ dirSlots fs (L o') → o' = o := fun o' ho' hs =>
    (h.disjoint o' o ho' ho _ (mem_dirSlots.mp hs).1 (mem_dirSlots.mp hs0).1).resolve_right id
  have hproper : ∀ o, V.Live fs o → Proper fs V' o (L o) := by
    intro o' ho'
    refine (h.proper ho').congr (hself o' ho') (hfat o' ho') fun hd => ?_
    by_cases hmem : s0 ∈ dirSlots fs (L o')
    · rw [hplace o' ho' hmem]
      exact htail
    · refine (h.tail o' ho' hd).congr fun s hs => ?_
      rw [hother.place ho' hd s hs fun heq => hmem (heq ▸ hs)]
  have hlive : ∀ o, V'.Live fs o ↔ V.Live fs o ∨ o = some s0 := by
    intro x
    refine reach_add ho (fun a b ha => ?_) fun b hb => ?_
    · rw [(hproper a ha).child_iff, (h.fits ha).child_iff, hkind a ha]
      constructor
      · rintro ⟨hd, s, hs, hsnode, rfl⟩
        by_cases heq : s = s0
        · exact .inr ⟨hplace a ha (heq ▸ hs), congrArg some heq⟩
        · rw [hother.place ha hd s hs heq] at hsnode
          exact .inl ⟨hd, s, hs, hsnode, rfl⟩
      · rintro (⟨hd, s, hs, hsnode, rfl⟩ | ⟨rfl, rfl⟩)
        · have hne : s ≠ s0 := fun heq => hfree (heq ▸ hsnode)
          exact ⟨hd, s, hs, (hother.place ha hd s hs hne).symm ▸ hsnode, rfl⟩
        · exact ⟨hdir, s0, hs0, hnode, rfl⟩
    · obtain ⟨hd, s, hs, hsnode, rfl⟩ := hp.child_iff.mp hb
      exact (hkids hd s hs hsnode).imp_right (congrArg some)
  refine ⟨hlive, .of_proper (fun a ha => ?_) (fun a b ha hb => ?_)
    fun a ha hd s hs hlisted hdot => ?_⟩
  · rcases (hlive a).mp ha with ha | rfl
    · rw [hL a ha]
      exact hproper a ha
    · rw [hLx]
      exact hp
  · exact disjoint_update
      (fun a b ha hb c hca hcb => .inl ((h.disjoint a b ha hb c hca hcb).resolve_right id))
      (fun o ho _ => hshare o ho) ((hlive a).mp ha) ((hlive b).mp hb)
  · rcases (hlive a).mp ha with ha | rfl
    · rw [hL a ha] at hs
      rw [hkind a ha] at hd
      have hne : s ≠ s0 := fun heq => hnode.2 (heq ▸ hdot)
      rw [hother.place ha hd s hs hne] at hlisted hdot ⊢
      refine (h.dots a ha hd s hs hlisted hdot).mono fun b hb hd' => ?_
      exact ⟨(hlive b).mpr (.inl hb), (hkind b hb).trans hd', head_eq (hself b hb)⟩
    · rw [hLx] at hs
      exact hdots hlive hd s hs hlisted hdot

theorem Coherent.remove (h : Coherent fs V L T) (hlive : V.Live fs (some s0))
    (hfile : V.isDir (some s0) = false)
    (hfat : ∀ o, V.Live fs o → o ≠ some s0 → ∀ c ∈ L o, V'.fat c = V.fat c)
    (hother : Others fs V V' L (some s0)) (hgone : ¬(V'.entry s0).Listed)
    (hend : (V'.entry s0).isEnd = false) :
    (∀ o, V'.Live fs o ↔ V.Live fs o ∧ o ≠ some s0) ∧ Coherent fs V' L T := by
  obtain ⟨-, -, -, -, hnode0⟩ := h.parent hlive
  have hkind : ∀ o, V.Live fs o → o ≠ some s0 → V'.isDir o = V.isDir o := fun o ho hne =>
    isDir_eq (hother.self h ho hne)
  have hproper : ∀ o, V.Live fs o → o ≠ some s0 → Proper fs V' o (L o) := by
    intro o ho hne
    refine (h.proper ho).congr (hother.self h ho hne) (hfat o ho hne) fun hd => ?_
    refine (h.tail o ho hd).congr fun s hs => ?_
    by_cases heq : s = s0
    · rw [heq, hend, hnode0.not_isEnd]
    · rw [hother.place ho hd s hs heq]
  have hlives : ∀ o, V'.Live fs o ↔ V.Live fs o ∧ o ≠ some s0 := by
    intro x
    refine reach_remove (fun a b ha hne => ?_) (fun b hb => ?_) nofun
    · rw [(hproper a ha hne).child_iff, (h.fits ha).child_iff, hkind a ha hne]
      constructor
      · rintro ⟨hd, s, hs, hnode, rfl⟩
        have heq : some s ≠ some s0 := fun heq => hgone (Option.some.inj heq ▸ hnode.1)
        rw [hother a ha hd s hs heq] at hnode
        exact ⟨⟨hd, s, hs, hnode, rfl⟩, heq⟩
      · rintro ⟨⟨hd, s, hs, hnode, rfl⟩, hsne⟩
        exact ⟨hd, s, hs, (hother a ha hd s hs hsne).symm ▸ hnode, rfl⟩
    · have hd := ((h.fits hlive).child_iff.mp hb).1
      rw [hfile] at hd
      exact Bool.false_ne_true hd
  refine ⟨hlives, .of_proper (fun a ha => ?_) (fun a b ha hb => ?_)
    fun a ha hd s hs hlisted hdot => ?_⟩
  · exact hproper a ((hlives a).mp ha).1 ((hlives a).mp ha).2
  · exact h.disjoint a b ((hlives a).mp ha).1 ((hlives b).mp hb).1
  · obtain ⟨ha, hne⟩ := (hlives a).mp ha
    rw [hkind a ha hne] at hd
    have heq : some s ≠ some s0 := fun heq => hgone (Option.some.inj heq ▸ hlisted)
    rw [hother a ha hd s hs heq] at hlisted hdot ⊢
    refine (h.dots a ha hd s hs hlisted hdot).mono fun b hb hd' => ?_
    have hbne : b ≠ some s0 := by
      rintro rfl
      rw [hfile] at hd'
      exact Bool.false_ne_true hd'
    exact ⟨(hlives b).mpr ⟨hb, hbne⟩, (hkind b hb hbne).trans hd', head_eq (hother.self h hb hbne)⟩

/-! ### Entries only vanish -/

/-! ### Contents -/

structure Kept (fs : Fs) (V : Vol) (L : Obj → List ℕ) (V' : Vol) (t : Obj) : Prop where
  entry : ∀ s, V.Live fs (some s) → V.isDir (some s) = false → some s ≠ t → V'.entry s = V.entry s
  fat : ∀ s, V.Live fs (some s) → V.isDir (some s) = false → some s ≠ t →
    ∀ c ∈ L (some s), V'.fat c = V.fat c
  data : ∀ s, V.Live fs (some s) → V.isDir (some s) = false → some s ≠ t →
    ∀ c ∈ L (some s), V'.data c = V.data c

structure Stays (fs : Fs) (V : Vol) (L : Obj → List ℕ) (V' : Vol) (L' : Obj → List ℕ) (t : Obj) :
    Prop extends Kept fs V L V' t where
  live : ∀ s, V.Live fs (some s) → V.isDir (some s) = false → some s ≠ t →
    V'.Live fs (some s) ∧ L' (some s) = L (some s)

theorem Stays.refl (t : Obj) : Stays fs V L V L t where
  entry _ _ _ _ := rfl
  fat _ _ _ _ _ _ := rfl
  data _ _ _ _ _ _ := rfl
  live _ hs _ _ := ⟨hs, rfl⟩

theorem Stays.trans {V1 V2 : Vol} {L1 L2 : Obj → List ℕ} {t : Obj} (h1 : Stays fs V L V1 L1 t)
    (h2 : Stays fs V1 L1 V2 L2 t) : Stays fs V L V2 L2 t := by
  have hfile : ∀ s, V.Live fs (some s) → V.isDir (some s) = false → some s ≠ t →
      V1.isDir (some s) = false := fun s hs hf hne =>
    (congrArg Record.isDir (h1.entry s hs hf hne)).trans hf
  refine ⟨⟨fun s hs hf hne => ?_, fun s hs hf hne c hc => ?_, fun s hs hf hne c hc => ?_⟩,
    fun s hs hf hne => ?_⟩ <;> obtain ⟨hs1, hL1⟩ := h1.live s hs hf hne
  · rw [h2.entry s hs1 (hfile s hs hf hne) hne, h1.entry s hs hf hne]
  · rw [h2.fat s hs1 (hfile s hs hf hne) hne c (hL1 ▸ hc), h1.fat s hs hf hne c hc]
  · rw [h2.data s hs1 (hfile s hs hf hne) hne c (hL1 ▸ hc), h1.data s hs hf hne c hc]
  · obtain ⟨hs2, hL2⟩ := h2.live s hs1 (hfile s hs hf hne) hne
    exact ⟨hs2, hL2.trans hL1⟩

end TaterTOS.Fat32
