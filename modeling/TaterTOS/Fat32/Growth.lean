import TaterTOS.Fat32.Changes

/-!
# FAT32: steps on a coherent volume

What the single changes of a volume do to its tree. Every step comes with what it leaves alone.
-/

namespace TaterTOS.Fat32

open Function Lib List

variable {fs : Fs} {V V' V'' : Vol} {L : Obj → List ℕ} {T : Obj → Obj → Prop} {o t : Obj}
    {l : List ℕ}
  {s : Slot} {c p : ℕ} {X : Set ℕ}

/-! ### One cluster -/

structure Vol.Only (c : ℕ) (V V' : Vol) : Prop where
  fat : ∀ c', c' ≠ c → V'.fat c' = V.fat c'
  data : ∀ c', c' ≠ c → V'.data c' = V.data c'

theorem Vol.Only.trans (h : Vol.Only c V V') (h' : Vol.Only c V' V'') : Vol.Only c V V'' :=
  ⟨fun c' hc => (h'.fat c' hc).trans (h.fat c' hc), fun c' hc => (h'.data c' hc).trans
    (h.data c' hc)⟩

theorem Vol.only_setFat {v : ℕ} : Vol.Only c V (V.setFat c v) :=
  ⟨fun _ => Vol.setFat_of_ne, fun _ _ => rfl⟩

theorem Vol.only_setSector {k : ℕ} {b : Sector} : Vol.Only c V (V.setSector fs c k b) :=
  ⟨fun _ _ => rfl, fun _ h => update_of_ne h _ _⟩

theorem Vol.Only.entry (h : Vol.Only c V V') (hs : s.cluster ≠ c) : V'.entry s = V.entry s :=
  Vol.entry_congr (h.data _ hs)

section

variable (h : Coherent fs V L T)
include h

theorem Coherent.slot_cluster (hs : V.Live fs (some s)) :
    ∃ o, V.Live fs o ∧ V.isDir o = true ∧ s ∈ dirSlots fs (L o) ∧ s.cluster ∈ L o := by
  obtain ⟨o, ho, hdir, hs, -⟩ := h.parent hs
  exact ⟨o, ho, hdir, hs, (mem_dirSlots.mp hs).1⟩

theorem Coherent.entry_self (hentry : ∀ o, V.Live fs o → V.isDir o = true →
    ∀ s ∈ dirSlots fs (L o), V'.entry s = V.entry s) (hs : V.Live fs (some s)) :
    V'.entry s = V.entry s := by
  obtain ⟨o, ho, hdir, hmem, -⟩ := h.slot_cluster hs
  exact hentry o ho hdir s hmem

theorem Coherent.slot_ok (hs : V.Live fs (some s)) :
    s.Ok fs ∧ fs.IsCluster s.cluster := by
  obtain ⟨o, ho, -, hmem, hc⟩ := h.slot_cluster hs
  exact ⟨(mem_dirSlots.mp hmem).2, h.isCluster ho hc⟩

theorem Coherent.not_mem_of_free (hfree : V.fat c = 0) (ho : V.Live fs o) :
    c ∉ L o := fun hc => by
  have := (h.marked o ho c hc).2
  omega

theorem Coherent.outside (hc : ∀ o, V.Live fs o → c ∉ L o)
    (honly : Vol.Only c V V') :
    (∀ o, V'.Live fs o ↔ V.Live fs o) ∧ Coherent fs V' L T ∧ Stays fs V L V' L t := by
  have hne : ∀ o, V.Live fs o → ∀ c' ∈ L o, c' ≠ c := fun o ho c' hc' heq => hc o ho (heq ▸ hc')
  have hentry : ∀ o, V.Live fs o → ∀ s ∈ dirSlots fs (L o), V'.entry s = V.entry s :=
    fun o ho s hs =>
    honly.entry (hne o ho _ (mem_dirSlots.mp hs).1)
  obtain ⟨hlive, hco⟩ : (∀ o, V'.Live fs o ↔ V.Live fs o) ∧ Coherent fs V' L T :=
    h.same (fun o ho c' hc' => honly.fat c' (hne o ho c' hc')) fun o ho _ => hentry o ho
  refine ⟨hlive, hco, ⟨fun s hs _ _ => ?_, fun s hs _ _ c' hc' => ?_, fun s hs _ _ c' hc' => ?_⟩,
    fun s hs _ _ => ⟨(hlive _).mpr hs, rfl⟩⟩
  · exact h.entry_self (fun o ho _ => hentry o ho) hs
  · exact honly.fat c' (hne _ hs c' hc')
  · exact honly.data c' (hne _ hs c' hc')

end

theorem Coherent.inFile (h : Coherent fs V L apart) (hs : V.Live fs (some s))
    (hfile : V.isDir (some s) = false) (hc : c ∈ L (some s)) (honly : Vol.Only c V V')
    (hfat : V'.fat c = V.fat c) :
    (∀ o, V'.Live fs o ↔ V.Live fs o) ∧ Coherent fs V' L apart ∧ Stays fs V L V' L (some s) := by
  have howner : ∀ o, V.Live fs o → c ∈ L o → o = some s := fun o ho hmem =>
    (h.disjoint o (some s) ho hs c hmem hc).resolve_right id
  have hfats : ∀ c', V'.fat c' = V.fat c' := fun c' => by
    by_cases heq : c' = c
    · rw [heq, hfat]
    · exact honly.fat c' heq
  have hentry : ∀ o, V.Live fs o → V.isDir o = true → ∀ s ∈ dirSlots fs (L o),
    V'.entry s = V.entry s := by
    intro o ho hdir p hp
    refine honly.entry fun heq => ?_
    rw [howner o ho (heq ▸ (mem_dirSlots.mp hp).1), hfile] at hdir
    exact Bool.false_ne_true hdir
  obtain ⟨hlive, hco⟩ : (∀ o, V'.Live fs o ↔ V.Live fs o) ∧ Coherent fs V' L apart :=
    h.same (fun _ _ c' _ => hfats c') hentry
  refine ⟨hlive, hco,
    ⟨fun p hp _ _ => ?_, fun p _ _ _ c' _ => hfats c', fun p hp _ hne c' hc' => ?_⟩,
    fun p hp _ _ => ⟨(hlive _).mpr hp, rfl⟩⟩
  · exact h.entry_self hentry hp
  · exact honly.data c' fun heq => hne (howner _ hp (heq ▸ hc'))

/-! ### New clusters -/

structure Vol.Extends (p c : ℕ) (V V' : Vol) : Prop where
  prev : V'.fat p = c
  mark : V'.fat c = endMark
  fat : ∀ c', c' ≠ p → c' ≠ c → V'.fat c' = V.fat c'
  data : ∀ c', c' ≠ c → V'.data c' = V.data c'

theorem Vol.extends_linkAfter (hp : p ≠ 0) (hne : c ≠ p) (k : ℕ) :
    Vol.Extends p c V ((V.linkAfter p c).zeroTo fs c k) := by
  have hfat : ((V.linkAfter p c).zeroTo fs c k).fat = ((V.setFat c endMark).setFat p c).fat := by
    unfold Vol.linkAfter
    rw [if_neg hp]
    rfl
  refine ⟨?_, ?_, fun c' hp' hc' => ?_, fun c' hc' => ?_⟩
  · rw [hfat]
    exact Vol.setFat_self
  · rw [hfat, Vol.setFat_of_ne hne]
    exact Vol.setFat_self
  · rw [hfat, Vol.setFat_of_ne hp', Vol.setFat_of_ne hc']
  · rw [Vol.zeroTo_data hc', Vol.linkAfter_data]

theorem Vol.only_linkAfter (k : ℕ) : Vol.Only c V ((V.linkAfter 0 c).zeroTo fs c k) :=
  Vol.only_setFat.trans ⟨fun _ _ => rfl, fun _ => Vol.zeroTo_data⟩

theorem endMark_ge : 2 ≤ endMark := by decide

theorem link_endMark : link endMark = 0 := by decide

theorem Vol.chain_singleton (hin : 2 ≤ c ∧ c < eoc) (hmark : V.fat c = endMark) :
    V.Chain c [c] := by
  refine ⟨link_eq hin.1 hin.2, by omega, ?_⟩
  change link (V.fat c) = 0
  rw [hmark]
  exact link_endMark

theorem Vol.Chain.extend {h : ℕ} (hchain : V.Chain h l) (hl : l ≠ []) (hin : 2 ≤ c ∧ c < eoc)
    (hext : Vol.Extends (l.getLast hl) c V V') (hc : c ∉ l) : V'.Chain h (l ++ [c]) := by
  have hsplit : l = l.dropLast ++ [l.getLast hl] := (dropLast_append_getLast hl).symm
  have hnodup := hchain.nodup
  rw [hsplit] at hchain hnodup
  have hgoal : l ++ [c] = l.dropLast ++ l.getLast hl :: [c] := by
    rw [append_cons l.dropLast, ← hsplit]
  rw [hgoal]
  refine hchain.splice (fun x hx => ?_) ?_
  · have hne : x ≠ l.getLast hl := by
      rintro rfl
      exact (nodup_append.mp hnodup).2.2 _ hx _ mem_cons_self rfl
    rw [hext.fat x hne]
    rintro rfl
    exact hc (dropLast_subset l hx)
  · rw [hext.prev]
    exact Vol.chain_singleton hin hext.mark

section

variable (hgood : fs.Good) (h : Coherent fs V L apart) (hc : fs.IsCluster c) (hfree : V.fat c = 0)
include hgood h hc hfree

theorem Coherent.extended (ho : V.Live fs o) (hl : L o ≠ [])
    (hext : Vol.Extends ((L o).getLast hl) c V V') :
    V'.Chain (V.head fs o) (L o ++ [c]) ∧
    (∀ c' ∈ L o ++ [c], c' < fs.clusterLimit ∧ 2 ≤ V'.fat c') ∧
    (∀ o', V.Live fs o' → o' ≠ o → ∀ c' ∈ L o ++ [c], c' ∉ L o') ∧
    (∀ o', V.Live fs o' → o' ≠ o → ∀ c' ∈ L o', V'.fat c' = V.fat c') ∧
    (∀ o', V.Live fs o' → ∀ c' ∈ L o', V'.data c' = V.data c') := by
  have hout : ∀ o, V.Live fs o → c ∉ L o := fun o ho => h.not_mem_of_free hfree ho
  have hfresh : ∀ o', V.Live fs o' → o' ≠ o → ∀ c' ∈ L o ++ [c], c' ∉ L o' := by
    intro o' ho' hne c' hc' hmem
    rcases mem_append.mp hc' with hc' | hc'
    · exact hne ((h.disjoint o' o ho' ho c' hmem hc').resolve_right id)
    · exact hout o' ho' (mem_singleton.mp hc' ▸ hmem)
  refine ⟨(h.chain o ho).extend hl ⟨hc.1, hc.lt_eoc hgood⟩ hext (hout o ho), ?_, hfresh, ?_, ?_⟩
  · intro c' hc'
    rcases mem_append.mp hc' with hmem | hmem
    · refine ⟨(h.marked o ho c' hmem).1, ?_⟩
      by_cases hlast : c' = (L o).getLast hl
      · rw [hlast, hext.prev]
        exact hc.1
      · rw [hext.fat c' hlast fun heq => hout o ho (heq ▸ hmem)]
        exact (h.marked o ho c' hmem).2
    · rw [mem_singleton.mp hmem, hext.mark]
      exact ⟨hc.2, endMark_ge⟩
  · intro o' ho' hne c' hc'
    refine hext.fat c' ?_ fun heq => hout o' ho' (heq ▸ hc')
    rintro rfl
    exact hfresh o' ho' hne _ (mem_append_left _ (getLast_mem hl)) hc'
  · exact fun o' ho' c' hc' => hext.data c' fun heq => hout o' ho' (heq ▸ hc')

omit hgood hc in
theorem Coherent.extended_entry (hext : Vol.Extends p c V V') :
    ∀ o, V.Live fs o → V.isDir o = true → ∀ s ∈ dirSlots fs (L o), V'.entry s = V.entry s := by
  intro o ho _ s hs
  refine Vol.entry_congr (hext.data _ ?_)
  rintro heq
  exact h.not_mem_of_free hfree ho (heq ▸ (mem_dirSlots.mp hs).1)

theorem Coherent.extendFile (hs : V.Live fs (some s)) (hfile : V.isDir (some s) = false)
    (hl : L (some s) ≠ []) (hext : Vol.Extends ((L (some s)).getLast hl) c V V') :
    (∀ o, V'.Live fs o ↔ V.Live fs o) ∧
      Coherent fs V' (update L (some s) (L (some s) ++ [c])) apart ∧
      Stays fs V L V' (update L (some s) (L (some s) ++ [c])) (some s) := by
  obtain ⟨hchain, hmarked, hfresh, hfat, hdata⟩ := h.extended hgood hc hfree hs hl hext
  have hentry := h.extended_entry hfree hext
  obtain ⟨o, ho, hdir, hmem, hnode⟩ := h.parent hs
  have hself := hentry o ho hdir s hmem
  have hkind : (V'.entry s).isDir = false := (congrArg Record.isDir hself).trans hfile
  have hp : Proper fs V' (some s) (L (some s) ++ [c]) := by
    have hhead : V'.head fs (some s) = V.head fs (some s) := congrArg Record.firstCluster hself
    refine ⟨⟨hhead.symm ▸ hchain, fun hd => ?_⟩, hmarked, ?_, fun hd => ?_, ?_⟩
    · exact absurd (hkind.symm.trans hd) Bool.false_ne_true
    · rw [hhead]
      exact (h.head _ hs).imp_right (mem_append_left _)
    · exact absurd (hkind.symm.trans hd) Bool.false_ne_true
    · rintro p ⟨⟩ -
      rw [hself, length_append]
      exact (h.size s hs hfile).trans (Nat.mul_le_mul_right _ (Nat.le_add_right _ _))
  obtain ⟨hlive, hco⟩ := h.file hs hfile hkind (hself.symm ▸ hnode) hfat
    (fun o ho hd p hp _ => hentry o ho hd p hp) hp hfresh
  refine ⟨hlive, hco, ⟨fun p hp _ _ => ?_, fun p hp _ hne => hfat _ hp hne,
    fun p hp _ _ => hdata _ hp⟩, fun p hp _ hne => ⟨(hlive _).mpr hp, update_of_ne hne _ _⟩⟩
  exact h.entry_self hentry hp

theorem Coherent.extendDir (ho : V.Live fs o) (hdir : V.isDir o = true) (hl : L o ≠ [])
    (hext : Vol.Extends ((L o).getLast hl) c V V')
    (hclear : ∀ s ∈ clusterSlots fs c, (V'.entry s).isEnd = true) :
    (∀ o, V'.Live fs o ↔ V.Live fs o) ∧ Coherent fs V' (update L o (L o ++ [c])) apart ∧
      Stays fs V L V' (update L o (L o ++ [c])) t := by
  obtain ⟨hchain, hmarked, hfresh, hfat, hdata⟩ := h.extended hgood hc hfree ho hl hext
  have hentry := h.extended_entry hfree hext
  obtain ⟨hlive, hco⟩ := h.grow ho hdir hentry hclear hfat hchain hmarked
    fun o' ho' hne c' hc' hmem => absurd hmem (hfresh o' ho' hne c' hc')
  have hother : ∀ p, V.isDir (some p) = false → some p ≠ o := by
    rintro p hfile rfl
    rw [hfile] at hdir
    exact Bool.false_ne_true hdir
  refine ⟨hlive, hco, ⟨fun p hp _ _ => ?_, fun p hp hf _ => hfat _ hp (hother p hf),
    fun p hp _ _ => hdata _ hp⟩,
      fun p hp hf _ => ⟨(hlive _).mpr hp, update_of_ne (hother p hf) _ _⟩⟩
  exact h.entry_self hentry hp

end

/-! ### Entries -/

theorem Coherent.putEntry_other (h : Coherent fs V L apart) (ho : V.Live fs o)
    (hdir : V.isDir o = true) (hs : s ∈ dirSlots fs (L o)) (e : Record) :
    Others fs V (V.putEntry s e) L (some s) ∧
    (∀ p, V.Live fs (some p) → V.isDir (some p) = false → ∀ c ∈ L (some p),
      (V.putEntry s e).data c = V.data c) := by
  obtain ⟨hc, hok⟩ := mem_dirSlots.mp hs
  constructor
  · intro o' _ _ p hp hne
    exact Vol.putEntry_of_ne hok.aligned (mem_dirSlots.mp hp).2.aligned fun heq =>
      hne (congrArg some heq)
  · intro p hp hfile c' hc'
    refine Vol.putEntry_data ?_
    rintro rfl
    have heq := (h.disjoint _ o hp ho _ hc' hc).resolve_right id
    rw [← heq, hfile] at hdir
    exact Bool.false_ne_true hdir

theorem Vol.proper_putEntry {e : Record} (hchain : V.Chain e.firstCluster l)
    (htail : e.isDir = true → (V.putEntry s e).Tail fs l)
    (hmarked : ∀ c ∈ l, c < fs.clusterLimit ∧ 2 ≤ V.fat c)
    (hhead : e.firstCluster < 2 ∨ e.firstCluster ∈ l) (hdir : e.isDir = true → 2 ≤ e.firstCluster)
    (hsize : e.isDir = false → e.size ≤ l.length * fs.clusterSize) :
    Proper fs (V.putEntry s e) (some s) l := by
  have hself := V.putEntry_self s e
  have hfirst : (V.putEntry s e).head fs (some s) = e.firstCluster := hself.firstCluster
  have hkind : (V.putEntry s e).isDir (some s) = e.isDir := hself.isDir
  refine ⟨⟨hfirst.symm ▸ hchain, hkind.symm ▸ htail⟩, hmarked, hfirst.symm ▸ hhead, ?_, ?_⟩
  · rw [hkind, hfirst]
    exact hdir
  · rintro p ⟨⟩
    rw [hkind, hself.size]
    exact hsize

theorem Coherent.editFile (h : Coherent fs V L apart) (hs : V.Live fs (some s))
    (hfile : V.isDir (some s) = false) {e : Record} (hnode : e.Node) (hkind : e.isDir = false)
    (hchain : V.Chain e.firstCluster l) (hmarked : ∀ c ∈ l, c < fs.clusterLimit ∧ 2 ≤ V.fat c)
    (hhead : e.firstCluster < 2 ∨ e.firstCluster ∈ l)
    (hfresh : ∀ o, V.Live fs o → o ≠ some s → ∀ c ∈ l, c ∉ L o)
    (hsize : e.size ≤ l.length * fs.clusterSize) :
    (∀ o, (V.putEntry s e).Live fs o ↔ V.Live fs o) ∧
      Coherent fs (V.putEntry s e) (update L (some s) l) apart ∧
      Stays fs V L (V.putEntry s e) (update L (some s) l) (some s) := by
  obtain ⟨o, ho, hdir, hmem, -⟩ := h.parent hs
  obtain ⟨hother, hdata⟩ := h.putEntry_other ho hdir hmem e
  have hself := V.putEntry_self s e
  have hnot : ∀ {p : Prop}, e.isDir = true → p :=
    fun hd => absurd (hkind.symm.trans hd) Bool.false_ne_true
  obtain ⟨hlive, hco⟩ := h.file hs hfile (hself.isDir.trans hkind) (hself.node_iff.mpr hnode)
    (fun _ _ _ _ _ => rfl) hother (Vol.proper_putEntry hchain hnot hmarked hhead hnot
      fun _ => hsize) hfresh
  exact ⟨hlive, hco, ⟨fun p hp _ hne => hother.self h hp hne p rfl, fun _ _ _ _ _ _ => rfl,
    fun p hp hf _ => hdata p hp hf⟩, fun p hp _ hne => ⟨(hlive _).mpr hp, update_of_ne hne _ _⟩⟩

/-! ### Lost clusters -/

theorem Covered.step {L' : Obj → List ℕ} {X' : Set ℕ} (h : Covered fs V L X)
    (hnew : ∀ c, fs.IsCluster c → V'.fat c ≠ 0 → V.fat c ≠ 0 ∨ c ∈ X' ∨ ∃ o, V'.Live fs o ∧
      c ∈ L' o)
    (hX : ∀ c ∈ X, V'.fat c ≠ 0 → c ∈ X' ∨ ∃ o, V'.Live fs o ∧ c ∈ L' o)
    (hL : ∀ o, V.Live fs o → ∀ c ∈ L o, V'.fat c ≠ 0 → c ∈ X' ∨ ∃ o, V'.Live fs o ∧ c ∈ L' o) :
    Covered fs V' L' X' := by
  intro c hc hused
  rcases hnew c hc hused with hold | hcov
  · rcases h c hc hold with hmem | ⟨o, ho, hmem⟩
    · exact hX c hmem hused
    · exact hL o ho c hmem hused
  · exact hcov

theorem Covered.extend {L' : Obj → List ℕ} {X' : Set ℕ} (h : Covered fs V L X)
    (hlive : ∀ o, V'.Live fs o ↔ V.Live fs o)
    (hnew : ∀ c, fs.IsCluster c → V'.fat c ≠ 0 → V.fat c ≠ 0 ∨ c ∈ X' ∨ ∃ o, V.Live fs o ∧ c ∈ L' o)
    (hX : ∀ c ∈ X, c ∈ X' ∨ ∃ o, V.Live fs o ∧ c ∈ L' o) (hL : ∀ o, V.Live fs o → ∀ c ∈ L o,
      c ∈ L' o) :
    Covered fs V' L' X' := by
  have hto : ∀ c, (∃ o, V.Live fs o ∧ c ∈ L' o) → ∃ o, V'.Live fs o ∧ c ∈ L' o := by
    rintro c ⟨o, ho, hc⟩
    exact ⟨o, (hlive o).mpr ho, hc⟩
  refine h.step (fun c hc hused => ?_) (fun c hc _ => ?_) fun o ho c hc _ => ?_
  · exact (hnew c hc hused).imp_right (Or.imp_right (hto c))
  · exact (hX c hc).imp_right (hto c)
  · exact .inr (hto c ⟨o, ho, hL o ho c hc⟩)

theorem Covered.linked (h : Covered fs V L X) (hco : Coherent fs V L T) (ho : V.Live fs o)
    (hl : L o ≠ []) (hext : Vol.Extends ((L o).getLast hl) c V V')
    (hlive : ∀ o, V'.Live fs o ↔ V.Live fs o) : Covered fs V' (update L o (L o ++ [c])) X := by
  refine h.extend hlive (fun c' _ hused => ?_) (fun c' hc' => .inl hc') fun o' _ c' hc' => ?_
  · by_cases hnew : c' = c
    · refine .inr (.inr ⟨o, ho, ?_⟩)
      rw [update_self, hnew]
      exact mem_append_right _ mem_cons_self
    · refine .inl ?_
      by_cases hprev : c' = (L o).getLast hl
      · have := (hco.marked o ho _ (getLast_mem hl)).2
        rw [hprev]
        omega
      · rwa [hext.fat c' hprev hnew] at hused
  · by_cases heq : o' = o
    · subst heq
      rw [update_self]
      exact mem_append_left _ hc'
    · rwa [update_of_ne heq]

end TaterTOS.Fat32
