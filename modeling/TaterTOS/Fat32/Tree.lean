import TaterTOS.Fat32.Volume
import TaterTOS.Lib.Chain
import TaterTOS.Lib.Reach

/-!
# FAT32: the tree of a volume

The objects of a volume are the root directory and the entries of the directories below it.

* `dirSlots`, `Vol.shown`: the places of a directory in order, and those before its end mark;
* `Vol.Child`, `Vol.Live`: the entries of a directory, and the objects that the root leads to;
* `Coherent fs V L T`: the live objects have the chains `L`, in range, terminated, not marked free
  and pairwise disjoint except for the pairs in `T`; the sizes fit the chains; nothing follows an
  end mark.
-/

namespace TaterTOS.Fat32

open Lib List

variable {fs : Fs} {V V' : Vol} {c : ℕ} {s s' : Slot} {l : List ℕ}

def Record.Listed (e : Record) : Prop :=
  e.isEnd = false ∧ e.isDeleted = false ∧ e.isLfn = false ∧ e.isVolume = false

abbrev Obj := Option Slot

namespace Vol

def entry (V : Vol) (s : Slot) : Record := fun i =>
  if i < 32 then V.data s.cluster (s.offset + i) else 0

def head (fs : Fs) (V : Vol) : Obj → ℕ
  | none => fs.rootCluster
  | some s => (V.entry s).firstCluster

def isDir (V : Vol) : Obj → Bool
  | none => true
  | some s => (V.entry s).isDir

end Vol

def link (v : ℕ) : ℕ := if 2 ≤ v ∧ v < eoc then v else 0

/-- The clusters from `h` on are `l`. -/
def Vol.Chain (V : Vol) (h : ℕ) (l : List ℕ) : Prop :=
  Lib.Chain (fun c => link (V.fat c)) 0 (link h) l

/-! ### Directories -/

def clusterSlots (fs : Fs) (c : ℕ) : List Slot :=
  (List.range (fs.clusterSize / 32)).map fun k => ⟨c, 32 * k⟩

def dirSlots (fs : Fs) (l : List ℕ) : List Slot := l.flatMap (clusterSlots fs)

def Vol.shown (fs : Fs) (V : Vol) (l : List ℕ) : List Slot :=
  (dirSlots fs l).takeWhile fun s => !(V.entry s).isEnd

def Record.Node (e : Record) : Prop := e.Listed ∧ e 0 ≠ dot

def Vol.Child (fs : Fs) (V : Vol) (o o' : Obj) : Prop :=
  V.isDir o = true ∧ ∃ l s, V.Chain (V.head fs o) l ∧ s ∈ V.shown fs l ∧ (V.entry s).Node ∧
  o' = some s

/-- The objects that the root leads to. -/
abbrev Vol.Live (fs : Fs) (V : Vol) : Obj → Prop := Reach (V.Child fs) none

def Vol.Tail (fs : Fs) (V : Vol) (l : List ℕ) : Prop :=
  ∃ A B, dirSlots fs l = A ++ B ∧ (∀ s ∈ A, (V.entry s).isEnd = false) ∧
    ∀ s ∈ B, (V.entry s).isEnd = true

def Vol.DotOk (fs : Fs) (V : Vol) (e : Record) : Prop :=
  e.isDir = true ∧ (e.firstCluster < 2 ∨
    ∃ o, V.Live fs o ∧ V.isDir o = true ∧ V.head fs o = e.firstCluster)

structure Coherent (fs : Fs) (V : Vol) (L : Obj → List ℕ) (T : Obj → Obj → Prop) : Prop where
  chain : ∀ o, V.Live fs o → V.Chain (V.head fs o) (L o)
  /-- The chain is in range, terminated and not marked free. -/
  marked : ∀ o, V.Live fs o → ∀ c ∈ L o, c < fs.clusterLimit ∧ 2 ≤ V.fat c
  head : ∀ o, V.Live fs o → V.head fs o < 2 ∨ V.head fs o ∈ L o
  dir : ∀ o, V.Live fs o → V.isDir o = true → 2 ≤ V.head fs o
  disjoint : ∀ o o', V.Live fs o → V.Live fs o' → ∀ c ∈ L o, c ∈ L o' → o = o' ∨ T o o'
  size : ∀ s, V.Live fs (some s) → V.isDir (some s) = false →
    (V.entry s).size ≤ (L (some s)).length * fs.clusterSize
  tail : ∀ o, V.Live fs o → V.isDir o = true → V.Tail fs (L o)
  dots : ∀ o, V.Live fs o → V.isDir o = true → ∀ s ∈ dirSlots fs (L o), (V.entry s).Listed →
    V.entry s 0 = dot → V.DotOk fs (V.entry s)

def Covered (fs : Fs) (V : Vol) (L : Obj → List ℕ) (X : Set ℕ) : Prop :=
  ∀ c, fs.IsCluster c → V.fat c ≠ 0 → c ∈ X ∨ ∃ o, V.Live fs o ∧ c ∈ L o

def apart : Obj → Obj → Prop := fun _ _ => False

structure Consistent (fs : Fs) (m : Media) : Prop where
  coherent : ∃ L, Coherent fs (view fs m) L apart ∧ Covered fs (view fs m) L ∅
  mirrored : Mirrored fs m

/-! ### Chains -/

theorem link_eq (h : 2 ≤ c) (h' : c < eoc) : link c = c := if_pos ⟨h, h'⟩

theorem link_zero {v : ℕ} (h : v < 2 ∨ eoc ≤ v) : link v = 0 := if_neg (by omega)

variable {h : ℕ}

theorem Vol.Chain.two_le (hchain : V.Chain h l) : ∀ c ∈ l, 2 ≤ c := by
  have hstart : link h = 0 ∨ 2 ≤ link h := by
    unfold link
    split_ifs <;> omega
  have hnext : ∀ c, link (V.fat c) = 0 ∨ 2 ≤ link (V.fat c) := by
    intro c
    unfold link
    split_ifs <;> omega
  unfold Vol.Chain at hchain
  generalize link h = x at hchain hstart
  induction l generalizing x with
  | nil => exact nofun
  | cons y l ih =>
    obtain ⟨rfl, hne, hrest⟩ := hchain
    intro c hc
    rcases mem_cons.mp hc with rfl | hc
    · exact hstart.resolve_left hne
    · exact ih _ hrest (hnext _) c hc

theorem Vol.Chain.congr {h h' : ℕ} (hchain : V.Chain h l) (hh : h' = h)
    (hfat : ∀ c ∈ l, V'.fat c = V.fat c) : V'.Chain h' l := by
  rw [hh]
  exact Lib.Chain.congr (fun c hc => by rw [hfat c hc]) hchain

theorem Vol.Chain.nodup (hchain : V.Chain h l) : l.Nodup := Lib.Chain.nodup hchain

theorem Vol.Chain.unique {l' : List ℕ} (hchain : V.Chain h l) (hchain' : V.Chain h l') : l = l' :=
  Lib.Chain.unique hchain hchain'

theorem Vol.Chain.nil_inv (hchain : V.Chain h []) : ¬(2 ≤ h ∧ h < eoc) := by
  intro hin
  have hlink : link h = 0 := hchain
  rw [link_eq hin.1 hin.2] at hlink
  omega

theorem Vol.Chain.cons_inv (hchain : V.Chain h (c :: l)) :
    h = c ∧ (2 ≤ c ∧ c < eoc) ∧ V.Chain (V.fat c) l := by
  have hin : 2 ≤ h ∧ h < eoc := by
    by_contra hout
    have hlink : link h = 0 := if_neg hout
    exact hchain.2.1 (hchain.1 ▸ hlink)
  obtain rfl : h = c := (link_eq hin.1 hin.2).symm.trans hchain.1
  exact ⟨rfl, hin, hchain.2.2⟩

theorem Vol.Chain.length_le (hchain : V.Chain h l) (hlt : ∀ c ∈ l, c < fs.clusterLimit) :
    l.length ≤ fs.totalClusters := by
  have hsub : l.toFinset ⊆ Finset.Ico 2 fs.clusterLimit := fun c hc => by
    rw [mem_toFinset] at hc
    exact Finset.mem_Ico.mpr ⟨hchain.two_le c hc, hlt c hc⟩
  have hcard := Finset.card_le_card hsub
  rw [toFinset_card_of_nodup hchain.nodup, Nat.card_Ico] at hcard
  unfold Fs.clusterLimit at hcard
  omega

/-! ### Places -/

theorem mem_clusterSlots : s ∈ clusterSlots fs c ↔ s.cluster = c ∧ s.Ok fs := by
  have hdvd : 32 ∣ fs.clusterSize := fs.bytes_dvd.mul_left _
  unfold clusterSlots
  rw [mem_map]
  constructor
  · rintro ⟨k, hk, rfl⟩
    rw [mem_range] at hk
    exact ⟨rfl, ⟨by dsimp only; omega, Dvd.intro _ rfl⟩⟩
  · rintro ⟨rfl, hok⟩
    obtain ⟨k, hk⟩ := hok.aligned
    refine ⟨k, ?_, ?_⟩
    · rw [mem_range]
      have := hok.offset_lt
      omega
    · cases s
      dsimp only at hk ⊢
      rw [hk]

theorem mem_dirSlots : s ∈ dirSlots fs l ↔ s.cluster ∈ l ∧ s.Ok fs := by
  unfold dirSlots
  rw [mem_flatMap]
  constructor
  · rintro ⟨c, hc, hs⟩
    obtain ⟨rfl, hok⟩ := mem_clusterSlots.mp hs
    exact ⟨hc, hok⟩
  · rintro ⟨hc, hok⟩
    exact ⟨s.cluster, hc, mem_clusterSlots.mpr ⟨rfl, hok⟩⟩

theorem nodup_clusterSlots : (clusterSlots fs c).Nodup := by
  refine nodup_range.map fun a b h => ?_
  have := congrArg Slot.offset h
  dsimp only at this
  omega

theorem nodup_dirSlots (hl : l.Nodup) : (dirSlots fs l).Nodup := by
  unfold dirSlots
  rw [nodup_flatMap]
  refine ⟨fun c _ => nodup_clusterSlots, hl.imp fun hne => ?_⟩
  intro s hs hs'
  exact hne ((mem_clusterSlots.mp hs).1.symm.trans (mem_clusterSlots.mp hs').1)

theorem dirSlots_append (l1 l2 : List ℕ) :
    dirSlots fs (l1 ++ l2) = dirSlots fs l1 ++ dirSlots fs l2 :=
  flatMap_append

theorem dirSlots_singleton : dirSlots fs [c] = clusterSlots fs c := flatMap_singleton _ _

theorem Vol.shown_eq {A B : List Slot} (hAB : dirSlots fs l = A ++ B)
    (hA : ∀ s ∈ A, (V.entry s).isEnd = false) (hB : ∀ s ∈ B.head?, (V.entry s).isEnd = true) :
    V.shown fs l = A := by
  unfold Vol.shown
  rw [hAB, takeWhile_append_of_pos fun s hs => by rw [hA s hs]; rfl]
  cases B with
  | nil => exact append_nil A
  | cons b B =>
    rw [takeWhile_cons_of_neg, append_nil]
    rw [hB b rfl]
    decide

theorem Vol.Tail.mem_shown (h : V.Tail fs l) :
    s ∈ V.shown fs l ↔ s ∈ dirSlots fs l ∧ (V.entry s).isEnd = false := by
  obtain ⟨A, B, hAB, hA, hB⟩ := h
  rw [Vol.shown_eq hAB hA fun b hb => hB b (mem_of_mem_head? hb), hAB, mem_append]
  constructor
  · exact fun hs => ⟨.inl hs, hA s hs⟩
  · rintro ⟨hs | hs, hend⟩
    · exact hs
    · rw [hB s hs] at hend
      exact absurd hend (by decide)

section

variable {L : Obj → List ℕ} {T : Obj → Obj → Prop} {o o' : Obj}

theorem Vol.child_iff (hl : V.Chain (V.head fs o) l) (ht : V.isDir o = true → V.Tail fs l) :
    V.Child fs o o' ↔
      V.isDir o = true ∧ ∃ s, s ∈ dirSlots fs l ∧ (V.entry s).Node ∧ o' = some s := by
  constructor
  · rintro ⟨hdir, l', s, hchain, hs, hnode, rfl⟩
    obtain rfl := hchain.unique hl
    exact ⟨hdir, s, ((ht hdir).mem_shown.mp hs).1, hnode, rfl⟩
  · rintro ⟨hdir, s, hs, hnode, rfl⟩
    exact ⟨hdir, l, s, hl, (ht hdir).mem_shown.mpr ⟨hs, hnode.1.1⟩, hnode, rfl⟩

theorem Coherent.child_iff (h : Coherent fs V L T) (ho : V.Live fs o) : V.Child fs o o' ↔
    V.isDir o = true ∧ ∃ s, s ∈ dirSlots fs (L o) ∧ (V.entry s).Node ∧ o' = some s :=
  Vol.child_iff (h.chain o ho) (h.tail o ho)

theorem Coherent.parent (h : Coherent fs V L T) (hs : V.Live fs (some s)) :
    ∃ o, V.Live fs o ∧ V.isDir o = true ∧ s ∈ dirSlots fs (L o) ∧ (V.entry s).Node := by
  rcases Relation.ReflTransGen.cases_tail hs with heq | ⟨o, ho, hchild⟩
  · cases heq
  · obtain ⟨hdir, s', hs', hnode, heq⟩ := (h.child_iff ho).mp hchild
    cases heq
    exact ⟨o, ho, hdir, hs', hnode⟩

theorem Coherent.live_of_mem (h : Coherent fs V L T) (ho : V.Live fs o) (hdir : V.isDir o = true)
    (hs : s ∈ dirSlots fs (L o)) (hnode : (V.entry s).Node) : V.Live fs (some s) :=
  ho.tail ((h.child_iff ho).mpr ⟨hdir, s, hs, hnode, rfl⟩)

theorem Coherent.isCluster (h : Coherent fs V L T) (ho : V.Live fs o) (hc : c ∈ L o) :
    fs.IsCluster c :=
  ⟨(h.chain o ho).two_le c hc, (h.marked o ho c hc).1⟩

end

end TaterTOS.Fat32
