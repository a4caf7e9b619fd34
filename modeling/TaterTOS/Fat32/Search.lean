import TaterTOS.Fat32.Exact

/-!
# FAT32: search on a coherent volume

* `Vol.chainFrom`: the clusters from a number on, computed; `Vol.find`, `Vol.openAt`,
  `Vol.resolveAt`: what the search in a directory and along a path gives.
-/

namespace TaterTOS.Fat32

open Lib List

variable {fs : Fs} {V : Vol} {J : Vol → Prop} {s : Slot} {c h : ℕ} {l : List ℕ} {L : Obj → List ℕ}
  {T : Obj → Obj → Prop} {o : Obj} {name : Str}

/-! ### Loops -/

section

variable {σ ρ : Type} {f : Body σ ρ}

theorem Vol.walkSlots_done {r : ρ} : ∀ {ps : List Slot} {st : σ}, V.walkSlots f ps st = .done r →
    ∃ A p B st', ps = A ++ p :: B ∧ V.walkSlots f A st = .next st' ∧ f st' (V.entry p) p = .done r
  | p :: ps, st, hdone => by
    unfold Vol.walkSlots at hdone
    cases hf : f st (V.entry p) p with
    | done r' =>
      rw [hf] at hdone
      exact ⟨[], p, ps, st, rfl, rfl, hf.trans hdone⟩
    | next st' =>
      rw [hf] at hdone
      obtain ⟨A, q, B, st'', rfl, hA, hq⟩ := Vol.walkSlots_done hdone
      refine ⟨p :: A, q, B, st'', rfl, ?_, hq⟩
      unfold Vol.walkSlots
      rw [hf]
      exact hA

end

/-! ### Directories -/

def Vol.chainFrom (V : Vol) : ℕ → ℕ → List ℕ
  | 0, _ => []
  | n + 1, h => if 2 ≤ h ∧ h < eoc then h :: V.chainFrom n (V.fat h) else []

theorem Vol.Chain.chainFrom : ∀ {n h : ℕ} {l : List ℕ}, V.Chain h l → l.length ≤ n →
    V.chainFrom n h = l
  | 0, _, [], _, _ => rfl
  | n + 1, h, [], hchain, _ => if_neg hchain.nil_inv
  | n + 1, h, c :: l, hchain, hn => by
    obtain ⟨rfl, hin, hnext⟩ := hchain.cons_inv
    unfold Vol.chainFrom
    rw [if_pos hin, hnext.chainFrom (Nat.le_of_succ_le_succ hn)]

def Vol.slotsAt (fs : Fs) (V : Vol) (h : ℕ) : List Slot :=
  dirSlots fs (V.chainFrom fs.totalClusters h)

theorem Vol.Chain.slotsAt (hchain : V.Chain h l) (hlt : ∀ c ∈ l, c < fs.clusterLimit) :
    V.slotsAt fs h = dirSlots fs l := by
  unfold Vol.slotsAt
  rw [hchain.chainFrom (hchain.length_le hlt)]

def Vol.find (fs : Fs) (V : Vol) (h : ℕ) (name : Str) : Option Found :=
  match V.walkSlots (findBody name) (V.slotsAt fs h) .empty with
  | .done r => r
  | .next _ => none

def Vol.foundAt (V : Vol) (s : Slot) : Found :=
  ⟨(V.entry s).firstCluster, (V.entry s).size, (V.entry s).attr, s⟩

theorem findBody_done {name : Str} {st : Lfn} {e : Record} {p : Slot} {r : Option Found}
    {found : Found}
    (h : findBody name st e p = .done r) (hr : r = some found) :
    e.Listed ∧ found = ⟨e.firstCluster, e.size, e.attr, p⟩ := by
  unfold findBody at h
  split_ifs at h with h1 h2 h3 h4 h5
  · cases h
    cases hr
  · cases h
    cases hr
    exact ⟨⟨Bool.eq_false_iff.mpr h1, Bool.eq_false_iff.mpr h2, Bool.eq_false_iff.mpr h3,
      Bool.eq_false_iff.mpr h4⟩, rfl⟩

theorem Vol.find_some {found : Found} (hfind : V.find fs h name = some found) :
    ∃ s, s ∈ V.slotsAt fs h ∧ (V.entry s).Listed ∧ found = V.foundAt s := by
  unfold Vol.find at hfind
  cases hwalk : V.walkSlots (findBody name) (V.slotsAt fs h) .empty with
  | next st =>
    rw [hwalk] at hfind
    cases hfind
  | done r =>
    rw [hwalk] at hfind
    obtain ⟨A, p, B, st, hps, -, hp⟩ := Vol.walkSlots_done hwalk
    obtain ⟨hlisted, rfl⟩ := findBody_done hp hfind
    refine ⟨p, ?_, hlisted, rfl⟩
    rw [hps]
    exact mem_append_right A mem_cons_self

structure Vol.Ranged (fs : Fs) (V : Vol) (h : ℕ) (l : List ℕ) : Prop where
  chain : V.Chain h l
  lt : ∀ c ∈ l, c < fs.clusterLimit

theorem findInDir_exact (hl : V.Ranged fs h l) :
    Yields fs J V (findInDir fs h name) (V.find fs h name) V := by
  refine (walkDir_exact hl.chain hl.lt).bind ?_
  unfold Vol.find
  rw [hl.chain.slotsAt hl.lt]
  cases V.walkSlots (findBody name) (dirSlots fs l) .empty with
  | done r => exact .ret
  | next st => exact .ret

/-! ### Free places -/

def Record.Free (e : Record) : Prop := e.isEnd = true ∨ e.isDeleted = true

variable {e : Record}

theorem Record.Free.not_listed (h : e.Free) : ¬e.Listed := by
  rintro ⟨hend, hdel, -⟩
  rcases h with h | h
  · rw [hend] at h
    exact Bool.false_ne_true h
  · rw [hdel] at h
    exact Bool.false_ne_true h

theorem freeSlotBody_free (h : e.Free) : freeSlotBody () e s = .done s :=
  if_pos (Bool.or_eq_true _ _ ▸ h)

theorem freeSlotBody_used (h : ¬e.Free) : freeSlotBody () e s = .next () :=
  if_neg (Bool.or_eq_true _ _ ▸ h)

def Vol.FirstFree (V : Vol) (ps : List Slot) (s : Slot) : Prop :=
  ∃ A B, ps = A ++ s :: B ∧ (∀ p ∈ A, ¬(V.entry p).Free) ∧ (V.entry s).Free

theorem Vol.walkSlots_free : ∀ ps : List Slot,
    (V.walkSlots freeSlotBody ps () = .next () ∧ ∀ p ∈ ps, ¬(V.entry p).Free) ∨
      ∃ s, V.walkSlots freeSlotBody ps () = .done s ∧ V.FirstFree ps s
  | [] => .inl ⟨rfl, nofun⟩
  | p :: ps => by
    unfold Vol.walkSlots
    by_cases hfree : (V.entry p).Free
    · rw [freeSlotBody_free hfree]
      exact .inr ⟨p, rfl, [], ps, rfl, nofun, hfree⟩
    · rw [freeSlotBody_used hfree]
      rcases Vol.walkSlots_free ps with ⟨hnext, hnone⟩ | ⟨s, hdone, A, B, rfl, hA, hs⟩
      · exact .inl ⟨hnext, forall_mem_cons.mpr ⟨hfree, hnone⟩⟩
      · exact .inr ⟨s, hdone, p :: A, B, rfl, forall_mem_cons.mpr ⟨hfree, hA⟩, hs⟩

theorem findFreeDirSlot_bind {α : Type} {f : Option Slot → FatIo α} {Q : α → Media → Prop}
    (hgood : fs.Good) (hl : V.Ranged fs h l) (hne : l ≠ [])
    (hJ : (∀ s ∈ dirSlots fs l, ¬(V.entry s).Free) → Claims fs J V (l.getLast hne))
    (hnone : Runs fs J V (f none) Q)
    (hfound : ∀ s, V.FirstFree (dirSlots fs l) s → Runs fs J V (f (some s)) Q)
    (hgrown : (∀ s ∈ dirSlots fs l, ¬(V.entry s).Free) → ∀ c, fs.IsCluster c → V.fat c = 0 →
      Runs fs J (V.claim fs (l.getLast hne) c) (f (some ⟨c, 0⟩)) Q) :
    Runs fs J V (findFreeDirSlot fs h >>= f) Q := by
  have hlast : l.getLast?.getD 0 = l.getLast hne := by
    rw [List.getLast?_eq_getLast_of_ne_nil hne]
    rfl
  rw [findFreeDirSlot, bind_assoc]
  refine (walkDir_exact hl.chain hl.lt).bind ?_
  rw [hlast]
  rcases V.walkSlots_free (dirSlots fs l) with ⟨hnext, hfull⟩ | ⟨s, hdone, hs⟩
  · rw [hnext]
    dsimp only [Walk.end]
    rw [bind_assoc]
    refine allocCluster_bind hgood (hl.lt _ (getLast_mem hne)) (hJ hfull) ?_ fun c hc hfree => ?_
    · exact hnone
    rw [if_neg (by have := hc.1; omega)]
    exact hgrown hfull c hc hfree
  · rw [hdone]
    exact hfound s hs

/-! ### Paths -/

def Vol.openAt (fs : Fs) (V : Vol) : ℕ → List Str → Option File
  | _, [] => none
  | cur, name :: names =>
    match V.find fs cur name with
    | none => none
    | some r =>
      if names = [] then some ⟨r.cluster, r.size, 0, r.slot, r.attr⟩
      else if r.attr &&& attrDir = 0 then none
      else V.openAt fs r.cluster names

def Vol.resolveAt (fs : Fs) (V : Vol) : ℕ → List Str → Option ℕ
  | cur, [] => some cur
  | cur, name :: names =>
    match V.find fs cur name with
    | none => none
    | some r => if r.attr &&& attrDir = 0 then none else V.resolveAt fs r.cluster names

def Vol.DirHead (fs : Fs) (V : Vol) (h : ℕ) : Prop :=
  h < 2 ∨ ∃ o, V.Live fs o ∧ V.isDir o = true ∧ V.head fs o = h

theorem Vol.dirHead_root : V.DirHead fs fs.rootCluster := .inr ⟨none, .refl, rfl, rfl⟩

section

variable (hc : Coherent fs V L T)
include hc

theorem Coherent.ranged (ho : V.Live fs o) : V.Ranged fs (V.head fs o) (L o) :=
  ⟨hc.chain o ho, fun c hmem => (hc.marked o ho c hmem).1⟩

theorem Coherent.dirRanged (hh : V.DirHead fs h) : ∃ l, V.Ranged fs h l := by
  rcases hh with hlt | ⟨o, ho, -, rfl⟩
  · exact ⟨[], link_zero (.inl hlt), nofun⟩
  · exact ⟨L o, hc.ranged ho⟩

theorem Coherent.slotsAt (hh : V.DirHead fs h) (hs : s ∈ V.slotsAt fs h) :
    ∃ o, V.Live fs o ∧ V.isDir o = true ∧ V.head fs o = h ∧ s ∈ dirSlots fs (L o) := by
  rcases hh with hlt | ⟨o, ho, hdir, rfl⟩
  · have hnil : V.Ranged fs h [] := ⟨link_zero (.inl hlt), nofun⟩
    rw [hnil.chain.slotsAt hnil.lt] at hs
    cases hs
  · have hl := hc.ranged ho
    rw [hl.chain.slotsAt hl.lt] at hs
    exact ⟨o, ho, hdir, rfl, hs⟩

section

variable (ho : V.Live fs o) (hdir : V.isDir o = true) (hs : s ∈ dirSlots fs (L o))
    (hlisted : (V.entry s).Listed)
include ho hdir hs hlisted

theorem Coherent.listed :
    V.Live fs (some s) ∨ V.DotOk fs (V.entry s) := by
  by_cases hdot : V.entry s 0 = dot
  · exact .inr (hc.dots o ho hdir s hs hlisted hdot)
  · exact .inl (hc.live_of_mem ho hdir hs ⟨hlisted, hdot⟩)

theorem Coherent.dirHead (hsub : (V.entry s).isDir = true) :
    V.DirHead fs (V.entry s).firstCluster := by
  rcases hc.listed ho hdir hs hlisted with hlive | hdot
  · exact .inr ⟨some s, hlive, hsub, rfl⟩
  · exact hdot.2

end

theorem Coherent.find_dirHead (hh : V.DirHead fs h) {found : Found}
    (hfind : V.find fs h name = some found) (hdir : ¬found.attr &&& attrDir = 0) :
    V.DirHead fs found.cluster := by
  obtain ⟨s, hs, hlisted, rfl⟩ := Vol.find_some hfind
  obtain ⟨o, ho, hodir, -, hs⟩ := hc.slotsAt hh hs
  exact hc.dirHead ho hodir hs hlisted (bne_iff_ne.mpr hdir)

theorem openAt_exact : ∀ (names : List Str) (h : ℕ), V.DirHead fs h →
    Yields fs J V (openAt fs h names) (V.openAt fs h names) V
  | [], _, _ => .ret
  | name :: names, h, hh => by
    obtain ⟨l, hl⟩ := hc.dirRanged hh
    unfold openAt Vol.openAt
    refine (findInDir_exact hl).bind ?_
    cases hfind : V.find fs h name with
    | none => exact .ret
    | some found =>
      dsimp only
      split_ifs with hnames hdir
      · exact .ret
      · exact .ret
      · exact openAt_exact names _ (hc.find_dirHead hh hfind hdir)

theorem resolveAt_exact : ∀ (names : List Str) (h : ℕ), V.DirHead fs h →
    Yields fs J V (resolveAt fs h names) (V.resolveAt fs h names) V
  | [], _, _ => .ret
  | name :: names, h, hh => by
    obtain ⟨l, hl⟩ := hc.dirRanged hh
    unfold resolveAt Vol.resolveAt
    refine (findInDir_exact hl).bind ?_
    cases hfind : V.find fs h name with
    | none => exact .ret
    | some found =>
      dsimp only
      split_ifs with hdir
      · exact .ret
      · exact resolveAt_exact names _ (hc.find_dirHead hh hfind hdir)

theorem fat32Open_exact (path : Str) :
    Yields fs J V (fat32Open fs path) (V.openAt fs fs.rootCluster (components (relative path))) V :=
  openAt_exact hc _ _ Vol.dirHead_root

theorem resolveDirCluster_exact (path : Str) :
    Yields fs J V (resolveDirCluster fs path) (V.resolveAt fs fs.rootCluster (components path)) V :=
  resolveAt_exact hc _ _ Vol.dirHead_root

end

def Vol.fileAt (V : Vol) (s : Slot) : File :=
  ⟨(V.entry s).firstCluster, (V.entry s).size, 0, s, (V.entry s).attr⟩

theorem Coherent.openAt_some (hc : Coherent fs V L T) : ∀ (names : List Str) (h : ℕ) {f : File},
    V.DirHead fs h → V.openAt fs h names = some f → ∃ o s, V.Live fs o ∧ V.isDir o = true ∧
      s ∈ dirSlots fs (L o) ∧ (V.entry s).Listed ∧ f = V.fileAt s
  | [], _, _, _, hopen => nomatch hopen
  | name :: names, h, f, hh, hopen => by
    unfold Vol.openAt at hopen
    cases hfind : V.find fs h name with
    | none =>
      rw [hfind] at hopen
      cases hopen
    | some found =>
      rw [hfind] at hopen
      dsimp only at hopen
      split_ifs at hopen with hnames hdir
      · obtain ⟨s, hs, hlisted, rfl⟩ := Vol.find_some hfind
        obtain ⟨o, ho, hodir, -, hs⟩ := hc.slotsAt hh hs
        cases hopen
        exact ⟨o, s, ho, hodir, hs, hlisted, rfl⟩
      · exact hc.openAt_some names _ (hc.find_dirHead hh hfind hdir) hopen

theorem Coherent.resolveAt_some (hc : Coherent fs V L T) : ∀ (names : List Str) (h : ℕ) {h' : ℕ},
    V.DirHead fs h → V.resolveAt fs h names = some h' → V.DirHead fs h'
  | [], _, _, hh, hres => by
    cases hres
    exact hh
  | name :: names, h, h', hh, hres => by
    unfold Vol.resolveAt at hres
    cases hfind : V.find fs h name with
    | none =>
      rw [hfind] at hres
      cases hres
    | some found =>
      rw [hfind] at hres
      dsimp only at hres
      split_ifs at hres with hdir
      exact hc.resolveAt_some names _ (hc.find_dirHead hh hfind hdir) hres

end TaterTOS.Fat32
