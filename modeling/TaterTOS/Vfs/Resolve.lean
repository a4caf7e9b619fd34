import TaterTOS.Vfs.Refs

/-!
# The mount of a path

The mounts that calls of `vfs_mount` made and that no call removed are listed here beside the state,
newest first and with the mount point as the caller gave it.

* **`longest_prefix`**, **`long_point_lost`**: the mount that `find_mount_locked` finds.
-/

namespace TaterTOS.Vfs

open List

variable {s s' : State} {l : List (ℕ × List Char)} {p path : List Char}

/-! ### The search -/

def outRel (path : List Char) (bestLen : ℕ) : List Char :=
  match path.drop bestLen with
  | '/' :: rest => rest
  | rest => rest

theorem outRel_append (p rest : List Char) :
    outRel (p ++ rest) p.length = if rest.head? = some '/' then rest.tail else rest := by
  unfold outRel
  rw [drop_left]
  cases rest with
  | nil => rfl
  | cons c rest => by_cases hc : c = '/' <;> simp [hc]

/-- The mount point is a prefix of the path that ends where a component of the path ends. -/
def Covers (p path : List Char) : Prop :=
  ∃ rest, path = p ++ rest ∧ (rest = [] ∨ rest.head? = some '/' ∨ p.getLast? = some '/')

theorem mountMatches_iff : mountMatches p path = true ↔ Covers p path := by
  unfold mountMatches Covers
  rw [Bool.and_eq_true, isPrefixOf_iff_prefix]
  constructor
  · rintro ⟨⟨rest, rfl⟩, h⟩
    cases rest <;> simp_all
  · rintro ⟨rest, rfl, h⟩
    cases rest <;> simp_all

structure Tracks (s : State) (l : List (ℕ × List Char)) : Prop where
  list : s.list = l.map Prod.fst
  nodup : s.list.Nodup
  point : ∀ e ∈ l, ∃ mt, s.mounts e.1 = some mt ∧ mt.mountpoint = e.2

def Best (l : List (ℕ × List Char)) (path : List Char) (m : ℕ) (p : List Char) : Prop :=
  ∃ l1 l2, l = l1 ++ (m, p) :: l2 ∧ Covers p path ∧
    (∀ e ∈ l1, Covers e.2 path → e.2.length < p.length) ∧
    ∀ e ∈ l2, Covers e.2 path → e.2.length ≤ p.length

theorem Best.cons {e : ℕ × List Char} {m : ℕ} (h : Best l path m p)
    (he : Covers e.2 path → e.2.length < p.length) : Best (e :: l) path m p := by
  obtain ⟨l1, l2, rfl, hc, h1, h2⟩ := h
  exact ⟨e :: l1, l2, rfl, hc, forall_mem_cons.mpr ⟨he, h1⟩, h2⟩

theorem foldl_best (point : ∀ e ∈ l, ∃ mt, s.mounts e.1 = some mt ∧ mt.mountpoint = e.2) :
    ∀ best : Option ℕ × ℕ,
      ((l.map Prod.fst).foldl (findMountTurn s path) best = best ∧
        ∀ e ∈ l, Covers e.2 path → e.2.length ≤ best.2) ∨
      ∃ m p, (l.map Prod.fst).foldl (findMountTurn s path) best = (some m, p.length) ∧
        best.2 < p.length ∧ Best l path m p := by
  induction l with
  | nil => exact fun best => .inl ⟨rfl, by simp⟩
  | cons e l ih =>
    intro best
    obtain ⟨mt, hmt, hpoint⟩ := point e mem_cons_self
    have ih := ih fun e' h => point e' (mem_cons_of_mem e h)
    simp only [map_cons, foldl_cons, findMountTurn, hmt, hpoint]
    split_ifs with hbest <;> rw [Bool.and_eq_true, mountMatches_iff, decide_eq_true_eq] at hbest
    · refine .inr ?_
      obtain ⟨hr, hall⟩ | ⟨m, p, hr, hlt, h⟩ := ih (some e.1, e.2.length)
      · exact ⟨e.1, e.2, hr, hbest.2, [], l, rfl, hbest.1, by simp, hall⟩
      · exact ⟨m, p, hr, hbest.2.trans hlt, h.cons fun _ => hlt⟩
    · have hle : Covers e.2 path → e.2.length ≤ best.2 := by grind
      obtain ⟨hr, hall⟩ | ⟨m, p, hr, hlt, h⟩ := ih best
      · exact .inl ⟨hr, forall_mem_cons.mpr ⟨hle, hall⟩⟩
      · exact .inr ⟨m, p, hr, hlt, h.cons fun hc => (hle hc).trans_lt hlt⟩

/-! ### Mounting and unmounting -/

inductive MountCall
  | mount (mountpoint : List Char) (ops : FsOps) (answer : ℕ)
  | umount (mountpoint : List Char)

def MountCall.mountpoint : MountCall → List Char
  | .mount p _ _ => p
  | .umount p => p

/-- One call, and what it does to the list of mounts: a mount takes the place of those with its
mount point, and is there if the call returns 0; `vfs_umount` removes the newest. -/
def MountCall.step (x : State × List (ℕ × List Char)) : MountCall → State × List (ℕ × List Char)
  | .mount p ops answer =>
    let r := vfsMount x.1 p ops answer
    let rest := x.2.filter (·.2 != p)
    (r.2, if r.1 = 0 then (answer, p) :: rest else rest)
  | .umount p => ((vfsUmount x.1 p).getD x.1, x.2.eraseP (·.2 == p))

def history (calls : List MountCall) : State × List (ℕ × List Char) :=
  calls.foldl MountCall.step (.init, [])

theorem tryDispose_of_ne {m x : ℕ} (h : x ≠ m) : (tryDispose s m).mounts x = s.mounts x := by
  unfold tryDispose
  split
  · rfl
  · split_ifs
    · rfl
    · exact setMount_of_ne h _

theorem map_eraseP (hnodup : (l.map Prod.fst).Nodup) {e : ℕ × List Char}
    (hfind : l.find? (·.2 == p) = some e) :
    (l.eraseP (·.2 == p)).map Prod.fst = (l.map Prod.fst).erase e.1 := by
  induction l with
  | nil => cases hfind
  | cons d l ih =>
    rw [map_cons, nodup_cons] at hnodup
    by_cases hd : d.2 = p
    · simp_all
    · have hfind' : l.find? (·.2 == p) = some e := by simpa [hd] using hfind
      have hne : d.1 ≠ e.1 := fun h => hnodup.1 (h ▸ mem_map_of_mem (mem_of_find?_eq_some hfind'))
      simp [hd, hne, ih hnodup.2 hfind']

theorem Tracks.find (h : Tracks s l) :
    (s.list.find? fun m => (s.mounts m).any (·.mountpoint == p)) =
      (l.find? (·.2 == p)).map Prod.fst := by
  rw [h.list, find?_map]
  refine congrArg _ (find?_congr fun e he => ?_)
  obtain ⟨mt, hmt, hpoint⟩ := h.point e he
  simp [hmt, hpoint]

theorem Tracks.umount (h : Tracks s l) :
    (vfsUmount s p = none ∧ ∀ e ∈ l, e.2 ≠ p) ∨
      ∃ s', vfsUmount s p = some s' ∧ s'.list.length < s.list.length ∧
        Tracks s' (l.eraseP (·.2 == p)) := by
  cases hfind : l.find? (·.2 == p) with
  | none =>
    refine .inl ⟨?_, by simpa using hfind⟩
    simp [vfsUmount, h.find, hfind]
  | some e =>
    have hmem := mem_of_find?_eq_some hfind
    obtain ⟨mt, hmt, -⟩ := h.point e hmem
    have hlist : e.1 ∈ s.list := h.list ▸ mem_map_of_mem hmem
    refine .inr ⟨_, by simp only [vfsUmount, h.find, hfind, Option.map_some, hmt]; rfl, ?_,
      ?_, ?_, ?_⟩
    · rw [tryDispose_list]
      exact (length_erase_of_mem hlist).trans_lt (Nat.pred_lt (length_pos_of_mem hlist).ne')
    · rw [tryDispose_list, map_eraseP (h.list ▸ h.nodup) hfind, ← h.list]
      rfl
    · rw [tryDispose_list]
      exact h.nodup.erase _
    · intro d hd
      have hne : d.1 ≠ e.1 := by
        rintro heq
        have hin := mem_map_of_mem (f := Prod.fst) hd
        rw [map_eraseP (h.list ▸ h.nodup) hfind, ← h.list, heq, h.nodup.mem_erase_iff] at hin
        exact hin.1 rfl
      rw [tryDispose_of_ne hne, setMount_of_ne hne]
      exact h.point d (mem_of_mem_eraseP hd)

theorem Tracks.umountAll : ∀ (n : ℕ) {s : State} {l : List (ℕ × List Char)}, Tracks s l →
    s.list.length ≤ n → Tracks (umountAll p n s) (l.filter (·.2 != p)) := by
  intro n
  induction n with
  | zero =>
    intro s l h hlen
    have hnil : l = [] := by simpa [h.list] using hlen
    subst hnil
    exact h
  | succ n ih =>
    intro s l h hlen
    unfold Vfs.umountAll
    rcases h.umount (p := p) with ⟨hu, hno⟩ | ⟨s', hu, hlt, h'⟩
    · rw [hu, filter_eq_self.mpr (by simpa using hno)]
      exact h
    · have hfilter : (l.eraseP (·.2 == p)).filter (·.2 != p) = l.filter (·.2 != p) := by
        clear * -
        induction l with
        | nil => rfl
        | cons e l ih => by_cases he : e.2 = p <;> simp [he, ih]
      rw [hu, ← hfilter]
      exact ih h' (by omega)

theorem Tracks.step {x : State × List (ℕ × List Char)} (h : Tracks x.1 x.2) (c : MountCall)
    (hc : c.mountpoint.length < mountpointSize) : Tracks (c.step x).1 (c.step x).2 := by
  obtain ⟨s, l⟩ := x
  cases c with
  | umount p =>
    rcases h.umount (p := p) with ⟨hu, hno⟩ | ⟨s', hu, -, h'⟩
    · have herase : l.eraseP (·.2 == p) = l := eraseP_of_forall_not (by simpa using hno)
      simpa only [MountCall.step, hu, herase, Option.getD_none] using h
    · simpa only [MountCall.step, hu, Option.getD_some] using h'
  | mount p ops answer =>
    have hrest := Tracks.umountAll (p := p) s.list.length h le_rfl
    unfold MountCall.step vfsMount
    dsimp only
    split_ifs with hbusy hrc hrc
    · cases hrc
    · exact hrest
    · have hfree : (Vfs.umountAll p s.list.length s).mounts answer = none := by
        simpa using fun hs => hbusy (.inr hs)
      have hout : ∀ e ∈ l.filter (·.2 != p), e.1 ≠ answer := by
        rintro e he rfl
        obtain ⟨mt, hmt, -⟩ := hrest.point e he
        cases hfree.symm.trans hmt
      refine ⟨by rw [map_cons, ← hrest.list], nodup_cons.mpr ⟨?_, hrest.nodup⟩, ?_⟩
      · rw [hrest.list, mem_map]
        rintro ⟨e, he, heq⟩
        exact hout e he heq
      · refine forall_mem_cons.mpr ⟨⟨_, setMount_self _ _ _, ?_⟩, fun e he => ?_⟩
        · exact take_of_length_le (Nat.le_pred_of_lt hc)
        · obtain ⟨mt, hmt, hpoint⟩ := hrest.point e he
          exact ⟨mt, (setMount_of_ne (hout e he) _).trans hmt, hpoint⟩
    · exact absurd rfl hrc

theorem history_ne_nil (calls : List MountCall) (h : ∀ c ∈ calls, c.mountpoint ≠ []) :
    ∀ e ∈ (history calls).2, e.2 ≠ [] := by
  refine foldlRecOn (motive := fun x : State × List (ℕ × List Char) => ∀ e ∈ x.2, e.2 ≠ [])
    calls _ (by simp) fun x hx c hc => ?_
  have hp := h c hc
  cases c with
  | umount p => exact fun e he => hx e (mem_of_mem_eraseP he)
  | mount p ops answer =>
    have hrest : ∀ e ∈ x.2.filter (·.2 != p), e.2 ≠ [] := fun e he => hx e (mem_filter.mp he).1
    unfold MountCall.step
    dsimp only
    split_ifs
    · exact forall_mem_cons.mpr ⟨hp, hrest⟩
    · exact hrest

theorem tracks_history (calls : List MountCall)
    (h : ∀ c ∈ calls, c.mountpoint.length < mountpointSize) :
    Tracks (history calls).1 (history calls).2 := by
  refine foldlRecOn (motive := fun x : State × List (ℕ × List Char) => Tracks x.1 x.2) calls _
    ⟨rfl, nodup_nil, by simp⟩ fun x hx c hc => ?_
  exact hx.step c (h c hc)

/-- **Resolution is by the longest prefix.** After any sequence of `vfs_mount` and `vfs_umount` with
mount points that are not empty and fit, `find_mount_locked` finds nothing if no active mount point
covers the path. Otherwise it finds one of the longest, and of these the newest; the file system
gets the rest of the path without one leading slash. -/
theorem longest_prefix (calls : List MountCall) (path : List Char)
    (h : ∀ c ∈ calls, c.mountpoint ≠ [] ∧ c.mountpoint.length < mountpointSize) :
    (findMountBest (history calls).1 path = (none, 0) ∧
      ∀ e ∈ (history calls).2, ¬Covers e.2 path) ∨
    ∃ m p rest, findMountBest (history calls).1 path = (some m, p.length) ∧
      Best (history calls).2 path m p ∧ path = p ++ rest ∧
      outRel path p.length = if rest.head? = some '/' then rest.tail else rest := by
  have ht := tracks_history calls fun c hc => (h c hc).2
  have hne := history_ne_nil calls fun c hc => (h c hc).1
  unfold findMountBest
  rw [ht.list]
  obtain ⟨hr, hall⟩ | ⟨m, p, hr, -, hbest⟩ := foldl_best ht.point (none, 0)
  · refine .inl ⟨hr, fun e he hc => hne e he ?_⟩
    exact length_eq_zero_iff.mp (Nat.le_zero.mp (hall e he hc))
  · obtain ⟨-, -, -, ⟨rest, rfl, -⟩, -⟩ := id hbest
    exact .inr ⟨m, p, rest, hr, hbest, rfl, outRel_append p rest⟩

def nested : List MountCall :=
  [.mount ['/'] (fun _ => true) 1, .mount ['/', 'a'] (fun _ => true) 2]

theorem longest_prefix_nested :
    findMountBest (history nested).1 ['/', 'a', '/', 'b'] = (some 2, 2) ∧
    ∃ p rest, Best (history nested).2 ['/', 'a', '/', 'b'] 2 p ∧ ['/', 'a', '/', 'b'] = p ++ rest ∧
      outRel ['/', 'a', '/', 'b'] p.length = if rest.head? = some '/' then rest.tail else rest := by
  have hbest : findMountBest (history nested).1 ['/', 'a', '/', 'b'] = (some 2, 2) := by
    decide +kernel
  have hcalls : ∀ c ∈ nested, c.mountpoint ≠ [] ∧ c.mountpoint.length < mountpointSize := by
    simp [nested, MountCall.mountpoint, mountpointSize]
  obtain ⟨hnone, -⟩ | ⟨m, p, rest, hr, hl⟩ := longest_prefix nested ['/', 'a', '/', 'b'] hcalls
  · cases hbest.symm.trans hnone
  · obtain rfl : 2 = m := Option.some.inj (congrArg Prod.fst (hbest.symm.trans hr))
    exact ⟨hbest, p, rest, hl⟩

/-- A mount point of 64 bytes is stored without its last one, and the mount is not found at it. -/
theorem long_point_lost :
    (history [.mount (replicate 64 'a') (fun _ => true) 1]).2 = [(1, replicate 64 'a')] ∧
    Covers (replicate 64 'a') (replicate 64 'a') ∧
    findMountBest (history [.mount (replicate 64 'a') (fun _ => true) 1]).1 (replicate 64 'a') =
      (none, 0) :=
  ⟨by decide +kernel, ⟨[], by simp⟩, by decide +kernel⟩

end TaterTOS.Vfs
