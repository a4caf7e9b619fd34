import TaterTOS.Path.Normalize
import TaterTOS.Process.FutexKey

/-!
# The paths of system calls

How the calls of `syscall.c` come to the path they act on.

* `copyLoop_take`: the copy is the string, cut to the buffer; **`whole_name`**: when a call acts on
  the whole of a string;
* **`relative_exact`**: when a relative path is resolved as the current directory says.
-/

namespace TaterTOS.Path

open Lib Process List Vmm

inductive Errno
  | path (e : Error)
  | fault
  | noent
  | badf
  | notdir
  deriving DecidableEq

/-! ### Strings -/

structure User where
  mem : Mem
  flags : ℕ → ℕ

def copyLoop (u : User) (uptr : ℕ) : ℕ → ℕ → ℕ → Option (List UInt8)
  | 0, _, _ => some []
  | n + 1, i, curPage =>
    let va := u64 (uptr + i)
    let page := va &&& not64 4095
    if !userPtrOk va 1 then none
    else if page ≠ curPage ∧
      u.flags va &&& (flagPresent ||| flagUser) ≠ (flagPresent ||| flagUser) then none
    else if u.mem va = 0 then some []
    else (copyLoop u uptr n (i + 1) page).map (u.mem va :: ·)

def copyUserString (u : User) (uptr max : ℕ) : Option (List UInt8) :=
  if max = 0 then none
  else if !userPtrOk uptr 1 then none
  else copyLoop u uptr (max - 1) 0 (2 ^ 64 - 1)

def UserString (u : User) (uptr : ℕ) : ℕ → List UInt8 → Prop
  | i, [] => u.mem (u64 (uptr + i)) = 0
  | i, c :: s => u.mem (u64 (uptr + i)) = c ∧ c ≠ 0 ∧ UserString u uptr (i + 1) s

/-! ### Paths -/

inductive FdKind
  | none
  | dir
  | other
  deriving DecidableEq

structure Shared where
  cwd : List UInt8
  fdPtr : ℤ → Bool
  fdKind : ℤ → FdKind
  fdPath : ℤ → List UInt8

def atFdcwd : ℤ := -100

def Shared.base (sh : Shared) (dirfd : ℤ) : Except Errno (List UInt8) :=
  if dirfd = atFdcwd then .ok [slash]
  else if dirfd < 3 ∨ 64 ≤ dirfd then .error .badf
  else if sh.fdPtr dirfd = false ∨ sh.fdKind dirfd = .none then .error .badf
  else if sh.fdKind dirfd ≠ .dir then .error .notdir
  else if sh.fdPath dirfd = [] then .error .badf
  else .ok (sh.fdPath dirfd)

/-- `path_normalize_absolute` on a buffer of its own; `none` if it does not return. -/
def normalized (p : List UInt8) : Option (Except Errno (List UInt8)) :=
  (pathNormalizeAbsolute p fun _ => 0).map fun
    | .ok b => .ok (bytes b.mem 0 b.len)
    | .error e => .error (.path e)

def resolveAtPath (sh : Shared) (dirfd : ℤ) (path : List UInt8) :
    Option (Except Errno (List UInt8)) :=
  if path.head? = some slash then normalized path
  else if path = [] then some (.error .noent)
  else match sh.base dirfd with
    | .error e => some (.error e)
    | .ok base =>
      let joined := base ++ (if base.getLast? = some slash then [] else [slash]) ++ path
      if joined.length < 2 * pathMax then normalized joined
      else some (.error (.path .nameTooLong))

inductive PathCall
  | stat | create | mkdir | unlink | rename | spawn
  | open
  | openat (dirfd : ℤ)
  | fstatat (dirfd : ℤ)
  | mkdirat (dirfd : ℤ)
  | unlinkat (dirfd : ℤ)
  | renameat (dirfd : ℤ)

def PathCall.dirfd : PathCall → Option ℤ
  | .stat | .create | .mkdir | .unlink | .rename | .spawn => none
  | .open => some atFdcwd
  | .openat fd | .fstatat fd | .mkdirat fd | .unlinkat fd | .renameat fd => some fd

def PathCall.operand (sh : Shared) (call : PathCall) (raw : List UInt8) :
    Option (Except Errno (List UInt8)) :=
  match call.dirfd with
  | none => some (.ok raw)
  | some fd => resolveAtPath sh fd raw

def PathCall.path (u : User) (sh : Shared) (uptr : ℕ) (call : PathCall) :
    Option (Except Errno (List UInt8)) :=
  match copyUserString u uptr pathMax with
  | none => some (.error .fault)
  | some raw => call.operand sh raw

def sysChdir (stat : List UInt8 → Option ℕ) (u : User) (sh : Shared) (uptr : ℕ) :
    Option (Except Errno Shared) :=
  match copyUserString u uptr pathMax with
  | none => some (.error .fault)
  | some raw => (resolveAtPath sh atFdcwd raw).map fun
    | .error e => .error e
    | .ok resolved => match stat resolved with
      | none => .error .noent
      | some attr => if attr &&& 0x10 = 0 then .error .notdir
        else .ok { sh with cwd := resolved.take (pathMax - 1) }

/-! ### Cut strings -/

variable {u : User} {uptr max : ℕ} {raw d : List UInt8} {sh : Shared}

/-- The byte `i` of a string lies outside of the user half, or on a page that is met with it and is
not present or not the user's. -/
def Faults (u : User) (uptr i : ℕ) : Prop :=
  userPtrOk (u64 (uptr + i)) 1 = false ∨
  (i = 0 ∨ u64 (uptr + i) &&& not64 4095 ≠ u64 (uptr + (i - 1)) &&& not64 4095) ∧
    u.flags (u64 (uptr + i)) &&& (flagPresent ||| flagUser) ≠ (flagPresent ||| flagUser)

theorem copyLoop_take (n : ℕ) : ∀ {i page : ℕ} {s d : List UInt8}, UserString u uptr i s →
    copyLoop u uptr n i page = some d → d = s.take n := by
  induction n with
  | zero =>
    intro i page s d _ h
    exact (Option.some.inj h).symm
  | succ n ih =>
    intro i page s d hs h
    unfold copyLoop at h
    cases s with
    | nil =>
      simp only [show u.mem (u64 (uptr + i)) = 0 from hs] at h
      split_ifs at h
      exact (Option.some.inj h).symm
    | cons c s =>
      obtain ⟨hc, hne, hs⟩ := hs
      simp only [hc] at h
      split_ifs at h
      obtain ⟨d', hd', rfl⟩ := Option.map_eq_some_iff.mp h
      rw [ih hs hd', take_succ_cons]

theorem copyUserString_take (hs : UserString u uptr 0 raw)
    (h : copyUserString u uptr max = some d) :
    d = raw.take (max - 1) := by
  unfold copyUserString at h
  split_ifs at h
  exact copyLoop_take _ hs h

/-- The page that the loop remembers before byte `i`. -/
def pageBefore (uptr : ℕ) : ℕ → ℕ
  | 0 => 2 ^ 64 - 1
  | i + 1 => u64 (uptr + i) &&& not64 4095

theorem page_ne_pageBefore (uptr i : ℕ) :
    u64 (uptr + i) &&& not64 4095 ≠ pageBefore uptr i ↔
      i = 0 ∨ u64 (uptr + i) &&& not64 4095 ≠ u64 (uptr + (i - 1)) &&& not64 4095 := by
  cases i with
  | zero =>
    have hle : u64 (uptr + 0) &&& not64 4095 ≤ not64 4095 := Nat.and_le_right
    have hlt : not64 4095 < 2 ^ 64 - 1 := by decide
    simp only [pageBefore, true_or, iff_true]
    omega
  | succ i => simp [pageBefore]

/-- Up to `n` bytes of a long string are copied unless one of them faults. -/
theorem copyLoop_eq_none (n : ℕ) : ∀ {i : ℕ} {s : List UInt8}, UserString u uptr i s →
    n ≤ s.length → (copyLoop u uptr n i (pageBefore uptr i) = none ↔ ∃ j, i ≤ j ∧ j < i + n ∧
      Faults u uptr j) := by
  induction n with
  | zero =>
    intro i s _ _
    simp only [copyLoop, reduceCtorEq, false_iff, not_exists]
    omega
  | succ n ih =>
    intro i s hs hn
    cases s with
    | nil => simp at hn
    | cons c s =>
      obtain ⟨hc, hne, hs⟩ := hs
      have hstep : copyLoop u uptr (n + 1) i (pageBefore uptr i) = none ↔
          Faults u uptr i ∨ copyLoop u uptr n (i + 1) (pageBefore uptr (i + 1)) = none := by
        rw [copyLoop, Faults, ← page_ne_pageBefore]
        simp only [hc, hne, if_false, Bool.not_eq_true']
        split_ifs with h1 h2
        · simp [h1]
        · simp [h2]
        · rw [Option.map_eq_none_iff]
          refine ⟨.inr, fun h => h.resolve_left ?_⟩
          rintro (h | h)
          · exact h1 h
          · exact h2 h
      rw [hstep, ih hs (by simpa using hn)]
      constructor
      · rintro (h | ⟨j, h1, h2, hj⟩)
        · exact ⟨i, le_rfl, by omega, h⟩
        · exact ⟨j, by omega, by omega, hj⟩
      · rintro ⟨j, h1, h2, hj⟩
        rcases h1.eq_or_lt with rfl | h1
        · exact .inl hj
        · exact .inr ⟨j, h1, by omega, hj⟩

theorem copyUserString_eq_none (hs : UserString u uptr 0 raw) (huptr : uptr < 2 ^ 64)
    (hlen : max - 1 ≤ raw.length) (hmax : 1 < max) :
    copyUserString u uptr max = none ↔ ∃ i < max - 1, Faults u uptr i := by
  have hloop := copyLoop_eq_none (max - 1) hs hlen
  simp only [Nat.zero_le, true_and, Nat.zero_add] at hloop
  unfold copyUserString
  rw [if_neg (by omega)]
  by_cases hok : userPtrOk uptr 1 = true
  · rw [if_neg (by simp [hok])]
    exact hloop
  · rw [if_pos (by simpa using hok)]
    refine iff_of_true rfl ⟨0, by omega, .inl ?_⟩
    rw [Nat.add_zero, u64, Nat.mod_eq_of_lt huptr]
    exact Bool.not_eq_true _ ▸ hok

/-- A call acts on the path that the whole of a string stands for, or fails. -/
def ActsOnWhole (u : User) (sh : Shared) (uptr : ℕ) (raw : List UInt8) : Prop :=
  (∀ d, copyUserString u uptr pathMax = some d → d = raw) ∧
  ∀ call : PathCall, call.path u sh uptr = some (.error .fault) ∨
    call.path u sh uptr = call.operand sh raw

/-- **Cut names.** The path calls act on the whole of a string, or fail, exactly if the string is
shorter than their buffer or one of the bytes that fit into the buffer cannot be read. -/
theorem whole_name (u : User) (sh : Shared) (uptr : ℕ) (huptr : uptr < 2 ^ 64) (raw : List UInt8)
    (hs : UserString u uptr 0 raw) :
    ActsOnWhole u sh uptr raw ↔
      raw.length < pathMax ∨ ∃ i < pathMax - 1, Faults u uptr i := by
  have hmax := pathMax_eq
  constructor
  · rintro ⟨hcopy, -⟩
    by_contra hcon
    rw [not_or, not_lt] at hcon
    have hsome : copyUserString u uptr pathMax ≠ none := fun h =>
      hcon.2 ((copyUserString_eq_none hs huptr (by omega) (by omega)).mp h)
    obtain ⟨d, hd⟩ := Option.ne_none_iff_exists'.mp hsome
    have hlen := congrArg length ((copyUserString_take hs hd).symm.trans (hcopy d hd))
    rw [length_take] at hlen
    omega
  · intro h
    have hcopy : ∀ d, copyUserString u uptr pathMax = some d → d = raw := by
      intro d hd
      by_cases hlen : raw.length < pathMax
      · exact (copyUserString_take hs hd).trans (take_of_length_le (by omega))
      · have hnone := (copyUserString_eq_none hs huptr (by omega) (by omega)).mpr
          (h.resolve_left hlen)
        rw [hd] at hnone
        cases hnone
    refine ⟨hcopy, fun call => ?_⟩
    unfold PathCall.path
    cases hd : copyUserString u uptr pathMax with
    | none => exact .inl rfl
    | some d => exact .inr (by rw [hcopy d hd])

def userWith (s : List UInt8) : User := ⟨fun va => s.getD (va - 0x1000) 0, fun _ => 5⟩

def inRoot : Shared := ⟨[slash], fun _ => false, fun _ => .none, fun _ => []⟩

theorem whole_name_unlink :
    PathCall.unlink.path (userWith [47, 97]) inRoot 0x1000 = some (.ok [47, 97]) ∧
    ActsOnWhole (userWith [47, 97]) inRoot 0x1000 [47, 97] :=
  ⟨by decide +kernel, (whole_name (userWith [47, 97]) inRoot 0x1000 (by decide) [47, 97]
    ⟨rfl, by decide, rfl, by decide, rfl⟩).mpr (.inl (by rw [pathMax_eq]; decide))⟩

/-- A name of 128 bytes is cut by one, and the file with the shorter name is unlinked. -/
theorem name_cut : (∀ i < 128, (userWith (List.replicate 128 97)).mem (0x1000 + i) = 97) ∧
    PathCall.unlink.path (userWith (List.replicate 128 97)) inRoot 0x1000 =
      some (.ok (List.replicate 127 97)) := by
  decide +kernel

/-! ### Relative paths -/

def named (dir p : List UInt8) : List UInt8 := render (resolve (components (dir ++ slash :: p)))

/-- The number of `..` of a path that find no component before them to take back, after `n`
components that they may take back. -/
def climb : ℕ → List (List UInt8) → ℕ
  | _, [] => 0
  | n, c :: cs =>
    if c = [] ∨ c = [dot] then climb n cs
    else if c = [dot, dot] then if n = 0 then climb 0 cs + 1 else climb (n - 1) cs
    else climb (n + 1) cs

/-- What is resolved after a stack takes as much from it as it climbs. -/
theorem foldl_visit_append (cs : List (List UInt8)) : ∀ st r : List (List UInt8),
    cs.foldl visit (st ++ r) = st.take (st.length - climb r.length cs) ++ cs.foldl visit r := by
  induction cs with
  | nil =>
    intro st r
    simp [climb]
  | cons c cs ih =>
    intro st r
    rw [foldl_cons, foldl_cons, climb, visit, visit]
    split_ifs with hskip hdots hr
    · exact ih st r
    · obtain rfl := length_eq_zero_iff.mp hr
      have h := ih st.dropLast []
      rw [append_nil] at h ⊢
      rw [h, dropLast_eq_take, take_take, length_take]
      congr 2
      simp only [length_nil]
      omega
    · rw [dropLast_append_of_ne_nil (fun h => hr (by rw [h, length_nil])), ih, length_dropLast]
    · rw [append_assoc, ih, length_append, length_singleton]

theorem ne_nil_of_mem_foldl_visit (cs : List (List UInt8)) : ∀ {st : List (List UInt8)},
    (∀ c ∈ st, c ≠ []) → ∀ c ∈ cs.foldl visit st, c ≠ [] := by
  induction cs with
  | nil =>
    intro st h
    exact h
  | cons c cs ih =>
    intro st h
    refine ih fun d hd => ?_
    unfold visit at hd
    split_ifs at hd with hskip
    · exact h d hd
    · exact h d (mem_of_mem_dropLast hd)
    · rcases mem_append.mp hd with hd | hd
      · exact h d hd
      · exact mem_singleton.mp hd ▸ fun hc => hskip (.inl hc)

theorem render_append_eq {st r : List (List UInt8)} (h : ∀ c ∈ st, c ≠ []) :
    render (st ++ r) = render r ↔ st = [] := by
  refine ⟨fun heq => ?_, fun hst => by rw [hst, nil_append]⟩
  by_contra hst
  rw [render_of_ne (append_ne_nil_of_left_ne_nil hst r), flatMap_append] at heq
  obtain ⟨c, st, rfl⟩ := exists_cons_of_ne_nil hst
  have hc := length_pos_iff.mpr (h c mem_cons_self)
  have hlen := congrArg length heq
  by_cases hr : r = []
  · simp only [hr, render_nil, flatMap_cons, length_append, length_cons, length_nil, flatMap_nil]
      at hlen
    omega
  · rw [render_of_ne hr] at hlen
    simp only [flatMap_cons, length_append, length_cons] at hlen
    omega

theorem named_eq_root (dir p : List UInt8) : render (resolve (components p)) = named dir p ↔
    (resolve (components dir)).length ≤ climb 0 (components p) := by
  have hsplit := foldl_visit_append (components p) (resolve (components dir)) []
  rw [append_nil] at hsplit
  have hplain : ∀ c ∈ resolve (components dir), c ≠ [] :=
    ne_nil_of_mem_foldl_visit _ fun c hc => absurd hc not_mem_nil
  rw [named, components_append_slash, resolve, resolve, foldl_append,
    show (components dir).foldl visit [] = resolve (components dir) from rfl, hsplit, eq_comm,
    render_append_eq fun c hc => hplain c (mem_of_mem_take hc), take_eq_nil_iff, length_nil]
  constructor
  · rintro (h | h)
    · omega
    · rw [h]
      exact Nat.zero_le _
  · intro h
    exact .inl (by omega)

/-- A path that can be resolved from the root: it fits into the buffers on the way. -/
def FitsRoot (p : List UInt8) : Prop :=
  p.length + 1 < 2 * pathMax ∧
  ∀ cs, cs <+: components p → (render (resolve cs)).length < pathMax

/-- Relative paths are resolved from the root, whatever the current directory is. -/
theorem resolveAtPath_root (sh : Shared) (hne : raw ≠ []) (hrel : raw.head? ≠ some slash) :
    FitsRoot raw ∧ resolveAtPath sh atFdcwd raw = some (.ok (render (resolve (components raw)))) ∨
    ¬ FitsRoot raw ∧ ∃ e, resolveAtPath sh atFdcwd raw = some (.error e) := by
  have hmax := pathMax_eq
  have hroot : (render []).length < pathMax := by
    rw [hmax]
    decide
  have hbase : sh.base atFdcwd = .ok [slash] := if_pos rfl
  have hfits := resolveFrom_isSome (components raw) hroot
  rw [← resolveFrom_cons_nil hroot, ← components_cons_slash] at hfits
  unfold resolveAtPath
  rw [if_neg hrel, if_neg hne, hbase]
  simp only [getLast?_singleton, if_true, append_nil, singleton_append, length_cons]
  split_ifs with hlen
  · rcases @pathNormalizeAbsolute_spec (slash :: raw) rfl (by rw [length_cons]; omega)
      (fun _ => 0) with ⟨st, b, hr, heq, hb⟩ | ⟨hr, heq⟩
    · have hst : st = resolve (components raw) := by
        have h := resolveFrom_eq_some hr
        rwa [components_cons_slash, foldl_cons, visit_nil] at h
      refine .inl ⟨⟨hlen, hfits.mp (by rw [hr]; rfl)⟩, ?_⟩
      rw [normalized, heq, ← hst, ← hb.text]
      rfl
    · refine .inr ⟨fun h => ?_, _, by rw [normalized, heq]; rfl⟩
      have hsome := hfits.mpr h.2
      rw [hr] at hsome
      cases hsome
  · exact .inr ⟨fun h => hlen h.1, _, rfl⟩

/-- The call acts on what a relative path names in the current directory, or fails. -/
def PathCall.Relative (sh : Shared) (raw : List UInt8) (call : PathCall) : Prop :=
  ∃ r, call.operand sh raw = some r ∧ ∀ q, r = .ok q → q = named sh.cwd raw

/-- `SYS_CHDIR` sets the current directory to what a relative path names in it, or fails. -/
def ChdirRelative (stat : List UInt8 → Option ℕ) (u : User) (sh : Shared) (uptr : ℕ)
    (raw : List UInt8) : Prop :=
  ∃ r, sysChdir stat u sh uptr = some r ∧ ∀ sh', r = .ok sh' → sh'.cwd = named sh.cwd raw

theorem chdirRelative_iff {stat : List UInt8 → Option ℕ}
    (hcopy : copyUserString u uptr pathMax = some raw)
    (hne : raw ≠ []) (hrel : raw.head? ≠ some slash) :
    ChdirRelative stat u sh uptr raw ↔
      (FitsRoot raw → ∀ attr, stat (render (resolve (components raw))) = some attr →
        attr &&& 0x10 ≠ 0 → render (resolve (components raw)) = named sh.cwd raw) := by
  unfold ChdirRelative sysChdir
  rw [hcopy]
  dsimp only
  rcases resolveAtPath_root sh hne hrel with ⟨hfits, heq⟩ | ⟨hfits, e, heq⟩
  · have hcut : (render (resolve (components raw))).take (pathMax - 1) =
        render (resolve (components raw)) :=
      take_of_length_le (Nat.le_sub_one_of_lt (hfits.2 _ prefix_rfl))
    rw [heq, Option.map_some]
    cases hstat : stat (render (resolve (components raw))) with
    | none => simp [hstat]
    | some attr =>
      by_cases hdir : attr &&& 0x10 = 0
      · simp [hstat, hdir]
      · simp [hstat, hdir, hfits, hcut]
  · rw [heq]
    simp [hfits]

/-- **Relative paths.** A call that resolves a relative path from `FRY_AT_FDCWD` acts on what the
path names in the current directory, or fails, exactly if the path cannot be resolved from the root
or climbs at least as far as the current directory is deep; so does `SYS_CHDIR`, unless what it
finds is no directory. `SYS_STAT` never does. -/
theorem relative_exact (sh : Shared) (raw : List UInt8) (hne : raw ≠ [])
    (hrel : raw.head? ≠ some slash) :
    (∀ call : PathCall, call.dirfd = some atFdcwd → (call.Relative sh raw ↔
      (FitsRoot raw → (resolve (components sh.cwd)).length ≤ climb 0 (components raw)))) ∧
    ¬ PathCall.stat.Relative sh raw ∧
    ∀ stat u uptr, copyUserString u uptr pathMax = some raw → (ChdirRelative stat u sh uptr raw ↔
      (FitsRoot raw → ∀ attr, stat (render (resolve (components raw))) = some attr →
        attr &&& 0x10 ≠ 0 →
        (resolve (components sh.cwd)).length ≤ climb 0 (components raw))) := by
  refine ⟨fun call hcall => ?_, ?_, fun stat u uptr hcopy => ?_⟩
  · unfold PathCall.Relative PathCall.operand
    rw [hcall, ← named_eq_root]
    rcases resolveAtPath_root sh hne hrel with ⟨hfits, heq⟩ | ⟨hfits, e, heq⟩
    · simp [heq, hfits]
    · simp [heq, hfits]
  · rintro ⟨r, hr, h⟩
    have hraw : raw = named sh.cwd raw := h raw (Option.some.inj hr).symm
    exact hrel (hraw ▸ head_render _)
  · rw [chdirRelative_iff hcopy hne hrel, ← named_eq_root]

/-- In `/a` the path `../b` is resolved to `/b`, as it should be. -/
theorem relative_exact_open :
    PathCall.open.operand { inRoot with cwd := [47, 97] } [46, 46, 47, 98] = some (.ok [47, 98]) ∧
    PathCall.open.Relative { inRoot with cwd := [47, 97] } [46, 46, 47, 98] :=
  ⟨by decide +kernel, ((relative_exact { inRoot with cwd := [47, 97] } [46, 46, 47, 98] (by decide)
    (by decide)).1 .open rfl).mpr fun _ => by decide +kernel⟩

/-- After `chdir("/a")` the path `b` is still resolved to `/b`. -/
theorem relative_ignores_cwd : sysChdir (fun _ => some 0x10) (userWith [47, 97]) inRoot 0x1000 =
      some (.ok { inRoot with cwd := [47, 97] }) ∧
    PathCall.open.operand { inRoot with cwd := [47, 97] } [98] = some (.ok [47, 98]) ∧
    named [47, 97] [98] = [47, 97, 47, 98] := by
  have hcopy :
      copyUserString (userWith [47, 97]) 0x1000 pathMax = some [47, 97] := by decide +kernel
  have hpath : resolveAtPath inRoot atFdcwd [47, 97] = some (.ok [47, 97]) := by decide +kernel
  refine ⟨?_, by decide +kernel, by decide⟩
  unfold sysChdir
  rw [hcopy]
  dsimp only
  rw [hpath, pathMax_eq]
  rfl

end TaterTOS.Path
