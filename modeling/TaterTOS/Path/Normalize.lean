import TaterTOS.Lib.Word
import TaterTOS.Lib.Memory

/-!
# Path normalization

A model of `path_append_segment`, `path_pop_segment` and `path_normalize_absolute` in
`kernel/proc/syscall.c`. A C string is the list of its bytes without the terminator; the output
buffer is a memory with the length of the string in it.

* `resolve`: what normalization is for, a fold of the components over a stack;
* `render`: the text of a stack.
-/

namespace TaterTOS.Path

open Function Lib List

/-! ### The source -/

@[irreducible] def pathMax : ℕ := 128

variable {s c : List UInt8} {x : UInt8} {n : ℕ} {st : List (List UInt8)}

theorem pathMax_eq : pathMax = 128 := by unfold pathMax; rfl

def slash : UInt8 := 47
def dot : UInt8 := 46

inductive Error
  | inval
  | nameTooLong
  deriving DecidableEq, Repr

structure Buf where
  mem : Mem
  len : ℕ

/-- `out[(*len)++] = c`. -/
def Buf.push (b : Buf) (c : UInt8) : Buf := ⟨update b.mem b.len c, u32 (b.len + 1)⟩

/-- `out[*len] = 0`. -/
def Buf.close (b : Buf) : Buf := { b with mem := update b.mem b.len 0 }

def pathAppendSegment (b : Buf) (seg : List UInt8) : Except Error Buf :=
  if seg.length = 0 then .error .inval
  else if pathMax ≤ u32 (u32 (b.len + if 1 < b.len then 1 else 0) + seg.length) then
    .error .nameTooLong
  else .ok (seg.foldl Buf.push (if 1 < b.len then b.push slash else b)).close

/-- `while (*len > 1 && out[*len - 1] != '/') (*len)--`. -/
def backUp (m : Mem) : ℕ → ℕ
  | 0 => 0
  | n + 1 => if 1 < n + 1 ∧ m n ≠ slash then backUp m n else n + 1

def rootBuf (m : Mem) : Buf := ⟨update (update m 0 slash) 1 0, 1⟩

def pathPopSegment (b : Buf) : Buf :=
  if b.len ≤ 1 then rootBuf b.mem
  else
    let n := backUp b.mem b.len
    Buf.close ⟨b.mem, if 1 < n then n - 1 else n⟩

/-- The loop over the components, for at most as many rounds as the first argument says. A
component of `2^32` bytes or more wraps the counter `seg_len`, and its scan never ends. -/
def normalizeLoop : ℕ → List UInt8 → Buf → Option (Except Error Buf)
  | 0, _, _ => none
  | fuel + 1, p, b =>
    let p := p.dropWhile (· == slash)
    if p = [] then some (.ok b)
    else
      let seg := p.takeWhile (· != slash)
      if 2 ^ 32 ≤ seg.length then none
      else if seg = [dot] then normalizeLoop fuel (p.drop seg.length) b
      else if seg = [dot, dot] then normalizeLoop fuel (p.drop seg.length) (pathPopSegment b)
      else match pathAppendSegment b seg with
        | .error e => some (.error e)
        | .ok b => normalizeLoop fuel (p.drop seg.length) b

/-- `none` if the call does not return. -/
def pathNormalizeAbsolute (inp : List UInt8) (out : Mem) : Option (Except Error Buf) :=
  if inp.head? ≠ some slash then some (.error .inval)
  else normalizeLoop (inp.length + 1) inp (rootBuf out)

/-! ### Stacks of components -/

def components (s : List UInt8) : List (List UInt8) := s.splitOn slash

def visit (st : List (List UInt8)) (c : List UInt8) : List (List UInt8) :=
  if c = [] ∨ c = [dot] then st else if c = [dot, dot] then st.dropLast else st ++ [c]

def resolve (cs : List (List UInt8)) : List (List UInt8) := cs.foldl visit []

def render (st : List (List UInt8)) : List UInt8 :=
  if st = [] then [slash] else st.flatMap (slash :: ·)

structure Plain (c : List UInt8) : Prop where
  ne_nil : c ≠ []
  ne_dot : c ≠ [dot]
  ne_dots : c ≠ [dot, dot]
  no_slash : slash ∉ c

theorem components_cons_slash (s : List UInt8) : components (slash :: s) = [] :: components s :=
  splitOn_append_cons_self_of_not_mem not_mem_nil s

theorem components_append_slash (s t : List UInt8) :
    components (s ++ slash :: t) = components s ++ components t := splitOn_append_cons_self s t

theorem components_of_not_mem (h : slash ∉ s) : components s = [s] :=
  splitOn_eq_singleton h

@[simp] theorem visit_nil (st : List (List UInt8)) : visit st [] = st := by simp [visit]

@[simp] theorem visit_dot (st : List (List UInt8)) : visit st [dot] = st := by simp [visit]

@[simp] theorem visit_dots (st : List (List UInt8)) : visit st [dot, dot] = st.dropLast := by
  simp [visit]

theorem visit_plain (h : Plain c) (st : List (List UInt8)) : visit st c = st ++ [c] := by
  simp [visit, h.ne_nil, h.ne_dot, h.ne_dots]

theorem render_of_ne (h : st ≠ []) :
    render st = st.flatMap (slash :: ·) := if_neg h

theorem render_nil : render [] = [slash] := rfl

theorem render_concat (st : List (List UInt8)) (c : List UInt8) :
    render (st ++ [c]) = (if st = [] then [] else render st) ++ slash :: c := by
  by_cases h : st = []
  · simp [render, h]
  · simp [render, h]

theorem one_lt_render (h : ∀ c ∈ st, Plain c) :
    1 < (render st).length ↔ st ≠ [] := by
  cases st with
  | nil => simp [render]
  | cons c st =>
    have hc : 0 < c.length := length_pos_iff.mpr (h c mem_cons_self).ne_nil
    simp only [render, cons_ne_nil, if_false, flatMap_cons,
      length_cons, length_append, ne_eq, not_false_eq_true, iff_true]
    omega

theorem length_render_dropLast (st : List (List UInt8)) :
    (render st.dropLast).length ≤ (render st).length := by
  rcases eq_nil_or_concat' st with rfl | ⟨st, c, rfl⟩
  · exact le_rfl
  · rw [render_concat]
    split_ifs with h
    · simp [h, render]
    · simp

/-! ### Resolution with a bound -/

/-- The fold, as long as the text of every stack on the way is shorter than a path may be. -/
def resolveFrom : List (List UInt8) → List (List UInt8) → Option (List (List UInt8))
  | st, [] => some st
  | st, c :: cs =>
    if (render (visit st c)).length < pathMax then resolveFrom (visit st c) cs else none

theorem resolveFrom_eq_some {cs : List (List UInt8)} : ∀ {st st' : List (List UInt8)},
    resolveFrom st cs = some st' → st' = cs.foldl visit st := by
  induction cs with
  | nil => intro st st' h; exact (Option.some.inj h).symm
  | cons c cs ih =>
    intro st st' h
    simp only [resolveFrom] at h
    split_ifs at h
    exact ih h

theorem resolveFrom_isSome (cs : List (List UInt8)) : ∀ {st : List (List UInt8)},
    (render st).length < pathMax →
    ((resolveFrom st cs).isSome ↔
      ∀ ds, ds <+: cs → (render (ds.foldl visit st)).length < pathMax) := by
  induction cs with
  | nil =>
    intro st hst
    simp [resolveFrom, hst]
  | cons c cs ih =>
    intro st hst
    simp only [resolveFrom]
    split_ifs with hc
    · rw [ih hc]
      constructor
      · intro h ds hds
        rcases List.prefix_cons_iff.mp hds with rfl | ⟨t, rfl, ht⟩
        · exact hst
        · exact h t ht
      · intro h ds hds
        exact h (c :: ds) ((List.prefix_cons_inj c).mpr hds)
    · refine ⟨fun h => absurd h (by simp), fun h => absurd (h [c] ?_) hc⟩
      exact List.prefix_cons_iff.mpr (.inr ⟨[], rfl, List.nil_prefix⟩)

theorem resolveFrom_cons_nil (h : (render st).length < pathMax)
    (cs : List (List UInt8)) : resolveFrom st ([] :: cs) = resolveFrom st cs := by
  simp [resolveFrom, h]

theorem resolveFrom_dropWhile (h : (render st).length < pathMax)
    (p : List UInt8) :
    resolveFrom st (components (p.dropWhile (· == slash))) = resolveFrom st (components p) := by
  induction p with
  | nil => rfl
  | cons c p ih =>
    by_cases hc : c = slash
    · subst hc
      rw [dropWhile_cons_of_pos (by simp), ih, components_cons_slash, resolveFrom_cons_nil h]
    · rw [dropWhile_cons_of_neg (by simpa using hc)]

theorem resolveFrom_segment (seg rest : List UInt8) (hs : slash ∉ seg)
    (hrest : rest = [] ∨ rest.head? = some slash) :
    resolveFrom st (components (seg ++ rest)) = resolveFrom st (seg :: components rest) := by
  rcases hrest with rfl | hhead
  · rw [append_nil, components_of_not_mem hs, show components [] = [[]] from rfl]
    simp only [resolveFrom, visit_nil]
    split_ifs <;> rfl
  · obtain ⟨t, rfl⟩ : ∃ t, rest = slash :: t := by
      cases rest with
      | nil => simp at hhead
      | cons a t => exact ⟨t, by rw [Option.some.inj hhead]⟩
    rw [components_append_slash, components_of_not_mem hs, components_cons_slash]
    simp only [cons_append, resolveFrom, visit_nil]
    split_ifs <;> rfl

/-! ### The buffer -/

structure Buf.Shows (b : Buf) (st : List (List UInt8)) : Prop where
  text : bytes b.mem 0 b.len = render st
  stop : b.mem b.len = 0
  short : b.len < pathMax
  plain : ∀ c ∈ st, Plain c

namespace Buf.Shows

variable {b : Buf}

theorem len_eq (h : b.Shows st) : b.len = (render st).length := by
  rw [← h.text, bytes_length]

theorem one_lt (h : b.Shows st) : 1 < b.len ↔ st ≠ [] := by
  rw [h.len_eq, one_lt_render h.plain]

theorem render_short (h : b.Shows st) : (render st).length < pathMax := h.len_eq ▸ h.short

end Buf.Shows

theorem rootBuf_shows (m : Mem) : (rootBuf m).Shows [] := by
  refine ⟨?_, by simp [rootBuf], by simp [rootBuf, pathMax_eq], by simp⟩
  simp [rootBuf, bytes, render]

theorem push_bytes (b : Buf) (c : UInt8) (h : b.len + 1 < 2 ^ 32) : (b.push c).len = b.len + 1 ∧
      bytes (b.push c).mem 0 (b.len + 1) = bytes b.mem 0 b.len ++ [c] := by
  refine ⟨u32_of_lt h, ?_⟩
  have hold : bytes (update b.mem b.len c) 0 b.len = bytes b.mem 0 b.len := by
    refine map_congr_left fun i hi => ?_
    have hi : i < b.len := mem_range.mp hi
    exact update_of_ne (by omega) _ _
  rw [bytes_add, Buf.push, hold]
  simp [bytes]

theorem foldl_push (seg : List UInt8) : ∀ b : Buf, b.len + seg.length < 2 ^ 32 →
    (seg.foldl Buf.push b).len = b.len + seg.length ∧
      bytes (seg.foldl Buf.push b).mem 0 (b.len + seg.length) = bytes b.mem 0 b.len ++ seg := by
  induction seg with
  | nil => intro b _; simp
  | cons c seg ih =>
    intro b hb
    rw [length_cons] at hb ⊢
    obtain ⟨hlen, htext⟩ := push_bytes b c (by omega)
    obtain ⟨hlen', htext'⟩ := ih (b.push c) (by omega)
    rw [hlen] at hlen' htext'
    rw [htext] at htext'
    refine ⟨by rw [foldl_cons]; omega, ?_⟩
    rw [foldl_cons, show b.len + (seg.length + 1) = b.len + 1 + seg.length by omega, htext']
    simp

theorem close_bytes (b : Buf) : bytes b.close.mem 0 b.len = bytes b.mem 0 b.len := by
  refine map_congr_left fun i hi => ?_
  have hi : i < b.len := mem_range.mp hi
  exact update_of_ne (by omega) _ _

theorem close_stop (b : Buf) : b.close.mem b.len = 0 := by simp [Buf.close]

section

variable {b : Buf} {seg : List UInt8}

theorem need_eq (h : b.Shows st) (hn : b.len + seg.length + 1 < 2 ^ 32) :
    u32 (u32 (b.len + if 1 < b.len then 1 else 0) + seg.length) =
      (render (st ++ [seg])).length := by
  have hlen := h.len_eq
  rw [render_concat]
  by_cases hst : st = []
  · have h1 : ¬ 1 < b.len := by rw [h.one_lt]; simp [hst]
    rw [hst] at hlen
    simp only [hst, h1, if_true, if_false, nil_append, length_cons]
    rw [render_nil, length_singleton] at hlen
    rw [add_zero, u32_of_lt (show b.len < 2 ^ 32 by omega), u32_of_lt (by omega)]
    omega
  · have h1 : 1 < b.len := h.one_lt.mpr hst
    simp only [hst, h1, if_true, if_false, length_append, length_cons]
    rw [u32_of_lt (show b.len + 1 < 2 ^ 32 by omega), u32_of_lt (by omega)]
    omega

theorem appendSegment_shows (h : b.Shows st) (hp : Plain seg)
    (hn : seg.length + pathMax < 2 ^ 32) :
    (∃ b', (render (st ++ [seg])).length < pathMax ∧ pathAppendSegment b seg = .ok b' ∧
      b'.Shows (st ++ [seg])) ∨
    ¬ (render (st ++ [seg])).length < pathMax ∧ pathAppendSegment b seg = .error .nameTooLong := by
  have hshort := h.short
  unfold pathAppendSegment
  rw [if_neg (by simpa using hp.ne_nil), need_eq h (by omega)]
  by_cases hlt : (render (st ++ [seg])).length < pathMax
  · refine .inl ⟨_, hlt, if_neg (by omega), ?_⟩
    set b₁ := if 1 < b.len then b.push slash else b with hb1
    have hb : b₁.len ≤ b.len + 1 ∧ bytes b₁.mem 0 b₁.len ++ seg = render (st ++ [seg]) := by
      rw [render_concat]
      by_cases hst : st = []
      · rw [hb1, if_neg (by rw [h.one_lt]; simp [hst]), h.text, hst]
        exact ⟨by omega, rfl⟩
      · obtain ⟨hl, ht⟩ := push_bytes b slash (by omega)
        rw [hb1, if_pos (h.one_lt.mpr hst), hl, ht, h.text, if_neg hst]
        exact ⟨le_rfl, by simp⟩
    obtain ⟨hl, ht⟩ := foldl_push seg b₁ (by omega)
    rw [hb.2] at ht
    have hlen : (seg.foldl Buf.push b₁).len = (render (st ++ [seg])).length := by
      rw [← ht, bytes_length, hl]
    refine ⟨?_, close_stop _, hlen ▸ hlt, ?_⟩
    · exact (close_bytes _).trans (by rw [hl, ht])
    · intro c hc
      rcases mem_append.mp hc with hc | hc
      · exact h.plain c hc
      · rw [mem_singleton.mp hc]
        exact hp
  · exact .inr ⟨hlt, if_pos (by omega)⟩

theorem backUp_eq {m : Mem} {k : ℕ} (hk : 0 < k) (hm : m (k - 1) = slash) :
    ∀ n, (∀ i, k ≤ i → i < k + n → m i ≠ slash) → backUp m (k + n) = k
  | 0, _ => by
    obtain ⟨k, rfl⟩ := Nat.exists_eq_add_of_lt hk
    simp only [zero_add, Nat.add_sub_cancel] at hm ⊢
    simp [backUp, hm]
  | n + 1, h => by
    have hne := h (k + n) (by omega) (by omega)
    rw [← add_assoc, backUp, if_pos ⟨by omega, hne⟩]
    exact backUp_eq hk hm n fun i h1 h2 => h i h1 (by omega)

theorem popSegment_shows (h : b.Shows st) : (pathPopSegment b).Shows st.dropLast := by
  rcases eq_nil_or_concat' st with rfl | ⟨st, c, rfl⟩
  · rw [pathPopSegment, if_pos (by rw [h.len_eq, render_nil]; simp)]
    exact rootBuf_shows b.mem
  have hlen := h.len_eq
  have hshort := h.short
  have hc : Plain c := h.plain c (by simp)
  have hrest : ∀ d ∈ st, Plain d := fun d hd => h.plain d (by simp [hd])
  have htext := h.text
  rw [render_concat] at htext hlen
  set pre : List UInt8 := if st = [] then [] else render st with hpre
  -- the bytes of the buffer are those of the text
  have hbyte : ∀ i, i < b.len → (pre ++ slash :: c)[i]? = some (b.mem i) := by
    intro i hi
    rw [← htext]
    simp [bytes, hi]
  simp only [length_append, length_cons] at hlen
  have hslash : b.mem pre.length = slash := by
    have hat := hbyte pre.length (by omega)
    simpa using hat.symm
  have hback : backUp b.mem b.len = pre.length + 1 := by
    rw [show b.len = pre.length + 1 + c.length by omega]
    refine backUp_eq (Nat.succ_pos _) hslash c.length fun i h1 h2 heq => hc.no_slash ?_
    have hat := hbyte i (by omega)
    rw [List.getElem?_append_right (by omega),
      show i - pre.length = i - pre.length - 1 + 1 by omega, heq] at hat
    exact mem_of_getElem? hat
  have hpos : 0 < c.length := length_pos_iff.mpr hc.ne_nil
  have hpretext : bytes b.mem 0 pre.length = pre := by
    rw [← bytes_take b.mem 0 (show pre.length ≤ b.len by omega), htext]
    simp
  rw [dropLast_concat, pathPopSegment, if_neg (by omega)]
  simp only [hback, Nat.add_sub_cancel]
  by_cases hst : st = []
  · -- below the only component is the root
    rw [if_pos hst] at hpre
    simp only [hpre]
    rw [hpre] at hslash
    refine ⟨(close_bytes ⟨b.mem, 1⟩).trans ?_, close_stop ⟨b.mem, 1⟩, ?_, hrest⟩
    · simpa [bytes, hst, render] using hslash
    · exact lt_of_le_of_lt (show 1 ≤ b.len by omega) hshort
  · have hgt : 1 < pre.length := by
      rw [hpre, if_neg hst]
      exact (one_lt_render hrest).mpr hst
    rw [if_pos (by omega)]
    refine ⟨(close_bytes ⟨b.mem, _⟩).trans ?_, close_stop ⟨b.mem, _⟩, ?_, hrest⟩
    · rw [hpretext, hpre, if_neg hst]
    · exact lt_of_le_of_lt (show pre.length ≤ b.len by omega) hshort

end

/-! ### The loop -/

theorem segment_cases {q : List UInt8} (hq : q ≠ []) (hhead : q.head? ≠ some slash) :
    let seg := q.takeWhile (· != slash)
    let rest := q.drop seg.length
    q = seg ++ rest ∧ slash ∉ seg ∧ seg ≠ [] ∧ rest.length < q.length ∧
      (rest = [] ∨ rest.head? = some slash) := by
  intro seg rest
  have happ : seg ++ rest = q := List.prefix_iff_eq_append.mp (List.takeWhile_prefix _)
  have hrest : rest = q.dropWhile (· != slash) := by
    have hsplit := takeWhile_append_dropWhile (p := (· != slash)) (l := q)
    exact (append_cancel_left (hsplit.trans happ.symm)).symm
  have hseg : seg ≠ [] := by
    cases q with
    | nil => exact absurd rfl hq
    | cons a q =>
      have ha : a ≠ slash := by simpa using hhead
      simp [seg, ha]
  refine ⟨happ.symm, ?_, hseg, ?_, ?_⟩
  · intro hmem
    have hall := all_takeWhile (p := (· != slash)) (l := q)
    simpa using all_eq_true.mp hall slash hmem
  · have hlen := congrArg List.length happ
    have hpos : 0 < seg.length := length_pos_iff.mpr hseg
    rw [length_append] at hlen
    omega
  · have hnot := List.head?_dropWhile_not (· != slash) q
    rw [← hrest] at hnot
    cases hr : rest with
    | nil => exact .inl rfl
    | cons a r =>
      rw [hr] at hnot
      exact .inr (by simpa using hnot)

theorem normalizeLoop_spec (fuel : ℕ) : ∀ {p : List UInt8} {b : Buf} {st : List (List UInt8)},
    p.length < fuel → p.length + pathMax < 2 ^ 32 → b.Shows st →
    (∃ st' b', resolveFrom st (components p) = some st' ∧
      normalizeLoop fuel p b = some (.ok b') ∧ b'.Shows st') ∨
    resolveFrom st (components p) = none ∧ normalizeLoop fuel p b = some (.error .nameTooLong) := by
  induction fuel with
  | zero => intro p b st hf; omega
  | succ fuel ih =>
    intro p b st hf hn hb
    rw [← resolveFrom_dropWhile hb.render_short p, normalizeLoop]
    have hle := (List.dropWhile_suffix (l := p) (· == slash)).length_le
    have hhead : (p.dropWhile (· == slash)).head? ≠ some slash := by
      intro heq
      have hnot := List.head?_dropWhile_not (· == slash) p
      rw [heq] at hnot
      simp at hnot
    generalize p.dropWhile (· == slash) = q at hle hhead ⊢
    simp only
    by_cases hq : q = []
    · subst hq
      exact .inl ⟨st, b, resolveFrom_cons_nil hb.render_short [], rfl, hb⟩
    obtain ⟨hsplit, hno, hne, hlt, hrest⟩ := segment_cases hq hhead
    have htake := (List.takeWhile_prefix (l := q) (· != slash)).length_le
    have hstep := @resolveFrom_segment st _ _ hno hrest
    rw [← hsplit] at hstep
    rw [hstep]
    split_ifs with hwrap hdot hdots
    · omega
    · rw [hdot] at hlt ⊢
      rw [resolveFrom, visit_dot, if_pos hb.render_short]
      exact ih (by omega) (by omega) hb
    · have hpop := popSegment_shows hb
      rw [hdots] at hlt ⊢
      rw [resolveFrom, visit_dots, if_pos hpop.render_short]
      exact ih (by omega) (by omega) hpop
    · have hplain : Plain (q.takeWhile (· != slash)) := ⟨hne, hdot, hdots, hno⟩
      rw [resolveFrom, visit_plain hplain]
      rcases appendSegment_shows hb hplain (by omega) with ⟨b', hshort, heq, hb'⟩ | ⟨hlong, heq⟩
      · rw [if_pos hshort, heq]
        exact ih (by omega) (by omega) hb'
      · rw [if_neg hlong, heq]
        exact .inr ⟨rfl, rfl⟩

/-! ### Normal forms -/

structure CString (m : Mem) (s : List UInt8) : Prop where
  text : bytes m 0 s.length = s
  stop : m s.length = 0
  no_zero : 0 ∉ s

def Short (s : List UInt8) : Prop := s.length + 2 * pathMax < 2 ^ 32

/-- The root, or slashes each followed by a component that is neither empty nor a dot or two. -/
def Canonical (s : List UInt8) : Prop :=
  s = [slash] ∨ ∃ st, st ≠ [] ∧ (∀ c ∈ st, Plain c) ∧ s = st.flatMap (slash :: ·)

theorem canonical_render (h : ∀ c ∈ st, Plain c) :
    Canonical (render st) := by
  by_cases hst : st = []
  · exact .inl (by rw [hst]; rfl)
  · exact .inr ⟨st, hst, h, render_of_ne hst⟩

theorem Canonical.getLast (h : Canonical s) (hs : s ≠ [slash]) : s.getLast? ≠ some slash := by
  rcases h with h | ⟨st, hne, hplain, rfl⟩
  · exact absurd h hs
  obtain ⟨st, c, rfl⟩ := (eq_nil_or_concat' st).resolve_left hne
  have hc := hplain c (by simp)
  intro hlast
  have hcl : c.getLast? = some slash := by
    obtain ⟨c', a, rfl⟩ := (eq_nil_or_concat' c).resolve_left hc.ne_nil
    rw [flatMap_append, flatMap_singleton, ← cons_append, ← append_assoc,
      List.getLast?_concat] at hlast
    rw [List.getLast?_concat, hlast]
  exact hc.no_slash (mem_of_getLast? hcl)

theorem mem_of_mem_components (hc : c ∈ components s) (hx : x ∈ c) : x ∈ s := by
  induction s generalizing c with
  | nil =>
    rw [show components [] = [[]] from rfl, mem_singleton] at hc
    rw [hc] at hx
    exact absurd hx not_mem_nil
  | cons a s ih =>
    have hcons := splitOn_cons_eq_if_modifyHead (a := slash) a s
    rw [components, hcons] at hc
    split_ifs at hc with ha
    · rcases mem_cons.mp hc with rfl | hc
      · exact absurd hx not_mem_nil
      · exact mem_cons_of_mem _ (ih hc hx)
    · cases hs : s.splitOn slash with
      | nil => exact absurd hs (splitOn_ne_nil _ _)
      | cons d ds =>
        rw [hs] at hc
        have hd : components s = d :: ds := hs
        rcases mem_cons.mp hc with rfl | hc
        · rcases mem_cons.mp hx with rfl | hx
          · exact mem_cons_self
          · exact mem_cons_of_mem _ (ih (hd ▸ mem_cons_self) hx)
        · exact mem_cons_of_mem _ (ih (hd ▸ mem_cons_of_mem _ hc) hx)

theorem mem_foldl_visit (cs : List (List UInt8)) :
    ∀ {st : List (List UInt8)}, c ∈ cs.foldl visit st → c ∈ st ∨ c ∈ cs := by
  induction cs with
  | nil => intro st h; exact .inl h
  | cons d cs ih =>
    intro st h
    rcases ih h with h | h
    · unfold visit at h
      split_ifs at h
      · exact .inl h
      · exact .inl (mem_of_mem_dropLast h)
      · rcases mem_append.mp h with h | h
        · exact .inl h
        · exact .inr (mem_singleton.mp h ▸ mem_cons_self)
    · exact .inr (mem_cons_of_mem _ h)

theorem mem_render_resolve (hx : x ∈ render (resolve (components s))) : x = slash ∨ x ∈ s := by
  unfold render at hx
  split_ifs at hx with hst
  · exact .inl (mem_singleton.mp hx)
  · obtain ⟨c, hc, hxc⟩ := mem_flatMap.mp hx
    rcases mem_cons.mp hxc with rfl | hxc
    · exact .inl rfl
    · rcases mem_foldl_visit _ hc with hc | hc
      · exact absurd hc not_mem_nil
      · exact .inr (mem_of_mem_components hc hxc)

theorem length_render_append (st st' : List (List UInt8)) :
    (render st).length ≤ (render (st ++ st')).length := by
  induction st' using List.reverseRecOn with
  | nil => simp
  | append_singleton st' c ih =>
    have hlast := length_render_dropLast (st ++ (st' ++ [c]))
    rw [← append_assoc, dropLast_concat, append_assoc] at hlast
    exact ih.trans hlast

theorem resolveFrom_flatMap : ∀ {st0 : List (List UInt8)},
    (∀ c ∈ st, Plain c) → (render (st0 ++ st)).length < pathMax →
    resolveFrom st0 (components (st.flatMap (slash :: ·))) = some (st0 ++ st) := by
  induction st with
  | nil =>
    intro st0 _ hn
    rw [append_nil] at hn ⊢
    exact resolveFrom_cons_nil hn []
  | cons c st ih =>
    intro st0 h hn
    have hc := h c mem_cons_self
    rw [append_cons] at hn ⊢
    have hrest := ih (fun d hd => h d (mem_cons_of_mem _ hd)) hn
    have hn1 := (length_render_append (st0 ++ [c]) st).trans_lt hn
    have hn0 := (length_render_append st0 [c]).trans_lt hn1
    rw [flatMap_cons, cons_append, components_cons_slash, resolveFrom_cons_nil hn0,
      resolveFrom_segment c _ hc.no_slash, resolveFrom, visit_plain hc, if_pos hn1, hrest]
    cases st with
    | nil => exact .inl rfl
    | cons d st => exact .inr rfl

theorem resolveFrom_render (h : ∀ c ∈ st, Plain c)
    (hn : (render st).length < pathMax) : resolveFrom [] (components (render st)) = some st := by
  by_cases hst : st = []
  · subst hst
    have hn0 : (render ([] : List (List UInt8))).length < pathMax := hn
    rw [render_nil, components_cons_slash, resolveFrom_cons_nil hn0]
    exact resolveFrom_cons_nil hn0 []
  · rw [render_of_ne hst]
    exact resolveFrom_flatMap h hn

/-! ### The call -/

section

variable {inp : List UInt8}

section

variable (hs : inp.head? = some slash) (hn : inp.length + pathMax < 2 ^ 32)
include hs hn

theorem pathNormalizeAbsolute_spec (out : Mem) :
    (∃ st b, resolveFrom [] (components inp) = some st ∧
      pathNormalizeAbsolute inp out = some (.ok b) ∧ b.Shows st) ∨
    resolveFrom [] (components inp) = none ∧
      pathNormalizeAbsolute inp out = some (.error .nameTooLong) := by
  rw [pathNormalizeAbsolute, if_neg (by simpa using hs)]
  exact normalizeLoop_spec _ (Nat.lt_succ_self _) hn (rootBuf_shows out)

theorem shows_of_ok
    {out : Mem} {b : Buf}
    (h : pathNormalizeAbsolute inp out = some (.ok b)) :
    b.Shows (resolve (components inp)) ∧
      resolveFrom [] (components inp) = some (resolve (components inp)) := by
  rcases pathNormalizeAbsolute_spec hs hn out with ⟨st, b', hr, heq, hb⟩ | ⟨-, heq⟩
  · rw [h] at heq
    cases heq
    have hst : st = resolve (components inp) := resolveFrom_eq_some hr
    rw [hst] at hb hr
    exact ⟨hb, hr⟩
  · rw [h] at heq
    cases heq

theorem ok_of_resolveFrom
    (out : Mem) (h : resolveFrom [] (components inp) = some st) :
    ∃ b, pathNormalizeAbsolute inp out = some (.ok b) ∧ b.Shows st := by
  rcases pathNormalizeAbsolute_spec hs hn out with ⟨st', b, hr, heq, hb⟩ | ⟨hr, -⟩
  · rw [h] at hr
    cases hr
    exact ⟨b, heq, hb⟩
  · rw [h] at hr
    cases hr

end

theorem Buf.Shows.cString {b : Buf} (h : b.Shows st)
    (hz : 0 ∉ render st) : CString b.mem (render st) :=
  ⟨by rw [← h.len_eq, h.text], by rw [← h.len_eq, h.stop], hz⟩

theorem zero_notMem_render (hz : 0 ∉ inp) : 0 ∉ render (resolve (components inp)) := by
  intro hmem
  rcases mem_render_resolve hmem with h | h
  · exact absurd h (by decide)
  · exact hz h

theorem head_render (st : List (List UInt8)) : (render st).head? = some slash := by
  cases st with
  | nil => rfl
  | cons c st => rfl

/-- **Path normalization is canonical.** The call returns; it succeeds iff the texts of all
stacks on the way are shorter than a path may be, and then the buffer holds the canonical text of
the resolved components. Normal forms are normal, and a tail may be added before or after the
normalization of what precedes it. -/
theorem normalize_canonical (hz : 0 ∉ inp) (hs : inp.head? = some slash) (hn : Short inp)
    (out : Mem) :
    (∃ r, pathNormalizeAbsolute inp out = some r) ∧
    ((∃ b, pathNormalizeAbsolute inp out = some (.ok b)) ↔
      ∀ cs, cs <+: components inp → (render (resolve cs)).length < pathMax) ∧
    ∀ b, pathNormalizeAbsolute inp out = some (.ok b) → let nf := render (resolve (components inp))
      CString b.mem nf ∧ Canonical nf ∧ (nf ≠ [slash] → nf.getLast? ≠ some slash) ∧
      (∀ out', ∃ b', pathNormalizeAbsolute nf out' = some (.ok b') ∧ CString b'.mem nf) ∧
      ∀ t, 0 ∉ t → Short (inp ++ slash :: t) → ∀ out₁ b₁ out₂ b₂,
        pathNormalizeAbsolute (inp ++ slash :: t) out₁ = some (.ok b₁) →
        pathNormalizeAbsolute (nf ++ slash :: t) out₂ = some (.ok b₂) →
        ∃ s, CString b₁.mem s ∧ CString b₂.mem s := by
  have hroot : (render []).length < pathMax := by rw [pathMax_eq]; decide
  have hmax := pathMax_eq
  have hn : inp.length + pathMax < 2 ^ 32 := lt_of_le_of_lt (by omega) hn
  refine ⟨?_, ?_, fun b hb => ?_⟩
  · rcases pathNormalizeAbsolute_spec hs hn out with ⟨_, b, _, heq, _⟩ | ⟨_, heq⟩
    · exact ⟨_, heq⟩
    · exact ⟨_, heq⟩
  · refine Iff.trans ?_ (resolveFrom_isSome (components inp) hroot)
    constructor
    · rintro ⟨b, hb⟩
      rw [(shows_of_ok hs hn hb).2]
      rfl
    · intro h
      obtain ⟨st, hst⟩ := Option.isSome_iff_exists.mp h
      obtain ⟨b, hb, -⟩ := ok_of_resolveFrom hs hn out hst
      exact ⟨b, hb⟩
  obtain ⟨hshow, hres⟩ := shows_of_ok hs hn hb
  have hzn := zero_notMem_render hz
  have hnf := resolveFrom_render hshow.plain hshow.render_short
  have hcan := canonical_render hshow.plain
  refine ⟨hshow.cString hzn, hcan, hcan.getLast, fun out' => ?_, ?_⟩
  · obtain ⟨b', hb', hshow'⟩ :=
      ok_of_resolveFrom (head_render _) (lt_of_lt_of_le
        (Nat.add_lt_add_right hshow.render_short pathMax) (by omega)) out' hnf
    exact ⟨b', hb', hshow'.cString hzn⟩
  · intro t ht hnt out₁ b₁ out₂ b₂ h1 h2
    have hs1 : (inp ++ slash :: t).head? = some slash := by
      rw [List.head?_append, hs]
      rfl
    have hs2 : (render (resolve (components inp)) ++ slash :: t).head? = some slash := by
      rw [List.head?_append, head_render]
      rfl
    have hlen := hshow.render_short
    unfold Short at hnt
    have hn2 : (render (resolve (components inp)) ++ slash :: t).length + pathMax < 2 ^ 32 := by
      simp only [length_append] at hnt ⊢
      omega
    obtain ⟨hshow₁, -⟩ := shows_of_ok hs1 (by omega) h1
    obtain ⟨hshow₂, -⟩ := shows_of_ok hs2 hn2 h2
    -- both fold the tail from the stack of what precedes it
    have hsame : resolve (components (render (resolve (components inp)) ++ slash :: t)) =
        resolve (components (inp ++ slash :: t)) := by
      simp only [components_append_slash, resolve, foldl_append]
      congr 1
      exact (resolveFrom_eq_some hnf).symm
    rw [hsame] at hshow₂
    have hz1 : 0 ∉ render (resolve (components (inp ++ slash :: t))) := by
      refine zero_notMem_render fun hmem => ?_
      rcases mem_append.mp hmem with h | h
      · exact hz h
      · rcases mem_cons.mp h with h | h
        · exact absurd h (by decide)
        · exact ht h
    exact ⟨_, hshow₁.cString hz1, hshow₂.cString hz1⟩

end

theorem normalize_canonical_parent :
    ∃ b, pathNormalizeAbsolute [47, 97, 47, 46, 46, 47, 98] (fun _ => 0) = some (.ok b) ∧
      CString b.mem [47, 98] := by
  have h := @normalize_canonical [47, 97, 47, 46, 46, 47, 98] (by decide) rfl
    (by simp [Short, pathMax_eq]) (fun _ => 0)
  obtain ⟨b, hb⟩ := h.2.1.mpr (by
    intro cs hcs
    rw [← mem_inits] at hcs
    rw [pathMax_eq]
    revert cs
    decide)
  exact ⟨b, hb, (h.2.2 b hb).1⟩

theorem takeWhile_replicate {c : UInt8} (hc : c ≠ slash) :
    (List.replicate n c).takeWhile (· != slash) = List.replicate n c := by
  induction n with
  | zero => rfl
  | succ n ih => rw [replicate_succ, takeWhile_cons_of_pos (by simpa using hc), ih]

theorem dropWhile_replicate {c : UInt8} (hc : c ≠ slash) :
    (slash :: List.replicate n c).dropWhile (· == slash) = List.replicate n c := by
  rw [dropWhile_cons_of_pos (by simp)]
  cases n with
  | zero => rfl
  | succ n => rw [replicate_succ, dropWhile_cons_of_neg (by simpa using hc)]

theorem long_component (hn : n + 1 = 2 ^ 32) (out : Mem) :
    ∃ b, pathNormalizeAbsolute (slash :: List.replicate n 97) out = some (.ok b) := by
  have hc : (97 : UInt8) ≠ slash := by decide
  have hlen : 2 < (List.replicate n (97 : UInt8)).length := by
    rw [length_replicate]
    omega
  have hne : List.replicate n (97 : UInt8) ≠ [] := ne_nil_of_length_pos (by omega)
  have happend : ∃ b, pathAppendSegment (rootBuf out) (List.replicate n 97) = .ok b := by
    refine ⟨_, (if_neg (by omega)).trans (if_neg ?_)⟩
    rw [length_replicate, pathMax_eq, show (rootBuf out).len = 1 from rfl, if_neg (by omega),
      show u32 (1 + 0) = 1 from rfl, add_comm 1 n, hn]
    decide
  obtain ⟨b, hb⟩ := happend
  refine ⟨b, ?_⟩
  rw [pathNormalizeAbsolute, if_neg (by simp), normalizeLoop]
  simp only [dropWhile_replicate hc, takeWhile_replicate hc, hb]
  rw [if_neg hne, if_neg (by rw [length_replicate]; omega), if_neg, if_neg,
    drop_eq_nil_of_le le_rfl]
  · rfl
  · intro heq
    rw [heq] at hlen
    simp at hlen
  · intro heq
    rw [heq] at hlen
    simp at hlen

/-- A component of `2^32 - 1` bytes passes the length check. -/
theorem four_gigabytes :
    (∃ b, pathNormalizeAbsolute (slash :: List.replicate (2 ^ 32 - 1) 97) (fun _ => 0) =
      some (.ok b)) ∧
    ¬ (render (resolve (components (slash :: List.replicate (2 ^ 32 - 1) 97)))).length <
      pathMax := by
  generalize hn : 2 ^ 32 - 1 = n
  have hn : n + 1 = 2 ^ 32 := by omega
  refine ⟨long_component hn _, ?_⟩
  have hplain : Plain (List.replicate n (97 : UInt8)) := by
    refine ⟨?_, ?_, ?_, fun hmem => absurd (eq_of_mem_replicate hmem) (by decide)⟩ <;>
    · intro heq
      have hlen := congrArg List.length heq
      simp only [length_replicate, length_cons, length_nil] at hlen
      omega
  rw [components_cons_slash, components_of_not_mem hplain.no_slash, resolve, foldl_cons,
    visit_nil, foldl_cons, foldl_nil, visit_plain hplain, nil_append,
    render_of_ne (cons_ne_nil _ _), flatMap_singleton, length_cons,
    length_replicate, pathMax_eq]
  omega

end TaterTOS.Path
