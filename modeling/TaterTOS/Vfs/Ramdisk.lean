import TaterTOS.Lib.Memory
import TaterTOS.Lib.Text
import TaterTOS.Lib.Word

/-!
# The ramdisk

The packed files of the boot image as a file system. A directory is implied by the names of the
files below it.

* `rdRead`: what remains of a file is a difference in 64 bits, which is large behind its end;
* `rdReaddir`: 32 of the names that were reported are remembered;
* **`packed_files_exposed`**: what is read of a file, and which directories are listed as they are.
-/

namespace TaterTOS.Ramdisk

open Lib List

/-! ### Names -/

abbrev slash : UInt8 := 47

def rdUpper (c : UInt8) : UInt8 := if 97 ≤ c ∧ c ≤ 122 then c - 32 else c

def rdNameeq : Text → Text → Bool
  | a :: s, b :: t => rdUpper a == rdUpper b && rdNameeq s t
  | [], [] => true
  | [], _ :: _ => false
  | _ :: _, [] => false

def component (s : Text) : Text := s.takeWhile (· != slash)

def rdPrefixDirMatch : Text → Text → Bool
  | c :: entry, k :: dir => rdUpper c == rdUpper k && rdPrefixDirMatch entry dir
  | [], _ :: _ => false
  | entry, [] => entry.head? == some slash

def strip (path : Text) : Text := path.dropWhile (· == slash)

/-! ### Images -/

/-- `struct ramdisk_entry`; `name` is the C string that starts in its field of 32 bytes. -/
structure Entry where
  name : Text
  offset : ℕ
  size : ℕ

structure Image where
  base : ℕ
  size : ℕ
  mem : Mem
  magic : ℕ
  count : ℕ
  entries : ℕ → Entry
  in_memory : base + size ≤ 2 ^ 64

def Image.files (d : Image) : List Entry := (range d.count).map d.entries

def headerSize : ℕ := 8 + 256 * 48

def rdHeaderValid (d : Image) : Bool :=
  decide (d.base ≠ 0 ∧ headerSize ≤ d.size ∧ d.magic = 0x4B534452 ∧ d.count ≠ 0 ∧ d.count ≤ 256 ∧
    ∀ i < d.count, (d.entries i).name ≠ [] ∧ headerSize ≤ (d.entries i).offset ∧
      (d.entries i).offset ≤ d.size ∧ (d.entries i).size ≤ d.size - (d.entries i).offset)

/-! ### Open files -/

structure FileState where
  entryIdx : ℕ
  pos : ℕ
deriving DecidableEq

def Image.opened (d : Image) (s : FileState) : Entry := d.entries s.entryIdx

def rdOpen (d : Image) (path : Text) : Option FileState :=
  ((range d.count).find? fun i =>
    rdNameeq (d.entries i).name (strip path)).map fun i => ⟨i, 0⟩

/-- The answer, the bytes and the position; the answer is an `int`. -/
def rdRead (d : Image) (s : FileState) (len : ℕ) : ℤ × List UInt8 × FileState :=
  let remaining := sub64 (d.opened s).size s.pos
  if remaining = 0 then (0, [], s)
  else
    let n := if remaining < len then u32 remaining else len
    ((n : ℤ).bmod (2 ^ 32), bytes d.mem (u64 (d.base + (d.opened s).offset + s.pos)) n,
      { s with pos := u64 (s.pos + n) })

def newPos (d : Image) (s : FileState) (offset : ℤ) : ℤ → Option ℤ
  | 0 => some offset
  | 1 => some ((s.pos + offset).bmod (2 ^ 64))
  | 2 => some (((d.opened s).size + offset).bmod (2 ^ 64))
  | _ => none

def rdSeek (d : Image) (s : FileState) (offset whence : ℤ) : ℤ × FileState :=
  if d.count ≤ s.entryIdx then (-1, s)
  else match newPos d s offset whence with
    | none => (-1, s)
    | some p => if p < 0 then (-1, s) else (p, { s with pos := p.toNat })

/-- The states of a file after any seeks and reads; seeks that end behind the file are left out. -/
inductive Reached (d : Image) : FileState → Prop
  | opened {path : Text} {s : FileState} : rdOpen d path = some s → Reached d s
  | seek {s : FileState} (offset whence : ℤ) : Reached d s →
    (rdSeek d s offset whence).2.pos ≤ (d.opened s).size → Reached d (rdSeek d s offset whence).2
  | read {s : FileState} {len : ℕ} : Reached d s → len < 2 ^ 32 → Reached d (rdRead d s len).2.2

/-! ### Directories -/

structure Item where
  name : Text
  size : ℕ
  attr : ℕ

def remainder (path name : Text) : Option Text :=
  if path = [] then some name
  else if rdPrefixDirMatch name path then some (name.drop (path.length + 1)) else none

def rdEntryDirAttr (r : Text) (fileSize : ℕ) : Option Item :=
  if component r = [] ∨ 2 ^ 31 ≤ (component r).length then none
  else if (component r).length < r.length then some ⟨component r, 0, 0x10⟩
  else some ⟨component r, fileSize, 0x20⟩

def item (path : Text) (e : Entry) : Option Item :=
  (remainder path e.name).bind (rdEntryDirAttr · e.size)

/-- `struct rd_readdir_ctx`, with what was reported. -/
structure Ctx where
  seen : List Text := []
  matched : Bool := false
  out : List Item := []

def Ctx.report (rc : Ctx) (a : Item) : Ctx where
  seen := if rc.seen.length < 32 then rc.seen ++ [a.name] else rc.seen
  matched := true
  out := rc.out ++ [a]

/-- The loop; `stop` is what the callback answers after these reports. -/
def readdirLoop (stop : List Item → Bool) (path : Text) : List Entry → Ctx → ℤ × List Item
  | [], rc => (if path ≠ [] ∧ rc.matched = false then -1 else 0, rc.out)
  | e :: es, rc =>
    match item path e with
    | none => readdirLoop stop path es rc
    | some a =>
      if 32 < a.name.length + 1 ∨ rc.seen.any (rdNameeq · a.name) then
        readdirLoop stop path es { rc with matched := true }
      else if stop (rc.report a).out then (0, (rc.report a).out)
      else readdirLoop stop path es (rc.report a)

def rdReaddir (d : Image) (stop : List Item → Bool) (path : Text) : ℤ × List Item :=
  readdirLoop stop (strip path) d.files {}

/-! ### Reading -/

variable {d : Image} {s : FileState} {path : Text}

structure FileState.Ok (d : Image) (s : FileState) : Prop where
  idx_lt : s.entryIdx < d.count
  pos_le : s.pos ≤ (d.opened s).size

def exactRead (d : Image) (s : FileState) (len : ℕ) : ℤ × List UInt8 × FileState :=
  let n := min (s.pos + len) (d.opened s).size - s.pos
  ((n : ℤ).bmod (2 ^ 32), bytes d.mem (d.base + (d.opened s).offset + s.pos) n,
    { s with pos := s.pos + n })

theorem rdRead_eq (hvalid : rdHeaderValid d = true) (hs : s.Ok d) {len : ℕ} (hlen : len < 2 ^ 32) :
    rdRead d s len = exactRead d s len := by
  obtain ⟨hbase, -, -, -, -, hall⟩ := of_decide_eq_true hvalid
  obtain ⟨-, -, hoff, hsize⟩ := hall _ hs.idx_lt
  have hmem := d.in_memory
  have hpos := hs.pos_le
  unfold Image.opened at hpos
  unfold rdRead exactRead Image.opened
  dsimp only
  generalize d.entries s.entryIdx = e at *
  rw [sub64_of_le hpos (by omega)]
  split_ifs with hrest hshort
  · have hn : min (s.pos + len) e.size - s.pos = 0 := by omega
    simp [hn]
  · have hn : min (s.pos + len) e.size - s.pos = e.size - s.pos := by omega
    rw [hn, u32_of_lt (by omega), u64_of_lt (by omega), u64_of_lt (by omega)]
  · have hn : min (s.pos + len) e.size - s.pos = len := by omega
    rw [hn, u64_of_lt (by omega), u64_of_lt (by omega)]

theorem rdSeek_entryIdx (offset whence : ℤ) :
    (rdSeek d s offset whence).2.entryIdx = s.entryIdx := by
  unfold rdSeek
  repeat' split
  all_goals rfl

theorem Reached.ok (hvalid : rdHeaderValid d = true) (h : Reached d s) : s.Ok d := by
  induction h with
  | opened h =>
    obtain ⟨i, hi, rfl⟩ := Option.map_eq_some_iff.mp h
    exact ⟨mem_range.mp (mem_of_find?_eq_some hi), Nat.zero_le _⟩
  | @seek s offset whence _ hpos ih =>
    have hidx := @rdSeek_entryIdx d s offset whence
    refine ⟨by simpa [hidx] using ih.idx_lt, ?_⟩
    simpa [Image.opened, hidx] using hpos
  | @read s len _ hlen ih =>
    rw [rdRead_eq hvalid ih hlen]
    refine ⟨ih.idx_lt, ?_⟩
    have := ih.pos_le
    show s.pos + (min (s.pos + len) (d.opened s).size - s.pos) ≤ (d.opened s).size
    omega

/-! ### Listing -/

/-- The name without the case of its letters. -/
abbrev fold (s : Text) : Text := s.map rdUpper

theorem rdNameeq_iff {s t : Text} : rdNameeq s t = true ↔ fold s = fold t := by
  induction s generalizing t with
  | nil => cases t <;> simp [rdNameeq]
  | cons a s ih => cases t <;> simp [rdNameeq, ih]

def Distinct (a b : Item) : Prop := fold a.name ≠ fold b.name

/-- `r` follows the directory in the name; the case of letters does not matter. -/
def Under (path name r : Text) : Prop :=
  path = [] ∧ r = name ∨
    path ≠ [] ∧ ∃ dir, name = dir ++ slash :: r ∧ fold dir = fold path

theorem rdPrefixDirMatch_iff {name r : Text} :
    rdPrefixDirMatch name path = true ∧ name.drop (path.length + 1) = r ↔
      ∃ dir, name = dir ++ slash :: r ∧ fold dir = fold path := by
  induction path generalizing name with
  | nil => cases name <;> simp [rdPrefixDirMatch]
  | cons k path ih =>
    cases name with
    | nil => simp [rdPrefixDirMatch]
    | cons c name =>
      have hsplit : (∃ dir, c :: name = dir ++ slash :: r ∧ fold dir = fold (k :: path)) ↔
          rdUpper c = rdUpper k ∧
            ∃ dir, name = dir ++ slash :: r ∧ fold dir = fold path := by
        constructor
        · rintro ⟨_ | ⟨b, dir⟩, heq, hup⟩
          · cases hup
          · simp only [cons_append, cons.injEq, map_cons] at heq hup
            exact ⟨heq.1 ▸ hup.1, dir, heq.2, hup.2⟩
        · rintro ⟨hc, dir, rfl, hup⟩
          exact ⟨c :: dir, rfl, by simp [hc, hup]⟩
      rw [hsplit, ← ih]
      simp [rdPrefixDirMatch, and_assoc]

theorem remainder_iff {name r : Text} : remainder path name = some r ↔ Under path name r := by
  unfold remainder Under
  by_cases hpath : path = []
  · simp [hpath, eq_comm]
  · simp [hpath, ← rdPrefixDirMatch_iff]

def Below (d : Image) (path r : Text) : Prop := ∃ e ∈ d.files, Under path e.name r

structure Lists (d : Image) (path : Text) (items : List Item) : Prop where
  once : items.Pairwise Distinct
  sound : ∀ a ∈ items, ∃ r, Below d path r ∧ a.name = component r ∧ a.name ≠ []
  complete : ∀ r, Below d path r → component r ≠ [] →
    ∃ a ∈ items, fold a.name = fold (component r)
  isDir : ∀ a ∈ items, a.attr = 0x10 ↔ ∃ r, Below d path r ∧
    fold (component r) = fold a.name ∧ (component r).length < r.length

/-- The components that follow the directory in the names of the files, in their order, without the
case of letters and with whether the name goes on behind them. -/
def Image.names (d : Image) (path : Text) : List (Text × Bool) :=
  d.files.filterMap fun e => (remainder path e.name).bind fun r =>
    if component r = [] then none
    else some (fold (component r), decide ((component r).length < r.length))

/-- A component that is met for the first time is not met again if 32 others were met before, and is
a directory if it is one later. -/
def Kept (before : List Text) : List (Text × Bool) → Prop
  | [] => True
  | n :: ns => (n.1 ∉ before → (32 ≤ before.toFinset.card → n.1 ∉ ns.map Prod.fst) ∧
      ((n.1, true) ∈ ns → n.2 = true)) ∧ Kept (n.1 :: before) ns

structure Tidy (d : Image) (path : Text) : Prop where
  short : ∀ n ∈ d.names path, n.1.length < 32
  kept : Kept [] (d.names path)

theorem item_some {e : Entry} {a : Item} (h : item path e = some a) : ∃ r, Under path e.name r ∧
    a.name = component r ∧ a.name ≠ [] ∧ (a.attr = 0x10 ↔ (component r).length < r.length) := by
  obtain ⟨r, hr, ha⟩ := Option.bind_eq_some_iff.mp h
  refine ⟨r, remainder_iff.mp hr, ?_⟩
  unfold rdEntryDirAttr at ha
  split_ifs at ha with hno hdir
  all_goals
    obtain rfl := Option.some.inj ha
    simp_all

/-! ### The reports -/

def Item.mark (a : Item) : Text × Bool := (fold a.name, decide (a.attr = 0x10))

/-- What the loop reports of these items when it remembers the names `seen`. -/
def reports (seen : List Text) : List Item → List Item
  | [] => []
  | a :: as =>
    if 32 < a.name.length + 1 ∨ seen.any (rdNameeq · a.name) then reports seen as
    else a :: reports (if seen.length < 32 then seen ++ [a.name] else seen) as

theorem readdirLoop_eq (es : List Entry) : ∀ rc : Ctx, (readdirLoop (fun _ => false) path es rc).2 =
    rc.out ++ reports rc.seen (es.filterMap (item path)) := by
  induction es with
  | nil => exact fun rc => (append_nil _).symm
  | cons e es ih =>
    intro rc
    rw [readdirLoop, filterMap_cons]
    cases item path e with
    | none => exact ih rc
    | some a =>
      dsimp only
      rw [reports, if_neg Bool.false_ne_true]
      split_ifs with hskip hroom
      · exact ih _
      all_goals
        rw [ih, Ctx.report, append_assoc]
        simp only [hroom, if_true, if_false]
        rfl

section

variable {seen : List Text} {as : List Item} {a : Item}

theorem any_iff : seen.any (rdNameeq · a.name) = true ↔ a.mark.1 ∈ seen.map fold := by
  simp [Item.mark, rdNameeq_iff]

theorem of_mem_reports : ∀ {seen as}, a ∈ reports seen as →
    a ∈ as ∧ a.name.length < 32 ∧ a.mark.1 ∉ seen.map fold := by
  intro seen as
  induction as generalizing seen with
  | nil => exact nofun
  | cons b as ih =>
    intro ha
    rw [reports] at ha
    split_ifs at ha with hskip hroom
    · exact (ih ha).imp_left (.tail _)
    all_goals
      rcases mem_cons.mp ha with rfl | ha
      · exact ⟨.head _, by omega, fun h => hskip (.inr (any_iff.mpr h))⟩
      · obtain ⟨hmem, hlt, hnot⟩ := ih ha
        exact ⟨.tail _ hmem, hlt, fun h => hnot (by simp_all)⟩

theorem mem_reports_or (hshort : ∀ a ∈ as, a.name.length < 32) : ∀ {seen}, a ∈ as →
    a.mark.1 ∈ seen.map fold ∨ ∃ b ∈ reports seen as, b.mark.1 = a.mark.1 := by
  induction as with
  | nil => exact nofun
  | cons b as ih =>
    intro seen ha
    have ih := @ih fun x hx => hshort x (.tail _ hx)
    rw [reports]
    by_cases hskip : 32 < b.name.length + 1 ∨ seen.any (rdNameeq · b.name) = true
    · rw [if_pos hskip]
      rcases mem_cons.mp ha with rfl | ha
      · exact .inl (any_iff.mp (hskip.resolve_left (by have := hshort a (.head _); omega)))
      · exact ih ha
    · rw [if_neg hskip]
      rcases mem_cons.mp ha with rfl | ha
      · exact .inr ⟨a, .head _, rfl⟩
      · rcases @ih (if seen.length < 32 then seen ++ [b.name] else seen) ha with h | ⟨x, hx, heq⟩
        · split_ifs at h
          · rcases mem_append.mp (map_append ▸ h) with h | h
            · exact .inl h
            · exact .inr ⟨b, .head _, (mem_singleton.mp h).symm⟩
          · exact .inl h
        · exact .inr ⟨x, .tail _ hx, heq⟩

/-- Each name is reported once, with what its entries are together. -/
def Exact (as out : List Item) : Prop :=
  out.Pairwise Distinct ∧ ∀ a ∈ out, a.mark.2 = true ↔ (a.mark.1, true) ∈ as.map Item.mark

theorem mark_mem_cons {b : Item} (h : b.mark.1 ≠ a.mark.1) :
    (b.mark.1, true) ∈ (a :: as).map Item.mark ↔ (b.mark.1, true) ∈ as.map Item.mark := by
  rw [map_cons, mem_cons, or_iff_right]
  exact fun heq => h (Prod.ext_iff.mp heq).1

theorem exact_cons {out : List Item} (hout : ∀ b ∈ out, b.mark.1 ≠ a.mark.1) :
    Exact (a :: as) (a :: out) ↔
      ((a.mark.1, true) ∈ as.map Item.mark → a.mark.2 = true) ∧ Exact as out := by
  have hself : (a.mark.2 = true ↔ (a.mark.1, true) ∈ (a :: as).map Item.mark) ↔
      ((a.mark.1, true) ∈ as.map Item.mark → a.mark.2 = true) := by
    rw [map_cons, mem_cons, Prod.ext_iff]
    constructor
    · exact fun h hm => h.mpr (.inr hm)
    · exact fun h => ⟨fun ha => .inl ⟨rfl, ha.symm⟩, fun hm => hm.elim (fun hm => hm.2.symm) h⟩
  have hrest : (∀ b ∈ out, b.mark.2 = true ↔ (b.mark.1, true) ∈ (a :: as).map Item.mark) ↔
      ∀ b ∈ out, b.mark.2 = true ↔ (b.mark.1, true) ∈ as.map Item.mark :=
    forall₂_congr fun b hb => by rw [mark_mem_cons (hout b hb)]
  rw [Exact, Exact, pairwise_cons, forall_mem_cons, hself, hrest]
  have hne : ∀ b ∈ out, Distinct a b := fun b hb heq => hout b hb heq.symm
  tauto

/-- The invariant of the loop: `before` are the components that were met, of which the first 32 are
remembered; the others are not met again. -/
structure Met (seen before : List Text) (as : List Item) : Prop where
  length : seen.length = min 32 before.toFinset.card
  known : ∀ k ∈ seen.map fold, k ∈ before
  later : ∀ k ∈ before, k ∈ seen.map fold ∨ k ∉ as.map (Prod.fst ∘ Item.mark)

section

variable {seen before : List Text} (h : Met seen before (a :: as))
include h

theorem Met.later_tail (k : Text) (hk : k ∈ before) :
    k ∈ seen.map fold ∨ k ∉ as.map (Prod.fst ∘ Item.mark) :=
  (h.later k hk).imp_right fun h hm => h (.tail _ hm)

theorem Met.skip (hold : a.mark.1 ∈ seen.map fold) : Met seen (a.mark.1 :: before) as := by
  have hcard : (a.mark.1 :: before).toFinset = before.toFinset := by simpa using h.known _ hold
  exact ⟨hcard ▸ h.length, fun k hk => .tail _ (h.known k hk),
    forall_mem_cons.mpr ⟨.inl hold, h.later_tail⟩⟩

variable (hnot : a.mark.1 ∉ seen.map fold)
include hnot

theorem Met.new : a.mark.1 ∉ before :=
  fun hb => (h.later _ hb).elim hnot fun hm => hm (.head _)

theorem Met.card : (a.mark.1 :: before).toFinset.card = before.toFinset.card + 1 := by
  rw [toFinset_cons, Finset.card_insert_of_notMem (by simpa using h.new hnot)]

theorem Met.remember (hroom : seen.length < 32) :
    Met (seen ++ [a.name]) (a.mark.1 :: before) as := by
  have hkeys : (seen ++ [a.name]).map fold = seen.map fold ++ [a.mark.1] := map_append
  refine ⟨?_, ?_, ?_⟩
  · have := h.length
    rw [h.card hnot, length_append, length_singleton]
    omega
  · rw [hkeys]
    intro k hk
    rcases mem_append.mp hk with hk | hk
    · exact .tail _ (h.known k hk)
    · exact mem_singleton.mp hk ▸ .head _
  · rw [hkeys]
    refine forall_mem_cons.mpr ⟨.inl (by simp), fun k hk => ?_⟩
    exact (h.later_tail k hk).imp_left (mem_append_left _)

theorem Met.forget (hroom : ¬ seen.length < 32)
    (honce : a.mark.1 ∉ as.map (Prod.fst ∘ Item.mark)) : Met seen (a.mark.1 :: before) as := by
  refine ⟨?_, fun k hk => .tail _ (h.known k hk), forall_mem_cons.mpr ⟨.inr honce, h.later_tail⟩⟩
  have := h.length
  rw [h.card hnot]
  omega

end

theorem exact_reports_iff (hshort : ∀ a ∈ as, a.name.length < 32) : ∀ {seen before : List Text},
    Met seen before as → (Exact as (reports seen as) ↔ Kept before (as.map Item.mark)) := by
  induction as with
  | nil => exact fun _ => ⟨fun _ => trivial, fun _ => ⟨.nil, nofun⟩⟩
  | cons a as ih =>
    intro seen before h
    have hshort' : ∀ x ∈ as, x.name.length < 32 := fun x hx => hshort x (.tail _ hx)
    have ih := @ih hshort'
    have hlt := hshort a (.head _)
    have hlen := h.length
    rw [reports, map_cons, Kept]
    by_cases hold : a.mark.1 ∈ seen.map fold
    · have hbefore := h.known _ hold
      rw [if_pos (.inr (any_iff.mpr hold)), ← ih (h.skip hold)]
      have hne : ∀ b ∈ reports seen as, b.mark.1 ≠ a.mark.1 := fun b hb heq =>
        (of_mem_reports hb).2.2 (heq ▸ hold)
      have hsame : Exact (a :: as) (reports seen as) ↔ Exact as (reports seen as) :=
        and_congr_right fun _ => forall₂_congr fun b hb => by rw [mark_mem_cons (hne b hb)]
      rw [hsame]
      tauto
    · have hnew := h.new hold
      rw [if_neg (not_or.mpr ⟨by omega, fun h => hold (any_iff.mp h)⟩)]
      by_cases hroom : seen.length < 32
      · rw [if_pos hroom, exact_cons fun b hb heq => (of_mem_reports hb).2.2 (by
          rw [map_append, heq]
          exact mem_append_right _ (mem_singleton_self _)), ih (h.remember hold hroom)]
        have : ¬ 32 ≤ before.toFinset.card := by omega
        tauto
      rw [if_neg hroom]
      by_cases hagain : a.mark.1 ∈ as.map (Prod.fst ∘ Item.mark)
      · obtain ⟨x, hx, heq⟩ := mem_map.mp hagain
        obtain ⟨b, hb, hbx⟩ := (mem_reports_or hshort' hx).resolve_left
          (show x.mark.1 ∉ _ from heq ▸ hold)
        refine iff_of_false (fun h => ?_) fun h => ?_
        · exact (pairwise_cons.mp h.1).1 b hb (hbx.trans heq).symm
        · refine (h.1 hnew).1 (by omega) ?_
          rwa [map_map]
      · rw [exact_cons fun b hb heq => hagain (mem_map.mpr ⟨b, (of_mem_reports hb).1, heq⟩),
          ih (h.forget hold hroom hagain), map_map]
        tauto

end

theorem mem_names {k : Text} {b : Bool} : (k, b) ∈ d.names path ↔ ∃ r, Below d path r ∧
    component r ≠ [] ∧ fold (component r) = k ∧ decide ((component r).length < r.length) = b := by
  simp only [Image.names, mem_filterMap, Option.bind_eq_some_iff, remainder_iff, Below]
  constructor
  · rintro ⟨e, he, r, hr, hn⟩
    split_ifs at hn with hc
    obtain ⟨h1, h2⟩ := Prod.mk.inj (Option.some.inj hn)
    exact ⟨r, ⟨e, he, hr⟩, hc, h1, h2⟩
  · rintro ⟨r, ⟨e, he, hr⟩, hc, rfl, rfl⟩
    exact ⟨e, he, r, hr, if_neg hc⟩

theorem names_eq (hshort : ∀ n ∈ d.names path, n.1.length < 32) :
    (d.files.filterMap (item path)).map Item.mark = d.names path := by
  rw [map_filterMap, Image.names]
  refine filterMap_congr fun e he => ?_
  cases hr : remainder path e.name with
  | none => rw [item, hr]; rfl
  | some r =>
    rw [item, hr, Option.bind_some, Option.bind_some, rdEntryDirAttr]
    by_cases hc : component r = []
    · simp [hc]
    · have hlt := hshort _ (mem_names.mpr ⟨r, ⟨e, he, remainder_iff.mp hr⟩, hc, rfl, rfl⟩)
      rw [length_map] at hlt
      rw [if_neg (not_or.mpr ⟨hc, by omega⟩), if_neg hc]
      split_ifs with hdir
      · simp [Item.mark, hdir]
      · simp [Item.mark, hdir]

theorem item_length_lt (hshort : ∀ n ∈ d.names path, n.1.length < 32) {a : Item}
    (ha : a ∈ d.files.filterMap (item path)) : a.name.length < 32 := by
  have hlt := hshort a.mark (names_eq hshort ▸ mem_map_of_mem ha)
  rwa [Item.mark, length_map] at hlt

theorem reported_below {a : Item} (ha : a ∈ reports [] (d.files.filterMap (item path))) :
    ∃ r, Below d path r ∧ a.name = component r ∧ a.name ≠ [] := by
  obtain ⟨e, he, hitem⟩ := mem_filterMap.mp (of_mem_reports ha).1
  obtain ⟨r, hr, hname, hne, -⟩ := item_some hitem
  exact ⟨r, ⟨e, he, hr⟩, hname, hne⟩

theorem mark_mem_names {a : Item} (hne : a.name ≠ []) : (a.mark.1, true) ∈ d.names path ↔
    ∃ r, Below d path r ∧ fold (component r) = fold a.name ∧ (component r).length < r.length := by
  rw [mem_names]
  constructor
  · rintro ⟨r, hr, -, heq, hlt⟩
    exact ⟨r, hr, heq, of_decide_eq_true hlt⟩
  · rintro ⟨r, hr, heq, hlt⟩
    refine ⟨r, hr, fun hc => hne ?_, heq, decide_eq_true hlt⟩
    rw [hc] at heq
    exact map_eq_nil_iff.mp heq.symm

/-- A directory is listed as it should be exactly if it is tidy. -/
theorem readdir_lists_iff (path : Text) :
    Lists d (strip path) (rdReaddir d (fun _ => false) path).2 ↔ Tidy d (strip path) := by
  have hout : (rdReaddir d (fun _ => false) path).2 =
      reports [] (d.files.filterMap (item (strip path))) := readdirLoop_eq d.files {}
  rw [hout]
  generalize strip path = path
  have hdir := fun a ha => @mark_mem_names d path a (@reported_below d path a ha).choose_spec.2.2
  have hmain : (∀ n ∈ d.names path, n.1.length < 32) →
      (Exact (d.files.filterMap (item path)) (reports [] (d.files.filterMap (item path))) ↔
        Kept [] (d.names path)) := by
    intro hshort
    rw [← names_eq hshort]
    exact exact_reports_iff (fun a => item_length_lt hshort) ⟨rfl, nofun, nofun⟩
  constructor
  · intro h
    have hshort : ∀ n ∈ d.names path, n.1.length < 32 := by
      intro n hn
      obtain ⟨r, hr, hc, heq, -⟩ := mem_names.mp hn
      obtain ⟨a, ha, hname⟩ := h.complete r hr hc
      rw [← heq, ← hname, length_map]
      exact (of_mem_reports ha).2.1
    refine ⟨hshort, (hmain hshort).mp ⟨h.once, fun a ha => ?_⟩⟩
    rw [names_eq hshort, hdir a ha, ← h.isDir a ha, Item.mark, decide_eq_true_eq]
  · rintro ⟨hshort, hkept⟩
    obtain ⟨honce, hattr⟩ := (hmain hshort).mpr hkept
    refine ⟨honce, fun a => reported_below, fun r hr hc => ?_, fun a ha => ?_⟩
    · have hn := mem_names.mpr ⟨r, hr, hc, rfl, rfl⟩
      rw [← names_eq hshort] at hn
      obtain ⟨a, ha, heq⟩ := mem_map.mp hn
      obtain ⟨b, hb, hba⟩ :=
        (@mem_reports_or _ _ (fun x => item_length_lt hshort) [] ha).resolve_left not_mem_nil
      exact ⟨b, hb, hba.trans (congrArg Prod.fst heq)⟩
    · rw [← hdir a ha, ← names_eq hshort, ← hattr a ha, Item.mark, decide_eq_true_eq]

/-- **The packed files are exposed.** While no seek ends behind its file, every read returns the
bytes of the opened file from the position on; and exactly the tidy directories are listed as they
are. -/
theorem packed_files_exposed (hvalid : rdHeaderValid d = true) :
    (∀ s, Reached d s → s.entryIdx < d.count ∧ ∀ len < 2 ^ 32, rdRead d s len = exactRead d s len) ∧
      ∀ path, Lists d (strip path) (rdReaddir d (fun _ => false) path).2 ↔ Tidy d (strip path) :=
  ⟨fun _ hs => ⟨(hs.ok hvalid).idx_lt, fun _ hlen => rdRead_eq hvalid (hs.ok hvalid) hlen⟩,
    readdir_lists_iff⟩

def small (name : String) : Image where
  base := 4096
  size := headerSize + 4
  mem x := if x = 4096 + headerSize + 3 then 66 else 65
  magic := 0x4B534452
  count := 2
  entries i := ⟨.ofString (if i = 0 then "a" else name), headerSize + 2 * i, 2⟩
  in_memory := by decide

theorem packed_files_exposed_small : rdHeaderValid (small "b/c") = true ∧
    rdRead (small "b/c") (rdSeek (small "b/c") ⟨1, 0⟩ 1 0).2 8 = exactRead (small "b/c") ⟨1, 1⟩ 8 ∧
      Lists (small "b/c") [] (rdReaddir (small "b/c") (fun _ => false) [47]).2 := by
  have hvalid : rdHeaderValid (small "b/c") = true := by decide
  obtain ⟨hread, hlist⟩ := packed_files_exposed hvalid
  have hopen : rdOpen (small "b/c") (.ofString "/B/C") = some ⟨1, 0⟩ := by decide
  have hnames : (small "b/c").names (strip [47]) = [([65], false), ([66], true)] := by decide
  refine ⟨hvalid, (hread _ (.seek 1 0 (.opened hopen) (by decide))).2 8 (by decide),
    (hlist [47]).mpr ⟨by rw [hnames]; decide, ?_⟩⟩
  rw [hnames]
  exact ⟨fun _ => by decide, fun _ => by decide, trivial⟩

/-- **Behind its end a file has more bytes**, those of the next file; and a name that is first a
file hides the directory of this name. -/
theorem read_past_end :
    rdHeaderValid (small "b") = true ∧ rdOpen (small "b") [97] = some ⟨0, 0⟩ ∧
      (rdRead (small "b") (rdSeek (small "b") ⟨0, 0⟩ 3 0).2 1).2.1 = [66] ∧
      (rdReaddir (small "a/b") (fun _ => false) []).2.map Item.attr = [0x20] := by
  refine ⟨by decide, by decide, by decide, by decide⟩

end TaterTOS.Ramdisk
