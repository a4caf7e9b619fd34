import TaterTOS.Lib.Memory
import TaterTOS.Lib.Word

/-!
# The kernel heap

The allocator of `heap.c`: blocks with a header of eight bytes, one behind the other, and never
given back.

* **`blocks_apart`**: the blocks and their headers are apart, and `krealloc` moves the bytes.
-/

namespace TaterTOS.Heap

open Function Lib List

def heapMagic : ℕ := 0xC0FFEE42

structure State where
  mem : Mem
  heapStart : ℕ
  heapEnd : ℕ
  heapCurr : ℕ

def heapInit (alloc virt : ℕ → ℕ) (mem : Mem) : State :=
  match [256, 128, 64, 32, 16, 8, 4, 2, 1].find? (alloc · ≠ 0) with
  | none => ⟨mem, 0, 0, 0⟩
  | some pages =>
    let start := virt (alloc pages)
    if start = 0 then ⟨mem, 0, 0, 0⟩ else ⟨mem, start, u64 (start + pages * 4096), start⟩

def kmalloc (h : State) (size : ℕ) : ℕ × State :=
  if size = 0 then (0, h)
  else
    let aligned := alignUp (u64 (8 + size)) 16
    if h.heapEnd < u64 (h.heapCurr + aligned) then (0, h)
    else (u64 (h.heapCurr + 8), { h with
      mem := store (store h.mem h.heapCurr 4 heapMagic) (u64 (h.heapCurr + 4)) 4 (u32 size)
      heapCurr := u64 (h.heapCurr + aligned) })

def krealloc (h : State) (ptr newSize : ℕ) : ℕ × State :=
  if ptr = 0 then kmalloc h newSize
  else if newSize = 0 then (0, h)
  else
    let hdr := sub64 ptr 8
    let oldSize := if load h.mem hdr 4 = heapMagic then load h.mem (u64 (hdr + 4)) 4 else 0
    let r := kmalloc h newSize
    if r.1 = 0 then (0, r.2)
    else (r.1, { r.2 with mem := copy r.2.mem r.1 ptr (min oldSize newSize) })

/-! ### Runs -/

inductive Call where
  | kmalloc (size : ℕ)
  | krealloc (ptr newSize : ℕ)
  | kfree (ptr : ℕ)
  | write (ptr i : ℕ) (c : UInt8)

def Call.run (h : State) : Call → ℕ × State
  | .kmalloc size => Heap.kmalloc h size
  | .krealloc ptr newSize => Heap.krealloc h ptr newSize
  | .kfree _ => (0, h)
  | .write ptr i c => (0, { h with mem := update h.mem (ptr + i) c })

def Call.size : Call → ℕ
  | .kmalloc size | .krealloc _ size => size
  | _ => 0

structure World where
  heap : State
  blocks : List (ℕ × ℕ)

def World.after (w : World) (c : Call) : World where
  heap := (c.run w.heap).2
  blocks := if (c.run w.heap).1 = 0 then w.blocks else ((c.run w.heap).1, c.size) :: w.blocks

/-- Blocks are used as they were given out, and no request is so large that its end wraps. -/
def Call.Ok (w : World) : Call → Prop
  | .kmalloc size => w.heap.heapEnd + size + 24 ≤ 2 ^ 64
  | .krealloc ptr size => w.heap.heapEnd + size + 24 ≤ 2 ^ 64 ∧ (ptr = 0 ∨ ∃ n, (ptr, n) ∈ w.blocks)
  | .kfree _ => True
  | .write ptr i _ => ∃ n, (ptr, n) ∈ w.blocks ∧ i < n

inductive World.Reachable : World → Prop where
  | init {alloc virt : ℕ → ℕ} (mem : Mem)
      (hmap : ∀ n, alloc n ≠ 0 → virt (alloc n) + n * 4096 < 2 ^ 64) :
      Reachable ⟨heapInit alloc virt mem, []⟩
  | call {w : World} {c : Call} : Reachable w → c.Ok w → Reachable (w.after c)

def Apart (b b' : ℕ × ℕ) : Prop := b.1 + b.2 + 8 ≤ b'.1 ∨ b'.1 + b'.2 + 8 ≤ b.1

structure World.Inv (w : World) : Prop where
  start : w.heap.heapStart ≤ w.heap.heapCurr
  curr : w.heap.heapCurr ≤ w.heap.heapEnd
  fits : w.heap.heapEnd < 2 ^ 64 ∧ w.heap.heapEnd ≤ w.heap.heapStart + 2 ^ 20
  inside : ∀ b ∈ w.blocks, w.heap.heapStart + 8 ≤ b.1 ∧ b.1 + b.2 ≤ w.heap.heapCurr
  apart : w.blocks.Pairwise Apart
  header : ∀ b ∈ w.blocks, load w.heap.mem (b.1 - 8) 4 = heapMagic ∧
    load w.heap.mem (b.1 - 4) 4 = b.2

variable {w : World} {c : Call} {h : State} {n k p : ℕ} {m : Mem}

def Pushed (h : State) (n : ℕ) (r : ℕ × State) : Prop :=
  ∃ k m, 8 + n ≤ k ∧ h.heapCurr + k ≤ h.heapEnd ∧ Frame h.mem m h.heapCurr k ∧
    load m h.heapCurr 4 = heapMagic ∧ load m (h.heapCurr + 4) 4 = n ∧
    r = (h.heapCurr + 8, { h with mem := m, heapCurr := h.heapCurr + k })

theorem kmalloc_spec (hw : w.Inv) (hn : w.heap.heapEnd + n + 24 ≤ 2 ^ 64) :
    kmalloc w.heap n = (0, w.heap) ∨ Pushed w.heap n (kmalloc w.heap n) := by
  have hstart := hw.start
  have hcurr := hw.curr
  have hfits := hw.fits.2
  have halign : alignUp (u64 (8 + n)) 16 = (8 + n + 15) / 16 * 16 := by
    rw [u64_of_lt (by omega)]
    exact @alignUp_two_pow (8 + n) 4 (by norm_num) (by omega)
  have hk : 8 + n ≤ (8 + n + 15) / 16 * 16 ∧ (8 + n + 15) / 16 * 16 ≤ n + 23 := by omega
  unfold kmalloc
  rw [halign]
  generalize (8 + n + 15) / 16 * 16 = k at hk
  dsimp only
  rw [u64_of_lt (show w.heap.heapCurr + 8 < 2 ^ 64 by omega),
    u64_of_lt (show w.heap.heapCurr + 4 < 2 ^ 64 by omega),
    u64_of_lt (show w.heap.heapCurr + k < 2 ^ 64 by omega)]
  split_ifs with hzero hend
  · exact .inl rfl
  · exact .inl rfl
  · refine .inr ⟨k, _, hk.1, by omega, ((Frame.store _ _ 4 _).mono le_rfl (by omega)).trans
      ((Frame.store _ _ 4 _).mono (by omega) (by omega)), ?_, ?_, rfl⟩
    · rw [(Frame.store _ _ 4 _).load (by omega)]
      exact load_store (by decide)
    · rw [load_store (show u32 n < 256 ^ 4 from Nat.mod_lt _ (by norm_num)), u32_of_lt (by omega)]

theorem krealloc_spec (hw : w.Inv) (hn : w.heap.heapEnd + n + 24 ≤ 2 ^ 64) {old : ℕ}
    (hp : (p, old) ∈ w.blocks) :
    krealloc w.heap p n = (0, w.heap) ∨ Pushed w.heap n (krealloc w.heap p n) ∧ ∀ i < min old n,
      (krealloc w.heap p n).2.mem ((krealloc w.heap p n).1 + i) = w.heap.mem (p + i) := by
  obtain ⟨hlow, hhigh⟩ := hw.inside _ hp
  obtain ⟨hmagic, hold⟩ := hw.header _ hp
  have hcurr := hw.curr
  have hhdr : sub64 p 8 = p - 8 := sub64_of_le (by omega) (by omega)
  have hfield : u64 (p - 8 + 4) = p - 4 := by
    rw [u64_of_lt (by omega)]
    omega
  have heq : krealloc w.heap p n = if n = 0 then (0, w.heap) else
      if (kmalloc w.heap n).1 = 0 then (0, (kmalloc w.heap n).2) else ((kmalloc w.heap n).1,
        { (kmalloc w.heap n).2 with
          mem := copy (kmalloc w.heap n).2.mem (kmalloc w.heap n).1 p (min old n) }) := by
    unfold krealloc
    rw [if_neg (show p ≠ 0 by omega), hhdr]
    dsimp only
    rw [hfield, if_pos hmagic, hold]
  rw [heq]
  by_cases hzero : n = 0
  · exact .inl (if_pos hzero)
  rw [if_neg hzero]
  rcases kmalloc_spec hw hn with hfail | ⟨k, m, hk, hend, hm, hnew, hsize, heq⟩
  · rw [hfail]
    exact .inl rfl
  · rw [heq]
    have hcopy := Lib.Frame.copy m (w.heap.heapCurr + 8) p (min old n)
    refine .inr ⟨⟨k, _, hk, hend, hm.trans (hcopy.mono (by omega) (by omega)), ?_, ?_, rfl⟩,
      fun i hi => (copy_apply m (by omega) hi).trans (hm _ (by omega))⟩
    · rw [hcopy.load (by omega)]
      exact hnew
    · rw [hcopy.load (by omega)]
      exact hsize

theorem World.Inv.push {r : ℕ × State} (hw : w.Inv) (hr : Pushed w.heap n r) :
    r.1 ≠ 0 ∧ World.Inv ⟨r.2, (r.1, n) :: w.blocks⟩ := by
  obtain ⟨k, m, hk, hend, hm, hmagic, hsize, rfl⟩ := hr
  have hstart := hw.start
  refine ⟨Nat.succ_ne_zero _, le_add_right hstart, hend, hw.fits, ?_, pairwise_cons.mpr
    ⟨fun b hb => .inr (Nat.add_le_add_right (hw.inside b hb).2 8), hw.apart⟩, ?_⟩
  · rintro b (_ | ⟨_, hb⟩)
    · dsimp only
      omega
    · exact ⟨(hw.inside b hb).1, le_add_right (hw.inside b hb).2⟩
  · rintro b (_ | ⟨_, hb⟩)
    · exact ⟨hmagic, hsize⟩
    · have := hw.inside b hb
      rw [hm.load (by omega), hm.load (by omega)]
      exact hw.header b hb

theorem World.Inv.write (hw : w.Inv) {i : ℕ} (hp : (p, n) ∈ w.blocks) (hi : i < n) (c : UInt8) :
    World.Inv ⟨{ w.heap with mem := update w.heap.mem (p + i) c }, w.blocks⟩ := by
  refine ⟨hw.start, hw.curr, hw.fits, hw.inside, hw.apart, fun b hb => ?_⟩
  have hout : ∀ x, b.1 - 8 ≤ x → x < b.1 → update w.heap.mem (p + i) c x = w.heap.mem x := by
    refine fun x hx hx' => update_of_ne (fun heq => ?_) _ _
    by_cases hne : b = (p, n)
    · rw [hne] at hx'
      exact absurd hx' (by omega)
    · have : Std.Symm Apart := ⟨fun _ _ => Or.symm⟩
      have : b.1 + b.2 + 8 ≤ p ∨ p + n + 8 ≤ b.1 := hw.apart.forall hb hp hne
      omega
  have := (hw.inside b hb).1
  rw [load_congr fun x h1 h2 => hout x h1 (by omega),
    load_congr fun x h1 h2 => hout x (by omega) (by omega)]
  exact hw.header b hb

theorem World.Inv.after (hw : w.Inv) (hc : c.Ok w) : (w.after c).Inv := by
  have hfrom : ∀ {r : ℕ × State}, r = (0, w.heap) ∨ Pushed w.heap c.size r →
      World.Inv ⟨r.2, if r.1 = 0 then w.blocks else (r.1, c.size) :: w.blocks⟩ := by
    rintro r (rfl | hr)
    · exact hw
    · rw [if_neg (hw.push hr).1]
      exact (hw.push hr).2
  cases c with
  | kmalloc n => exact hfrom (kmalloc_spec hw hc)
  | krealloc p n =>
    obtain ⟨hn, rfl | ⟨old, hp⟩⟩ := hc
    · exact hfrom (kmalloc_spec hw hn)
    · exact hfrom ((krealloc_spec hw hn hp).imp_right And.left)
  | kfree p => exact hw
  | write p i c =>
    obtain ⟨n, hp, hi⟩ := hc
    exact hw.write hp hi c

theorem World.Reachable.inv (h : w.Reachable) : w.Inv := by
  induction h with
  | @init alloc virt mem hmap =>
    have hnone : World.Inv ⟨⟨mem, 0, 0, 0⟩, []⟩ :=
      ⟨le_rfl, le_rfl, by norm_num, nofun, .nil, nofun⟩
    unfold heapInit
    cases hfind : [256, 128, 64, 32, 16, 8, 4, 2, 1].find? (alloc · ≠ 0) with
    | none => exact hnone
    | some pages =>
      have hpages : pages ≤ 256 := by
        have := mem_of_find?_eq_some hfind
        simp only [mem_cons, not_mem_nil, or_false] at this
        omega
      have hlt := hmap pages (by simpa using List.find?_some hfind)
      dsimp only
      split_ifs
      · exact hnone
      · rw [u64_of_lt hlt]
        exact ⟨le_rfl, Nat.le_add_right _ _, ⟨hlt, Nat.add_le_add_left (by omega) _⟩, nofun,
          .nil, nofun⟩
  | call _ hc ih => exact ih.after hc

/-- **The blocks are apart.** After any calls whose requests do not wrap, every block lies in the
heap with its header, no two of them meet, and `krealloc` returns nothing or a block that has the
bytes of the old one. -/
theorem blocks_apart (w : World) (hw : w.Reachable) :
    (∀ b ∈ w.blocks, w.heap.heapStart + 8 ≤ b.1 ∧ b.1 + b.2 ≤ w.heap.heapEnd) ∧
    w.blocks.Pairwise Apart ∧
    ∀ p old n, (p, old) ∈ w.blocks → w.heap.heapEnd + n + 24 ≤ 2 ^ 64 →
      (krealloc w.heap p n).1 = 0 ∨ ∀ i < min old n,
        (krealloc w.heap p n).2.mem ((krealloc w.heap p n).1 + i) = w.heap.mem (p + i) := by
  have hinv := hw.inv
  refine ⟨fun b hb => ⟨(hinv.inside b hb).1, (hinv.inside b hb).2.trans hinv.curr⟩, hinv.apart,
    fun p old n hp hn => ?_⟩
  rcases krealloc_spec hinv hn hp with hfail | ⟨-, hbytes⟩
  · rw [hfail]
    exact .inl rfl
  · exact .inr hbytes

def onePage : State := heapInit (fun n => if n = 1 then 0x1000 else 0) (· + 0xFFFF800000000000)
    fun _ => 0

def twoBlocks : World := (World.after ⟨onePage, []⟩ (.kmalloc 16)).after (.kmalloc 1)

theorem blocks_apart_two : twoBlocks.blocks = [(0xFFFF800000001028, 1), (0xFFFF800000001008, 16)] ∧
    twoBlocks.blocks.Pairwise Apart := by
  have hmap : ∀ n, (if n = 1 then 0x1000 else 0) ≠ 0 →
      (if n = 1 then 0x1000 else 0) + 0xFFFF800000000000 + n * 4096 < 2 ^ 64 := by
    intro n hn
    split_ifs at hn ⊢ with h
    · rw [h]
      norm_num
    · exact absurd rfl hn
  have hfirst : Call.Ok ⟨onePage, []⟩ (.kmalloc 16) := by
    unfold Call.Ok
    decide +kernel
  have hsecond : Call.Ok (World.after ⟨onePage, []⟩ (.kmalloc 16)) (.kmalloc 1) := by
    unfold Call.Ok
    decide +kernel
  exact ⟨by decide +kernel,
    (blocks_apart _ (((World.Reachable.init _ hmap).call hfirst).call hsecond)).2.1⟩

/-- A request of `2 ^ 64 - 8` bytes is granted, and the next one gets the same place. -/
theorem wrapped_request : (kmalloc onePage (2 ^ 64 - 8)).1 = 0xFFFF800000001008 ∧
    onePage.heapEnd < 0xFFFF800000001008 + (2 ^ 64 - 8) ∧
    (kmalloc (kmalloc onePage (2 ^ 64 - 8)).2 16).1 = 0xFFFF800000001008 := by
  decide +kernel

end TaterTOS.Heap
