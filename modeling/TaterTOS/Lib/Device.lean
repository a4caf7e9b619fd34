import Mathlib.Tactic

/-!
# Block devices

A device has sectors of bytes. Every access is recorded with its purpose and, for a write, with the
media after it; any access may fail.
-/

namespace Lib

open Function List

abbrev Sector := ℕ → UInt8

abbrev Media := ℕ → Sector

variable {κ : Type}

inductive Access (κ : Type)
  | read (k : κ) (lba : ℕ)
  | write (k : κ) (lba : ℕ) (after : Media)

namespace Access

end Access

/-- A device, its accesses so far with the latest first, and which of them fail. -/
structure Device (κ : Type) where
  media : Media
  trace : List (Access κ)
  fails : ℕ → Bool

def Device.fresh (κ : Type) (m : Media) : Device κ := ⟨m, [], fun _ => false⟩

abbrev Io (κ α : Type) := StateM (Device κ) α

namespace Device

def failsNow (d : Device κ) : Bool := d.fails d.trace.length

def log (d : Device κ) (a : Access κ) : Device κ := { d with trace := a :: d.trace }

def put (d : Device κ) (lba : ℕ) (s : Sector) : Device κ :=
  { d with media := update d.media lba s }

def Works (d : Device κ) : Prop := ∀ n, d.fails n = false

end Device

def readSector (k : κ) (lba : ℕ) : Io κ (Option Sector) := fun d =>
  (if d.failsNow then none else some (d.media lba), d.log (.read k lba))

def writeSector (k : κ) (lba : ℕ) (s : Sector) : Io κ Bool := fun d =>
  if d.failsNow then (false, d.log (.write k lba d.media))
  else (true, (d.put lba s).log (.write k lba (update d.media lba s)))

/-! ### Traces -/

namespace Device

variable {A B : Access κ → Prop} {d d' d'' : Device κ}

/-- Between `d` and `d'` there are only accesses with `A`, and the device fails as before. -/
structure Traced (A : Access κ → Prop) (d d' : Device κ) : Prop where
  fails : d'.fails = d.fails
  trace : ∃ t, d'.trace = t ++ d.trace ∧ ∀ a ∈ t, A a

theorem Traced.refl (d : Device κ) : Traced A d d := ⟨rfl, [], rfl, nofun⟩

theorem Traced.trans (h : Traced A d d') (h' : Traced A d' d'') : Traced A d d'' := by
  obtain ⟨t, ht, hA⟩ := h.trace
  obtain ⟨t', ht', hA'⟩ := h'.trace
  refine ⟨h'.fails.trans h.fails, t' ++ t, ?_, ?_⟩
  · rw [ht', ht, append_assoc]
  · intro a ha
    rcases mem_append.mp ha with ha | ha
    · exact hA' a ha
    · exact hA a ha

theorem Traced.log {a : Access κ} (ha : A a) : Traced A d (d.log a) :=
  ⟨rfl, [a], rfl, fun _ hb => mem_singleton.mp hb ▸ ha⟩

theorem Traced.works (h : Traced A d d') (hd : d.Works) : d'.Works := fun n => by
  rw [h.fails]
  exact hd n

end Device

/-! ### Specifications -/

section

variable {α β : Type} {w : Prop} {A : Access κ → Prop} {P P' : Media → Prop}
    {Q Q' : α → Media → Prop}
  {R : β → Media → Prop} {x : Io κ α} {f : α → Io κ β}

/-- The program makes only accesses with `A` and ends with `Q`. -/
def Spec (w : Prop) (A : Access κ → Prop) (P : Media → Prop) (x : Io κ α) (Q : α → Media → Prop) :
    Prop :=
  ∀ d : Device κ, (w → d.Works) → P d.media → d.Traced A (x d).2 ∧ Q (x d).1 (x d).2.media

theorem Spec.pure {a : α} (h : ∀ m, P m → Q a m) : Spec w A P (pure a : Io κ α) Q :=
  fun d _ hd => ⟨.refl d, h _ hd⟩

theorem Spec.bind (hx : Spec w A P x Q) (hf : ∀ a, Spec w A (Q a) (f a) R) :
    Spec w A P (x >>= f) R := by
  intro d hw hd
  obtain ⟨htrace, hpost⟩ := hx d hw hd
  obtain ⟨htrace', hpost'⟩ := hf _ _ (fun h => htrace.works (hw h)) hpost
  exact ⟨htrace.trans htrace', hpost'⟩

theorem Spec.option {x : Io κ (Option α)} {Q : Option α → Media → Prop} {f : Option α → Io κ β}
    (hx : Spec w A P x Q) (hnone : Spec w A (Q none) (f none) R)
    (hsome : ∀ a, Spec w A (Q (some a)) (f (some a)) R) : Spec w A P (x >>= f) R :=
  hx.bind fun r => match r with
    | none => hnone
    | some a => hsome a

theorem Spec.bool {x : Io κ Bool} {Q : Bool → Media → Prop} {f : Bool → Io κ β}
    (hx : Spec w A P x Q) (hfalse : Spec w A (Q false) (f false) R)
    (htrue : Spec w A (Q true) (f true) R) : Spec w A P (x >>= f) R :=
  hx.bind fun b => match b with
    | false => hfalse
    | true => htrue

section

variable (h : Spec w A P x Q)
include h

theorem Spec.mono (hP : ∀ m, P' m → P m) (hQ : ∀ a m, Q a m → Q' a m) :
    Spec w A P' x Q' :=
  fun d hw hd => (h d hw (hP _ hd)).imp_right (hQ _ _)

theorem Spec.post (hQ : ∀ a m, Q a m → Q' a m) : Spec w A P x Q' :=
  h.mono (fun _ => id) hQ

theorem Spec.pre (hP : ∀ m, P' m → P m) : Spec w A P' x Q :=
  h.mono hP fun _ _ => id

theorem Spec.left {p : Media → Prop} : Spec w A (fun m => P m ∧ p m) x Q :=
  h.pre fun _ hm => hm.1

theorem Spec.right {p : Media → Prop} : Spec w A (fun m => p m ∧ P m) x Q :=
  h.pre fun _ hm => hm.2

end

theorem Spec.ret {a : α} : Spec w A P (Pure.pure a : Io κ α) fun r m => P m ∧ r = a :=
  .pure fun _ hm => ⟨hm, rfl⟩

theorem Spec.of {p : Prop} (hp : ∀ m, P m → p) (h : p → Spec w A P x Q) : Spec w A P x Q :=
  fun d hw hd => h (hp _ hd) d hw hd

theorem Spec.fact {p : Prop} (h : p → Spec w A P x Q) : Spec w A (fun m => P m ∧ p) x Q :=
  .of (fun _ hm => hm.2) fun hp => (h hp).left

theorem Spec.ex {ι : Type*} {P : ι → Media → Prop} (h : ∀ i, Spec w A (P i) x Q) :
    Spec w A (fun m => ∃ i, P i m) x Q :=
  fun d hw ⟨i, hd⟩ => h i d hw hd

theorem Spec.or (h : Spec w A P x Q) (h' : Spec w A P' x Q) : Spec w A (fun m => P m ∨ P' m) x Q :=
  fun d hw hd => hd.elim (h d hw) (h' d hw)

section

variable {R : α → Prop} {a : α}

end

variable {k : κ} {lba : ℕ}

theorem Spec.read (hA : A (.read k lba)) : Spec w A P (readSector k lba)
    fun r m => P m ∧ (∀ s, r = some s → s = m lba) ∧ (w → r ≠ none) := by
  intro d hw hd
  refine ⟨.log hA, hd, fun s hs => ?_, fun h => ?_⟩
  · dsimp only [readSector] at hs
    split_ifs at hs
    exact (Option.some.inj hs).symm
  · have hnow : d.failsNow = false := hw h _
    simp only [readSector, hnow, if_false, ne_eq, reduceCtorEq, not_false_eq_true]

theorem Spec.write {s : Sector} {Q : Bool → Media → Prop} (hA : ∀ m, ¬w → P m → A (.write k lba m))
    (hA' : ∀ m, P m → A (.write k lba (update m lba s)))
    (hdone : ∀ m, P m → Q true (update m lba s)) (hfail : ∀ m, ¬w → P m → Q false m) :
    Spec w A P (writeSector k lba s) Q := by
  intro d hw hd
  unfold writeSector
  by_cases hnow : d.failsNow = true
  · rw [if_pos hnow]
    have hbroken : ¬w := fun h => by
      rw [Device.failsNow, hw h] at hnow
      exact Bool.false_ne_true hnow
    exact ⟨.log (hA _ hbroken hd), hfail _ hbroken hd⟩
  · rw [if_neg hnow]
    exact ⟨⟨rfl, [_], rfl, fun a ha => mem_singleton.mp ha ▸ hA' _ hd⟩, hdone _ hd⟩

end

/-! ### Numbers in a sector -/

def le16 (s : Sector) (off : ℕ) : ℕ := (s off).toNat + (s (off + 1)).toNat * 256

def le32 (s : Sector) (off : ℕ) : ℕ := le16 s off + le16 s (off + 2) * 65536

def putByte (s : Sector) (off v : ℕ) : Sector := update s off (UInt8.ofNat v)

def putLe16 (s : Sector) (off v : ℕ) : Sector := putByte (putByte s off v) (off + 1) (v / 256)

def putLe32 (s : Sector) (off v : ℕ) : Sector := putLe16 (putLe16 s off v) (off + 2) (v / 65536)

def putBytes (s : Sector) (off : ℕ) (bytes : List UInt8) : Sector := fun i =>
  if off ≤ i ∧ i < off + bytes.length then bytes.getD (i - off) 0 else s i

theorem le16_lt (s : Sector) (off : ℕ) : le16 s off < 2 ^ 16 := by
  have := (s off).toNat_lt
  have := (s (off + 1)).toNat_lt
  unfold le16
  omega

theorem le32_lt (s : Sector) (off : ℕ) : le32 s off < 2 ^ 32 := by
  have := le16_lt s off
  have := le16_lt s (off + 2)
  unfold le32
  omega

variable {s s' : Sector} {off i v : ℕ}

theorem le16_congr (h : ∀ i, off ≤ i → i < off + 2 → s i = s' i) : le16 s off = le16 s' off := by
  unfold le16
  rw [h off (by omega) (by omega), h (off + 1) (by omega) (by omega)]

theorem le32_congr (h : ∀ i, off ≤ i → i < off + 4 → s i = s' i) : le32 s off = le32 s' off := by
  unfold le32
  rw [le16_congr fun i h1 h2 => h i (by omega) (by omega),
    le16_congr fun i h1 h2 => h i (by omega) (by omega)]

theorem putByte_of_ne (h : i ≠ off) : putByte s off v i = s i := update_of_ne h _ _

theorem putLe16_outside (h : i < off ∨ off + 2 ≤ i) : putLe16 s off v i = s i := by
  unfold putLe16
  rw [putByte_of_ne (by omega), putByte_of_ne (by omega)]

theorem putLe32_outside (h : i < off ∨ off + 4 ≤ i) : putLe32 s off v i = s i := by
  unfold putLe32
  rw [putLe16_outside (by omega), putLe16_outside (by omega)]

theorem putBytes_outside {bytes : List UInt8} (h : i < off ∨ off + bytes.length ≤ i) :
    putBytes s off bytes i = s i := if_neg (by omega)

theorem putBytes_inside {bytes : List UInt8} (h : i < bytes.length) :
    putBytes s off bytes (off + i) = bytes.get ⟨i, h⟩ := by
  unfold putBytes
  rw [if_pos ⟨by omega, by omega⟩, Nat.add_sub_cancel_left, getD_eq_getElem?_getD,
    List.getElem?_eq_getElem h]
  rfl

theorem le16_putLe16 (h : v < 2 ^ 16) : le16 (putLe16 s off v) off = v := by
  unfold le16 putLe16
  rw [putByte_of_ne (by omega : off ≠ off + 1)]
  unfold putByte
  rw [update_self, update_self, UInt8.toNat_ofNat', UInt8.toNat_ofNat']
  omega

theorem le16_putLe16_of_disjoint {off' : ℕ} (h : off + 2 ≤ off' ∨ off' + 2 ≤ off) :
    le16 (putLe16 s off' v) off = le16 s off :=
  le16_congr fun i h1 h2 => putLe16_outside (by omega)

theorem putLe16_mod : putLe16 s off v = putLe16 s off (v % 2 ^ 16) := by
  have hlow : UInt8.ofNat v = UInt8.ofNat (v % 2 ^ 16) := by
    apply UInt8.toNat_inj.mp
    rw [UInt8.toNat_ofNat', UInt8.toNat_ofNat']
    omega
  have hhigh : UInt8.ofNat (v / 256) = UInt8.ofNat (v % 2 ^ 16 / 256) := by
    apply UInt8.toNat_inj.mp
    rw [UInt8.toNat_ofNat', UInt8.toNat_ofNat']
    omega
  unfold putLe16 putByte
  rw [hlow, hhigh]

theorem le32_putLe32 (h : v < 2 ^ 32) : le32 (putLe32 s off v) off = v := by
  unfold le32 putLe32
  rw [le16_putLe16_of_disjoint (by omega), putLe16_mod, le16_putLe16 (by omega),
    le16_putLe16 (by omega)]
  omega

theorem putByte_shift {k : ℕ} (h : s (off + i) = s' i) :
    putByte s (off + k) v (off + i) = putByte s' k v i := by
  by_cases hi : i = k
  · rw [hi]
    unfold putByte
    rw [update_self, update_self]
  · rw [putByte_of_ne (by omega), putByte_of_ne hi, h]

theorem putLe16_shift {k : ℕ} (h : s (off + i) = s' i) :
    putLe16 s (off + k) v (off + i) = putLe16 s' k v i := by
  unfold putLe16
  rw [add_assoc]
  exact putByte_shift (putByte_shift h)

theorem putLe32_shift {k : ℕ} (h : s (off + i) = s' i) :
    putLe32 s (off + k) v (off + i) = putLe32 s' k v i := by
  unfold putLe32
  rw [add_assoc]
  exact putLe16_shift (putLe16_shift h)

end Lib
