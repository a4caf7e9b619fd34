import TaterTOS.Vmm.Model
import Mathlib.Data.Nat.Bitwise

/-!
# Entries, paths and the map that a table stands for
-/

namespace TaterTOS.Vmm

open Lib Radix

/-! ### Entries -/

theorem isPresent_eq (e : ℕ) : isPresent e = e.testBit 0 := by
  rw [isPresent, flagPresent, Nat.testBit, Nat.shiftRight_zero, Nat.and_comm]

theorem isLarge_eq (e : ℕ) : isLarge e = e.testBit 7 := by
  rw [isLarge, flagLarge, show 0x080 = 2 ^ 7 from rfl, Nat.and_comm, Nat.two_pow_and]
  cases e.testBit 7 <;> rfl

theorem frameOf_or (a b : ℕ) : frameOf (a ||| b) = frameOf a ||| frameOf b :=
  Nat.and_or_distrib_right a b frameMask

theorem frameOf_and {a m : ℕ} (h : m &&& frameMask = 0) : frameOf (a &&& m) = 0 := by
  rw [frameOf, Nat.and_assoc, h, Nat.and_zero]

theorem frameOf_eq (e : ℕ) : frameOf e = e % 2 ^ 52 / 2 ^ 12 * 2 ^ 12 := by
  have hmask : frameMask = (2 ^ 52 - 1) &&& not64 (2 ^ 12 - 1) := by decide
  have hlt : e % 2 ^ 52 < 2 ^ 64 := lt_trans (Nat.mod_lt _ (by norm_num)) (by norm_num)
  rw [frameOf, hmask, ← Nat.and_assoc, Nat.and_two_pow_sub_one_eq_mod,
    and_not64_two_pow _ (by norm_num) hlt]

def IsFrame (p : ℕ) : Prop := 2 ^ 12 ∣ p ∧ p < 2 ^ 52

instance (p : ℕ) : Decidable (IsFrame p) := inferInstanceAs (Decidable (_ ∧ _))

theorem frameOf_of_isFrame {p : ℕ} (h : IsFrame p) : frameOf p = p := by
  rw [frameOf_eq, Nat.mod_eq_of_lt h.2, Nat.div_mul_cancel h.1]

theorem frameOf_lt (e : ℕ) : frameOf e < 2 ^ 52 := by
  rw [frameOf_eq]
  omega

theorem testBit_of_isFrame {p i : ℕ} (h : IsFrame p) (hi : i < 12) : p.testBit i = false := by
  obtain ⟨q, rfl⟩ := h.1
  rw [Nat.testBit_two_pow_mul]
  simp [hi]

section

variable {phys : ℕ} (flags : ℕ)

theorem frameOf_parentEntry (h : IsFrame phys) : frameOf (parentEntry phys flags) = phys := by
  have h1 : frameOf flagPresent = 0 := by decide
  have h2 : frameOf flagWrite = 0 := by decide
  have h3 : frameOf (flags &&& flagUser) = 0 := frameOf_and (by decide)
  rw [parentEntry, frameOf_or, frameOf_or, frameOf_or, h1, h2, h3, frameOf_of_isFrame h]
  simp

theorem isPresent_parentEntry (phys : ℕ) : isPresent (parentEntry phys flags) = true := by
  simp [isPresent_eq, parentEntry, flagPresent]

theorem isLarge_parentEntry (h : IsFrame phys) : isLarge (parentEntry phys flags) = false := by
  have h1 : flagPresent.testBit 7 = false := by decide
  have h2 : flagWrite.testBit 7 = false := by decide
  have h3 : flagUser.testBit 7 = false := by decide
  simp only [isLarge_eq, parentEntry, Nat.testBit_or, Nat.testBit_and,
    testBit_of_isFrame h (show 7 < 12 by norm_num), h1, h2, h3, Bool.and_false, Bool.or_false]

theorem isPresent_leafEntry (phys : ℕ) : isPresent (leafEntry phys flags) = true := by
  simp [isPresent_eq, leafEntry, flagPresent]

theorem frameOf_leafEntry (phys : ℕ) : frameOf (leafEntry phys flags) = frameOf phys := by
  have h1 : frameOf (flags &&& pteFlagMask) = 0 := frameOf_and (by decide)
  have h2 : frameOf flagPresent = 0 := by decide
  have h3 : frameOf (phys &&& frameMask) = frameOf phys := by
    rw [frameOf, Nat.and_assoc, Nat.and_self, frameOf]
  rw [leafEntry, frameOf_or, frameOf_or, h1, h2, h3]
  simp

theorem flags_leafEntry (phys : ℕ) :
    leafEntry phys flags &&& pteFlagMask = (flags &&& pteFlagMask) ||| flagPresent := by
  have h1 : frameMask &&& pteFlagMask = 0 := by decide
  have h2 : flagPresent &&& pteFlagMask = flagPresent := by decide
  rw [leafEntry, Nat.and_or_distrib_right, Nat.and_or_distrib_right, Nat.and_assoc, h1, h2,
    Nat.and_assoc]
  simp

theorem isPresent_protectEntry (e : ℕ) : isPresent (protectEntry e flags) = true := by
  simp [isPresent_eq, protectEntry, flagPresent]

theorem frameOf_protectEntry (e : ℕ) : frameOf (protectEntry e flags) = frameOf e := by
  have h1 : frameOf flagPresent = 0 := by decide
  have h2 : frameOf (flags &&& protectMask) = 0 := frameOf_and (by decide)
  have h3 : frameOf (e &&& not64 protectMask) = frameOf e := by
    have h : not64 protectMask &&& frameMask = frameMask := by decide
    rw [frameOf, Nat.and_assoc, h, frameOf]
  rw [protectEntry, frameOf_or, frameOf_or, h1, h2, h3]
  simp

theorem flags_protectEntry (e : ℕ) : protectEntry e flags &&& pteFlagMask =
    protectEntry (e &&& pteFlagMask) flags := by
  have h1 : flagPresent &&& pteFlagMask = flagPresent := by decide
  have h2 : protectMask &&& pteFlagMask = protectMask := by decide
  rw [protectEntry, protectEntry, Nat.and_or_distrib_right, Nat.and_or_distrib_right, h1,
    Nat.and_assoc flags, h2, Nat.and_assoc e, Nat.and_comm (not64 protectMask), ← Nat.and_assoc e]

end

/-! ### Paths -/

def tableOf (entry : ℕ) : Option ℕ :=
  if isPresent entry && !isLarge entry then some (frameOf entry) else none

def UserPath (l : List ℕ) : Prop := l.length ≤ 3 ∧ ∀ i, l.head? = some i → i < 256

theorem userPath_closed : Closed UserPath := by
  rintro l i ⟨h1, h2⟩
  refine ⟨by simp at h1; omega, fun j hj => h2 j ?_⟩
  cases l with
  | nil => simp at hj
  | cons k l => simpa using hj

theorem userPath_nil : UserPath [] := ⟨by simp, by simp⟩

def path (n : ℕ) : List ℕ := [n / 2 ^ 27 % 512, n / 2 ^ 18 % 512, n / 2 ^ 9 % 512]

def slot (n : ℕ) : ℕ := n % 512

def userPages : ℕ := 2 ^ 35

theorem userPath_path {n : ℕ} (hn : n < userPages) : UserPath (path n) := by
  refine ⟨by simp [path], fun i hi => ?_⟩
  unfold userPages at hn
  simp only [path, List.head?_cons, Option.some_inj] at hi
  omega

theorem path_inj {n n' : ℕ} (hn : n < userPages) (hn' : n' < userPages) (hp : path n = path n')
    (hs : slot n = slot n') : n = n' := by
  unfold userPages at *
  simp only [path, slot, List.cons.injEq] at hp hs
  omega

theorem shiftRight_and (virt : ℕ) {k : ℕ} (hk : 12 ≤ k) :
    (virt >>> k) &&& 0x1FF = virt / 4096 / 2 ^ (k - 12) % 512 := by
  rw [show 0x1FF = 2 ^ 9 - 1 from rfl, Nat.and_two_pow_sub_one_eq_mod, Nat.shiftRight_eq_div_pow,
    Nat.div_div_eq_div_mul, show 4096 = 2 ^ 12 from rfl, ← pow_add, Nat.add_sub_cancel' hk]

theorem path_eq (virt : ℕ) : path (virt / 4096) = [pml4Index virt, pdptIndex virt, pdIndex virt] ∧
      slot (virt / 4096) = ptIndex virt := by
  unfold path slot pml4Index pdptIndex pdIndex ptIndex
  rw [shiftRight_and virt (by norm_num), shiftRight_and virt (by norm_num),
    shiftRight_and virt (by norm_num), shiftRight_and virt (by norm_num)]
  exact ⟨rfl, by simp⟩

theorem div_lt_userPages {virt : ℕ} : virt / 4096 < userPages ↔ virt < userVaTop := by
  unfold userPages userVaTop
  omega

theorem userPath_walk {virt : ℕ} (hv : virt < userVaTop) : UserPath ([] ++ [pml4Index virt]) ∧
    UserPath ([pml4Index virt] ++ [pdptIndex virt]) ∧
    UserPath ([pml4Index virt] ++ [pdptIndex virt] ++ [pdIndex virt]) := by
  have hp3 := userPath_path (div_lt_userPages.mpr hv)
  rw [(path_eq virt).1] at hp3
  have hp2 := userPath_closed [pml4Index virt, pdptIndex virt] (pdIndex virt) hp3
  exact ⟨userPath_closed [pml4Index virt] (pdptIndex virt) hp2, hp2, hp3⟩

/-! ### The map -/

abbrev tableAt (s : State) : ℕ → List ℕ → Option ℕ := node tableOf s.mem

def decode (entry : ℕ) : Option (ℕ × ℕ) :=
  if isPresent entry then some (frameOf entry, entry &&& pteFlagMask) else none

/-- **The map of an address space**: the frame and the flags in the entry of each user page. -/
def absMap (s : State) (pml4 n : ℕ) : Option (ℕ × ℕ) :=
  if n < userPages then (tableAt s pml4 (path n)).bind fun pt => decode (s.mem pt (slot n))
  else none

theorem decode_leafEntry (phys flags : ℕ) :
    decode (leafEntry phys flags) = some
      (frameOf phys, (flags &&& pteFlagMask) ||| flagPresent) := by
  rw [decode, if_pos (isPresent_leafEntry flags phys), frameOf_leafEntry, flags_leafEntry]

theorem decode_zero : decode 0 = none := rfl

theorem decode_protectEntry (e flags : ℕ) : decode (protectEntry e flags) =
    some (frameOf e, protectEntry (e &&& pteFlagMask) flags) := by
  rw [decode, if_pos (isPresent_protectEntry flags e), frameOf_protectEntry, flags_protectEntry]

/-! ### Tables apart -/

abbrev IsTable (R : Set ℕ) (s : State) : ℕ → Prop := IsNode tableOf UserPath R s.mem

def Entries (P : ℕ → Prop) (R : Set ℕ) (s : State) : Prop :=
  ∀ r ∈ R, ∀ l i q, UserPath (l ++ [i]) → tableAt s r l = some q → isPresent (s.mem q i) = true →
    P (s.mem q i)

/-- The trees of the address spaces `R` are apart from each other and from the kernel's tables
`K`, and so are the pages that `alloc_table` will answer with. -/
structure Tables (K R : Set ℕ) (s : State) : Prop where
  sep : Sep tableOf UserPath R s.mem
  nonzero : ∀ r ∈ R, r ≠ 0
  kernel : s.kernelPml4 ∈ K
  apart : ∀ q, IsTable R s q → q ∉ K
  small : ∀ r ∈ R, ∀ l i q, UserPath (l ++ [i]) → tableAt s r l = some q →
    isPresent (s.mem q i) = true → isLarge (s.mem q i) = false
  fresh : ∀ a ∈ s.answers, a ≠ 0 → IsFrame a ∧ a ∉ K ∧ ¬ IsTable R s a
  distinct : (s.answers.filter (· ≠ 0)).Nodup

variable {K R : Set ℕ} {s : State} {r q i : ℕ} {l : List ℕ}

section

variable (h : Tables K R s) (hr : r ∈ R)
include h hr

theorem Tables.tableOf_eq (hl : UserPath (l ++ [i]))
    (hq : tableAt s r l = some q) : tableOf (s.mem q i) =
      if isPresent (s.mem q i) then some (frameOf (s.mem q i)) else none := by
  rw [tableOf]
  cases hp : isPresent (s.mem q i) with
  | false => simp
  | true => simp [h.small r hr l i q hl hq hp]

theorem Tables.tableAt_concat (hl : UserPath (l ++ [i]))
    (hq : tableAt s r l = some q) : tableAt s r (l ++ [i]) =
      if isPresent (s.mem q i) then some (frameOf (s.mem q i)) else none := by
  rw [← h.tableOf_eq hr hl hq]
  unfold tableAt at *
  rw [node_concat, hq, Option.bind_some]

def pml4e (s : State) (r virt : ℕ) : ℕ := s.mem r (pml4Index virt)
def pdpte (s : State) (r virt : ℕ) : ℕ := s.mem (frameOf (pml4e s r virt)) (pdptIndex virt)
def pde (s : State) (r virt : ℕ) : ℕ := s.mem (frameOf (pdpte s r virt)) (pdIndex virt)

inductive Walk (s : State) (r virt : ℕ) : Option ℕ → Prop
  | pml4 : isPresent (pml4e s r virt) = false → Walk s r virt none
  | pdpt : isPresent (pml4e s r virt) = true → isPresent (pdpte s r virt) = false →
      Walk s r virt none
  | pd : isPresent (pml4e s r virt) = true → isPresent (pdpte s r virt) = true →
      isLarge (pdpte s r virt) = false → isPresent (pde s r virt) = false → Walk s r virt none
  | pt : isPresent (pml4e s r virt) = true → isPresent (pdpte s r virt) = true →
      isLarge (pdpte s r virt) = false → isPresent (pde s r virt) = true →
      isLarge (pde s r virt) = false → Walk s r virt (some (frameOf (pde s r virt)))

theorem Tables.walk {virt : ℕ} (hv : virt < userVaTop) :
    Walk s r virt (tableAt s r (path (virt / 4096))) := by
  obtain ⟨hp1, hp2, hp3⟩ := userPath_walk hv
  have h1 := h.tableAt_concat hr hp1 rfl
  have hsplit : tableAt s r (path (virt / 4096)) = (tableAt s r ([] ++ [pml4Index virt])).bind
      fun q => (tableOf (s.mem q (pdptIndex virt))).bind fun q =>
        (tableOf (s.mem q (pdIndex virt))).bind some := by
    rw [(path_eq virt).1]
    exact node_append s.mem r [pml4Index virt] _
  rw [hsplit]
  cases he : isPresent (pml4e s r virt) with
  | false =>
    rw [← pml4e, he] at h1
    rw [h1]
    exact .pml4 he
  | true =>
    rw [← pml4e, he, if_pos rfl] at h1
    have h2 := h.tableAt_concat hr hp2 h1
    rw [h1, Option.bind_some, h.tableOf_eq hr hp2 h1]
    cases hd : isPresent (pdpte s r virt) with
    | false =>
      rw [← pdpte, hd]
      exact .pdpt he hd
    | true =>
      rw [← pdpte, hd, if_pos rfl] at h2 ⊢
      rw [Option.bind_some, h.tableOf_eq hr hp3 h2]
      have hl := h.small r hr _ _ _ hp2 h1 hd
      cases hc : isPresent (pde s r virt) with
      | false =>
        rw [← pde, hc]
        exact .pd he hd hl hc
      | true =>
        rw [← pde, hc]
        exact .pt he hd hl hc (h.small r hr _ _ _ hp3 h2 hc)

/-! ### The readers -/

theorem Tables.lookup_spec (virt : ℕ) : vmmLookupUserPte s r virt =
      if virt < userVaTop then (tableAt s r (path (virt / 4096))).bind fun pt =>
        if isPresent (s.mem pt (slot (virt / 4096))) then some (pt, slot (virt / 4096)) else none
      else none := by
  unfold vmmLookupUserPte
  by_cases hv : virt < userVaTop
  · rw [if_neg (by have := h.nonzero r hr; omega), if_pos hv, (path_eq virt).2]
    have hw := h.walk hr hv
    generalize tableAt s r (path (virt / 4096)) = t at hw ⊢
    cases hw with
    | pt he hd hl hc hl' =>
      unfold pde pdpte pml4e at *
      simp only [he, hd, hl, hc, hl', Option.bind_some]
      cases isPresent _ <;> rfl
    | _ => simp_all [pml4e, pdpte, pde]
  · rw [if_neg hv, if_pos (.inr (not_lt.mp hv))]

end

theorem absMap_eq (s : State) (r virt : ℕ) : absMap s r (virt / 4096) =
    if virt < userVaTop then (tableAt s r (path (virt / 4096))).bind fun pt =>
      decode (s.mem pt (slot (virt / 4096))) else none := by
  unfold absMap
  simp only [div_lt_userPages]

/-- What a look-up finds: no mapping, or the entry of the page in its last table. -/
inductive Found (s : State) (r virt : ℕ) : Option (ℕ × ℕ) → Prop
  | none : absMap s r (virt / 4096) = none → Found s r virt none
  | some {pt e : ℕ} : virt < userVaTop → tableAt s r (path (virt / 4096)) = some pt →
      s.mem pt (slot (virt / 4096)) = e → isPresent e = true →
      absMap s r (virt / 4096) = some (frameOf e, e &&& pteFlagMask) →
      Found s r virt (some (pt, slot (virt / 4096)))

section

variable (h : Tables K R s) (hr : r ∈ R) (virt : ℕ)
include h hr virt

theorem Tables.found :
    Found s r virt (vmmLookupUserPte s r virt) := by
  have habs := absMap_eq s r virt
  rw [h.lookup_spec hr]
  by_cases hv : virt < userVaTop
  · rw [if_pos hv] at habs ⊢
    cases htab : tableAt s r (path (virt / 4096)) with
    | none =>
      rw [htab] at habs
      exact .none habs
    | some pt =>
      rw [htab, Option.bind_some, decode] at habs
      rw [Option.bind_some]
      cases hp : isPresent (s.mem pt (slot (virt / 4096))) with
      | false =>
        rw [hp] at habs
        exact .none habs
      | true =>
        rw [hp] at habs
        exact .some hv htab rfl hp habs
  · rw [if_neg hv] at habs ⊢
    exact .none habs

theorem Tables.queryUserFlags_eq :
    vmmQueryUserFlags s r virt = ((absMap s r (virt / 4096)).map Prod.snd).getD 0 := by
  have hfound := h.found hr virt
  unfold vmmQueryUserFlags
  generalize vmmLookupUserPte s r virt = o at hfound
  cases hfound with
  | none habs => simp [habs]
  | some _ _ he _ habs => simp [habs, he]

theorem Tables.virtToPhysUser_eq :
    vmmVirtToPhysUser s r virt =
      ((absMap s r (virt / 4096)).map fun x => x.1 + virt % 4096).getD 0 := by
  have hoff : virt &&& 0xFFF = virt % 4096 := Nat.and_two_pow_sub_one_eq_mod virt 12
  rw [vmmVirtToPhysUser, if_neg (h.nonzero r hr), absMap_eq, hoff]
  by_cases hv : virt < userVaTop
  · rw [if_neg (not_le.mpr hv), if_pos hv, (path_eq virt).2]
    have hw := h.walk hr hv
    generalize tableAt s r (path (virt / 4096)) = t at hw ⊢
    cases hw with
    | pt he hd hl hc hl' =>
      unfold pde pdpte pml4e at *
      simp only [he, hd, hl, hc, hl',
        Option.bind_some, decode]
      generalize hpte : s.mem _ (ptIndex virt) = pte
      have hlt := frameOf_lt pte
      cases isPresent pte with
      | false => rfl
      | true => simp [u64_of_lt (show frameOf pte + virt % 4096 < 2 ^ 64 by omega)]
    | _ => simp_all [pml4e, pdpte, pde]
  · rw [if_pos (not_lt.mp hv), if_neg hv]
    rfl

end

end TaterTOS.Vmm
