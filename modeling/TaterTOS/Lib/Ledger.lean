import Mathlib.Tactic

/-!
# Ledgers

Objects are live or not, and holders refer to them. In a ledger the live objects are exactly those
of others, which nobody here holds, and those that somebody here holds.
-/

namespace Lib

open Function

variable {ι ω : Type*}

/-- The live objects are those of others and those that are held. -/
structure Ledger (others live : ω → Prop) (held : ι → Option ω) : Prop where
  others_live : ∀ o, others o → live o
  held_iff : ∀ o, (∃ a, held a = some o) ↔ live o ∧ ¬others o

namespace Ledger

variable {others live live' : ω → Prop} {held : ι → Option ω} {a b : ι} {o : ω}

theorem live_of_held (h : Ledger others live held) (ha : held a = some o) : live o :=
  ((h.held_iff o).mp ⟨a, ha⟩).1

theorem congr (h : Ledger others live held) (hlive : ∀ x, live' x ↔ live x) :
    Ledger others live' held :=
  ⟨fun x hx => (hlive x).mpr (h.others_live x hx), fun x => by rw [hlive x, h.held_iff x]⟩

theorem held_others (ha : held a = none) (x : ω) :
    (∃ b, b ≠ a ∧ held b = some x) ↔ ∃ b, held b = some x := by
  refine exists_congr fun b => and_iff_right_of_imp ?_
  rintro hb rfl
  exact absurd (ha.symm.trans hb) nofun

variable [DecidableEq ι]

theorem held_update (v : Option ω) (x : ω) :
    (∃ b, update held a v b = some x) ↔ v = some x ∨ ∃ b, b ≠ a ∧ held b = some x :=
  exists_update_iff held fun _ y => y = some x

section

variable (h : Ledger others live held)
include h

theorem enter (ha : held a = none) (ho : ¬live o)
    (hlive : ∀ x, live' x ↔ x = o ∨ live x) :
    Ledger others live' (update held a (some o)) := by
  refine ⟨fun x hx => (hlive x).mpr (.inr (h.others_live x hx)), fun x => ?_⟩
  rw [hlive x, held_update, held_others ha, h.held_iff x, or_and_right]
  refine or_congr_left ⟨?_, ?_⟩
  · rintro ⟨⟩
    exact ⟨rfl, fun hx => ho (h.others_live o hx)⟩
  · rintro ⟨rfl, -⟩
    rfl

theorem share (ha : held a = none) (hb : held b = some o) :
    Ledger others live (update held a (some o)) := by
  refine ⟨h.others_live, fun x => ?_⟩
  rw [held_update, held_others ha, ← h.held_iff x]
  exact or_iff_right_of_imp fun hx => ⟨b, hb.trans hx⟩

theorem leave (ha : held a = some o)
    (hlast : ∀ b, held b = some o → b = a) (hlive : ∀ x, live' x ↔ live x ∧ x ≠ o) :
    Ledger others live' (update held a none) := by
  have hout : ¬others o := ((h.held_iff o).mp ⟨a, ha⟩).2
  refine ⟨fun x hx => (hlive x).mpr ⟨h.others_live x hx, ?_⟩, fun x => ?_⟩
  · rintro rfl
    exact hout hx
  rw [hlive x, held_update, or_iff_right nofun, and_right_comm, ← h.held_iff x]
  constructor
  · rintro ⟨b, hba, hb⟩
    exact ⟨⟨b, hb⟩, fun hx => hba (hlast b (hx ▸ hb))⟩
  · rintro ⟨⟨b, hb⟩, hne⟩
    refine ⟨b, ?_, hb⟩
    rintro rfl
    exact hne (Option.some.inj (hb.symm.trans ha))

theorem part (hab : b ≠ a) (heq : held b = held a) :
    Ledger others live (update held a none) := by
  refine ⟨h.others_live, fun x => ?_⟩
  rw [held_update, or_iff_right nofun, ← h.held_iff x]
  refine ⟨fun ⟨c, _, hc⟩ => ⟨c, hc⟩, ?_⟩
  rintro ⟨c, hc⟩
  by_cases hca : c = a
  · exact ⟨b, hab, by rw [heq, ← hca, hc]⟩
  · exact ⟨c, hca, hc⟩

end

end Ledger

end Lib
