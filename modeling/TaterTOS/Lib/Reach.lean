import Mathlib.Tactic

/-!
# Trees by their edges

The nodes that a root leads to, and how they change with the edges.
-/

namespace Lib

variable {α : Type*} {child child' : α → α → Prop} {root x n p : α} {r r' : α → α → Prop}

abbrev Reach (child : α → α → Prop) (root : α) : α → Prop := Relation.ReflTransGen child root

theorem reach_mono (h : ∀ a b, Reach child root a → child a b → child' a b)
    (hx : Reach child root x) :
    Reach child' root x := by
  induction hx with
  | refl => exact .refl
  | tail ha hab ih => exact ih.tail (h _ _ ha hab)

theorem reach_congr (h : ∀ a b, Reach child root a → (child' a b ↔ child a b)) :
    Reach child' root x ↔ Reach child root x := by
  constructor
  · intro hx
    induction hx with
    | refl => exact .refl
    | tail _ hab ih => exact ih.tail ((h _ _ ih).mp hab)
  · exact reach_mono fun a b ha => (h a b ha).mpr

theorem reach_add (hp : Reach child root p)
    (h : ∀ a b, Reach child root a → (child' a b ↔ child a b ∨ a = p ∧ b = n))
    (hn : ∀ b, child' n b → Reach child root b ∨ b = n) :
    Reach child' root x ↔ Reach child root x ∨ x = n := by
  have hold : ∀ y, Reach child root y → Reach child' root y := fun y =>
    reach_mono fun a b ha hab => (h a b ha).mpr (.inl hab)
  constructor
  · intro hx
    induction hx with
    | refl => exact .inl .refl
    | tail _ hab ih =>
      rcases ih with ha | rfl
      · rcases (h _ _ ha).mp hab with hab | ⟨-, rfl⟩
        · exact .inl (ha.tail hab)
        · exact .inr rfl
      · exact hn _ hab
  · rintro (hx | rfl)
    · exact hold x hx
    · exact (hold p hp).tail ((h p _ hp).mpr (.inr ⟨rfl, rfl⟩))

theorem reach_remove (h : ∀ a b, Reach child root a → a ≠ n → (child' a b ↔ child a b ∧ b ≠ n))
    (hn : ∀ b, ¬child n b) (hroot : root ≠ n) :
    Reach child' root x ↔ Reach child root x ∧ x ≠ n := by
  constructor
  · intro hx
    induction hx with
    | refl => exact ⟨.refl, hroot⟩
    | tail _ hab ih =>
      obtain ⟨hab, hb⟩ := (h _ _ ih.1 ih.2).mp hab
      exact ⟨ih.1.tail hab, hb⟩
  · rintro ⟨hx, hne⟩
    induction hx with
    | refl => exact .refl
    | @tail a b ha hab ih =>
      have hane : a ≠ n := fun heq => hn b (heq ▸ hab)
      exact (ih hane).tail ((h a b ha hane).mpr ⟨hab, hne⟩)

/-! ### No cycles -/

def Acyclic (r : α → α → Prop) : Prop := ∀ a, ¬ Relation.TransGen r a a

theorem Acyclic.mono (h : Acyclic r) (hsub : ∀ a b, r' a b → r a b) :
    Acyclic r' := fun a ha => h a (Relation.TransGen.mono hsub _ _ ha)

theorem Acyclic.add {a b : α} (h : Acyclic r)
    (hadd : ∀ x y, r' x y → r x y ∨ x = a ∧ y = b) (hba : ¬ Relation.ReflTransGen r b a) :
    Acyclic r' := by
  have hpath : ∀ {x y}, Relation.TransGen r' x y → Relation.TransGen r x y ∨
      Relation.ReflTransGen r x a ∧ Relation.ReflTransGen r b y := by
    intro x y hxy
    induction hxy with
    | single hxy =>
      rcases hadd _ _ hxy with hr | ⟨rfl, rfl⟩
      · exact .inl (.single hr)
      · exact .inr ⟨.refl, .refl⟩
    | tail _ hyz ih =>
      rcases hadd _ _ hyz with hr | ⟨rfl, rfl⟩
      · exact ih.imp (fun hxy => hxy.tail hr) fun hxy => ⟨hxy.1, hxy.2.tail hr⟩
      · rcases ih with hxy | ⟨-, hby⟩
        · exact .inr ⟨hxy.to_reflTransGen, .refl⟩
        · exact absurd hby hba
  intro x hx
  rcases hpath hx with hr | ⟨hxa, hbx⟩
  · exact h x hr
  · exact hba (hbx.trans hxa)

end Lib
