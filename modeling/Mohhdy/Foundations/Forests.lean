import Mathlib.Tactic

/-! Relations without cycles: what may be done to the edges of a forest. -/
namespace Mohhdy.Forests
set_option autoImplicit false

open Relation

variable {α : Type*} {r r' : α → α → Prop}

def Acyclic (r : α → α → Prop) : Prop := ∀ a, ¬TransGen r a a

theorem Acyclic.of_paths (h : Acyclic r) (hr : ∀ a b, r' a b → TransGen r a b) : Acyclic r' := by
  intro a ha
  exact h a (TransGen.closed hr _ _ ha)

/-- A path over edges of `r` and one new edge from `c` to `s`, when `s` does not lead to `c`,
uses the new edge at most once. -/
theorem path_over_new {c s : α} (hr : ∀ a b, r' a b → r a b ∨ (a = c ∧ b = s))
    (hs : ¬ReflTransGen r s c) {x y : α} (h : TransGen r' x y) :
    TransGen r x y ∨ (ReflTransGen r x c ∧ ReflTransGen r s y) := by
  induction h with
  | single hxy =>
    rcases hr _ _ hxy with hold | ⟨rfl, rfl⟩
    · exact .inl (TransGen.single hold)
    · exact .inr ⟨ReflTransGen.refl, ReflTransGen.refl⟩
  | tail _ hyz ih =>
    rcases hr _ _ hyz with hold | ⟨rfl, rfl⟩
    · rcases ih with hxy | ⟨hxc, hsy⟩
      · exact .inl (hxy.tail hold)
      · exact .inr ⟨hxc, hsy.tail hold⟩
    · rcases ih with hxy | ⟨-, hsy⟩
      · exact .inr ⟨hxy.to_reflTransGen, ReflTransGen.refl⟩
      · exact absurd hsy hs

theorem Acyclic.add_edge (h : Acyclic r) {c s : α} (hr : ∀ a b, r' a b → r a b ∨ (a = c ∧ b = s))
    (hs : ¬ReflTransGen r s c) : Acyclic r' := by
  intro a ha
  rcases path_over_new hr hs ha with hold | ⟨hac, hsa⟩
  · exact h a hold
  · exact hs (hsa.trans hac)

end Mohhdy.Forests
