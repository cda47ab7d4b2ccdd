import Mathlib.Tactic

/-! Insertion sort that scans the sorted part from its end.

The sorted part is kept reversed, so that the scan is a recursion on a list. The comparison is a
Boolean strict weak order; the result depends only on the collection of elements whenever the
order separates them. -/
namespace Mohhdy.InsertionSort
set_option autoImplicit false
open List

variable {α β : Type*}

def insertBack (lt : α → α → Bool) (x : α) : List α → List α
  | [] => [x]
  | y :: ys => if lt x y then y :: insertBack lt x ys else x :: y :: ys

def sortBack (lt : α → α → Bool) (l : List α) : List α :=
  (l.foldl (fun acc x => insertBack lt x acc) []).reverse

theorem insertBack_eq (lt : α → α → Bool) (x : α) (l : List α) :
    insertBack lt x l = l.orderedInsert (fun a b => lt a b = false) x := by
  induction l with
  | nil => rfl
  | cons y ys ih =>
    rw [insertBack, orderedInsert_cons, ih]
    cases lt x y <;> rfl

/-- The elements come in from the front of the list, as those of `insertionSort` do from its end. -/
theorem sortBack_eq (lt : α → α → Bool) (l : List α) :
    sortBack lt l = (l.reverse.insertionSort fun a b => lt a b = false).reverse := by
  simp only [sortBack, insertionSort, foldr_reverse, insertBack_eq]

theorem sortBack_perm (lt : α → α → Bool) (l : List α) : (sortBack lt l).Perm l := by
  rw [sortBack_eq]
  exact (reverse_perm _).trans ((perm_insertionSort _ _).trans (reverse_perm l))

theorem sortBack_map (f : α → β) (lt : β → β → Bool) (l : List α) :
    (sortBack (fun a b => lt (f a) (f b)) l).map f = sortBack lt (l.map f) := by
  rw [sortBack_eq, sortBack_eq, map_reverse,
    map_insertionSort _ (fun a b => lt a b = false) f _ fun _ _ _ _ => Iff.rfl, map_reverse]

section Order

variable {lt : α → α → Bool} (hasymm : ∀ x y, lt x y = true → lt y x = false)
  (hneg : ∀ x y z, lt x y = false → lt y z = false → lt x z = false)

include hasymm hneg

theorem sortBack_pairwise (l : List α) : (sortBack lt l).Pairwise fun a b => lt b a = false := by
  have htotal : Std.Total fun a b => lt a b = false := by
    refine ⟨fun x y => ?_⟩
    cases hxy : lt x y with
    | false => exact .inl rfl
    | true => exact .inr (hasymm x y hxy)
  have htrans : IsTrans α fun a b => lt a b = false := ⟨hneg⟩
  rw [sortBack_eq]
  exact pairwise_reverse.mpr (pairwise_insertionSort _ _)

theorem sortBack_congr {l m : List α} (hp : l.Perm m)
    (hsep : ∀ a ∈ l, ∀ b ∈ l, lt a b = false → lt b a = false → a = b) :
    sortBack lt l = sortBack lt m := by
  have hlm : (sortBack lt l).Perm (sortBack lt m) :=
    ((sortBack_perm lt l).trans hp).trans (sortBack_perm lt m).symm
  refine hlm.eq_of_pairwise ?_ (sortBack_pairwise hasymm hneg l) (sortBack_pairwise hasymm hneg m)
  intro a b ha hb hab hba
  have ha' : a ∈ l := (sortBack_perm lt l).mem_iff.mp ha
  have hb' : b ∈ l := hp.mem_iff.mpr ((sortBack_perm lt m).mem_iff.mp hb)
  exact hsep a ha' b hb' hba hab

end Order

end Mohhdy.InsertionSort
