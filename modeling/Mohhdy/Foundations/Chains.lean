import Mathlib.Tactic

/-! Chains in a pool of cells linked by index.

`Linked next o ks` says that the links from `o` lead through `ks`, in this order, to an end. A
chain is determined by where it starts, and depends only on the links of its own cells. -/
namespace Mohhdy.Chains
set_option autoImplicit false

variable {o : Option ℕ} {next next' : ℕ → Option ℕ}

def Linked (next : ℕ → Option ℕ) : Option ℕ → List ℕ → Prop
  | o, [] => o = none
  | o, k :: ks => o = some k ∧ Linked next (next k) ks

@[simp] theorem linked_nil : Linked next o [] ↔ o = none := Iff.rfl

theorem Linked.congr {ks : List ℕ} (h : Linked next o ks)
    (heq : ∀ k ∈ ks, next' k = next k) : Linked next' o ks := by
  induction ks generalizing o with
  | nil => exact h
  | cons k ks ih =>
    refine ⟨h.1, ?_⟩
    rw [heq k (by simp)]
    exact ih h.2 fun j hj => heq j (List.mem_cons_of_mem k hj)

theorem Linked.unique {ks js : List ℕ} (h : Linked next o ks)
    (h' : Linked next o js) : ks = js := by
  induction ks generalizing o js with
  | nil =>
    cases js with
    | nil => rfl
    | cons j js => exact absurd (h.symm.trans h'.1) (by simp)
  | cons k ks ih =>
    cases js with
    | nil => exact absurd (h'.symm.trans h.1) (by simp)
    | cons j js =>
      obtain rfl := Option.some.inj (h.1.symm.trans h'.1)
      rw [ih h.2 h'.2]

def walk (next : ℕ → Option ℕ) : ℕ → Option ℕ → List ℕ
  | 0, _ => []
  | fuel + 1, o => o.elim [] fun k => k :: walk next fuel (next k)

theorem Linked.walk_eq {ks : List ℕ} {fuel : ℕ} (h : Linked next o ks)
    (hf : ks.length ≤ fuel) : walk next fuel o = ks := by
  induction ks generalizing o fuel with
  | nil =>
    cases fuel with
    | zero => rfl
    | succ fuel => simp [walk, linked_nil.mp h]
  | cons k ks ih =>
    cases fuel with
    | zero => simp at hf
    | succ fuel =>
      rw [walk, h.1, Option.elim_some, ih h.2 (by simpa using hf)]

end Mohhdy.Chains
