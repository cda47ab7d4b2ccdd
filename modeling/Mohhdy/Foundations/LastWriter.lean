import Mathlib.Tactic

/-! Last writer wins: of two entries the one with the larger stamp stays.

What a register holds is compared by its rank, the stamp of its entry, below every stamp when it is
empty. Ranks decide contents as soon as a stamp names one entry. -/
namespace Mohhdy.LastWriter
set_option autoImplicit false

variable {ε σ : Type*} (stamp : ε → σ)

def rank (x : Option ε) : WithBot σ := x.elim ⊥ fun e => (stamp e : WithBot σ)

@[simp] theorem rank_none : rank stamp none = ⊥ := rfl

@[simp] theorem rank_some (e : ε) : rank stamp (some e) = (stamp e : WithBot σ) := rfl

theorem eq_of_rank_eq {P : ε → Prop} (hP : ∀ e e', P e → P e' → stamp e = stamp e' → e = e')
    {x y : Option ε} (hx : ∀ e ∈ x, P e) (hy : ∀ e ∈ y, P e) (h : rank stamp x = rank stamp y) :
    x = y := by
  cases x with
  | none =>
    cases y with
    | none => rfl
    | some e => simp at h
  | some e =>
    cases y with
    | none => simp at h
    | some e' => rw [hP e e' (hx e rfl) (hy e' rfl) (WithBot.coe_injective h)]

variable [LinearOrder σ]

def newest (x : Option ε) (e : ε) : ε :=
  x.elim e fun old => if stamp old < stamp e then e else old

theorem rank_newest (x : Option ε) (e : ε) :
    rank stamp (some (newest stamp x e)) = max (rank stamp x) (stamp e) := by
  cases x with
  | none => simp [newest]
  | some old =>
    by_cases h : stamp old < stamp e
    · simp [newest, h, h.le]
    · simp [newest, h, not_lt.mp h]

theorem newest_choice (x : Option ε) (e : ε) :
    newest stamp x e = e ∨ x = some (newest stamp x e) := by
  cases x with
  | none => exact .inl rfl
  | some old =>
    by_cases h : stamp old < stamp e
    · simp [newest, h]
    · simp [newest, h]

end Mohhdy.LastWriter
