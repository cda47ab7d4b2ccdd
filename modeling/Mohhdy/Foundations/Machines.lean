import Mathlib.Tactic

/-! Machines that step until they stop, within a budget of steps.

`exec_rule` is the rule of pre- and postconditions for them: an invariant that every step keeps,
and that makes every way to stop meet the postcondition, makes a whole run meet it. `Along` says
that every state a run steps from meets a condition. -/
namespace Mohhdy.Machines
set_option autoImplicit false

variable {S R : Type*}

inductive Next (S R : Type*)
  | go (s : S)
  | stop (r : R)

def Next.Sat (inv : S → Prop) (post : R → Prop) : Next S R → Prop
  | .go s => inv s
  | .stop r => post r

theorem Next.Sat.mono {inv inv' : S → Prop} {post post' : R → Prop} {x : Next S R}
    (h : x.Sat inv post) (hinv : ∀ s, inv s → inv' s) (hpost : ∀ r, post r → post' r) :
    x.Sat inv' post' := by
  cases x with
  | go s => exact hinv s h
  | stop r => exact hpost r h

variable (step : S → Next S R) (spent : S → R)

def exec : ℕ → S → R
  | 0, s => spent s
  | n + 1, s =>
    match step s with
    | .go s => exec n s
    | .stop r => r

def Along (cond : S → Prop) : ℕ → S → Prop
  | 0, _ => True
  | n + 1, s => cond s ∧ (step s).Sat (Along cond n) fun _ => True

instance Next.decidableSat {inv : S → Prop} {post : R → Prop} [DecidablePred inv]
    [DecidablePred post] : ∀ x : Next S R, Decidable (x.Sat inv post)
  | .go s => inferInstanceAs (Decidable (inv s))
  | .stop r => inferInstanceAs (Decidable (post r))

instance decidableAlong {cond : S → Prop} [DecidablePred cond] :
    ∀ n, DecidablePred (Along step cond n)
  | 0, _ => .isTrue trivial
  | n + 1, s =>
    have : DecidablePred (Along step cond n) := decidableAlong n
    inferInstanceAs (Decidable (cond s ∧ (step s).Sat (Along step cond n) fun _ => True))

variable {step spent}

theorem exec_rule {cond inv : S → Prop} {post : R → Prop}
    (hstep : ∀ s, inv s → cond s → (step s).Sat inv post) (hspent : ∀ s, inv s → post (spent s))
    {n : ℕ} {s : S} (hs : inv s) (h : Along step cond n s) : post (exec step spent n s) := by
  induction n generalizing s with
  | zero => exact hspent s hs
  | succ n ih =>
    have hnext := hstep s hs h.1
    have hrest := h.2
    simp only [exec]
    cases hx : step s with
    | go s' =>
      rw [hx] at hnext hrest
      exact ih hnext hrest
    | stop r =>
      rw [hx] at hnext
      exact hnext

theorem along_true {n : ℕ} {s : S} : Along step (fun _ => True) n s := by
  induction n generalizing s with
  | zero => trivial
  | succ n ih =>
    refine ⟨trivial, ?_⟩
    cases step s with
    | go s' => exact ih
    | stop r => trivial

theorem exec_rule_all {inv : S → Prop} {post : R → Prop}
    (hstep : ∀ s, inv s → (step s).Sat inv post) (hspent : ∀ s, inv s → post (spent s))
    {n : ℕ} {s : S} (hs : inv s) : post (exec step spent n s) :=
  exec_rule (fun s hs _ => hstep s hs) hspent hs along_true

end Mohhdy.Machines
