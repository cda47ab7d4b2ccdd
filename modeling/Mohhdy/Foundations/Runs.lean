import Mathlib.Tactic

/-! Runs of a deterministic transition function, and the rule that proves an invariant of them.

A condition on steps is a relation between the state a step starts in and the event that makes
it; `Along` says that every step of a run meets it. A prefix of such a run is such a run, so a
statement about the last state of a run is one about every state it reaches. -/
namespace Mohhdy.Runs
set_option autoImplicit false

variable {σ ε : Type*} (step : σ → ε → σ) {cond : σ → ε → Prop} {evs : List ε}

def run (s : σ) (evs : List ε) : σ := evs.foldl step s

def Along (cond : σ → ε → Prop) : σ → List ε → Prop
  | _, [] => True
  | s, e :: evs => cond s e ∧ Along cond (step s e) evs

instance decidableAlong {cond : σ → ε → Prop} [∀ s e, Decidable (cond s e)] :
    ∀ s evs, Decidable (Along step cond s evs)
  | _, [] => .isTrue trivial
  | s, e :: evs =>
    have : Decidable (Along step cond (step s e) evs) := decidableAlong (step s e) evs
    inferInstanceAs (Decidable (cond s e ∧ Along step cond (step s e) evs))

@[simp] theorem run_nil (s : σ) : run step s [] = s := rfl

@[simp] theorem run_cons (s : σ) (e : ε) (evs : List ε) :
    run step s (e :: evs) = run step (step s e) evs := rfl

variable {step}

theorem run_append {s : σ} {evs' : List ε} : run step s (evs ++ evs') = run step (run step s evs) evs' :=
  List.foldl_append

def laps (lap : List ε) (n : ℕ) : List ε := (List.replicate n lap).flatten

theorem run_laps {lap : List ε} {s : σ} {p : ℕ → σ → Prop} (hs : p 0 s)
    (hlap : ∀ n t, p n t → p (n + 1) (run step t lap)) (n : ℕ) : p n (run step s (laps lap n)) := by
  induction n with
  | zero => exact hs
  | succ n ih =>
    rw [laps, List.replicate_succ', List.flatten_append, List.flatten_singleton, run_append]
    exact hlap n _ ih

theorem run_invariant {inv : σ → Prop}
    (hstep : ∀ s e, inv s → cond s e → inv (step s e)) {s : σ} (hs : inv s)
    (h : Along step cond s evs) : inv (run step s evs) := by
  induction evs generalizing s with
  | nil => exact hs
  | cons e evs ih => exact ih (hstep s e hs h.1) h.2

theorem run_invariant_all {inv : σ → Prop} (hstep : ∀ s e, inv s → inv (step s e)) {s : σ}
    (hs : inv s) : inv (run step s evs) := by
  induction evs generalizing s with
  | nil => exact hs
  | cons e evs ih => exact ih (hstep s e hs)

theorem along_of_forall (h : ∀ e ∈ evs, ∀ s, cond s e) (s : σ) : Along step cond s evs := by
  induction evs generalizing s with
  | nil => trivial
  | cons e evs ih =>
    refine ⟨h e List.mem_cons_self s, ih ?_ _⟩
    intro x hx
    exact h x (List.mem_cons_of_mem _ hx)

/-- While the invariant lasts a property holds, and the step that breaks the condition breaks the
property: it holds in every state of a run exactly if every step meets the condition. -/
theorem prefix_iff_along {inv p : σ → Prop} (hgood : ∀ s, inv s → p s)
    (hstep : ∀ s e, inv s → cond s e → inv (step s e))
    (hbad : ∀ s e, inv s → ¬ cond s e → ¬ p (step s e)) {s : σ} (hs : inv s) :
    (∀ pre, pre <+: evs → p (run step s pre)) ↔ Along step cond s evs := by
  induction evs generalizing s with
  | nil =>
    refine iff_of_true ?_ trivial
    intro pre hpre
    rw [List.prefix_nil.mp hpre]
    exact hgood s hs
  | cons e evs ih =>
    constructor
    · intro hall
      have hcond : cond s e := by
        by_contra hc
        exact hbad s e hs hc (hall [e] ⟨evs, rfl⟩)
      refine ⟨hcond, (ih (hstep s e hs hcond)).mp ?_⟩
      intro pre hpre
      exact hall (e :: pre) ((List.prefix_cons_inj e).mpr hpre)
    · rintro ⟨hcond, hrest⟩ pre hpre
      cases pre with
      | nil => exact hgood s hs
      | cons x pre =>
        obtain ⟨rfl, hpre'⟩ := List.cons_prefix_cons.mp hpre
        exact (ih (hstep s _ hs hcond)).mpr hrest pre hpre'

theorem run_prefix_iff {inv p : σ → Prop} (hinv : ∀ s e, inv s → inv (step s e))
    (hstep : ∀ s e, inv s → p s → (p (step s e) ↔ cond s e)) {s : σ} (hs : inv s)
    (hp : p s) : (∀ pre, pre <+: evs → p (run step s pre)) ↔ Along step cond s evs := by
  refine prefix_iff_along (fun s (h : inv s ∧ p s) => h.2) (fun s e h hc => ?_)
    (fun s e h hc hp => ?_) ⟨hs, hp⟩
  · exact ⟨hinv s e h.1, (hstep s e h.1 h.2).mpr hc⟩
  · exact hc ((hstep s e h.1 h.2).mp hp)

end Mohhdy.Runs
