import Mathlib.Tactic

/-! Computations that fail with a state: what holds of the answer, and what holds of the state a
failure leaves behind.

`Ends x post fault` says both about one computation. Programs are put together with `bind`, so
the rule for `bind` is the one every proof uses; the others are for the ends of a program. -/
namespace Mohhdy.Faults
set_option autoImplicit false

variable {ε α β : Type} {post : α → Prop} {fault : ε → Prop}

def Ends (x : Except ε α) (post : α → Prop) (fault : ε → Prop) : Prop :=
  (∀ a, x = .ok a → post a) ∧ ∀ e, x = .error e → fault e

namespace Ends

theorem ok {a : α} (h : post a) : Ends (.ok a) post fault := by
  refine ⟨?_, ?_⟩
  · intro b hb
    cases hb
    exact h
  · intro e he
    cases he

theorem error {e : ε} (h : fault e) : Ends (.error e) post fault := by
  refine ⟨?_, ?_⟩
  · intro a ha
    cases ha
  · intro b hb
    cases hb
    exact h

theorem bind {x : Except ε β} {f : β → Except ε α} {mid : β → Prop} (hx : Ends x mid fault)
    (hf : ∀ b, mid b → Ends (f b) post fault) : Ends (x >>= f) post fault := by
  cases x with
  | ok b => exact hf b (hx.1 b rfl)
  | error e => exact error (hx.2 e rfl)

theorem ite {c : Prop} [Decidable c] {x y : Except ε α} (hx : c → Ends x post fault)
    (hy : ¬c → Ends y post fault) : Ends (if c then x else y) post fault := by
  split
  · exact hx ‹_›
  · exact hy ‹_›

theorem guard {c : Prop} [Decidable c] {e : ε} {x : Except ε α} (he : fault e)
    (hx : ¬c → Ends x post fault) : Ends (if c then .error e else x) post fault :=
  ite (fun _ => error he) hx

theorem mono {x : Except ε α} {post' : α → Prop} {fault' : ε → Prop} (h : Ends x post fault)
    (hpost : ∀ a, post a → post' a) (hfault : ∀ e, fault e → fault' e) : Ends x post' fault' :=
  ⟨fun a ha => hpost a (h.1 a ha), fun e he => hfault e (h.2 e he)⟩

end Ends

/-! ## Runs -/

variable {σ τ : Type}

def runAll (step : σ → τ → Except ε σ) : List τ → σ → Except ε σ
  | [], s => .ok s
  | t :: ts, s => step s t >>= runAll step ts

theorem runAll_ends_mem {step : σ → τ → Except ε σ} {inv : σ → Prop} {fault : ε → Prop}
    {ts : List τ} (hstep : ∀ s, ∀ t ∈ ts, inv s → Ends (step s t) inv fault) {s : σ}
    (hs : inv s) : Ends (runAll step ts s) inv fault := by
  induction ts generalizing s with
  | nil => exact Ends.ok hs
  | cons t ts ih =>
    refine (hstep s t List.mem_cons_self hs).bind fun s' hs' => ih ?_ hs'
    intro s t ht
    exact hstep s t (List.mem_cons_of_mem _ ht)

theorem runAll_ends {step : σ → τ → Except ε σ} {inv : σ → Prop} {fault : ε → Prop}
    (hstep : ∀ s t, inv s → Ends (step s t) inv fault) {s : σ} (hs : inv s) (ts : List τ) :
    Ends (runAll step ts s) inv fault :=
  runAll_ends_mem (fun s t _ => hstep s t) hs

end Mohhdy.Faults
