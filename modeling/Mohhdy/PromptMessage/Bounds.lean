import Mohhdy.PromptMessage.Expressions

/-! The bound on the nesting of statements is never reached.

A statement inside another has fewer words, so with a bound of at least their number the result does
not depend on the bound: the recursion of the source has none. -/
namespace Mohhdy.PromptMessage
set_option autoImplicit false
open List

variable {m n : ℕ}

/-- Two bounds that reach the end of a list: every turn takes an element from it and lowers both. -/
theorem bounds_induction {α : Type} {P : ℕ → ℕ → List α → Prop} (nil : ∀ n m, P n m [])
    (cons : ∀ n m a l, (∀ l', l'.length ≤ l.length → P n m l') → P (n + 1) (m + 1) (a :: l))
    {l : List α} (hn : l.length ≤ n) (hm : l.length ≤ m) : P n m l := by
  induction n generalizing m l with
  | zero =>
    obtain rfl := length_eq_zero_iff.mp (Nat.le_zero.mp hn)
    exact nil 0 m
  | succ n ih =>
    cases l with
    | nil => exact nil (n + 1) m
    | cons a l =>
      cases m with
      | zero => cases hm
      | succ m =>
        rw [length_cons, Nat.add_le_add_iff_right] at hn hm
        exact cons n m a l fun l' hl => ih (hl.trans hn) (hl.trans hm)

theorem bind_congr_ok {ε α β : Type} {x : Except ε α} {f g : α → Except ε β}
    (h : ∀ a, x = .ok a → f a = g a) : (x >>= f) = (x >>= g) := by
  cases x with
  | error e => rfl
  | ok a => exact h a rfl

variable {σ : Type} {c : Cc σ} {eol : ℕ} {ts r : List Tok}

/-! ## Words of a statement -/

theorem takeWord_length {w : String} {msg : Complaint} (h : takeWord eol w msg ts c = .ok r) :
    r.length < ts.length := by
  obtain ⟨t, rfl⟩ := takeWord_ok h
  exact Nat.lt_succ_self _

/-! ## Inline statements -/

def Agree (n : ℕ) (f g : List Tok → Cc σ → Except CcError (Cc σ)) : Prop :=
  ∀ ts c, ts.length < n → f ts c = g ts c

variable {f g : List Tok → Cc σ → Except CcError (Cc σ)}

theorem ccInline_agree (h : Agree n f g) (hts : ts.length < n) :
    ccInline eol f ts c = ccInline eol g ts c := by
  unfold ccInline
  rw [h ts c hts]

theorem ccIf_agree (h : Agree ts.length f g) : ccIf eol f ts c = ccIf eol g ts c := by
  unfold ccIf
  refine bind_congr_ok ?_
  rintro ⟨r, c₁⟩ hcond
  refine bind_congr_ok fun r' hword => ?_
  have hlt : r'.length < ts.length := (takeWord_length hword).trans (ccCond_ok hcond).2
  simp only [ccInline_agree h hlt]

theorem ccRepeat_agree (h : Agree ts.length f g) : ccRepeat eol f ts c = ccRepeat eol g ts c := by
  unfold ccRepeat
  cases varSlot (counterName c) true c with
  | none => rfl
  | some x =>
    refine bind_congr_ok ?_
    rintro ⟨r, c₁⟩ hexpr
    refine bind_congr_ok fun r' hword => ?_
    have hlt : r'.length < ts.length := (takeWord_length hword).trans (ccExpr_ok hexpr).2
    simp only [ccInline_agree h hlt]

theorem skipSays_length : (skipSays ts).length ≤ ts.length := by
  fun_cases skipSays ts <;> simp
  omega

theorem ccWhen_agree {col : ℕ} (h : Agree ts.length f g) :
    ccWhen eol f col ts c = ccWhen eol g col ts c := by
  unfold ccWhen
  split
  · rfl
  cases hskip : skipSays ts with
  | nil => rfl
  | cons t ts' =>
    have h1 : (skipSays ts).length ≤ ts.length := skipSays_length
    rw [hskip, length_cons] at h1
    dsimp only
    split
    · rfl
    split
    · rfl
    cases poolAdd t.text c with
    | none => rfl
    | some x =>
      refine bind_congr_ok fun r hword => ?_
      have hlt : r.length < ts.length := (takeWord_length hword).trans h1
      simp only [ccInline_agree h hlt]

theorem ccStmt_bound {h : Host σ} {lib : Bytes → Cc σ → Except CcError (Cc σ)} (k : ℕ) :
    ccStmt h lib eol (ts.length + k) ts c = ccStmt h lib eol ts.length ts c := by
  refine bounds_induction (P := fun n m ts => ∀ c, ccStmt h lib eol n ts c = ccStmt h lib eol m ts c)
    (fun n m c => ?_) (fun n m t ts ih c => ?_) (Nat.le_add_right _ k) le_rfl c
  · cases n <;> cases m <;> rfl
  have hagree : Agree ts.length (ccStmt h lib eol n) (ccStmt h lib eol m) :=
    fun ts' c' hlt => ih ts' hlt.le c'
  rw [ccStmt, ccStmt, ccIf_agree hagree, ccRepeat_agree hagree, ccWhen_agree hagree]

end Mohhdy.PromptMessage
