import Mathlib.Tactic

/-! A desk that serves one job at a time. A job is begun by its owner for a worker and holds the desk until
its reply or its failure is taken, or it is cancelled or dropped. The log has all jobs, the newest first;
their numbers go round and round. -/
namespace Mohhdy.Desk
set_option autoImplicit false
open List

variable {m : ℕ}

inductive Fate (ρ ε : Type) where
  | outstanding
  | completed (reply : ρ)
  | failed (error : ε)
  | cancelled
  | dropped
  | taken

variable {π ρ ε : Type}

def Fate.held : Fate ρ ε → Bool
  | .outstanding | .completed _ | .failed _ => true
  | .cancelled | .dropped | .taken => false

structure Job (π ρ ε : Type) where
  id : ℕ
  (owner worker : π)
  fate : Fate ρ ε

variable (fate : Fate ρ ε)

def settle : List (Job π ρ ε) → List (Job π ρ ε)
  | [] => []
  | job :: rest => { job with fate := fate } :: rest

def withdraw : List (Job π ρ ε) → List (Job π ρ ε)
  | [] => []
  | job :: rest =>
    match job.fate with
    | .outstanding => { job with fate := fate } :: rest
    | _ => job :: rest

def close : List (Job π ρ ε) → List (Job π ρ ε)
  | [] => []
  | job :: rest => if job.fate.held then { job with fate := fate } :: rest else job :: rest

def Numbered (m : ℕ) : List (Job π ρ ε) → Prop
  | [] => True
  | job :: rest => job.id = rest.length % m + 1 ∧ Numbered m rest

def Single (log : List (Job π ρ ε)) : Prop := ∀ job ∈ log.tail, job.fate.held = false

def Idle (log : List (Job π ρ ε)) : Prop := ∀ job ∈ log, job.fate.held = false

variable {log log' : List (Job π ρ ε)}

def Refated (log log' : List (Job π ρ ε)) : Prop :=
  log' = log ∨ ∃ job rest fate, log = job :: rest ∧ log' = { job with fate := fate } :: rest

theorem Refated.keeps (h : Refated log log') :
    log'.length = log.length ∧ (Numbered m log → Numbered m log') ∧ (Single log → Single log') := by
  rcases h with rfl | ⟨job, rest, fate, rfl, rfl⟩
  · exact ⟨rfl, id, id⟩
  · exact ⟨rfl, id, id⟩

theorem settle_refated (fate : Fate ρ ε) (log : List (Job π ρ ε)) : Refated log (settle fate log) := by
  cases log with
  | nil => exact .inl rfl
  | cons job rest => exact .inr ⟨job, rest, fate, rfl, rfl⟩

theorem withdraw_refated (fate : Fate ρ ε) (log : List (Job π ρ ε)) :
    Refated log (withdraw fate log) := by
  fun_cases withdraw
  · exact .inl rfl
  · exact .inr ⟨_, _, _, rfl, rfl⟩
  · exact .inl rfl

theorem close_refated (fate : Fate ρ ε) (log : List (Job π ρ ε)) : Refated log (close fate log) := by
  fun_cases close
  · exact .inl rfl
  · exact .inr ⟨_, _, _, rfl, rfl⟩
  · exact .inl rfl

variable {job : Job π ρ ε}

theorem withdraw_outstanding (h : job.fate = .outstanding) (fate : Fate ρ ε)
    (rest : List (Job π ρ ε)) : withdraw fate (job :: rest) = { job with fate := fate } :: rest := by
  rw [withdraw, h]

theorem withdraw_other (h : ∀ job ∈ log.head?, job.fate ≠ .outstanding) (fate : Fate ρ ε) :
    withdraw fate log = log := by
  fun_cases withdraw
  · rfl
  · exact absurd ‹_› (h _ rfl)
  · rfl

theorem Single.close (h : Single log) {fate : Fate ρ ε} (hf : fate.held = false) :
    Idle (close fate log) := by
  fun_cases Desk.close
  · exact forall_mem_nil _
  · exact forall_mem_cons.mpr ⟨hf, h⟩
  · exact forall_mem_cons.mpr ⟨by simp_all, h⟩

theorem Numbered.le_length (h : Numbered m log) : ∀ job ∈ log, job.id ≤ log.length := by
  induction log with
  | nil =>
    intro job hjob
    cases hjob
  | cons job rest ih =>
    refine forall_mem_cons.mpr ⟨?_, fun x hx => ?_⟩
    · rw [h.1]
      exact Nat.succ_le_succ (Nat.mod_le _ _)
    · exact (ih h.2 x hx).trans (Nat.le_succ _)

theorem Numbered.fresh {rest : List (Job π ρ ε)} (h : Numbered m (job :: rest))
    (hlen : rest.length < m) : ∀ x ∈ rest, x.id ≠ job.id := by
  intro x hx heq
  have hle := h.2.le_length x hx
  rw [heq, h.1, Nat.mod_eq_of_lt hlen] at hle
  omega

theorem Numbered.one (h : Numbered m log) (hne : log ≠ []) : ∃ job ∈ log, job.id = 1 := by
  induction log with
  | nil => exact absurd rfl hne
  | cons job rest ih =>
    by_cases hrest : rest = []
    · refine ⟨job, mem_cons_self, ?_⟩
      rw [h.1, hrest]
      simp
    · obtain ⟨x, hx, hid⟩ := ih h.2 hrest
      exact ⟨x, mem_cons_of_mem _ hx, hid⟩

theorem next_number (m n : ℕ) (hm : 0 < m) : (if n % m + 1 + 1 ≤ m then n % m + 1 + 1 else 1) = (n + 1) % m + 1 := by
  have hlt := Nat.mod_lt n hm
  rw [Nat.add_mod]
  split_ifs with h
  · have hone : 1 % m = 1 := Nat.mod_eq_of_lt (by omega)
    rw [hone, Nat.mod_eq_of_lt (by omega : n % m + 1 < m)]
  · have hend : n % m + 1 = m := by omega
    rcases Nat.lt_or_ge 1 m with h1 | h1
    · rw [Nat.mod_eq_of_lt h1, hend, Nat.mod_self]
    · have : m = 1 := by omega
      subst this
      simp [Nat.mod_one]

end Mohhdy.Desk
