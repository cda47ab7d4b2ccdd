import Mohhdy.Foundations.Tables

/-! A queue kept in the slots of a table: its records carry growing keys, a new one goes into the
first free slot, and the one with the smallest key is taken. -/
namespace Mohhdy.Slots
set_option autoImplicit false

open Tables List

variable {α : Type*} {mine free : α → Bool} {key : α → ℕ} {l q : List α}

structure Represents (mine : α → Bool) (key : α → ℕ) (l q : List α) : Prop where
  perm : q.Perm (l.filter mine)
  sorted : q.Pairwise fun a b => key a < key b

section
variable (h : Represents mine key l q)
include h

theorem Represents.other {p : α → Bool} {f : α → α}
    (hp : ∀ a, p a = true → mine a = false) (hf : ∀ a, p a = true → mine (f a) = false) :
    Represents mine key (modifyFirst p f l) q :=
  ⟨filter_modifyFirst hp hf l ▸ h.perm, h.sorted⟩

theorem Represents.push {a : α} (hfree : ∀ x, free x = true → mine x = false)
    (hany : l.any free = true) (ha : mine a = true) (hlast : ∀ x ∈ q, key x < key a) :
    Represents mine key (modifyFirst free (fun _ => a) l) (q ++ [a]) := by
  obtain ⟨l₁, x, l₂, rfl, hx, -, hmod⟩ := modifyFirst_split (fun _ => a) hany
  have hperm := h.perm
  rw [filter_append, filter_cons_of_neg (by simp [hfree x hx])] at hperm
  constructor
  · rw [hmod, filter_append, filter_cons_of_pos ha]
    exact (hperm.append_right [a]).trans (by
      rw [append_assoc]
      exact (perm_append_singleton a _).append_left _)
  · refine pairwise_append.mpr ⟨h.sorted, pairwise_singleton _ _, ?_⟩
    intro x hx b hb
    rw [mem_singleton.mp hb]
    exact hlast x hx

theorem Represents.mem {x : α} : x ∈ q ↔ x ∈ l ∧ mine x = true := by
  rw [h.perm.mem_iff, mem_filter]

theorem Represents.key_inj {x y : α} (hx : x ∈ q) (hy : y ∈ q) (hk : key x = key y) : x = y := by
  have hnodup : (q.map key).Nodup := pairwise_map.mpr (h.sorted.imp fun hlt => hlt.ne)
  exact inj_on_of_nodup_map hnodup hx hy hk

theorem Represents.least_eq : least mine key l = q.head? := by
  cases hl : least mine key l with
  | none =>
    have hnone := least_none hl
    cases q with
    | nil => rfl
    | cons x q =>
      obtain ⟨hx, hmine⟩ := h.mem.mp mem_cons_self
      rw [hnone x hx] at hmine
      cases hmine
  | some a =>
    obtain ⟨ha, hmine, hmin⟩ := least_spec hl
    have haq : a ∈ q := h.mem.mpr ⟨ha, hmine⟩
    cases q with
    | nil => cases haq
    | cons x q =>
      obtain ⟨hx, hxmine⟩ := h.mem.mp mem_cons_self
      have hle := hmin x hx hxmine
      rcases mem_cons.mp haq with rfl | haq
      · rfl
      · have hlt := (pairwise_cons.mp h.sorted).1 a haq
        omega

end

theorem Represents.take {x : α} {f : α → α} (h : Represents mine key l (x :: q))
    (hf : ∀ a, mine (f a) = false) :
    Represents mine key (modifyFirst (fun a => mine a && key a == key x) f l) q := by
  obtain ⟨hx, hmine⟩ := h.mem.mp (mem_cons_self)
  have hany : l.any (fun a => mine a && key a == key x) = true :=
    any_eq_true.mpr ⟨x, hx, by simp [hmine]⟩
  obtain ⟨l₁, y, l₂, rfl, hy, -, hmod⟩ := modifyFirst_split f hany
  obtain ⟨hymine, hkey⟩ := Bool.and_eq_true_iff.mp hy
  have hyq := h.mem.mpr ⟨by simp, hymine⟩
  have hyx : y = x := h.key_inj hyq mem_cons_self (by simpa using hkey)
  have hperm := h.perm
  rw [filter_append, filter_cons_of_pos hymine, hyx] at hperm
  constructor
  · rw [hmod, filter_append, filter_cons_of_neg (by simp [hf y])]
    exact List.Perm.cons_inv (hperm.trans perm_middle)
  · exact (pairwise_cons.mp h.sorted).2

theorem Represents.nil_iff (h : Represents mine key l q) : q = [] ↔ ∀ x ∈ l, mine x = false := by
  rw [← length_eq_zero_iff, h.perm.length_eq, length_eq_zero_iff, filter_eq_nil_iff]
  simp

end Mohhdy.Slots
