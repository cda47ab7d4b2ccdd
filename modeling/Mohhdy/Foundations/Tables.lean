import Mathlib.Tactic

/-! Tables searched from the front: the first record with a property, an update of that record
in place, and what such an update does to sums over the table.

A fixed-size array with a fill count is a list here; a pointer to the first matching record is
the record itself, and a write through the pointer is `modifyFirst`. -/
namespace Mohhdy.Tables
set_option autoImplicit false
open List

variable {α β : Type*} {p : α → Bool} {f : α → α} {l : List α} {a x : α}

def modifyFirst (p : α → Bool) (f : α → α) : List α → List α
  | [] => []
  | a :: l => if p a then f a :: l else a :: modifyFirst p f l

@[simp] theorem modifyFirst_length (p : α → Bool) (f : α → α) (l : List α) :
    (modifyFirst p f l).length = l.length := by
  induction l with
  | nil => rfl
  | cons a l ih =>
    by_cases h : p a = true <;> simp [modifyFirst, h, ih]

theorem modifyFirst_append (m : List α)
    (h : ∀ a ∈ l, p a = false) : modifyFirst p f (l ++ m) = l ++ modifyFirst p f m := by
  induction l with
  | nil => rfl
  | cons b l ih =>
    obtain ⟨hb, hl⟩ := forall_mem_cons.mp h
    rw [cons_append, modifyFirst, hb, if_neg Bool.false_ne_true, ih hl, cons_append]

theorem modifyFirst_of_none (h : l.find? p = none) : modifyFirst p f l = l := by
  have heq := modifyFirst_append (f := f) [] (by simpa using h)
  simpa [modifyFirst] using heq

theorem modifyFirst_append_of_none
    (h : l.find? p = none) (ha : p a = true) : modifyFirst p f (l ++ [a]) = l ++ [f a] := by
  rw [modifyFirst_append [a] (by simpa using h), modifyFirst, if_pos ha]

theorem modifyFirst_found (h : l.find? p = some x) (f : α → α) :
    ∃ l₁ l₂, l = l₁ ++ x :: l₂ ∧ p x = true ∧ (∀ a ∈ l₁, p a = false) ∧
      modifyFirst p f l = l₁ ++ f x :: l₂ := by
  obtain ⟨hx, l₁, l₂, rfl, hl₁⟩ := List.find?_eq_some_iff_append.mp h
  have hl₁ : ∀ a ∈ l₁, p a = false := by simpa using hl₁
  refine ⟨l₁, l₂, rfl, hx, hl₁, ?_⟩
  rw [modifyFirst_append _ hl₁, modifyFirst, if_pos hx]

theorem modifyFirst_split (f : α → α) (h : l.any p = true) :
    ∃ l₁ x l₂, l = l₁ ++ x :: l₂ ∧ p x = true ∧ (∀ a ∈ l₁, p a = false) ∧
      modifyFirst p f l = l₁ ++ f x :: l₂ := by
  obtain ⟨x, hx⟩ : ∃ x, l.find? p = some x := by simpa [← Option.isSome_iff_exists] using h
  obtain ⟨l₁, l₂, hsplit⟩ := modifyFirst_found hx f
  exact ⟨l₁, x, l₂, hsplit⟩

variable {k : α → β}

theorem map_modifyFirst {q : β → Bool} {g : β → β}
    (hp : ∀ a, q (k a) = p a) (hk : ∀ a, k (f a) = g (k a)) (l : List α) :
    (modifyFirst p f l).map k = modifyFirst q g (l.map k) := by
  induction l with
  | nil => rfl
  | cons a l ih =>
    by_cases h : p a = true <;> simp [modifyFirst, h, hp, hk, ih]

theorem modifyFirst_map_found
    (hk : ∀ x, l.find? p = some x → k (f x) = k x) : (modifyFirst p f l).map k = l.map k := by
  induction l with
  | nil => rfl
  | cons a l ih =>
    by_cases h : p a = true
    · simp [modifyFirst, h, hk a (by simp [h])]
    · simp [modifyFirst, h, ih fun x hx => hk x (by simp [h, hx])]

theorem modifyFirst_map (p : α → Bool) (f : α → α) (k : α → β) (hk : ∀ a, k (f a) = k a)
    (l : List α) : (modifyFirst p f l).map k = l.map k :=
  modifyFirst_map_found fun x _ => hk x

theorem modifyFirst_congr {g : α → α} (h : ∀ x, l.find? p = some x → f x = g x) :
    modifyFirst p f l = modifyFirst p g l := by
  induction l with
  | nil => rfl
  | cons a l ih =>
    by_cases hp : p a = true
    · simp [modifyFirst, hp, h a (by simp [hp])]
    · simp [modifyFirst, hp, ih fun x hx => h x (by simp [hp, hx])]

theorem forall₂_modifyFirst {R : α → α → Prop} (hrefl : ∀ a, R a a)
    (hf : ∀ x, l.find? p = some x → R x (f x)) : Forall₂ R l (modifyFirst p f l) := by
  cases hx : l.find? p with
  | none =>
    rw [modifyFirst_of_none hx]
    exact forall₂_same.mpr fun a _ => hrefl a
  | some x =>
    obtain ⟨l₁, l₂, rfl, -, -, hmod⟩ := modifyFirst_found hx f
    rw [hmod]
    exact rel_append (forall₂_same.mpr fun a _ => hrefl a)
      (.cons (hf x hx) (forall₂_same.mpr fun a _ => hrefl a))

theorem modifyFirst_forall {P : α → Prop} (hl : ∀ a ∈ l, P a) (hf : ∀ x, l.find? p = some x → P x → P (f x)) :
    ∀ a ∈ modifyFirst p f l, P a := by
  cases hx : l.find? p with
  | none => rwa [modifyFirst_of_none hx]
  | some x =>
    have hnew := hf x hx (hl x (mem_of_find?_eq_some hx))
    obtain ⟨l₁, l₂, rfl, -, -, hmod⟩ := modifyFirst_found hx f
    rw [forall_mem_append, forall_mem_cons] at hl
    rw [hmod, forall_mem_append, forall_mem_cons]
    exact ⟨hl.1, hnew, hl.2.2⟩

theorem modifyFirst_mem (h : l.find? p = some x) : f x ∈ modifyFirst p f l := by
  obtain ⟨l₁, l₂, -, -, -, hmod⟩ := modifyFirst_found h f
  simp [hmod]

theorem mem_modifyFirst {key : β}
    (hk : ∀ a, p a = true ↔ k a = key) (hl : (l.map k).Nodup) (ha : a ∈ modifyFirst p f l) :
    (a ∈ l ∧ k a ≠ key) ∨ ∃ x ∈ l, k x = key ∧ a = f x := by
  cases hx : l.find? p with
  | none =>
    rw [modifyFirst_of_none hx] at ha
    exact .inl ⟨ha, fun h => List.find?_eq_none.mp hx a ha ((hk a).mpr h)⟩
  | some x =>
    obtain ⟨l₁, l₂, rfl, hpx, -, hmod⟩ := modifyFirst_found hx f
    have hkey := (hk x).mp hpx
    obtain ⟨hnot, -⟩ := nodup_cons.mp (nodup_middle.mp (map_append .. ▸ hl))
    rw [← map_append, hkey] at hnot
    rw [hmod, (perm_middle).mem_iff] at ha
    rcases mem_cons.mp ha with rfl | ha
    · exact .inr ⟨x, by simp, hkey, rfl⟩
    · exact .inl ⟨by grind, fun h => hnot (h ▸ mem_map_of_mem ha)⟩

theorem filter_modifyFirst {q : α → Bool} (hp : ∀ a, p a = true → q a = false)
    (hf : ∀ a, p a = true → q (f a) = false) (l : List α) :
    (modifyFirst p f l).filter q = l.filter q := by
  induction l with
  | nil => rfl
  | cons a l ih =>
    by_cases h : p a = true
    · rw [modifyFirst, if_pos h, filter_cons_of_neg (by simp [hf a h]),
        filter_cons_of_neg (by simp [hp a h])]
    · rw [modifyFirst, if_neg h, filter_cons, filter_cons, ih]

theorem find?_modifyFirst {q : α → Bool} (hp : ∀ a, p a = true → q a = false)
    (hf : ∀ a, p a = true → q (f a) = false) (l : List α) :
    (modifyFirst p f l).find? q = l.find? q := by
  rw [← head?_filter, filter_modifyFirst hp hf, head?_filter]

/-! ## The record with the smallest key -/

def least (p : α → Bool) (key : α → ℕ) (l : List α) : Option α :=
  l.foldl (fun found a => if p a && found.all (fun f => key a < key f) then some a else found) none

variable {key : α → ℕ}

theorem leastLoop_spec {found : Option α}
    (h : l.foldl (fun found a => if p a && found.all (fun f => key a < key f) then some a
      else found) found = some a) :
    (found = some a ∨ a ∈ l ∧ p a = true) ∧ (∀ f, found = some f → key a ≤ key f) ∧
    ∀ b ∈ l, p b = true → key a ≤ key b := by
  induction l generalizing found with
  | nil => exact ⟨.inl h, fun f hf => by cases hf.symm.trans h; exact le_rfl, by simp⟩
  | cons b l ih =>
    rw [foldl_cons] at h
    obtain ⟨hfrom, hle, hrest⟩ := ih h
    by_cases hb : (p b && found.all fun f => key b < key f) = true
    · obtain ⟨hpb, hall⟩ := Bool.and_eq_true_iff.mp hb
      rw [if_pos hb] at hfrom hle
      have hab : key a ≤ key b := hle b rfl
      refine ⟨.inr ?_, ?_, forall_mem_cons.mpr ⟨fun _ => hab, hrest⟩⟩
      · rcases hfrom with heq | ⟨hmem, hpa⟩
        · cases heq
          exact ⟨mem_cons_self, hpb⟩
        · exact ⟨mem_cons_of_mem _ hmem, hpa⟩
      · rintro f rfl
        have : key b < key f := by simpa using hall
        omega
    · rw [if_neg hb] at hfrom hle
      refine ⟨hfrom.imp_right fun h => ⟨mem_cons_of_mem _ h.1, h.2⟩, hle,
        forall_mem_cons.mpr ⟨fun hpb => ?_, hrest⟩⟩
      cases found with
      | none => simp [hpb] at hb
      | some f =>
        have hfb : key f ≤ key b := by simpa [hpb] using hb
        exact (hle f rfl).trans hfb

theorem least_spec
    (h : least p key l = some a) : a ∈ l ∧ p a = true ∧ ∀ b ∈ l, p b = true → key a ≤ key b := by
  obtain ⟨hfrom, -, hrest⟩ := leastLoop_spec h
  rcases hfrom with hnone | ⟨hmem, hp⟩
  · cases hnone
  · exact ⟨hmem, hp, hrest⟩

theorem least_none (h : least p key l = none) : ∀ a ∈ l, p a = false := by
  have hkeep : ∀ (l : List α) (f : α), ∃ g, l.foldl (fun found a =>
      if p a && found.all (fun f => key a < key f) then some a else found) (some f) = some g := by
    intro l
    induction l with
    | nil => exact fun f => ⟨f, rfl⟩
    | cons b l ih =>
      intro f
      rw [foldl_cons]
      split
      · exact ih b
      · exact ih f
  unfold least at h
  induction l with
  | nil => simp
  | cons b l ih =>
    rw [foldl_cons] at h
    by_cases hb : p b = true
    · rw [if_pos (by simp [hb])] at h
      obtain ⟨g, hg⟩ := hkeep l b
      rw [hg] at h
      cases h
    · rw [if_neg (by simp [hb])] at h
      exact forall_mem_cons.mpr ⟨by simpa using hb, ih h⟩

/-! ## Sums over a table -/

def total (w : α → ℤ) (l : List α) : ℤ := (l.map w).sum

variable (w : α → ℤ)

@[simp] theorem total_nil : total w [] = 0 := rfl

@[simp] theorem total_cons (a : α) (l : List α) : total w (a :: l) = w a + total w l := by
  simp [total]

@[simp] theorem total_append (l m : List α) : total w (l ++ m) = total w l + total w m := by
  simp [total]

theorem total_modifyFirst {w : α → ℤ}
    (hx : l.find? p = some x) : total w (modifyFirst p f l) = total w l + (w (f x) - w x) := by
  obtain ⟨l₁, l₂, rfl, -, -, hmod⟩ := modifyFirst_found hx f
  simp only [hmod, total_append, total_cons]
  omega

theorem total_modifyFirst_same {w : α → ℤ} (l : List α)
    (hw : ∀ a, w (f a) = w a) : total w (modifyFirst p f l) = total w l := by
  unfold total
  rw [modifyFirst_map p f w hw]

/-! ## Looking a record up by key -/

section Keyed

variable {κ : Type*} [DecidableEq κ] (key : α → κ)

def lookup (k : κ) (l : List α) : Option α := l.find? fun a => key a = k

def update (k : κ) (f : α → α) (l : List α) : List α := modifyFirst (fun a => key a = k) f l

variable {key} {k : κ}

theorem lookup_key (h : lookup key k l = some x) : key x = k := by
  simpa using List.find?_some h

theorem lookup_mem (h : lookup key k l = some x) : x ∈ l := mem_of_find?_eq_some h

theorem lookup_isSome_iff : (lookup key k l).isSome ↔ k ∈ l.map key := by
  simp [lookup, List.find?_isSome]

theorem lookup_update (k j : κ) (f : α → α) (hf : ∀ a, key (f a) = key a) (l : List α) :
    lookup key j (update key k f l) = if j = k then (lookup key j l).map f else lookup key j l := by
  split_ifs with hj
  · subst hj
    cases hx : lookup key j l with
    | none => rwa [update, modifyFirst_of_none hx]
    | some x =>
      obtain ⟨l₁, l₂, -, -, hl₁, hmod⟩ := modifyFirst_found hx f
      have hnone : (l₁.find? fun a => decide (key a = j)) = none := by simpa using hl₁
      simp [lookup, update, hmod, hnone, hf, lookup_key hx]
  · refine find?_modifyFirst (fun a ha => ?_) (fun a ha => ?_) l <;>
      simp_all [Ne.symm hj]

theorem update_map (k : κ) (f : α → α) (hf : ∀ a, key (f a) = key a) (l : List α) :
    (update key k f l).map key = l.map key :=
  modifyFirst_map _ f key hf l

theorem update_replace (l : List α) :
    update key k (fun _ => x) l = update key k (fun a => if key a = k then x else a) l := by
  induction l with
  | nil => rfl
  | cons a l ih =>
    simp only [update] at ih
    by_cases h : key a = k
    · simp [update, modifyFirst, h]
    · simp [update, modifyFirst, h, ih]

theorem replace_keeps (hx : key x = k) (a : α) : key (if key a = k then x else a) = key a := by
  split_ifs with h
  · rw [hx, h]
  · rfl

theorem replace_map (hx : key x = k) (l : List α) : (update key k (fun _ => x) l).map key = l.map key := by
  rw [update_replace, update_map k _ (replace_keeps hx)]

theorem lookup_replace (hx : key x = k) (j : κ) (l : List α) :
    lookup key j (update key k (fun _ => x) l) = if j = k then (lookup key j l).map fun _ => x else lookup key j l := by
  rw [update_replace, lookup_update k j _ (replace_keeps hx)]
  split_ifs with h
  · cases hl : lookup key j l with
    | none => rfl
    | some a => rw [Option.map_some, Option.map_some, if_pos ((lookup_key hl).trans h)]
  · rfl

theorem lookup_eq_of_mem (hl : (l.map key).Nodup) (hx : x ∈ l)
    (hk : key x = k) : lookup key k l = some x := by
  induction l with
  | nil => cases hx
  | cons a l ih =>
    obtain ⟨ha, hl⟩ := nodup_cons.mp hl
    rcases mem_cons.mp hx with rfl | hx
    · simp [lookup, hk]
    · have hne : key a ≠ k := by
        rintro rfl
        exact ha (hk ▸ mem_map_of_mem hx)
      rw [lookup, List.find?_cons_of_neg (by simpa using hne)]
      exact ih hl hx

theorem lookup_map {key' : β → κ} {f : α → β} (hf : ∀ a, key' (f a) = key a) (k : κ) (l : List α) :
    lookup key' k (l.map f) = (lookup key k l).map f := by
  simp only [lookup, List.find?_map, Function.comp_def, hf]

theorem eraseP_key (hl : (l.map key).Nodup) :
    (l.eraseP fun a => decide (key a = k)) = l.filter fun a => decide (key a ≠ k) := by
  induction l with
  | nil => rfl
  | cons a l ih =>
    obtain ⟨ha, hl⟩ := nodup_cons.mp hl
    by_cases h : key a = k
    · rw [eraseP_cons_of_pos (by simpa using h), filter_cons_of_neg (by simpa using h),
        filter_eq_self.mpr]
      intro b hb
      have hne : key b ≠ k := by
        rintro rfl
        exact ha (h ▸ mem_map_of_mem hb)
      simpa using hne
    · rw [eraseP_cons_of_neg (by simpa using h), filter_cons_of_pos (by simpa using h), ih hl]

theorem total_update {w : α → ℤ}
    (hx : lookup key k l = some x) : total w (update key k f l) = total w l + (w (f x) - w x) :=
  total_modifyFirst hx

end Keyed

/-! ## Lists entry by entry -/

theorem map_eq_self_iff : l.map f = l ↔ ∀ b ∈ l, f b = b := by
  have h := map_inj_left (l := l) (f := f) (g := id)
  simpa using h

theorem modify_append_singleton (l : List α) (a : α) (f : α → α) :
    (l ++ [a]).modify l.length f = l ++ [f a] := by
  induction l with
  | nil => rfl
  | cons b l ih => simp [ih]

theorem map_eq_of_forall₂ {γ : Type*} {R : α → β → Prop} {m : List β} {f : β → γ} {k : α → γ}
    (h : Forall₂ R l m) (hf : ∀ a b, R a b → f b = k a) : m.map f = l.map k := by
  induction h with
  | nil => rfl
  | cons hab _ ih => rw [map_cons, map_cons, hf _ _ hab, ih]

end Mohhdy.Tables
