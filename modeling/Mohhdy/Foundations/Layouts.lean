import Mathlib.Tactic

/-! Code as a list of instructions, each beside the context it runs in.

A one-pass code generator appends instructions and patches the targets of earlier jumps. `Sound`
says that control which falls through or jumps arrives in the context the layout gives that place;
the jumps at the addresses in its last argument are still open. Appending keeps what is known of
the addresses before (`Grows`), and patching a jump to the end of the code closes it. -/
namespace Mohhdy.Layouts
set_option autoImplicit false
open List

/-- Instructions as far as control goes through them: their bytes, the context behind them, whether
control falls through, and where they jump. -/
structure Isa (C I : Type*) where
  encode : I → List UInt8
  encode_ne : ∀ i, encode i ≠ []
  after : C → I → C
  falls : I → Bool
  target : I → Option ℕ
  retarget : ℕ → I → I
  length_retarget : ∀ t i, (encode (retarget t i)).length = (encode i).length
  after_retarget : ∀ t c i, after c (retarget t i) = after c i
  falls_retarget : ∀ t i, falls (retarget t i) = falls i
  target_retarget : ∀ t i, (target i).isSome → target (retarget t i) = some t

variable {C I : Type*} (M : Isa C I) {cur cur' : C}

def bytes (l : List (C × I)) : List UInt8 := l.flatMap fun x => M.encode x.2

def width (l : List (C × I)) : ℕ := (bytes M l).length

@[simp] theorem bytes_nil : bytes M ([] : List (C × I)) = [] := rfl

@[simp] theorem bytes_append (l m : List (C × I)) : bytes M (l ++ m) = bytes M l ++ bytes M m :=
  flatMap_append

@[simp] theorem bytes_cons (x : C × I) (l : List (C × I)) :
    bytes M (x :: l) = M.encode x.2 ++ bytes M l := flatMap_cons

def ctxAt (l : List (C × I)) (cur : C) (k : ℕ) : C := (l[k]?.map Prod.fst).getD cur

def Point (l : List (C × I)) (cur : C) (a : ℕ) (x : C) : Prop :=
  ∃ k, k ≤ l.length ∧ width M (l.take k) = a ∧ ctxAt l cur k = x

def Jump (l : List (C × I)) (a : ℕ) (x : C) : Prop :=
  ∃ k c i, l[k]? = some (c, i) ∧ width M (l.take k) = a ∧ (M.target i).isSome ∧ M.after c i = x

structure Sound (l : List (C × I)) (cur : C) (pending : Set ℕ) : Prop where
  next : ∀ k c i, l[k]? = some (c, i) → M.falls i = true → ctxAt l cur (k + 1) = M.after c i
  jump : ∀ k c i t, l[k]? = some (c, i) → M.target i = some t →
    Point M l cur t (M.after c i) ∨ width M (l.take k) ∈ pending

structure Grows (l : List (C × I)) (cur : C) (l' : List (C × I)) (cur' : C) : Prop where
  point : ∀ a x, Point M l cur a x → Point M l' cur' a x
  jump : ∀ a x, Jump M l a x → Jump M l' a x

variable {M}

theorem Grows.refl (l : List (C × I)) (cur : C) : Grows M l cur l cur :=
  ⟨fun _ _ h => h, fun _ _ h => h⟩

theorem Grows.trans {l l' l'' : List (C × I)} {cur'' : C} (h : Grows M l cur l' cur')
    (h' : Grows M l' cur' l'' cur'') : Grows M l cur l'' cur'' :=
  ⟨fun a x hp => h'.point a x (h.point a x hp), fun a x hj => h'.jump a x (h.jump a x hj)⟩

/-! ## Appending -/

theorem ctxAt_end (l : List (C × I)) (cur : C) : ctxAt l cur l.length = cur := by
  simp [ctxAt]

theorem Point.last (l : List (C × I)) (cur : C) : Point M l cur (width M l) cur :=
  ⟨l.length, le_rfl, by rw [take_length], ctxAt_end l cur⟩

variable {l : List (C × I)}

theorem ctxAt_snoc {i : I} {k : ℕ} (hk : k ≤ l.length) :
    ctxAt (l ++ [(cur, i)]) cur' k = ctxAt l cur k := by
  rcases Nat.lt_or_eq_of_le hk with hk | rfl
  · simp [ctxAt, List.getElem?_append_left hk, List.getElem?_eq_getElem hk]
  · simp [ctxAt]

theorem lt_length_of_getElem? {k : ℕ} {x : C × I} (h : l[k]? = some x) :
    k < l.length := (List.getElem?_eq_some_iff.mp h).1

theorem Grows.snoc (l : List (C × I)) (cur cur' : C) (i : I) : Grows M l cur (l ++ [(cur, i)]) cur' := by
  constructor
  · rintro a x ⟨k, hk, ha, hx⟩
    refine ⟨k, by simp; omega, ?_, ?_⟩
    · rw [take_append_of_le_length hk, ha]
    · rw [ctxAt_snoc hk, hx]
  · rintro a x ⟨k, c, j, hget, ha, hj⟩
    have hk := lt_length_of_getElem? hget
    refine ⟨k, c, j, ?_, ?_, hj⟩
    · rw [List.getElem?_append_left hk, hget]
    · rw [take_append_of_le_length hk.le, ha]

theorem getElem?_snoc {x y : C × I} {k : ℕ} (h : (l ++ [x])[k]? = some y) :
    l[k]? = some y ∧ k < l.length ∨ k = l.length ∧ y = x := by
  rcases Nat.lt_or_ge k l.length with hk | hk
  · exact .inl ⟨by rwa [List.getElem?_append_left hk] at h, hk⟩
  · obtain ⟨hlt, rfl⟩ := List.getElem?_eq_some_iff.mp h
    obtain rfl : k = l.length := by simp at hlt; omega
    exact .inr ⟨rfl, getElem_concat_length rfl _⟩

theorem Sound.snoc {i : I} {P P' : Set ℕ} (h : Sound M l cur P)
    (hsub : P ⊆ P') (hfalls : M.falls i = true → cur' = M.after cur i)
    (hjump : ∀ t, M.target i = some t →
      Point M (l ++ [(cur, i)]) cur' t (M.after cur i) ∨ width M l ∈ P') :
    Sound M (l ++ [(cur, i)]) cur' P' := by
  constructor
  · intro k c j hget hf
    rcases getElem?_snoc hget with ⟨hold, hk⟩ | ⟨rfl, ⟨⟩⟩
    · rw [ctxAt_snoc (Nat.succ_le_of_lt hk), h.next k c j hold hf]
    · rw [← hfalls hf]
      have := ctxAt_end (l ++ [(cur, i)]) cur'
      simpa using this
  · intro k c j t hget ht
    rcases getElem?_snoc hget with ⟨hold, hk⟩ | ⟨rfl, ⟨⟩⟩
    · rw [take_append_of_le_length hk.le]
      exact (h.jump k c j t hold ht).imp ((Grows.snoc l cur cur' i).point _ _) fun hp => hsub hp
    · rw [take_append_of_le_length le_rfl, take_length]
      exact hjump t ht

def lay (M : Isa C I) : C → List I → List (C × I)
  | _, [] => []
  | c, i :: L => (c, i) :: lay M (M.after c i) L

def afterAll (M : Isa C I) (c : C) (L : List I) : C := L.foldl M.after c

theorem bytes_lay (c : C) (L : List I) : bytes M (lay M c L) = L.flatMap M.encode := by
  induction L generalizing c with
  | nil => rfl
  | cons i L ih => rw [lay, bytes_cons, ih, flatMap_cons]

theorem Sound.append {P : Set ℕ} (h : Sound M l cur P) {L : List I}
    (hL : ∀ i ∈ L, M.falls i = true ∧ M.target i = none) :
    Sound M (l ++ lay M cur L) (afterAll M cur L) P ∧
      Grows M l cur (l ++ lay M cur L) (afterAll M cur L) := by
  induction L generalizing l cur with
  | nil =>
    rw [lay, append_nil]
    exact ⟨h, Grows.refl l cur⟩
  | cons i L ih =>
    obtain ⟨⟨-, htarget⟩, hL⟩ := forall_mem_cons.mp hL
    have hone : Sound M (l ++ [(cur, i)]) (M.after cur i) P :=
      h.snoc (le_refl P) (fun _ => rfl) (by simp [htarget])
    obtain ⟨hsound, hgrows⟩ := ih hone hL
    rw [append_assoc, singleton_append] at hsound hgrows
    exact ⟨hsound, (Grows.snoc l cur _ i).trans hgrows⟩

/-! ## Patching -/

theorem width_take_succ {k : ℕ} {x : C × I} (hget : l[k]? = some x) :
    width M (l.take (k + 1)) = width M (l.take k) + (M.encode x.2).length := by
  rw [take_add_one, hget]
  simp [width]

theorem width_take_lt {j k : ℕ} (hjk : j < k) (hk : k ≤ l.length) :
    width M (l.take j) < width M (l.take k) := by
  have hstep : ∀ n < l.length, width M (l.take n) < width M (l.take (n + 1)) := by
    intro n hn
    rw [width_take_succ (List.getElem?_eq_getElem hn)]
    exact Nat.lt_add_of_pos_right (length_pos_iff.mpr (M.encode_ne _))
  induction k, hjk using Nat.le_induction with
  | base => exact hstep j hk
  | succ k _ ih => exact (ih (by omega)).trans (hstep k hk)

theorem index_unique {j k : ℕ} (hj : j ≤ l.length) (hk : k ≤ l.length)
    (h : width M (l.take j) = width M (l.take k)) : j = k := by
  rcases lt_trichotomy j k with hlt | heq | hlt
  · exact absurd h (width_take_lt hlt hk).ne
  · exact heq
  · exact absurd h (width_take_lt hlt hj).ne'

variable {l : List (C × I)} {k : ℕ} {c : C} {i : I}

theorem width_set (hget : l[k]? = some (c, i)) {j : I} (hlen : (M.encode j).length = (M.encode i).length) :
    width M (l.set k (c, j)) = width M l := by
  obtain ⟨hk, hval⟩ := List.getElem?_eq_some_iff.mp hget
  have hsum : ∀ l : List (C × I), width M l = (l.map fun x => (M.encode x.2).length).sum :=
    fun l => length_flatMap
  rw [hsum, hsum, map_set, hlen]
  congr 1
  refine (congrArg _ ?_).trans (set_getElem_self (by simpa using hk))
  simp [hval]

theorem width_take_set (hget : l[k]? = some (c, i)) {j : I}
    (hlen : (M.encode j).length = (M.encode i).length) (n : ℕ) :
    width M ((l.set k (c, j)).take n) = width M (l.take n) := by
  rw [take_set]
  rcases Nat.lt_or_ge k n with hn | hn
  · exact width_set (by rw [List.getElem?_take_of_lt hn, hget]) hlen
  · rw [set_eq_of_length_le (by simp; omega)]

theorem ctxAt_set (hget : l[k]? = some (c, i)) (j : I) (cur : C) (n : ℕ) :
    ctxAt (l.set k (c, j)) cur n = ctxAt l cur n := by
  unfold ctxAt
  by_cases hkn : k = n
  · subst hkn
    have hk := lt_length_of_getElem? hget
    rw [List.getElem?_set_self hk, hget]
    rfl
  · rw [List.getElem?_set_ne hkn]

def patched (M : Isa C I) (l : List (C × I)) (k : ℕ) (c : C) (i : I) (t : ℕ) : List (C × I) :=
  l.set k (c, M.retarget t i)

theorem getElem?_patched (hget : l[k]? = some (c, i)) {t n : ℕ} {x : C × I}
    (hn : (patched M l k c i t)[n]? = some x) : n = k ∧ x = (c, M.retarget t i) ∨ k ≠ n ∧ l[n]? = some x := by
  by_cases hkn : k = n
  · subst hkn
    rw [patched, List.getElem?_set_self (lt_length_of_getElem? hget)] at hn
    exact .inl ⟨rfl, (Option.some.inj hn).symm⟩
  · rw [patched, List.getElem?_set_ne hkn] at hn
    exact .inr ⟨hkn, hn⟩

theorem Grows.patched (hget : l[k]? = some (c, i)) (cur : C) (t : ℕ) : Grows M l cur (patched M l k c i t) cur := by
  have hlen := M.length_retarget t i
  constructor
  · rintro a x ⟨n, hn, ha, hx⟩
    refine ⟨n, by simpa [Layouts.patched] using hn, ?_, ?_⟩
    · rw [Layouts.patched, width_take_set hget hlen, ha]
    · rw [Layouts.patched, ctxAt_set hget, hx]
  · rintro a x ⟨n, d, j, hn, ha, hj, hx⟩
    by_cases hkn : k = n
    · subst hkn
      have heq : (c, i) = (d, j) := Option.some.inj (hget.symm.trans hn)
      cases heq
      refine ⟨k, c, M.retarget t i, ?_, ?_, ?_, ?_⟩
      · exact List.getElem?_set_self (lt_length_of_getElem? hget)
      · rw [Layouts.patched, width_take_set hget hlen, ha]
      · rw [M.target_retarget t i hj]
        rfl
      · rw [M.after_retarget, hx]
    · refine ⟨n, d, j, ?_, ?_, hj, hx⟩
      · rw [Layouts.patched, List.getElem?_set_ne hkn, hn]
      · rw [Layouts.patched, width_take_set hget hlen, ha]

theorem Sound.patched {P : Set ℕ} {a : ℕ} (h : Sound M l cur (insert a P))
    (hget : l[k]? = some (c, i)) (ha : width M (l.take k) = a) (hi : (M.target i).isSome)
    (hafter : M.after c i = cur) : Sound M (patched M l k c i (width M l)) cur P := by
  have hgrows := Grows.patched (M := M) hget cur (width M l)
  have hlen := M.length_retarget (width M l) i
  constructor
  · intro n d j hn hf
    rw [Layouts.patched, ctxAt_set hget]
    obtain ⟨rfl, ⟨⟩⟩ | ⟨-, hn⟩ := getElem?_patched hget hn
    · rw [M.falls_retarget] at hf
      rw [M.after_retarget, h.next n c i hget hf]
    · exact h.next n d j hn hf
  · intro n d j t hn ht
    obtain ⟨rfl, ⟨⟩⟩ | ⟨hkn, hn⟩ := getElem?_patched hget hn
    · rw [M.target_retarget _ i hi] at ht
      cases ht
      rw [M.after_retarget, hafter]
      exact .inl (hgrows.point _ _ (Point.last l cur))
    · rw [Layouts.patched, width_take_set hget hlen]
      rcases
 h.jump n d j t hn ht with hp | hp
      · exact .inl (hgrows.point _ _ hp)
      · rcases hp with hp | hp
        · -- the jump at the patched address is the patched one
          have := index_unique (lt_length_of_getElem? hget).le (lt_length_of_getElem? hn).le
            (ha.trans hp.symm)
          exact absurd this hkn
        · exact .inr hp

/-! ## Finished code -/

def At (M : Isa C I) (l : List (C × I)) (a : ℕ) (x : C) : Prop :=
  ∃ k i, l[k]? = some (x, i) ∧ width M (l.take k) = a

structure Closed (M : Isa C I) (l : List (C × I)) : Prop where
  next : ∀ (k : ℕ) c i, l[k]? = some (c, i) → M.falls i = true →
    At M l (width M (l.take k) + (M.encode i).length) (M.after c i)
  jump : ∀ (k : ℕ) c i t, l[k]? = some (c, i) → M.target i = some t → At M l t (M.after c i)

theorem at_of_point {a : ℕ} {x : C} {j : I} (h : Point M l cur a x) : At M (l ++ [(cur, j)]) a x := by
  obtain ⟨n, hn, ha, hx⟩ := h
  have htake : width M ((l ++ [(cur, j)]).take n) = a := by
    rw [take_append_of_le_length hn, ha]
  rcases Nat.lt_or_eq_of_le hn with hlt | rfl
  · refine ⟨n, (l[n]).2, ?_, htake⟩
    have hctx : ctxAt l cur n = (l[n]).1 := by simp [ctxAt, List.getElem?_eq_getElem hlt]
    rw [List.getElem?_append_left hlt, List.getElem?_eq_getElem hlt, ← hx, hctx]
  · refine ⟨l.length, j, ?_, htake⟩
    rw [← hx, ctxAt_end]
    simp

theorem Sound.closed {j : I} (h : Sound M l cur ∅) (hf : M.falls j = false)
    (ht : M.target j = none) : Closed M (l ++ [(cur, j)]) := by
  constructor
  · intro n d i' hget hfalls
    obtain ⟨hget', hn⟩ | ⟨-, ⟨⟩⟩ := getElem?_snoc hget
    swap
    · cases hf.symm.trans hfalls
    rw [take_append_of_le_length hn.le, ← width_take_succ hget']
    exact at_of_point ⟨n + 1, hn, rfl, h.next n d i' hget' hfalls⟩
  · intro n d i' t hget htarget
    obtain ⟨hget', -⟩ | ⟨-, ⟨⟩⟩ := getElem?_snoc hget
    swap
    · cases ht.symm.trans htarget
    rcases h.jump n d i' t hget' htarget with hp | hp
    · exact at_of_point hp
    · exact absurd hp (Set.notMem_empty _)

end Mohhdy.Layouts
