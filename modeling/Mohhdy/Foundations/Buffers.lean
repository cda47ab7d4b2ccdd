import Mathlib.Data.List.GetD
import Mathlib.Tactic

/-! A buffer of a fixed size that holds a piece of a stream between two places: new elements are copied
in behind the piece, and what is left of it is moved to the front. -/
namespace Mohhdy.Buffers
set_option autoImplicit false
open List

variable {length offset : ℕ} {α : Type*} {b : List α}

def held (b : List α) (offset length : ℕ) : List α := (b.drop offset).take (length - offset)

variable (d : α) (src : ℕ → α)

def copyIn (pos n : ℕ) (b : List α) : List α :=
  (List.range n).foldl (fun b i => b.set (pos + i) (src i)) b

def moveDown (offset n : ℕ) (b : List α) : List α :=
  (List.range n).foldl (fun b i => b.set i (b.getD (offset + i) d)) b

theorem copyIn_succ (pos n : ℕ) (b : List α) :
    copyIn src pos (n + 1) b = (copyIn src pos n b).set (pos + n) (src n) := by
  simp [copyIn, range_succ]

theorem moveDown_succ (offset n : ℕ) (b : List α) :
    moveDown d offset (n + 1) b = (moveDown d offset n b).set n ((moveDown d offset n b).getD (offset + n) d) := by
  simp [moveDown, range_succ]

@[simp] theorem length_copyIn (pos n : ℕ) (b : List α) : (copyIn src pos n b).length = b.length := by
  induction n with
  | zero => rfl
  | succ n ih => rw [copyIn_succ, length_set, ih]

@[simp] theorem length_moveDown (offset n : ℕ) (b : List α) : (moveDown d offset n b).length = b.length := by
  induction n with
  | zero => rfl
  | succ n ih => rw [moveDown_succ, length_set, ih]

theorem getElem?_copyIn (pos n : ℕ) (h : pos + n ≤ b.length) (j : ℕ) :
    (copyIn src pos n b)[j]? = if pos ≤ j ∧ j < pos + n then some (src (j - pos)) else b[j]? := by
  induction n with
  | zero =>
    rw [if_neg (by omega)]
    rfl
  | succ n ih =>
    rw [copyIn_succ, List.getElem?_set, length_copyIn, ih (by omega)]
    by_cases hj : pos + n = j
    · rw [if_pos hj, if_pos (by omega), if_pos (by omega), ← hj, Nat.add_sub_cancel_left]
    · rw [if_neg hj]
      exact if_congr (by omega) rfl rfl

theorem getElem?_moveDown (h0 : 0 < offset) (n : ℕ) (h : offset + n ≤ b.length) (j : ℕ) :
    (moveDown d offset n b)[j]? = if j < n then b[offset + j]? else b[j]? := by
  induction n generalizing j with
  | zero => rfl
  | succ n ih =>
    have hread : (moveDown d offset n b).getD (offset + n) d = b.getD (offset + n) d := by
      rw [getD_eq_getElem?_getD, ih (by omega), if_neg (by omega), getD_eq_getElem?_getD]
    rw [moveDown_succ, hread, List.getElem?_set, length_moveDown, ih (by omega)]
    by_cases hj : n = j
    · subst hj
      rw [if_pos rfl, if_pos (by omega), if_pos (by omega), getD_eq_getElem?_getD,
        List.getElem?_eq_getElem (by omega), Option.getD_some]
    · rw [if_neg hj]
      exact if_congr (by omega) rfl rfl

theorem held_copyIn {n : ℕ} (hle : offset ≤ length) (h : length + n ≤ b.length) :
    held (copyIn src length n b) offset (length + n) = held b offset length ++ (List.range n).map src := by
  refine ext_getElem? fun j => ?_
  have hlen : (held b offset length).length = length - offset := by
    rw [held, length_take, length_drop]
    omega
  rw [held, List.getElem?_take, List.getElem?_drop, getElem?_copyIn _ _ _ h, List.getElem?_append, hlen]
  by_cases hj : j < length - offset
  · rw [if_pos hj, if_pos (by omega), if_neg (by omega), held, List.getElem?_take, if_pos hj, List.getElem?_drop]
  · rw [if_neg hj, List.getElem?_map]
    by_cases hn : j < length + n - offset
    · rw [if_pos hn, if_pos (by omega), List.getElem?_range (by omega)]
      simp only [Option.map_some, Option.some.injEq]
      congr 1
      omega
    · rw [if_neg hn, List.getElem?_eq_none (by simp; omega), Option.map_none]

theorem held_moveDown (h0 : 0 < offset) (hle : offset ≤ length) (h : length ≤ b.length) :
    held (moveDown d offset (length - offset) b) 0 (length - offset) = held b offset length := by
  refine ext_getElem? fun j => ?_
  rw [held, held, List.getElem?_take, List.getElem?_take, List.getElem?_drop, List.getElem?_drop,
    getElem?_moveDown d h0 _ (by omega), Nat.zero_add, Nat.sub_zero]
  split_ifs <;> rfl

theorem held_split {n : ℕ} (b : List α) (hn : offset + n ≤ length) (h : length ≤ b.length) (d : α) :
    (List.range n).map (fun i => b.getD (offset + i) d) ++ held b (offset + n) length = held b offset length := by
  refine ext_getElem? fun j => ?_
  rw [List.getElem?_append, length_map, length_range]
  by_cases hj : j < n
  · rw [if_pos hj, List.getElem?_map, List.getElem?_range hj, held, List.getElem?_take, if_pos (by omega),
      List.getElem?_drop, Option.map_some, getD_eq_getElem?_getD, List.getElem?_eq_getElem (by omega),
      Option.getD_some]
  · rw [if_neg hj, held, held, List.getElem?_take, List.getElem?_take, List.getElem?_drop, List.getElem?_drop]
    rw [show offset + n + (j - n) = offset + j by omega]
    exact if_congr (by omega) rfl rfl

/-! ## A buffer for one message -/

structure Filled (α : Type) (cap : ℕ) where
  cells : List α
  length : ℕ
  sized : cells.length = cap
  fits : length ≤ cap

namespace Filled

variable {α : Type} {cap : ℕ}

def contents (b : Filled α cap) : List α := b.cells.take b.length

def blank (x : α) (cap : ℕ) : Filled α cap := ⟨List.replicate cap x, 0, length_replicate, Nat.zero_le _⟩

def clear (b : Filled α cap) : Filled α cap := ⟨b.cells, 0, b.sized, Nat.zero_le _⟩

def store [Inhabited α] (b : Filled α cap) (data : List α) (h : data.length ≤ cap) : Filled α cap :=
  ⟨copyIn (fun i => data.getD i default) 0 data.length b.cells, data.length, by rw [length_copyIn, b.sized], h⟩

def read (b : Filled α cap) (n : ℕ) : List α := b.cells.take (min b.length n)

@[simp] theorem contents_clear (b : Filled α cap) : b.clear.contents = [] := take_zero

@[simp] theorem contents_store [Inhabited α] (b : Filled α cap) (data : List α) (h : data.length ≤ cap) :
    (b.store data h).contents = data := by
  have hin := held_copyIn (fun i => data.getD i default) (b := b.cells) (n := data.length) (Nat.le_refl 0)
    (by rw [b.sized]; omega)
  rw [held, held, Nat.zero_add, Nat.sub_zero, drop_zero, Nat.sub_zero, take_zero, nil_append] at hin
  rw [contents, store, hin]
  refine List.ext_getElem (by simp) fun j _ hj => ?_
  rw [getElem_map, getElem_range, getD_eq_getElem _ _ hj]

theorem read_eq (b : Filled α cap) (n : ℕ) : b.read n = b.contents.take n := by
  rw [read, contents, take_take, Nat.min_comm]

end Filled

end Mohhdy.Buffers
