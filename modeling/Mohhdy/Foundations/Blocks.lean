import Mathlib.Tactic

/-! A list cut into blocks of a fixed size, and the loop that reads a slice of it back block by
block. An empty list is one empty block. -/
namespace Mohhdy.Blocks
set_option autoImplicit false
open List

variable {α : Type*} (c : ℕ)

def blockCount (n : ℕ) : ℕ := if n = 0 then 1 else (n + c - 1) / c

def blocks (l : List α) : List (List α) :=
  (List.range (blockCount c l.length)).map fun b => (l.drop (c * b)).take c

@[simp] theorem length_blocks (l : List α) : (blocks c l).length = blockCount c l.length := by
  simp [blocks]

theorem blocks_small {l : List α} (h : l.length ≤ c) : blocks c l = [l] := by
  have hcount : blockCount c l.length = 1 := by
    by_cases hl : l.length = 0
    · rw [blockCount, if_pos hl]
    · rw [blockCount, if_neg hl]
      exact (Nat.div_eq_iff (by omega)).mpr (by omega)
  rw [blocks, hcount]
  simp [h]

theorem blockCount_add {n : ℕ} (hc : 0 < c) (h : 0 < n) :
    blockCount c (n + c) = blockCount c n + 1 := by
  rw [blockCount, blockCount, if_neg (by omega), if_neg (by omega)]
  rw [show n + c + c - 1 = n + c - 1 + c by omega, Nat.add_div_right _ hc]

theorem blocks_large (hc : 0 < c) {l : List α} (h : c < l.length) :
    blocks c l = l.take c :: blocks c (l.drop c) := by
  have hcount : blockCount c l.length = blockCount c (l.drop c).length + 1 := by
    rw [length_drop, ← blockCount_add c hc (by omega), Nat.sub_add_cancel h.le]
  rw [blocks, hcount, range_succ_eq_map, map_cons, map_map]
  refine congrArg₂ _ (by simp) ?_
  refine map_congr_left fun b _ => ?_
  simp [Nat.mul_succ, Nat.add_comm]

theorem blocks_induction (hc : 0 < c) {P : List α → Prop} (small : ∀ l, l.length ≤ c → P l)
    (large : ∀ l, c < l.length → P (l.drop c) → P l) (l : List α) : P l := by
  induction hn : l.length using Nat.strong_induction_on generalizing l with
  | _ n ih =>
    by_cases h : l.length ≤ c
    · exact small l h
    · refine large l (by omega) (ih (l.drop c).length ?_ _ rfl)
      rw [length_drop]
      omega

theorem flatten_blocks (hc : 0 < c) (l : List α) : (blocks c l).flatten = l := by
  induction l using blocks_induction c hc with
  | small l h => simp [blocks_small c h]
  | large l h ih => rw [blocks_large c hc h, flatten_cons, ih, take_append_drop]

theorem blocks_eq_cons (hc : 0 < c) (l : List α) : ∃ bs, blocks c l = l.take c :: bs := by
  by_cases h : l.length ≤ c
  · exact ⟨[], by rw [blocks_small c h, take_of_length_le h]⟩
  · exact ⟨_, blocks_large c hc (by omega)⟩

/-! ## Slices -/

def sliceLoop (offset max : ℕ) : List (List α) → ℕ → List α → List α
  | [], _, out => out
  | b :: bs, pos, out =>
    if max ≤ out.length then out
    else
      sliceLoop offset max bs (pos + b.length)
        (if offset < pos + b.length then out ++ (b.drop (offset - pos)).take (max - out.length)
          else out)

theorem sliceLoop_eq (offset max : ℕ) (bs : List (List α)) (pos : ℕ) (out : List α)
    (hout : out.length ≤ max) : sliceLoop offset max bs pos out =
      out ++ (bs.flatten.drop (offset - pos)).take (max - out.length) := by
  induction bs generalizing pos out with
  | nil => simp [sliceLoop]
  | cons b bs ih =>
    rw [sliceLoop]
    split
    · simp [show max - out.length = 0 by omega]
    by_cases hpos : offset < pos + b.length
    · rw [if_pos hpos, ih]
      · rw [show offset - (pos + b.length) = 0 by omega, drop_zero, flatten_cons,
          drop_append_of_le_length (by omega), take_append, append_assoc]
        congr 3
        simp only [length_append, length_take, length_drop]
        omega
      · simp only [length_append, length_take]
        omega
    · rw [if_neg hpos, ih _ _ hout, flatten_cons, drop_append,
        drop_of_length_le (show b.length ≤ offset - pos by omega), nil_append,
        show offset - (pos + b.length) = offset - pos - b.length by omega]

end Mohhdy.Blocks
