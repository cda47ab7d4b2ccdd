import Mathlib.Data.List.TakeWhile
import Mathlib.Data.Nat.Bitwise
import Mathlib.Tactic

/-! Fixed-width words on the wire: the two byte orders a 32-bit word is written in, and the
reading of a word back at an offset of a longer byte string.

A reader is total: it returns `0` when fewer than four bytes are left. Every caller checks the
length first, so the default is never what a caller sees. -/
namespace Mohhdy.Words
set_option autoImplicit false
open List

theorem forall_byte {P : UInt8 → Prop} (h : ∀ n < 256, P (.ofNat n)) (x : UInt8) : P x := by
  simpa using h x.toNat x.toNat_lt

/-! ## Little endian -/

def le32 (v : UInt32) : List UInt8 :=
  [v.toUInt8, (v >>> 8).toUInt8, (v >>> 16).toUInt8, (v >>> 24).toUInt8]

def readLe32 : List UInt8 → UInt32
  | a :: b :: c :: d :: _ =>
    a.toUInt32 ||| (b.toUInt32 <<< 8) ||| (c.toUInt32 <<< 16) ||| (d.toUInt32 <<< 24)
  | _ => 0

@[simp] theorem le32_length (v : UInt32) : (le32 v).length = 4 := rfl

@[simp] theorem readLe32_le32 (v : UInt32) (rest : List UInt8) : readLe32 (le32 v ++ rest) = v := by
  simp only [le32, readLe32, cons_append, nil_append]
  apply UInt32.toBitVec_inj.mp
  ext i hi
  simp [-UInt32.toUInt32_toUInt8]
  grind

theorem readLe32_bytes (v : UInt32) (rest : List UInt8) :
    readLe32 (v.toUInt8 :: (v >>> 8).toUInt8 :: (v >>> 16).toUInt8 :: (v >>> 24).toUInt8 :: rest) =
      v :=
  readLe32_le32 v rest

theorem drop_next {b x y : List UInt8} {m n : ℕ} (h : b.drop m = x ++ y) (hx : x.length = n) :
    b.drop (m + n) = y := by
  rw [← drop_drop, h, drop_left' hx]

/-! ## Fixed-size blocks -/

abbrev Block (n : ℕ) := {b : List UInt8 // b.length = n}

namespace Block

def zero (n : ℕ) : Block n := ⟨List.replicate n 0, length_replicate⟩

def read (n : ℕ) (b : List UInt8) : Block n :=
  ⟨(b ++ List.replicate n 0).take n, by simp⟩

@[simp] theorem read_append {n : ℕ} (b : Block n) (rest : List UInt8) :
    read n (b.val ++ rest) = b := by
  apply Subtype.ext
  have hn : n = b.val.length := b.property.symm
  simp [read, hn]

end Block

/-! ## Text fields -/

abbrev CString := {s : List UInt8 // (0 : UInt8) ∉ s}

def textField (n : ℕ) (s : CString) : List UInt8 := s.val ++ List.replicate (n - s.val.length) 0

theorem zero_notMem_takeWhile (b : List UInt8) : (0 : UInt8) ∉ b.takeWhile (· ≠ 0) := by
  intro h
  simpa using mem_takeWhile_imp h

def readText (n : ℕ) (b : List UInt8) : CString :=
  ⟨(b.take (n - 1)).takeWhile (· ≠ 0), zero_notMem_takeWhile _⟩

theorem textField_length {n : ℕ} {s : CString} (h : s.val.length ≤ n) :
    (textField n s).length = n := by
  simp only [textField, length_append, length_replicate]
  omega

theorem takeWhile_append_zeros (s : CString) (k : ℕ) :
    (s.val ++ List.replicate k 0).takeWhile (· ≠ 0) = s.val := by
  have hs : ∀ a ∈ s.val, decide (a ≠ 0) = true := by
    intro a ha
    simpa using ne_of_mem_of_not_mem ha s.property
  rw [takeWhile_append_of_pos hs]
  cases k <;> simp [replicate_succ]

theorem readText_textField {n : ℕ} {s : CString} (hlen : s.val.length < n) (rest : List UInt8) :
    readText n (textField n s ++ rest) = s := by
  have hcut : (textField n s ++ rest).take (n - 1) =
      s.val ++ List.replicate (n - 1 - s.val.length) 0 := by
    rw [take_append_of_le_length (by rw [textField_length hlen.le]; omega), textField,
      take_append, take_of_length_le (by omega), take_replicate]
    congr 2
    omega
  apply Subtype.ext
  change ((textField n s ++ rest).take (n - 1)).takeWhile (· ≠ 0) = s.val
  rw [hcut, takeWhile_append_zeros]

/-! ## Masks -/

theorem and_or_right_self (a b : UInt32) : a &&& (b ||| a) = a := by
  rw [← UInt32.toBitVec_inj]
  ext i hi
  simp only [UInt32.toBitVec_and, UInt32.toBitVec_or, BitVec.getElem_and, BitVec.getElem_or]
  grind

theorem and_eq_of_or_eq {a b : UInt32} (h : b = b ||| a) : a &&& b = a := by
  rw [h]
  exact and_or_right_self a b

theorem and_compl_of_part {a b all : UInt32} (h : a &&& ~~~all = 0) (hb : a &&& b = b) :
    b &&& ~~~all = 0 := by
  rw [← hb, UInt32.and_comm a b, UInt32.and_assoc, h, UInt32.and_zero]

theorem and_of_part {a b c : UInt32} (h : a &&& c = a) (hb : a &&& b = b) : c &&& b = b := by
  rw [← hb, ← UInt32.and_assoc, UInt32.and_comm c a, h]

end Mohhdy.Words
