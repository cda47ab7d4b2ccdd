import Mohhdy.Foundations.Words

/-! Byte strings as C programs use them: literals, the text before a zero byte, numbers in
big-endian order, and names made of labels with dots between them. -/
namespace Mohhdy.Texts
set_option autoImplicit false
open List

abbrev Bytes := List UInt8

def ascii (s : String) : Bytes := s.toList.map fun c => UInt8.ofNat c.toNat

def cstr (b : Bytes) : Bytes := b.takeWhile (· ≠ 0)

def bigEndian : ℕ → ℕ → Bytes
  | 0, _ => []
  | n + 1, v => UInt8.ofNat (v / 256 ^ n % 256) :: bigEndian n v

def ofBigEndian (b : Bytes) : ℕ := b.foldl (fun v x => v * 256 + x.toNat) 0

/-! ## Names in labels -/

def asciiLower (c : UInt8) : UInt8 := if 65 ≤ c ∧ c ≤ 90 then c + 32 else c

def lower (s : Bytes) : Bytes := s.map asciiLower

def endsIn (name dom : Bytes) : Bool :=
  lower (name.drop (name.length - dom.length)) == lower dom &&
    (name.take (name.length - dom.length)).getLast? == some 46

def Under (name dom : Bytes) : Prop :=
  lower name = lower dom ∨ ∃ pre, lower name = pre ++ 46 :: lower dom

theorem asciiLower_spec (c : UInt8) :
    asciiLower (asciiLower c) = asciiLower c ∧ (asciiLower c = 46 → c = 46) := by
  have hall : ∀ n < 256, asciiLower (asciiLower (UInt8.ofNat n)) = asciiLower (UInt8.ofNat n) ∧
      (asciiLower (UInt8.ofNat n) = 46 → UInt8.ofNat n = 46) := by
    decide +kernel
  simpa using hall c.toNat c.toNat_lt

@[simp] theorem lower_lower (s : Bytes) : lower (lower s) = lower s := by
  simp [lower, asciiLower_spec]

@[simp] theorem lower_length (s : Bytes) : (lower s).length = s.length := length_map _

theorem lower_append (s t : Bytes) : lower (s ++ t) = lower s ++ lower t := map_append

theorem lower_of_endsIn {name dom : Bytes} (h : endsIn name dom = true) :
    lower name = lower (name.take (name.length - dom.length)).dropLast ++ 46 :: lower dom := by
  obtain ⟨hend, hdot⟩ := Bool.and_eq_true_iff.mp h
  obtain ⟨pre, hpre⟩ := List.getLast?_eq_some_iff.mp (beq_iff_eq.mp hdot)
  have hname : lower name = lower (pre ++ [46]) ++ lower dom := by
    rw [← beq_iff_eq.mp hend, ← hpre, ← lower_append, take_append_drop]
  rw [hname, hpre, dropLast_concat, lower_append, append_assoc]
  rfl

theorem endsIn_iff {name dom : Bytes} :
    endsIn name dom = true ↔ ∃ pre, lower name = pre ++ 46 :: lower dom := by
  refine ⟨fun h => ⟨_, lower_of_endsIn h⟩, ?_⟩
  rintro ⟨pre, hpre⟩
  have hcut : name.length - dom.length = (pre ++ [46]).length := by
    have hlen := congrArg List.length hpre
    simp only [lower_length, length_append, length_cons, length_nil] at hlen ⊢
    omega
  have hsplit : lower name = (pre ++ [46]) ++ lower dom := by
    rw [hpre, append_assoc, singleton_append]
  refine Bool.and_eq_true_iff.mpr ⟨beq_iff_eq.mpr ?_, beq_iff_eq.mpr ?_⟩
  · rw [lower, map_drop, hcut]
    exact (congrArg _ hsplit).trans drop_left
  · have hfront : lower (name.take (name.length - dom.length)) = pre ++ [46] := by
      rw [lower, map_take, hcut]
      exact (congrArg _ hsplit).trans take_left
    have hlast : (lower (name.take (name.length - dom.length))).getLast? = some 46 := by
      rw [hfront, List.getLast?_concat]
    rw [lower, List.getLast?_map] at hlast
    obtain ⟨c, hc, hdot⟩ := Option.map_eq_some_iff.mp hlast
    rw [hc, (asciiLower_spec c).2 hdot]

end Mohhdy.Texts
