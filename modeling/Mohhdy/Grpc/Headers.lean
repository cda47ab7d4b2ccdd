import Mohhdy.Grpc.Wire

/-! The HPACK subset reads back what it writes. Each reader is shown to undo its writer in front
of any bytes, and a block of headers is then read one header at a time. -/
namespace Mohhdy.Grpc
open Texts List
set_option autoImplicit false

/-- A header whose name and value fit a `gw_header_t`. -/
structure Header where
  (name value : Bytes)
  name_fits : name.length < 32 ∧ 0 ∉ name
  value_fits : value.length < 64 ∧ 0 ∉ value

variable {most n count : ℕ} {h : Header}

theorem toNat_byte {v : ℕ} (hv : v < 256) : (UInt8.ofNat v).toNat = v := Nat.mod_eq_of_lt hv

theorem or_mod {bits v : ℕ} {first : UInt8} (hbits : bits ≤ 7) (hfirst : first.toNat % 2 ^ bits = 0)
    (hv : v < 2 ^ bits) : (first ||| UInt8.ofNat v).toNat % 2 ^ bits = v := by
  have hpow : 2 ^ bits ≤ 2 ^ 7 := Nat.pow_le_pow_right (by decide) hbits
  rw [UInt8.toNat_or, Nat.or_mod_two_pow, hfirst, Nat.zero_or, toNat_byte (by omega),
    Nat.mod_eq_of_lt hv]

theorem hpIntGet_put (bits : ℕ) (first : UInt8) {v : ℕ} (hbits : bits ≤ 7)
    (hfirst : first.toNat % 2 ^ bits = 0) (hv : v < 128) (rest : Bytes) :
    hpIntGet bits (hpIntPut bits first v ++ rest) = .ok (v, rest) := by
  unfold hpIntPut
  by_cases hsmall : v < 2 ^ bits - 1
  · simp only [if_pos hsmall, cons_append, nil_append, hpIntGet]
    rw [or_mod hbits hfirst (by omega), if_pos hsmall]
  · have hbyte : (UInt8.ofNat (v - (2 ^ bits - 1))).toNat = v - (2 ^ bits - 1) :=
      toNat_byte (by omega)
    have hloop : hpIntLoop 5 (v - (2 ^ bits - 1)) = [UInt8.ofNat (v - (2 ^ bits - 1))] :=
      if_neg (by omega)
    simp only [if_neg hsmall, hloop, cons_append, nil_append, hpIntGet]
    rw [or_mod hbits hfirst (by omega), if_neg (lt_irrefl _), hpIntRead, if_neg (by decide)]
    rw [if_pos (by omega), Nat.mod_eq_of_lt (by omega)]
    congr 2
    omega

theorem hpStrGet_put {s : Bytes} {cap : ℕ} (hcap : cap ≤ 64) (hs : s.length < cap ∧ 0 ∉ s)
    (rest : Bytes) : hpStrGet cap (hpStrPut s ++ rest) = .ok (s, rest) := by
  have hbyte : (UInt8.ofNat s.length).toNat = s.length := toNat_byte (by omega)
  have hput : hpIntPut 7 0 s.length = [UInt8.ofNat s.length] := by
    rw [hpIntPut, if_pos (by omega), UInt8.zero_or]
  have hget := hpIntGet_put 7 0 le_rfl rfl (show s.length < 128 by omega) (s ++ rest)
  have htext : cstr s = s := by
    refine takeWhile_eq_self_iff.mpr fun x hx => ?_
    have hne : x ≠ 0 := fun hzero => hs.2 (hzero ▸ hx)
    simpa using hne
  rw [hput] at hget
  simp only [hpStrPut, hput, cons_append, nil_append] at hget ⊢
  rw [hpStrGet, if_neg (by omega), hget]
  simp only [Except.bind, bind, length_append]
  rw [if_neg (by omega), if_neg (by omega), take_left, drop_left, htext]

theorem kStatic_length : kStatic.length = 61 := by decide

/-- The first byte of a number tells a static entry from a literal. -/
theorem hpIntPut_cons {i : ℕ} (hi : i < 62) :
    (∃ x tail, hpIntPut 7 0x80 i = x :: tail ∧ 128 ≤ x.toNat) ∧
      ∃ x tail, hpIntPut 4 0 i = x :: tail ∧ x.toNat < 32 := by
  have hall : ∀ i < 62, 128 ≤ ((hpIntPut 7 0x80 i).headD 0).toNat ∧
      ((hpIntPut 4 0 i).headD 0).toNat < 32 ∧ hpIntPut 7 0x80 i ≠ [] ∧ hpIntPut 4 0 i ≠ [] := by
    decide +kernel
  obtain ⟨hhigh, hlow, hne, hne'⟩ := hall i hi
  obtain ⟨x, tail, heq⟩ := exists_cons_of_ne_nil hne
  obtain ⟨y, tail', heq'⟩ := exists_cons_of_ne_nil hne'
  rw [heq] at hhigh
  rw [heq'] at hlow
  exact ⟨⟨x, tail, heq, hhigh⟩, y, tail', heq', hlow⟩

theorem kStatic_found {p : Bytes × Bytes → Bool} {i : ℕ} (h : kStatic.findIdx? p = some i) :
    i < 61 ∧ ∃ e, kStatic[i]? = some e ∧ p e = true := by
  obtain ⟨hlt, hp, -⟩ := findIdx?_eq_some_iff_getElem.mp h
  exact ⟨kStatic_length ▸ hlt, _, List.getElem?_eq_getElem hlt, hp⟩

theorem literal_step {i : ℕ} (hi : i < 62) (hcount : count < most) {tail rest : Bytes}
    (hname : hpName i tail = .ok (h.name, hpStrPut h.value ++ rest)) :
    hpackLoop most (n + 1) count (hpIntPut 4 0 i ++ tail) =
      ((h.name, h.value) :: ·) <$> hpackLoop most n (count + 1) rest := by
  obtain ⟨-, x, t, heq, hx⟩ := hpIntPut_cons hi
  have hget := hpIntGet_put 4 0 (by decide) rfl (show i < 128 by omega) tail
  rw [heq, cons_append] at hget ⊢
  rw [hpackLoop, if_neg (by omega), if_neg (by omega), if_neg (by omega), if_neg (by omega), hget]
  simp only [Except.bind, bind]
  rw [hname]
  simp only
  rw [hpStrGet_put le_rfl h.value_fits]

theorem hpackLoop_put (h : Header) (hcount : count < most) (rest : Bytes) :
    hpackLoop most (n + 1) count (gwHpackPut h.name h.value ++ rest) =
      ((h.name, h.value) :: ·) <$> hpackLoop most n (count + 1) rest := by
  have hcut : h.name.take 31 = h.name ∧ h.value.take 63 = h.value :=
    ⟨take_of_length_le (Nat.le_of_lt_succ h.name_fits.1),
      take_of_length_le (Nat.le_of_lt_succ h.value_fits.1)⟩
  unfold gwHpackPut
  split
  · next i hfound =>
    obtain ⟨hi, e, he, hp⟩ := kStatic_found hfound
    obtain ⟨hname, -, hvalue⟩ := of_decide_eq_true hp
    obtain ⟨⟨x, t, heq, hx⟩, -⟩ := hpIntPut_cons (show i + 1 < 62 by omega)
    have hget := hpIntGet_put 7 0x80 le_rfl (by decide)
      (show i + 1 < 128 by omega) rest
    rw [heq, cons_append] at hget ⊢
    rw [hpackLoop, if_neg (by omega), if_pos hx, hget]
    simp only [Except.bind, bind]
    rw [if_neg (Nat.succ_ne_zero i), Nat.add_sub_cancel, he]
    simp only
    rw [hname, hvalue, hcut.1, hcut.2]
  · split
    · next i hfound =>
      obtain ⟨hi, e, he, hp⟩ := kStatic_found hfound
      rw [append_assoc]
      refine literal_step (by omega) hcount ?_
      rw [hpName, if_neg (Nat.succ_ne_zero i), Nat.add_sub_cancel, he]
      simp only
      rw [of_decide_eq_true hp, hcut.1]
    · rw [append_assoc, append_assoc]
      refine literal_step (by decide) hcount ?_
      rw [hpName, if_pos rfl, hpStrGet_put (by decide) h.name_fits]

def headerBlock (hs : List Header) : Bytes := hs.flatMap fun h => gwHpackPut h.name h.value

theorem hpackLoop_block {hs : List Header} (hn : (headerBlock hs).length ≤ n)
    (hmost : count + hs.length ≤ most) :
    hpackLoop most n count (headerBlock hs) = .ok (hs.map fun h => (h.name, h.value)) := by
  induction hs generalizing n count with
  | nil => rw [headerBlock, flatMap_nil, hpackLoop, map_nil]
  | cons h hs ih =>
    rw [length_cons] at hmost
    rw [headerBlock, flatMap_cons, ← headerBlock, length_append] at hn
    have hpos : 0 < (gwHpackPut h.name h.value).length := by
      -- a header read from no bytes at all would be one too many
      refine length_pos_of_ne_nil fun hnil => ?_
      have hread := hpackLoop_put (n := 0) h Nat.zero_lt_one []
      rw [hnil] at hread
      cases hread
    obtain ⟨n, rfl⟩ := Nat.exists_eq_add_of_lt (show 0 < n by omega)
    rw [headerBlock, flatMap_cons, ← headerBlock, hpackLoop_put h (by omega),
      ih (by omega) (by omega)]
    rfl

/-- Decoding the encodings of headers, one behind the other, gives the headers in order. -/
theorem gwHpackDecode_put (hs : List Header) (spare : ℕ) :
    gwHpackDecode (headerBlock hs) (hs.length + spare) = .ok (hs.map fun h => (h.name, h.value)) :=
  hpackLoop_block le_rfl (by omega)

end Mohhdy.Grpc
