import Mohhdy.Foundations.Tables
import Mohhdy.Foundations.Words

/-! Ledger entries and their 72-byte wire form (`collab_entry_t`, `collab_encode`,
`collab_decode`, `before`).

The text field is a 40-byte buffer whose last byte is always NUL (`s_copy` and `collab_decode`
both put it there), so `Text` stores the 39 bytes before it. What follows the first NUL is kept:
`collab_decode` copies it from the wire and `collab_encode` writes it back. -/
namespace Mohhdy.Collab
open Words List
set_option autoImplicit false

/-! ## C strings -/

/-- The bytes of a C string: everything before the first NUL. -/
def cStr (s : List UInt8) : List UInt8 := s.takeWhile (· != 0)

def ascii (s : List Char) : List UInt8 := s.map fun c => UInt8.ofNat c.toNat

def sCat (d s : List UInt8) (cap : ℕ) : List UInt8 := d ++ (cStr s).take (cap - 1 - d.length)

def decimal (v : UInt32) : List UInt8 := ascii (Nat.toDigits 10 v.toNat)

def printable (b : UInt8) : Bool := 32 ≤ b && b ≤ 126

def cleanByte (b : UInt8) : UInt8 := if printable b then b else 63

theorem cleanByte_printable {b : UInt8} (h : printable b = true) : cleanByte b = b := by
  simp [cleanByte, h]

theorem printable_cleanByte (b : UInt8) : printable (cleanByte b) = true := by
  unfold cleanByte
  split
  · assumption
  · rfl

theorem cleanByte_ne_zero (b : UInt8) : cleanByte b ≠ 0 := by
  intro h
  have hp := printable_cleanByte b
  rw [h] at hp
  exact absurd hp (by decide)

theorem cleanByte_eq_iff (b : UInt8) : cleanByte b = b ↔ printable b = true := by
  constructor
  · intro h
    rw [← h]
    exact printable_cleanByte b
  · exact cleanByte_printable

/-! ## Text buffers -/

/-- `char text[COLLAB_TEXT]`: the 39 bytes before the final NUL. -/
structure Text where
  body : List UInt8
  size : body.length = 39
deriving DecidableEq

namespace Text

def bytes (t : Text) : List UInt8 := t.body ++ [0]

def str (t : Text) : List UInt8 := cStr t.body

@[ext] theorem ext {a b : Text} (h : a.body = b.body) : a = b := by
  cases a; cases b; cases h; rfl

@[simp] theorem bytes_length (t : Text) : t.bytes.length = 40 := by
  simp [bytes, t.size]

def ofStr (s : List UInt8) : Text where
  body := (cStr s).take 39 ++ List.replicate (39 - ((cStr s).take 39).length) 0
  size := by
    simp only [length_append, length_replicate, length_take]
    omega

/-- The in-place loop of `collab_decode`: every byte before the first NUL is cleaned. -/
def sanitise (t : Text) : Text where
  body := (cStr t.body).map cleanByte ++ t.body.dropWhile (· != 0)
  size := by
    have h := congrArg List.length (takeWhile_append_dropWhile (p := (· != 0)) (l := t.body))
    simp only [length_append] at h
    simp only [cStr, length_append, length_map, h, t.size]

def ofWire (b : List UInt8) : Text where
  body := ((b.drop 32).take 39) ++ List.replicate (39 - ((b.drop 32).take 39).length) 0
  size := by
    simp only [length_append, length_replicate, length_take]
    omega

end Text

theorem cStr_no_zero (s : List UInt8) : ∀ b ∈ cStr s, b ≠ 0 := by
  intro b hb
  have := mem_takeWhile_imp hb
  simpa using this

theorem cStr_append_zero {s : List UInt8} (h : ∀ b ∈ s, b ≠ 0) (rest : List UInt8) :
    cStr (s ++ 0 :: rest) = s := by
  unfold cStr
  rw [takeWhile_append_of_pos (by simpa using h)]
  simp

theorem cStr_of_no_zero {s : List UInt8} (h : ∀ b ∈ s, b ≠ 0) : cStr s = s := by
  unfold cStr
  rw [takeWhile_eq_self_iff]
  simpa using h

theorem cStr_append_dropWhile (s : List UInt8) : cStr s ++ s.dropWhile (· != 0) = s :=
  takeWhile_append_dropWhile

theorem Text.str_ofStr (s : List UInt8) : (Text.ofStr s).str = (cStr s).take 39 := by
  have hz : ∀ b ∈ (cStr s).take 39, b ≠ 0 := fun b hb => cStr_no_zero s b (mem_of_mem_take hb)
  change cStr ((cStr s).take 39 ++ List.replicate (39 - ((cStr s).take 39).length) 0) = _
  cases 39 - ((cStr s).take 39).length with
  | zero =>
    rw [replicate_zero, append_nil]
    exact cStr_of_no_zero hz
  | succ n =>
    exact cStr_append_zero hz _

theorem Text.sanitise_eq_iff (t : Text) : t.sanitise = t ↔ ∀ b ∈ t.str, printable b = true := by
  have hsplit := cStr_append_dropWhile t.body
  constructor
  · intro h b hb
    have hbody : (cStr t.body).map cleanByte ++ t.body.dropWhile (· != 0) =
        cStr t.body ++ t.body.dropWhile (· != 0) := by
      rw [hsplit]
      exact congrArg Text.body h
    have hmap : (cStr t.body).map cleanByte = cStr t.body := append_cancel_right hbody
    have hb' : cleanByte b = b := Tables.map_eq_self_iff.mp hmap b hb
    exact (cleanByte_eq_iff b).mp hb'
  · intro h
    apply Text.ext
    have hmap : (cStr t.body).map cleanByte = cStr t.body :=
      Tables.map_eq_self_iff.mpr fun b hb => cleanByte_printable (h b hb)
    change (cStr t.body).map cleanByte ++ t.body.dropWhile (· != 0) = t.body
    rw [hmap, hsplit]

theorem Text.str_sanitise (t : Text) : t.sanitise.str = t.str.map cleanByte := by
  have hz : ∀ b ∈ (cStr t.body).map cleanByte, b ≠ 0 := by
    refine forall_mem_map.mpr fun a _ => ?_
    exact cleanByte_ne_zero a
  change cStr ((cStr t.body).map cleanByte ++ t.body.dropWhile (· != 0)) = (cStr t.body).map cleanByte
  cases hd : t.body.dropWhile (· != 0) with
  | nil =>
    rw [append_nil]
    exact cStr_of_no_zero hz
  | cons a rest =>
    have ha : a = 0 := by
      have := List.head?_dropWhile_not (· != 0) t.body
      rw [hd] at this
      simpa using this
    rw [ha]
    exact cStr_append_zero hz rest

theorem Text.sanitise_sanitise (t : Text) : t.sanitise.sanitise = t.sanitise := by
  rw [Text.sanitise_eq_iff, Text.str_sanitise]
  refine forall_mem_map.mpr fun a _ => ?_
  exact printable_cleanByte a

/-! ## Entries -/

/-- The entry types `CE_JOIN` to `CE_SIGNOFF`, in the order of the enumeration. -/
inductive CE where
  | join | transfer | offer | reserve | task | claim | done | accept | reject
  | rate | propose | vote | profile | redact | ticket | answer
  | escrow | settle | dispute | ruling | auction | bid | close
  | contract | signoff
deriving DecidableEq, Repr

namespace CE

def toByte : CE → UInt8
  | join => 1 | transfer => 2 | offer => 3 | reserve => 4 | task => 5 | claim => 6 | done => 7
  | accept => 8 | reject => 9 | rate => 10 | propose => 11 | vote => 12 | profile => 13
  | redact => 14 | ticket => 15 | answer => 16 | escrow => 17 | settle => 18 | dispute => 19
  | ruling => 20 | auction => 21 | bid => 22 | close => 23 | contract => 24 | signoff => 25

def ofByte (b : UInt8) : Option CE :=
  match b.toNat with
  | 1 => some join | 2 => some transfer | 3 => some offer | 4 => some reserve | 5 => some task
  | 6 => some claim | 7 => some done | 8 => some accept | 9 => some reject | 10 => some rate
  | 11 => some propose | 12 => some vote | 13 => some profile | 14 => some redact
  | 15 => some ticket | 16 => some answer | 17 => some escrow | 18 => some settle
  | 19 => some dispute | 20 => some ruling | 21 => some auction | 22 => some bid
  | 23 => some close | 24 => some contract | 25 => some signoff
  | _ => none

@[simp] theorem ofByte_toByte (t : CE) : ofByte t.toByte = some t := by
  cases t <;> rfl

end CE

def collabTypeName : CE → List UInt8
  | .join => ascii ['j', 'o', 'i', 'n']
  | .transfer => ascii ['t', 'r', 'a', 'n', 's', 'f', 'e', 'r']
  | .offer => ascii ['o', 'f', 'f', 'e', 'r']
  | .reserve => ascii ['r', 'e', 's', 'e', 'r', 'v', 'e']
  | .task => ascii ['t', 'a', 's', 'k']
  | .claim => ascii ['c', 'l', 'a', 'i', 'm']
  | .done => ascii ['d', 'o', 'n', 'e']
  | .accept => ascii ['a', 'c', 'c', 'e', 'p', 't']
  | .reject => ascii ['r', 'e', 'j', 'e', 'c', 't']
  | .rate => ascii ['r', 'a', 't', 'e']
  | .propose => ascii ['p', 'r', 'o', 'p', 'o', 's', 'e']
  | .vote => ascii ['v', 'o', 't', 'e']
  | .profile => ascii ['p', 'r', 'o', 'f', 'i', 'l', 'e']
  | .redact => ascii ['r', 'e', 'd', 'a', 'c', 't']
  | .ticket => ascii ['t', 'i', 'c', 'k', 'e', 't']
  | .answer => ascii ['a', 'n', 's', 'w', 'e', 'r']
  | .escrow => ascii ['e', 's', 'c', 'r', 'o', 'w']
  | .settle => ascii ['s', 'e', 't', 't', 'l', 'e']
  | .dispute => ascii ['d', 'i', 's', 'p', 'u', 't', 'e']
  | .ruling => ascii ['r', 'u', 'l', 'i', 'n', 'g']
  | .auction => ascii ['a', 'u', 'c', 't', 'i', 'o', 'n']
  | .bid => ascii ['b', 'i', 'd']
  | .close => ascii ['c', 'l', 'o', 's', 'e']
  | .contract => ascii ['c', 'o', 'n', 't', 'r', 'a', 'c', 't']
  | .signoff => ascii ['s', 'i', 'g', 'n', 'o', 'f', 'f']

/-- `collab_entry_t`. -/
structure Entry where
  type : CE
  (origin seq lamport peer ref amount aux : UInt32)
  text : Text
deriving DecidableEq

variable (e : Entry)

def Entry.key : UInt32 × UInt32 := (e.origin, e.seq)

def encodeHeader : List UInt8 :=
  e.type.toByte :: 0 :: 0 :: 0 :: (le32 e.origin ++ (le32 e.seq ++ (le32 e.lamport ++
    (le32 e.peer ++ (le32 e.ref ++ (le32 e.amount ++ le32 e.aux))))))

def collabEncode : List UInt8 := encodeHeader e ++ e.text.bytes

/-- `collab_decode`: at least 72 bytes, a known type, an origin and a sequence number that are
not 0. The text is cleaned. -/
def collabDecode (b : List UInt8) : Option Entry :=
  if b.length < 72 then none
  else match CE.ofByte (b.headD 0) with
    | none => none
    | some type =>
      let e : Entry :=
        { type := type
          origin := readLe32 (b.drop 4)
          seq := readLe32 (b.drop 8)
          lamport := readLe32 (b.drop 12)
          peer := readLe32 (b.drop 16)
          ref := readLe32 (b.drop 20)
          amount := readLe32 (b.drop 24)
          aux := readLe32 (b.drop 28)
          text := (Text.ofWire b).sanitise }
      if e.origin = 0 ∨ e.seq = 0 then none else some e

@[simp] theorem encodeHeader_length : (encodeHeader e).length = 32 := rfl

@[simp] theorem collabEncode_length : (collabEncode e).length = 72 := by
  simp [collabEncode]

theorem ofWire_collabEncode (rest : List UInt8) :
    Text.ofWire (collabEncode e ++ rest) = e.text := by
  apply Text.ext
  have hdrop : (collabEncode e ++ rest).drop 32 = e.text.body ++ (0 :: rest) := by
    simp [collabEncode, Text.bytes, drop_append]
  have htake : ((collabEncode e ++ rest).drop 32).take 39 = e.text.body := by
    rw [hdrop, take_append_of_le_length (by rw [e.text.size]), ← e.text.size, take_length]
  simp [Text.ofWire, htake, e.text.size]

theorem collabDecode_collabEncode (rest : List UInt8) : collabDecode (collabEncode e ++ rest) =
      if e.origin = 0 ∨ e.seq = 0 then none else some { e with text := e.text.sanitise } := by
  have hlen : ¬ (collabEncode e ++ rest).length < 72 := by
    simp
  have htext := ofWire_collabEncode e rest
  unfold collabDecode
  rw [if_neg hlen, htext]
  simp only [collabEncode, encodeHeader, le32, cons_append, nil_append,
    headD_cons, CE.ofByte_toByte, drop_succ_cons, drop_zero, readLe32_bytes]

theorem collabDecode_wellFormed {b : List UInt8} {e : Entry} (h : collabDecode b = some e) :
    e.origin ≠ 0 ∧ e.seq ≠ 0 ∧ e.text.sanitise = e.text := by
  unfold collabDecode at h
  split at h
  · cases h
  split at h
  · cases h
  rename_i type _
  simp only [Option.ite_none_left_eq_some, Option.some.injEq, not_or] at h
  obtain ⟨⟨ho, hs⟩, rfl⟩ := h
  exact ⟨ho, hs, Text.sanitise_sanitise _⟩

/-! ## The canonical order -/

/-- `before`: lamport, then origin, then sequence number. -/
def before (a b : Entry) : Bool :=
  if a.lamport ≠ b.lamport then a.lamport < b.lamport
  else if a.origin ≠ b.origin then a.origin < b.origin
  else a.seq < b.seq

theorem before_irrefl (a : Entry) : before a a = false := by
  simp [before]

theorem before_trans {a b c : Entry} (hab : before a b = true) (hbc : before b c = true) :
    before a c = true := by
  simp only [before, ne_eq, ite_not, UInt32.lt_iff_toNat_lt, ← UInt32.toNat_inj] at *
  grind

theorem before_total {a b : Entry} (hk : a.key ≠ b.key) (h : before a b = false) :
    before b a = true := by
  simp only [before, Entry.key, ne_eq, ite_not, Prod.mk.injEq, UInt32.lt_iff_toNat_lt,
    ← UInt32.toNat_inj] at *
  grind

end Mohhdy.Collab
