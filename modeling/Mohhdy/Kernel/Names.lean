import Mohhdy.Foundations.Tables
import Mohhdy.Foundations.Words

/-! Service names and path prefixes of the service registry (`src/kernel/service_registry.c`).

A name or a path is the bytes of a C string. A name is kept in an array of
`OS_SERVICE_NAME_MAX` = 16 bytes, a prefix in one of `OS_SERVICE_BACKEND_PREFIX_MAX` = 48. -/
namespace Mohhdy.Kernel
set_option autoImplicit false

open Words

def noText : CString := ⟨[], List.not_mem_nil⟩

def slash : UInt8 := 47
def dot : UInt8 := 46

def nameByte (c : UInt8) : Bool :=
  (97 ≤ c && c ≤ 122) || (65 ≤ c && c ≤ 90) || (48 ≤ c && c ≤ 57) || c == 95 || c == 45

def nameValid (name : CString) : Bool :=
  !name.val.isEmpty && name.val.length < 16 && name.val.all nameByte

def nameEqual (left right : CString) : Bool := left == right && left.val.length < 16

/-- The loop of `service_registry_backend_prefix_valid`, with the byte before; before the first
one there stands a slash. -/
def prefixLoop : UInt8 → List UInt8 → Bool
  | prev, [] => prev == slash
  | prev, c :: cs =>
    if c = slash ∧ prev = slash then false
    else if c = dot ∧ cs.head? = some dot then false
    else prefixLoop c cs

/-- A prefix is relative, canonical and names a directory; the empty one names the root. -/
def prefixValid (pre : CString) : Bool :=
  pre.val.isEmpty || (pre.val.length < 48 && prefixLoop slash pre.val)

def prefixEqual (left right : CString) : Bool := left == right && left.val.length < 48

def prefixMatches (pre : CString) (path : Option CString) : Bool :=
  pre.val.isEmpty || path.any fun p => pre.val.isPrefixOf p.val

inductive ServiceErr where
  | badName | full | taken | notFound | notOwner | badGrantee | watchFull | stale
deriving DecidableEq, Repr

def bump (c : UInt32) : UInt32 := if c + 1 = 0 then 1 else c + 1

theorem nameValid_length {name : CString} (h : nameValid name = true) : name.val.length < 16 := by
  simp only [nameValid, Bool.and_eq_true, decide_eq_true_eq] at h
  exact h.1.2

@[simp] theorem nameEqual_iff {left right : CString} :
    nameEqual left right = true ↔ left = right ∧ left.val.length < 16 := by
  simp [nameEqual, Subtype.ext_iff]

@[simp] theorem prefixEqual_iff {left right : CString} :
    prefixEqual left right = true ↔ left = right ∧ left.val.length < 48 := by
  simp [prefixEqual, Subtype.ext_iff]

theorem prefixValid_length {pre : CString} (h : prefixValid pre = true) : pre.val.length < 48 := by
  unfold prefixValid at h
  rcases Bool.or_eq_true_iff.mp h with h | h
  · rw [List.isEmpty_iff.mp h]
    simp
  · exact of_decide_eq_true (Bool.and_eq_true_iff.mp h).1

theorem bump_ne_zero (c : UInt32) : bump c ≠ 0 := by
  unfold bump
  split
  · decide
  · assumption

theorem bump_toNat {c : UInt32} (h : c.toNat + 1 < 2 ^ 32) : (bump c).toNat = c.toNat + 1 := by
  have hadd : (c + 1).toNat = c.toNat + 1 := by
    exact Nat.mod_eq_of_lt h
  unfold bump
  rw [if_neg, hadd]
  intro h0
  rw [h0] at hadd
  exact absurd hadd (by simp)

end Mohhdy.Kernel
