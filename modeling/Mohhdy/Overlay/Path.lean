import Mathlib.Data.List.DropRight
import Mathlib.Data.List.TakeWhile
import Mathlib.Tactic

/-! Paths of the overlay, and the initrd below it.

`src/fs/overlay.c` and `src/fs/initrd.c`. A path is the bytes of a C string. `ov_normalize` takes
one leading `./`, every leading slash and every trailing slash away and cuts the rest to its
buffer; it is not idempotent, since what is left may begin with `./` again. -/
namespace Mohhdy.Overlay
set_option autoImplicit false
open List

abbrev Bytes := List UInt8

def slash : UInt8 := 47
def dot : UInt8 := 46

def cString (inp : Bytes) : Bytes := inp.takeWhile (· ≠ 0)

def skipLead (inp : Bytes) : Bytes :=
  (if inp.take 2 = [dot, slash] then inp.drop 2 else inp).dropWhile (· = slash)

/-- `ov_normalize` and `ird_normalize`, which differ in the size of the buffer. -/
def normalize (max : ℕ) (inp : Bytes) : Bytes :=
  ((skipLead (cString inp)).take (max - 1)).rdropWhile (· = slash)

/-- The buffer has `OV_PATH_MAX` bytes. -/
def ovNormalize (inp : Bytes) : Bytes := normalize 80 inp

def irdNormalize (inp : Bytes) : Bytes := normalize 256 inp

def ovParent (path : Bytes) : Bytes := (path.rdropWhile (· ≠ slash)).dropLast

def ovUnder (path pre : Bytes) : Bool :=
  pre.isPrefixOf path && (path.drop pre.length).head?.all (· = slash)

/-! ## The initrd -/

/-- The files of the archive, name and contents; `none` when there is none. -/
abbrev Initrd := Option (List (Bytes × Bytes))

def irdFind (rd : Initrd) (path : Bytes) : Option (Bytes × Bytes) :=
  rd.bind fun files => files.find? fun f => irdNormalize f.1 = irdNormalize path

def initrdIsFile (rd : Initrd) (path : Bytes) : Bool := (irdFind rd path).isSome

def initrdIsDir (rd : Initrd) (path : Bytes) : Bool :=
  rd.any fun files => irdNormalize path = [] ∨ files.any fun f =>
    irdNormalize f.1 ≠ irdNormalize path ∧ (irdNormalize path).isPrefixOf (irdNormalize f.1) ∧
      ((irdNormalize f.1).drop (irdNormalize path).length).head? = some slash

def initrdReadInto (rd : Initrd) (path : Bytes) (max : ℕ) : Option Bytes :=
  if max = 0 then none else (irdFind rd path).map fun f => f.2.take max

/-! ## Paths as `ov_normalize` leaves them -/

structure Tidy (p : Bytes) : Prop where
  ne_nil : p ≠ []
  head : p.head? ≠ some slash
  last : p.getLast? ≠ some slash
  length : p.length ≤ 79
  zero : (0 : UInt8) ∉ p

def Plain (p : Bytes) : Prop := ovUnder p [dot] = false

instance (p : Bytes) : Decidable (Plain p) := inferInstanceAs (Decidable (_ = _))

variable {p pre : Bytes}

theorem ovUnder_iff : ovUnder p pre = true ↔ p = pre ∨ ∃ r, p = pre ++ slash :: r := by
  constructor
  · intro h
    obtain ⟨hpre, hall⟩ := Bool.and_eq_true_iff.mp h
    obtain ⟨rest, rfl⟩ := isPrefixOf_iff_prefix.mp hpre
    rw [drop_left] at hall
    cases rest with
    | nil => exact .inl (by simp)
    | cons c r =>
      obtain rfl : c = slash := by simpa using hall
      exact .inr ⟨r, rfl⟩
  · rintro (rfl | ⟨r, rfl⟩)
    · simp [ovUnder]
    · simp [ovUnder]

theorem ovUnder_self (p : Bytes) : ovUnder p p = true := ovUnder_iff.mpr (.inl rfl)

theorem ovUnder_rest (h : ovUnder p pre = true) :
    p = pre ++ p.drop pre.length ∧ (p.drop pre.length).head?.all (· = slash) = true := by
  rcases ovUnder_iff.mp h with rfl | ⟨r, rfl⟩
  · simp
  · simp

theorem plain_iff : Plain p ↔ p ≠ [dot] ∧ ∀ r, p ≠ dot :: slash :: r := by
  rw [Plain, ← Bool.not_eq_true, ovUnder_iff, not_or, not_exists]
  rfl

theorem head?_dropWhile_slash (l : Bytes) : (l.dropWhile (· = slash)).head? ≠ some slash := by
  induction l with
  | nil => simp
  | cons x l ih =>
    by_cases h : x = slash
    · simpa [h] using ih
    · simp [h]

variable {l m : Bytes}

theorem head?_of_isPre (h : l <+: m) {x : UInt8} (hx : l.head? = some x) : m.head? = some x := by
  obtain ⟨t, rfl⟩ := h
  simp [hx]

theorem getLast?_rdropWhile_slash (l : Bytes) :
    (l.rdropWhile (· = slash)).getLast? ≠ some slash := by
  intro h
  have hne : l.rdropWhile (· = slash) ≠ [] := by
    rintro h0
    simp [h0] at h
  have hx := rdropWhile_last_not (fun c : UInt8 => decide (c = slash)) l hne
  rw [List.getLast?_eq_some_getLast hne] at h
  simp [Option.some.inj h] at hx

theorem rdropWhile_slash_eq (h : l.getLast? ≠ some slash) : l.rdropWhile (· = slash) = l := by
  rw [rdropWhile_eq_self_iff]
  intro hl
  rw [List.getLast?_eq_some_getLast hl] at h
  simpa using h

theorem dropWhile_slash_eq (h : l.head? ≠ some slash) : l.dropWhile (· = slash) = l := by
  cases l with
  | nil => rfl
  | cons x l =>
    have hx : x ≠ slash := by simpa using h
    simp [hx]

theorem skipLead_head (inp : Bytes) : (skipLead inp).head? ≠ some slash := head?_dropWhile_slash _

theorem skipLead_subset {inp : Bytes} {x : UInt8} (h : x ∈ skipLead inp) : x ∈ inp := by
  have hmem := (dropWhile_sublist _).subset h
  split at hmem
  · exact mem_of_mem_drop hmem
  · exact hmem

theorem zero_notMem_cString (inp : Bytes) : (0 : UInt8) ∉ cString inp := by
  intro h0
  simpa using mem_takeWhile_imp h0

theorem ovNormalize_isPre (inp : Bytes) : ovNormalize inp <+: skipLead (cString inp) := by
  have hdrop : ovNormalize inp <+: (skipLead (cString inp)).take (80 - 1) := rdropWhile_prefix _ _
  exact hdrop.trans <| take_prefix _ _

theorem normalize_tidy {inp : Bytes} (h : ovNormalize inp ≠ []) : Tidy (ovNormalize inp) := by
  have hpre := ovNormalize_isPre inp
  refine ⟨h, ?_, getLast?_rdropWhile_slash _, ?_, ?_⟩
  · exact fun hhead => skipLead_head _ (head?_of_isPre hpre hhead)
  · have hdrop : ovNormalize inp <+: (skipLead (cString inp)).take (80 - 1) := rdropWhile_prefix _ _
    have hlen := hdrop.length_le
    rw [length_take] at hlen
    exact hlen.trans (min_le_left _ _)
  · exact fun h0 => zero_notMem_cString inp (skipLead_subset (hpre.subset h0))

theorem normalize_eq {max : ℕ} (hz : (0 : UInt8) ∉ p) (hdot : p.take 2 ≠ [dot, slash])
    (hhead : p.head? ≠ some slash) (hlen : p.length ≤ max - 1) :
    normalize max p = p.rdropWhile (· = slash) := by
  have hw : cString p = p := by
    rw [cString, takeWhile_eq_self_iff]
    intro x hx
    simpa using fun h0 : x = 0 => hz (h0 ▸ hx)
  rw [normalize, hw, skipLead, if_neg hdot, dropWhile_slash_eq hhead, take_of_length_le hlen]

theorem Plain.take_ne (h : Plain p) : p.take 2 ≠ [dot, slash] := by
  intro heq
  refine (plain_iff.mp h).2 (p.drop 2) ?_
  have := take_append_drop 2 p
  rw [heq] at this
  exact this.symm

theorem Tidy.normalize_eq_self {max : ℕ} (h : Tidy p) (hp : Plain p)
    (hmax : 80 ≤ max) : normalize max p = p := by
  have := h.length
  rw [normalize_eq h.zero hp.take_ne h.head (by omega), rdropWhile_slash_eq h.last]

/-! ## The directory a path is in -/

/-- The parent without trailing slashes: what the lookups of a parent normalise it to. -/
def dirOf (p : Bytes) : Bytes := (ovParent p).rdropWhile (· = slash)

theorem ovParent_isPre (p : Bytes) : ovParent p <+: p := by
  have hlast : ovParent p <+: _ := dropLast_prefix _
  exact hlast.trans <| rdropWhile_prefix _ _

theorem dirOf_of_isPre (p : Bytes) : dirOf p <+: p := by
  have hdrop : dirOf p <+: ovParent p := rdropWhile_prefix _ _
  exact hdrop.trans (ovParent_isPre p)

theorem rdropWhile_append_eq {f : UInt8 → Bool} (h : m.rdropWhile f ≠ []) :
    (l ++ m).rdropWhile f = l ++ m.rdropWhile f := by
  have hne : m.reverse.dropWhile f ≠ [] := by simpa [List.rdropWhile] using h
  simp [List.rdropWhile, dropWhile_append, hne]

theorem rdropWhile_append_nil {f : UInt8 → Bool} (h : m.rdropWhile f = []) :
    (l ++ m).rdropWhile f = l.rdropWhile f := by
  have hnil : m.reverse.dropWhile f = [] := by simpa [List.rdropWhile] using h
  simp [List.rdropWhile, dropWhile_append, hnil]

theorem dirOf_append {r : Bytes} (hlast : pre.getLast? ≠ some slash) :
    dirOf (pre ++ slash :: r) = pre ++ dirOf (slash :: r) := by
  have hne : (slash :: r).rdropWhile (· ≠ slash) ≠ [] := by
    simp [rdropWhile_eq_nil_iff]
  rw [dirOf, ovParent, rdropWhile_append_eq hne, dropLast_append_of_ne_nil hne, dirOf, ovParent]
  by_cases hnil : (((slash :: r).rdropWhile (· ≠ slash)).dropLast).rdropWhile (· = slash) = []
  · rw [rdropWhile_append_nil hnil, hnil, rdropWhile_slash_eq hlast, append_nil]
  · exact rdropWhile_append_eq hnil

theorem dirOf_rest (r : Bytes) : dirOf (slash :: r) = [] ∨ ∃ t, dirOf (slash :: r) = slash :: t := by
  obtain ⟨t, ht⟩ := dirOf_of_isPre (slash :: r)
  cases hd : dirOf (slash :: r) with
  | nil => exact .inl rfl
  | cons x xs =>
    rw [hd] at ht
    obtain ⟨rfl, -⟩ := List.cons.inj ht
    exact .inr ⟨xs, rfl⟩

theorem ovParent_eq (p : Bytes) : ∃ k, ovParent p = dirOf p ++ List.replicate k slash := by
  refine ⟨((ovParent p).rtakeWhile (· = slash)).length, ?_⟩
  have hsplit : dirOf p ++ (ovParent p).rtakeWhile (· = slash) = ovParent p :=
    rdropWhile_append_rtakeWhile
  have hrep : (ovParent p).rtakeWhile (· = slash) =
      List.replicate ((ovParent p).rtakeWhile (· = slash)).length slash := by
    rw [eq_replicate_iff]
    exact ⟨rfl, fun x hx => by simpa using mem_rtakeWhile_imp hx⟩
  rw [← hrep]
  exact hsplit.symm

theorem eq_dirOf_append (h : dirOf p ≠ []) : ∃ r, p = dirOf p ++ slash :: r := by
  have hne : p.rdropWhile (· ≠ slash) ≠ [] := by
    intro h0
    rw [dirOf, ovParent, h0] at h
    exact h rfl
  have hlast : (p.rdropWhile (· ≠ slash)).getLast hne = slash := by
    simpa using rdropWhile_last_not (fun c : UInt8 => decide (c ≠ slash)) p hne
  have hp : ovParent p ++ [slash] <+: p := by
    have heq := dropLast_append_getLast hne
    rw [hlast] at heq
    rw [ovParent, heq]
    exact rdropWhile_prefix _ _
  obtain ⟨t, ht⟩ := hp
  obtain ⟨k, hk⟩ := ovParent_eq p
  cases k with
  | zero =>
    refine ⟨t, ?_⟩
    conv_lhs => rw [← ht, hk]
    simp
  | succ k =>
    refine ⟨List.replicate k slash ++ [slash] ++ t, ?_⟩
    conv_lhs => rw [← ht, hk]
    simp [replicate_succ]

theorem dirOf_length_lt (h : p ≠ []) : (dirOf p).length < p.length := by
  by_cases hd : dirOf p = []
  · rw [hd]
    exact length_pos_of_ne_nil h
  · obtain ⟨r, hr⟩ := eq_dirOf_append hd
    have := congrArg List.length hr
    simp only [length_append, length_cons] at this
    omega

theorem dirOf_tidy (h : Tidy p) (hd : dirOf p ≠ []) : Tidy (dirOf p) where
  ne_nil := hd
  head hx := h.head (head?_of_isPre (dirOf_of_isPre p) hx)
  last := getLast?_rdropWhile_slash _
  length := (dirOf_of_isPre p).length_le.trans h.length
  zero h0 := h.zero ((dirOf_of_isPre p).subset h0)

theorem dirOf_plain (h : Plain p) (hd : dirOf p ≠ []) : Plain (dirOf p) := by
  obtain ⟨r, hr⟩ := eq_dirOf_append hd
  rw [plain_iff] at h ⊢
  constructor
  · intro heq
    rw [heq] at hr
    exact h.2 r hr
  · intro r' heq
    rw [heq] at hr
    exact h.2 _ hr

section
variable (h : Tidy p) (hp : Plain p)
include h hp

theorem normalize_ovParent {max : ℕ} (hmax : 80 ≤ max) : normalize max (ovParent p) = dirOf p := by
  have hpre := ovParent_isPre p
  have hlen := hpre.length_le.trans h.length
  refine normalize_eq (fun h0 => h.zero (hpre.subset h0)) ?_ ?_ (by omega)
  · intro heq
    refine hp.take_ne ?_
    obtain ⟨t, ht⟩ := hpre
    have h2 : 2 ≤ (ovParent p).length := by
      have := congrArg List.length heq
      simp only [length_take, length_cons, length_nil] at this
      omega
    rw [← ht, take_append_of_le_length h2, heq]
  · exact fun hx => h.head (head?_of_isPre hpre hx)

/-! ## Directories of the initrd -/

theorem irdNormalize_eq : irdNormalize p = p := h.normalize_eq_self hp (by omega)

theorem initrdIsDir_iff {rd : Initrd} :
    initrdIsDir rd p = true ↔ ∃ files, rd = some files ∧ ∃ f ∈ files, ∃ r,
      irdNormalize f.1 = p ++ slash :: r := by
  cases rd with
  | none => simp [initrdIsDir]
  | some files =>
    simp only [initrdIsDir, Option.any_some, irdNormalize_eq h hp, h.ne_nil, false_or,
      decide_eq_true_eq, any_eq_true, Option.some.injEq, exists_eq_left']
    refine exists_congr fun f => and_congr_right fun _ => ?_
    constructor
    · rintro ⟨-, hpre, hhead⟩
      obtain ⟨t, ht⟩ := isPrefixOf_iff_prefix.mp hpre
      rw [← ht, drop_left, List.head?_eq_some_iff] at hhead
      obtain ⟨r, rfl⟩ := hhead
      exact ⟨r, ht.symm⟩
    · rintro ⟨r, hr⟩
      rw [hr]
      simp

theorem initrdIsDir_of_append {rd : Initrd} {r : Bytes} (h' : Tidy (p ++ slash :: r))
    (hp' : Plain (p ++ slash :: r)) (hd : initrdIsDir rd (p ++ slash :: r) = true) :
    initrdIsDir rd p = true := by
  obtain ⟨files, hrd, f, hf, t, ht⟩ := (initrdIsDir_iff h' hp').mp hd
  exact (initrdIsDir_iff h hp).mpr ⟨files, hrd, f, hf, r ++ slash :: t, by simpa using ht⟩

theorem initrdIsDir_dirOf {rd : Initrd} (hf : initrdIsFile rd p = true) (hd : dirOf p ≠ []) :
    initrdIsDir rd (dirOf p) = true := by
  obtain ⟨f, hfind⟩ := Option.isSome_iff_exists.mp hf
  obtain ⟨files, rfl, hfind⟩ := Option.bind_eq_some_iff.mp hfind
  have hname : irdNormalize f.1 = p := by
    simpa [irdNormalize_eq h hp] using List.find?_some hfind
  obtain ⟨r, hr⟩ := eq_dirOf_append hd
  exact (initrdIsDir_iff (dirOf_tidy h hd) (dirOf_plain hp hd)).mpr
    ⟨files, rfl, f, mem_of_find?_eq_some hfind, r, hname.trans hr⟩

end

end Mohhdy.Overlay
