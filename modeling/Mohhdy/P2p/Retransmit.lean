import Mohhdy.Foundations.Runs

/-! Retransmission of user data (`p2p_rtx.c`): the copies a sender keeps until they are
acknowledged, and the window of original counters a receiver has delivered.

The table `s[8]` is a list of eight optional slots; the mask of the window is its eight words.
The counters that are only reported are left out. A message has one field the source does not:
`issue`, the number of the call that issued it. No function reads it. -/
namespace Mohhdy.P2p
set_option autoImplicit false
open List Runs

variable {ctr : UInt32}

/-- The two kinds of user data, `P2P_I_MSG` and `P2P_I_PUT`. -/
inductive Kind where
  | msg | put
deriving DecidableEq, Repr

structure Message where
  kind : Kind
  body : List UInt8
  issue : ℕ
deriving DecidableEq, Repr

/-- `p2p_rtx_slot_t` of a slot in use. -/
structure RtxSlot where
  (ctr orig age : UInt32)
  tries : ℕ
  msg : Message
deriving DecidableEq, Repr

/-- `p2p_rtx_t`. -/
structure Rtx where
  slots : List (Option RtxSlot)
  (clock seenHi : UInt32)
  seenMask : Fin 8 → BitVec 32

def p2pRtxInit : Rtx where
  slots := List.replicate 8 none
  clock := 0
  seenHi := 0
  seenMask _ := 0

/-! ## The sender's copies -/

/-- `find`. -/
def rtxFind (r : Rtx) (ctr : UInt32) : Option ℕ :=
  r.slots.findIdx? fun s => s.any (·.ctr == ctr)

/-- The slot `p2p_rtx_keep` writes: the first free one, else the one of the smallest age. -/
def rtxVictim (slots : List (Option RtxSlot)) : ℕ :=
  match slots.findIdx? (·.isNone) with
  | some i => i
  | none =>
    (slots.zipIdx.foldl (fun (best : ℕ × UInt32) x =>
      match x.1 with
      | some s => if s.age < best.2 then (x.2, s.age) else best
      | none => best) (0, 0xffffffff)).1

def p2pRtxKeep (r : Rtx) (ctr : UInt32) (m : Message) : Rtx :=
  if m.body.length > 256 then r
  else
    { r with
      slots := r.slots.set (rtxVictim r.slots) (some ⟨ctr, ctr, r.clock + 1, 0, m⟩)
      clock := r.clock + 1 }

def p2pRtxAcked (r : Rtx) (ctr : UInt32) : Rtx :=
  match rtxFind r ctr with
  | none => r
  | some i => { r with slots := r.slots.set i none }

def p2pRtxLost (r : Rtx) (ctr : UInt32) : Rtx × Option (ℕ × RtxSlot) :=
  match rtxFind r ctr with
  | none => (r, none)
  | some i =>
    match r.slots[i]? with
    | some (some s) =>
      if s.tries ≥ 3 then ({ r with slots := r.slots.set i none }, none) else (r, some (i, s))
    | _ => (r, none)

def p2pRtxResent (r : Rtx) (i : ℕ) (ctr : UInt32) : Rtx :=
  { r with slots := r.slots.modify i fun s => s.map fun s => { s with ctr, tries := s.tries + 1 } }

def Rtx.copies (r : Rtx) : List RtxSlot := r.slots.filterMap id

variable {r : Rtx}

variable {s : RtxSlot}

theorem mem_copies : s ∈ r.copies ↔ some s ∈ r.slots := by
  simp [Rtx.copies]

theorem copies_keep {m : Message}
    (h : s ∈ (p2pRtxKeep r ctr m).copies) : s ∈ r.copies ∨ s.orig = ctr ∧ s.msg = m := by
  unfold p2pRtxKeep at h
  split at h
  · exact .inl h
  rw [mem_copies] at h
  obtain hold | hnew := mem_or_eq_of_mem_set h
  · exact .inl (mem_copies.mpr hold)
  · cases hnew
    exact .inr ⟨rfl, rfl⟩

theorem copies_acked (h : s ∈ (p2pRtxAcked r ctr).copies) : s ∈ r.copies := by
  unfold p2pRtxAcked at h
  split at h
  · exact h
  obtain hold | hnew := mem_or_eq_of_mem_set (mem_copies.mp h)
  · exact mem_copies.mpr hold
  · cases hnew

theorem copies_lost (h : s ∈ (p2pRtxLost r ctr).1.copies) : s ∈ r.copies := by
  unfold p2pRtxLost at h
  split at h
  · exact h
  split at h
  · split at h
    · obtain hold | hnew := mem_or_eq_of_mem_set (mem_copies.mp h)
      · exact mem_copies.mpr hold
      · cases hnew
    · exact h
  · exact h

theorem lost_mem {i : ℕ} (h : (p2pRtxLost r ctr).2 = some (i, s)) : s ∈ r.copies := by
  unfold p2pRtxLost at h
  split at h
  · cases h
  split at h
  · rename_i s' hs
    split at h
    · cases h
    cases h
    exact mem_copies.mpr (mem_of_getElem? hs)
  · cases h

theorem copies_resent {i : ℕ} (h : s ∈ (p2pRtxResent r i ctr).copies) :
    ∃ s' ∈ r.copies, s'.orig = s.orig ∧ s'.msg = s.msg := by
  obtain ⟨k, hk, heq⟩ := mem_iff_getElem.mp (mem_copies.mp h)
  have hk' : k < r.slots.length := by simpa [p2pRtxResent] using hk
  simp only [p2pRtxResent, getElem_modify] at heq
  split at heq
  · obtain ⟨s', hs', rfl⟩ := Option.map_eq_some_iff.mp heq
    exact ⟨s', mem_copies.mpr (hs' ▸ getElem_mem hk'), rfl, rfl⟩
  · exact ⟨s, mem_copies.mpr (heq ▸ getElem_mem hk'), rfl, rfl⟩

/-! ## The receiver's window -/

variable (mask : Fin 8 → BitVec 32)

def bitGet (d : ℕ) : Bool :=
  if h : d / 32 < 8 then (mask ⟨d / 32, h⟩).getLsbD (d % 32) else false

def bitSet (d : ℕ) : Fin 8 → BitVec 32 := fun i =>
  if i.val = d / 32 then mask i ||| (1#32 <<< (d % 32)) else mask i

def maskWord (i : ℕ) : BitVec 32 := if h : i < 8 then mask ⟨i, h⟩ else 0

/-- `shift_up`. The loop goes from the last word to the first, so that every word it reads is
still an old one. -/
def shiftUp (d : ℕ) : Fin 8 → BitVec 32 := fun i =>
  let w := d / 32
  let b := d % 32
  if d ≥ 256 then 0
  else if w ≤ i.val then
    (maskWord mask (i.val - w) <<< b) |||
      (if b ≠ 0 ∧ 1 ≤ i.val - w then maskWord mask (i.val - w - 1) >>> (32 - b) else 0)
  else 0

def p2pRtxAccept (r : Rtx) (orig : UInt32) : Rtx × Bool :=
  if orig = 0 then (r, false)
  else if r.seenHi = 0 ∨ orig > r.seenHi then
    let d := if r.seenHi ≠ 0 then (orig - r.seenHi).toNat else 256
    ({ r with seenMask := bitSet (shiftUp r.seenMask d) 0, seenHi := orig }, true)
  else
    let d := (r.seenHi - orig).toNat
    if d ≥ 256 then (r, false)
    else if bitGet r.seenMask d then (r, false)
    else ({ r with seenMask := bitSet r.seenMask d }, true)

theorem bitGet_eq (e : ℕ) : bitGet mask e = (maskWord mask (e / 32)).getLsbD (e % 32) := by
  unfold bitGet maskWord
  split <;> simp

theorem bitGet_bitSet {d e : ℕ} (hd : d < 256) :
    bitGet (bitSet mask d) e = (decide (e = d) || bitGet mask e) := by
  have hone : (1#32 <<< (d % 32)).getLsbD (e % 32) = decide (d % 32 = e % 32) := by
    have hlt : d % 32 < 32 := Nat.mod_lt _ (by decide)
    rw [← BitVec.twoPow_eq, BitVec.getLsbD_twoPow, decide_eq_true hlt, Bool.true_and]
  unfold bitGet bitSet
  split
  · dsimp only
    split
    · rw [BitVec.getLsbD_or, hone, Bool.or_comm]
      congr 1
      exact decide_eq_decide.mpr (by omega)
    · rw [decide_eq_false (by rintro rfl; contradiction), Bool.false_or]
  · rw [decide_eq_false (by omega), Bool.false_or]

/-- A bit comes from the word `w` below, or crosses from the word below that one; the lowest `d`
are new. -/
theorem bitGet_shiftUp {d e : ℕ} (he : e < 256) :
    bitGet (shiftUp mask d) e = (decide (d ≤ e) && bitGet mask (e - d)) := by
  have hm : e % 32 < 32 := Nat.mod_lt _ (by decide)
  rw [bitGet, dif_pos (show e / 32 < 8 by omega), bitGet_eq]
  simp only [shiftUp]
  split
  · rw [decide_eq_false (by omega)]
    simp
  split
  · rw [BitVec.getLsbD_or, BitVec.getLsbD_shiftLeft]
    by_cases hcross : e % 32 < d % 32
    · rw [decide_eq_true hcross]
      split
      · have hword : e / 32 - d / 32 - 1 = (e - d) / 32 := by omega
        have hbit : 32 - d % 32 + e % 32 = (e - d) % 32 := by omega
        rw [BitVec.getLsbD_ushiftRight, hword, hbit, decide_eq_true (show d ≤ e by omega)]
        simp
      · rw [decide_eq_false (show ¬ d ≤ e by omega)]
        simp
    · have hword : e / 32 - d / 32 = (e - d) / 32 := by omega
      have hbit : e % 32 - d % 32 = (e - d) % 32 := by omega
      have hsecond : (if d % 32 ≠ 0 ∧ 1 ≤ e / 32 - d / 32 then
          maskWord mask (e / 32 - d / 32 - 1) >>> (32 - d % 32) else 0).getLsbD (e % 32) = false := by
        split
        · rw [BitVec.getLsbD_ushiftRight]
          exact BitVec.getLsbD_of_ge _ _ (by omega)
        · simp
      rw [hsecond, decide_eq_true (show d ≤ e by omega)]
      simp [hm, hcross, hword, hbit]
  · rw [decide_eq_false (by omega)]
    simp

def Rtx.Holds (r : Rtx) (orig : UInt32) : Prop :=
  r.seenHi ≠ 0 ∧ orig ≤ r.seenHi ∧ bitGet r.seenMask (r.seenHi - orig).toNat = true

def Rtx.Marked (r : Rtx) (orig : UInt32) : Prop :=
  r.seenHi ≠ 0 ∧ orig ≤ r.seenHi ∧
    ((r.seenHi - orig).toNat ≥ 256 ∨ bitGet r.seenMask (r.seenHi - orig).toNat = true)

theorem toNat_sub_add_sub {a b c : UInt32} (hab : b ≤ a) (hbc : c ≤ b) :
    (a - c).toNat = (a - b).toNat + (b - c).toNat := by
  rw [UInt32.toNat_sub_of_le _ _ hab, UInt32.toNat_sub_of_le _ _ hbc,
    UInt32.toNat_sub_of_le _ _ (UInt32.le_trans hbc hab)]
  have := UInt32.le_iff_toNat_le.mp hab
  have := UInt32.le_iff_toNat_le.mp hbc
  omega

theorem toNat_sub_inj {a b c : UInt32} : (a - b).toNat = (a - c).toNat ↔ b = c := by
  rw [UInt32.toNat_inj, UInt32.sub_right_inj]

theorem bitGet_raise {hi o : UInt32} (hle : r.seenHi ≤ hi) (ho : o ≤ hi) (hnear : (hi - o).toNat < 256) :
    bitGet (shiftUp r.seenMask (if r.seenHi ≠ 0 then (hi - r.seenHi).toNat else 256)) (hi - o).toNat = true ↔
      r.Holds o := by
  rw [bitGet_shiftUp _ hnear, Bool.and_eq_true, decide_eq_true_iff, Rtx.Holds]
  split
  · rename_i hhi
    by_cases hdown : o ≤ r.seenHi
    · rw [toNat_sub_add_sub hle hdown]
      simp [hhi, hdown]
    · have hup : r.seenHi < o := UInt32.not_le.mp hdown
      have hsum := toNat_sub_add_sub ho (UInt32.le_of_lt hup)
      have hpos : 0 < (o - r.seenHi).toNat := by
        rw [UInt32.toNat_sub_of_le _ _ (UInt32.le_of_lt hup)]
        exact Nat.sub_pos_of_lt (UInt32.lt_iff_toNat_lt.mp hup)
      simp only [hdown, false_and, and_false, iff_false]
      omega
  · simp_all

/-- A number is refused and nothing changes, or it is marked in a window whose upper end is the
greater one of the old end and the number. -/
theorem accept_cases (r : Rtx) (orig : UInt32) :
    p2pRtxAccept r orig = (r, false) ∧ (orig = 0 ∨ r.Marked orig) ∨
      ∃ mask hi, p2pRtxAccept r orig = ({ r with seenMask := mask, seenHi := hi }, true) ∧
        orig ≠ 0 ∧ ¬ r.Marked orig ∧ orig ≤ hi ∧ r.seenHi ≤ hi ∧ (hi = orig ∨ hi = r.seenHi) ∧
        ∀ o ≤ hi, (hi - o).toNat < 256 →
          (bitGet mask (hi - o).toNat = true ↔ o = orig ∨ r.Holds o) := by
  unfold p2pRtxAccept
  split
  · exact .inl ⟨rfl, .inl ‹_›⟩
  rename_i hne
  split
  · rename_i hup
    have hle : r.seenHi ≤ orig := hup.elim (fun h => h ▸ UInt32.zero_le) UInt32.le_of_lt
    have hfresh : ¬ r.Marked orig := fun hm => hup.elim hm.1 (UInt32.not_lt.mpr hm.2.1)
    refine .inr ⟨_, _, rfl, hne, hfresh, UInt32.le_refl _, hle, .inl rfl, fun o ho hnear => ?_⟩
    have hsame : (orig - o).toNat = 0 ↔ o = orig := by
      rw [← toNat_sub_inj (a := orig), UInt32.sub_self]
      rfl
    rw [bitGet_bitSet _ (by decide), Bool.or_eq_true, decide_eq_true_iff, hsame, bitGet_raise hle ho hnear]
  · rename_i hlow
    rw [not_or, UInt32.not_lt] at hlow
    dsimp only
    split
    · exact .inl ⟨rfl, .inr ⟨hlow.1, hlow.2, .inl ‹_›⟩⟩
    split
    · exact .inl ⟨rfl, .inr ⟨hlow.1, hlow.2, .inr ‹_›⟩⟩
    rename_i hnd hnb
    refine .inr ⟨_, _, rfl, hne, fun hm => hm.2.2.elim hnd hnb, hlow.2, UInt32.le_refl _, .inr rfl, fun o ho _ => ?_⟩
    rw [bitGet_bitSet _ (Nat.lt_of_not_ge hnd), Bool.or_eq_true, decide_eq_true_iff, toNat_sub_inj]
    exact or_congr_right ⟨fun h => ⟨hlow.1, ho, h⟩, fun h => h.2.2⟩

theorem not_marked_of_accept {orig : UInt32} (h : (p2pRtxAccept r orig).2 = true) : ¬ r.Marked orig := by
  obtain ⟨heq, -⟩ | ⟨_, _, -, -, hfresh, -⟩ := accept_cases r orig
  · simp [heq] at h
  · exact hfresh

theorem marked_of_accept {orig : UInt32} (h : (p2pRtxAccept r orig).2 = true) :
    (p2pRtxAccept r orig).1.Marked orig := by
  obtain ⟨heq, -⟩ | ⟨mask, hi, heq, hne, -, hle, -, -, hbits⟩ := accept_cases r orig
  · simp [heq] at h
  rw [heq]
  have hpos : hi ≠ 0 := fun h0 => hne (UInt32.le_zero_iff.mp (h0 ▸ hle))
  exact ⟨hpos, hle, or_iff_not_imp_left.mpr fun hnear => (hbits orig hle (not_le.mp hnear)).mpr (.inl rfl)⟩

theorem Rtx.Marked.accept {o : UInt32} (h : r.Marked o) (orig : UInt32) : (p2pRtxAccept r orig).1.Marked o := by
  obtain ⟨hhi, hle, hbit⟩ := h
  obtain ⟨heq, -⟩ | ⟨mask, hi, heq, hne, -, -, hup, -, hbits⟩ := accept_cases r orig
  · rw [heq]
    exact ⟨hhi, hle, hbit⟩
  rw [heq]
  have ho := UInt32.le_trans hle hup
  refine ⟨fun h0 => hhi (UInt32.le_zero_iff.mp (h0 ▸ hup)), ho, or_iff_not_imp_left.mpr fun hnear => ?_⟩
  have hsum := toNat_sub_add_sub hup hle
  refine (hbits o ho (not_le.mp hnear)).mpr (.inr ⟨hhi, hle, hbit.resolve_left ?_⟩)
  dsimp only at hnear
  omega

/-! ## The window and the set of all accepted numbers -/

def windowAdmits (seen : List UInt32) (o : UInt32) : Prop :=
  (∀ x ∈ seen, x < o) ∨ o ∉ seen ∧ ∃ m ∈ seen, (∀ x ∈ seen, x ≤ m) ∧ m.toNat < o.toNat + 256

def acceptStep (s : Rtx × List UInt32) (o : UInt32) : Rtx × List UInt32 :=
  ((p2pRtxAccept s.1 o).1, if (p2pRtxAccept s.1 o).2 then o :: s.2 else s.2)

structure Remembers (s : Rtx × List UInt32) : Prop where
  top : s.1.seenHi = 0 ∧ s.2 = [] ∨ s.1.seenHi ≠ 0 ∧ s.1.seenHi ∈ s.2
  below : ∀ o ∈ s.2, o ≤ s.1.seenHi
  holds : ∀ o ≤ s.1.seenHi, (s.1.seenHi - o).toNat < 256 → (s.1.Holds o ↔ o ∈ s.2)
  nodup : s.2.Nodup

variable {s : Rtx × List UInt32} {o : UInt32}

theorem Remembers.not_marked_iff (h : Remembers s) : ¬ s.1.Marked o ↔ windowAdmits s.2 o := by
  obtain ⟨h0, hnil⟩ | ⟨hne, htop⟩ := h.top
  · simp [Rtx.Marked, windowAdmits, h0, hnil]
  by_cases hlow : o ≤ s.1.seenHi
  · have hmax : ∀ m ∈ s.2, (∀ x ∈ s.2, x ≤ m) → m = s.1.seenHi :=
      fun m hm hall => UInt32.le_antisymm (h.below m hm) (hall _ htop)
    have hnear : (s.1.seenHi - o).toNat < 256 ↔ s.1.seenHi.toNat < o.toNat + 256 := by
      rw [UInt32.toNat_sub_of_le _ _ hlow]
      have := UInt32.le_iff_toNat_le.mp hlow
      omega
    have hmark : s.1.Marked o ↔ (s.1.seenHi - o).toNat < 256 → o ∈ s.2 := by
      refine ⟨fun hm hn => (h.holds o hlow hn).mp ⟨hne, hlow, hm.2.2.resolve_left (not_le.mpr hn)⟩,
        fun hm => ⟨hne, hlow, or_iff_not_imp_left.mpr fun hn => ?_⟩⟩
      exact ((h.holds o hlow (not_le.mp hn)).mpr (hm (not_le.mp hn))).2.2
    rw [hmark, Classical.not_imp, hnear]
    constructor
    · exact fun ⟨hn, ho⟩ => .inr ⟨ho, _, htop, h.below, hn⟩
    · rintro (hall | ⟨ho, m, hm, hall, hn⟩)
      · exact absurd hlow (UInt32.not_le.mpr (hall _ htop))
      · exact ⟨hmax m hm hall ▸ hn, ho⟩
  · have hup := UInt32.not_le.mp hlow
    exact iff_of_true (fun hm => hlow hm.2.1) (.inl fun x hx => UInt32.lt_of_le_of_lt (h.below x hx) hup)

theorem Remembers.step (h : Remembers s) (o : UInt32) : Remembers (acceptStep s o) := by
  unfold acceptStep
  obtain ⟨heq, -⟩ | ⟨mask, hi, heq, hne, hfresh, hle, hup, hhi, hbits⟩ := accept_cases s.1 o
  · simpa [heq] using h
  simp only [heq, if_true]
  have hpos : hi ≠ 0 := fun h0 => hne (UInt32.le_zero_iff.mp (h0 ▸ hle))
  refine ⟨.inr ⟨hpos, ?_⟩, forall_mem_cons.mpr ⟨hle, fun x hx => UInt32.le_trans (h.below x hx) hup⟩, ?_, ?_⟩
  · obtain rfl | rfl := hhi
    · exact mem_cons_self
    · exact mem_cons_of_mem _ (h.top.resolve_left fun h0 => hpos h0.1).2
  · intro x hx (hnear : (hi - x).toNat < 256)
    have hold : s.1.Holds x ↔ x ∈ s.2 := by
      by_cases hlow : x ≤ s.1.seenHi
      · have hsum := toNat_sub_add_sub hup hlow
        exact h.holds x hlow (by omega)
      · exact iff_of_false (fun hx => hlow hx.2.1) fun hx => hlow (h.below x hx)
    rw [mem_cons, ← hold, ← hbits x hx hnear]
    exact ⟨fun hx => hx.2.2, fun hbit => ⟨hpos, hx, hbit⟩⟩
  · refine nodup_cons.mpr ⟨fun ho => ?_, h.nodup⟩
    obtain hall | ⟨hnew, -⟩ := h.not_marked_iff.mp hfresh
    · exact UInt32.lt_irrefl _ (hall o ho)
    · exact hnew ho

theorem accept_iff_windowAdmits (os : List UInt32) {o : UInt32} (ho : o ≠ 0) :
    ((p2pRtxAccept (run acceptStep (p2pRtxInit, []) os).1 o).2 = true ↔
      windowAdmits (run acceptStep (p2pRtxInit, []) os).2 o) ∧ (run acceptStep (p2pRtxInit, []) os).2.Nodup := by
  have h : Remembers (run acceptStep (p2pRtxInit, []) os) :=
    run_invariant_all (fun s o h => h.step o) ⟨.inl ⟨rfl, rfl⟩, by simp, by simp [Rtx.Holds, p2pRtxInit], .nil⟩
  refine ⟨?_, h.nodup⟩
  rw [← h.not_marked_iff]
  obtain ⟨heq, hmark⟩ | ⟨_, _, heq, -, hfresh, -⟩ := accept_cases (run acceptStep (p2pRtxInit, []) os).1 o
  · simp [heq, hmark.resolve_left ho]
  · simp [heq, hfresh]

theorem accept_iff_windowAdmits_replayed :
    (p2pRtxAccept (run acceptStep (p2pRtxInit, []) [5, 300, 7]).1 5).2 = false := by
  have h := (accept_iff_windowAdmits [5, 300, 7] (o := 5) (by decide)).1
  rw [show (run acceptStep (p2pRtxInit, []) [5, 300, 7]).2 = [300, 5] by decide] at h
  simpa [windowAdmits] using h

end Mohhdy.P2p
