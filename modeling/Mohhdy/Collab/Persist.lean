import Mohhdy.Collab.Steps

/-! The saved form of a ledger: `collab_save` and `collab_load`, and what a saved ledger is
loaded as. Texts go through the wire encoding of entries, so `collab_load` cleans them as
`collab_receive` does. -/
namespace Mohhdy.Collab
open Words List
set_option autoImplicit false

/-! ## Saving -/

def saveMagic : UInt32 := 0x31424c43

def saveHeader (c : Ledger) : List UInt8 :=
  le32 saveMagic ++ (le32 c.self ++ (le32 c.seq ++ (le32 c.lamport ++
    (le32 (UInt32.ofNat c.slots.length) ++ (le32 (UInt32.ofNat c.keys.length) ++
      (le32 (if c.signing then 1 else 0) ++ le32 c.forged))))))

def saveKey (k : UInt32 × Block 128) : List UInt8 := le32 k.1 ++ k.2.val

def saveFlag (sl : Slot) : UInt8 :=
  (if sl.hasSig then 1 else 0) ||| (if isRedacted sl.e then 2 else 0)

def saveSlot (sl : Slot) : List UInt8 :=
  collabEncode sl.e ++ (saveFlag sl :: (sl.sig.val ++ if isRedacted sl.e then sl.th.val else []))

/-- `collab_save`, into a buffer of `cap` bytes. -/
def collabSave (c : Ledger) (cap : ℕ) : Option (List UInt8) :=
  if 32 + 128 + 20 + c.keys.length * 132 + c.slots.length * 145 > cap then none
  else some (saveHeader c ++ (c.sk.val ++ (c.pk.val ++
    (c.keys.flatMap saveKey ++ c.slots.flatMap saveSlot))))

/-! ## Loading -/

/-- The loop of `collab_load` over the keys, with what is left of the input. -/
def loadKeys : ℕ → List UInt8 → Option (List (UInt32 × Block 128) × List UInt8)
  | 0, b => some ([], b)
  | n + 1, b =>
    if b.length < 132 then none
    else match loadKeys n (b.drop 132) with
      | none => none
      | some (ks, rest) => some ((readLe32 b, Block.read 128 (b.drop 4)) :: ks, rest)

variable (P : Prim)

/-- One pass of the loop over the entries. The text hash is read for a redacted text, and
computed for another. -/
def loadSlot (b : List UInt8) : Option (Slot × List UInt8) :=
  if b.length < 72 + 41 then none
  else match collabDecode (b.take 72) with
    | none => none
    | some e =>
      let f := (b.drop 72).headD 0
      let sl : Slot := ⟨e, 0, Block.read 40 (b.drop 73), textHash P e.text, f &&& 1 ≠ 0⟩
      if f &&& 2 ≠ 0 then
        if (b.drop 113).length < 32 then none
        else some ({ sl with th := Block.read 32 (b.drop 113) }, b.drop 145)
      else some (sl, b.drop 113)

def loadSlots : ℕ → List UInt8 → Option (List Slot)
  | 0, _ => some []
  | n + 1, b =>
    match loadSlot P b with
    | none => none
    | some (sl, rest) => (loadSlots n rest).map (sl :: ·)

variable (sl : Slot) (c : Ledger)

/-- The node that the header of an image describes: without keys and entries, with its old profile. -/
def loadHead (b : List UInt8) : Ledger :=
  { collabInit (readLe32 (b.drop 4)) with
    profile := c.profile
    seq := readLe32 (b.drop 8)
    lamport := readLe32 (b.drop 12)
    signing := (readLe32 (b.drop 24)).toUInt8 ≠ 0
    forged := readLe32 (b.drop 28)
    sk := Block.read 20 (b.drop 32)
    pk := Block.read 128 (b.drop 52) }

/-- `collab_load`: the number of entries, or nothing for `-1`. The counters `n` and `nkeys` are
set after their loops, so a loop that fails leaves its table empty; the profile is kept. -/
def collabLoad (b : List UInt8) : Option ℕ × Ledger :=
  if b.length < 32 + 148 ∨ readLe32 b ≠ saveMagic then (none, c)
  else
    let n := (readLe32 (b.drop 16)).toNat
    let nk := (readLe32 (b.drop 20)).toNat
    if n > 96 ∨ nk > 8 then (none, c)
    else
      let c := loadHead c b
      match loadKeys nk (b.drop 180) with
      | none => (none, c)
      | some (keys, rest) =>
        let c := { c with keys := keys }
        match loadSlots P n rest with
        | none => (none, c)
        | some slots => (some n, { c with slots := slots })

/-! ## The round trip -/

theorem loadKeys_saveKey (ks : List (UInt32 × Block 128)) (rest : List UInt8) :
    loadKeys ks.length (ks.flatMap saveKey ++ rest) = some (ks, rest) := by
  induction ks with
  | nil => rfl
  | cons k ks ih =>
    have hlen : (saveKey k).length = 132 := by
      rw [saveKey, length_append, k.2.property, le32_length]
    rw [flatMap_cons, append_assoc, length_cons, loadKeys, if_neg, drop_left' hlen, ih]
    · dsimp only
      rw [saveKey, append_assoc, readLe32_le32, drop_left' (le32_length k.1), Block.read_append]
    · rw [length_append]
      omega

def restoreSlot : Slot where
  e := sl.e.withText sl.e.text.sanitise
  status := 0
  sig := sl.sig
  th := if isRedacted sl.e then sl.th else textHash P sl.e.text.sanitise
  hasSig := sl.hasSig

theorem saveFlag_bits : (saveFlag sl &&& 1 ≠ 0 ↔ sl.hasSig = true) ∧
      (saveFlag sl &&& 2 ≠ 0 ↔ isRedacted sl.e = true) := by
  unfold saveFlag
  cases sl.hasSig <;> cases isRedacted sl.e <;> decide

theorem saveSlot_parts (rest : List UInt8) : (saveSlot sl ++ rest).take 72 = collabEncode sl.e ∧
      ((saveSlot sl ++ rest).drop 72).headD 0 = saveFlag sl ∧
      Block.read 40 ((saveSlot sl ++ rest).drop 73) = sl.sig ∧
      (saveSlot sl ++ rest).drop 113 = (if isRedacted sl.e then sl.th.val else []) ++ rest := by
  set tail := (if isRedacted sl.e then sl.th.val else []) ++ rest with htail
  have hbytes : saveSlot sl ++ rest = collabEncode sl.e ++ (saveFlag sl :: (sl.sig.val ++ tail)) := by
    rw [saveSlot, htail, append_assoc, cons_append, append_assoc]
  have h72 : (saveSlot sl ++ rest).drop 72 = saveFlag sl :: (sl.sig.val ++ tail) := by
    rw [hbytes]
    exact drop_left' (collabEncode_length sl.e)
  have h73 : (saveSlot sl ++ rest).drop 73 = sl.sig.val ++ tail := drop_next (x := [_]) h72 rfl
  refine ⟨?_, by rw [h72]; rfl, by rw [h73, Block.read_append], ?_⟩
  · rw [hbytes]
    exact take_left' (collabEncode_length sl.e)
  · exact drop_next h73 sl.sig.property

theorem loadSlot_saveSlot {sl : Slot} (hsl : sl.e.origin ≠ 0 ∧ sl.e.seq ≠ 0) (rest : List UInt8) :
    loadSlot P (saveSlot sl ++ rest) = some (restoreSlot P sl, rest) := by
  obtain ⟨htake, hflag, hsig, hdrop⟩ := saveSlot_parts sl rest
  obtain ⟨hbit1, hbit2⟩ := saveFlag_bits sl
  have hlen : ¬ (saveSlot sl ++ rest).length < 72 + 41 := by
    rw [saveSlot]
    simp only [length_append, length_cons, collabEncode_length, sl.sig.property]
    omega
  have hdec : collabDecode (collabEncode sl.e) = some (sl.e.withText sl.e.text.sanitise) := by
    have h := collabDecode_collabEncode sl.e []
    rw [append_nil, if_neg (by simp [hsl])] at h
    exact h
  have hsigned : decide (saveFlag sl &&& 1 ≠ 0) = sl.hasSig := by
    rw [Bool.eq_iff_iff, decide_eq_true_iff]
    exact hbit1
  rw [loadSlot, if_neg hlen, htake, hdec]
  dsimp only
  rw [hflag, hsig, hdrop, hsigned]
  by_cases hred : isRedacted sl.e = true
  · rw [if_pos hred] at hdrop
    have h145 : (saveSlot sl ++ rest).drop 145 = rest := drop_next hdrop sl.th.property
    rw [if_pos (hbit2.mpr hred), if_pos hred, if_neg, h145, Block.read_append, restoreSlot,
      if_pos hred]
    rw [length_append, sl.th.property]
    omega
  · rw [if_neg (fun h2 => hred (hbit2.mp h2)), if_neg hred, nil_append, restoreSlot, if_neg hred]
    rfl

theorem loadSlots_saveSlot {slots : List Slot}
    (hnz : ∀ sl ∈ slots, sl.e.origin ≠ 0 ∧ sl.e.seq ≠ 0) (rest : List UInt8) :
    loadSlots P slots.length (slots.flatMap saveSlot ++ rest) =
      some (slots.map (restoreSlot P)) := by
  induction slots with
  | nil => rfl
  | cons sl slots ih =>
    rw [flatMap_cons, append_assoc, length_cons, loadSlots,
      loadSlot_saveSlot P (hnz sl mem_cons_self)]
    dsimp only
    rw [ih fun x hx => hnz x (mem_cons_of_mem sl hx)]
    rfl

def restored (profile : List ProfileField) : Ledger :=
  { collabInit c.self with
    profile := profile, seq := c.seq, lamport := c.lamport, signing := c.signing
    forged := c.forged, sk := c.sk, pk := c.pk, keys := c.keys
    slots := c.slots.map (restoreSlot P) }

theorem saveHeader_words (rest : List UInt8) : readLe32 (saveHeader c ++ rest) = saveMagic ∧
      readLe32 ((saveHeader c ++ rest).drop 4) = c.self ∧
      readLe32 ((saveHeader c ++ rest).drop 8) = c.seq ∧
      readLe32 ((saveHeader c ++ rest).drop 12) = c.lamport ∧
      readLe32 ((saveHeader c ++ rest).drop 16) = UInt32.ofNat c.slots.length ∧
      readLe32 ((saveHeader c ++ rest).drop 20) = UInt32.ofNat c.keys.length ∧
      readLe32 ((saveHeader c ++ rest).drop 24) = (if c.signing then 1 else 0) ∧
      readLe32 ((saveHeader c ++ rest).drop 28) = c.forged := by
  simp only [saveHeader, le32, cons_append, nil_append, drop_succ_cons,
    drop_zero, readLe32_bytes, and_self]

theorem collabLoad_collabSave {c : Ledger} {cap : ℕ} {b : List UInt8}
    (hsave : collabSave c cap = some b) (hn : c.slots.length ≤ 96) (hk : c.keys.length ≤ 8)
    (hnz : ∀ sl ∈ c.slots, sl.e.origin ≠ 0 ∧ sl.e.seq ≠ 0) (d : Ledger) :
    collabLoad P d b = (some c.slots.length, restored P c d.profile) := by
  unfold collabSave at hsave
  split at hsave
  · cases hsave
  cases hsave
  set tail := c.keys.flatMap saveKey ++ c.slots.flatMap saveSlot with htail
  obtain ⟨h0, h4, h8, h12, h16, h20, h24, h28⟩ :=
    saveHeader_words c (c.sk.val ++ (c.pk.val ++ tail))
  set b := saveHeader c ++ (c.sk.val ++ (c.pk.val ++ tail)) with hb
  have hnat : ∀ m, m ≤ 96 → (UInt32.ofNat m).toNat = m := by
    intro m hm
    rw [UInt32.toNat_ofNat']
    exact Nat.mod_eq_of_lt (by omega)
  have h32 : b.drop 32 = c.sk.val ++ (c.pk.val ++ tail) := rfl
  have h52 : b.drop 52 = c.pk.val ++ tail := drop_next h32 c.sk.property
  have h180 : b.drop 180 = tail := drop_next h52 c.pk.property
  have hlen : ¬ b.length < 32 + 148 := by
    have : b.length = 32 + (20 + (128 + tail.length)) := by
      rw [hb]
      simp only [length_append, c.sk.property, c.pk.property]
      rfl
    omega
  have hsigning : decide ((readLe32 (b.drop 24)).toUInt8 ≠ 0) = c.signing := by
    rw [h24]
    cases c.signing <;> rfl
  have hslots := loadSlots_saveSlot P hnz []
  rw [append_nil] at hslots
  rw [collabLoad, if_neg (by rw [not_or, not_not]; exact ⟨hlen, h0⟩)]
  rw [h16, h20, hnat _ hn, hnat _ (by omega), if_neg (by omega), h180, htail, loadKeys_saveKey]
  dsimp only
  rw [hslots, loadHead, h4, h8, h12, h28, h32, h52, hsigning, Block.read_append, Block.read_append]
  rfl

end Mohhdy.Collab
