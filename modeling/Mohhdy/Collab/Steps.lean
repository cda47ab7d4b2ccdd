import Mohhdy.Collab.Ledger

/-! What a call can do to a ledger.

`collab_emit` and `collab_receive` write the arrays in several places, but their effect is one of
two: only counters change, or one slot is stored (`storeSlot`), possibly after its key was bound.
The lemmas `collabEmit_cases` and `collabReceive_cases` say so with all their guards; the proofs
about runs use these and never unfold the calls. -/
namespace Mohhdy.Collab
open Words List
set_option autoImplicit false

variable {type : UInt8} {c : Ledger}

def Ledger.keySet (c : Ledger) : List (UInt32 × UInt32) := c.slots.map fun sl => sl.e.key

theorem find_isSome_iff (c : Ledger) (origin seq : UInt32) :
    (find c origin seq).isSome ↔ (origin, seq) ∈ c.keySet := by
  simp [find, Ledger.keySet, List.findIdx?_isSome]

def storeSlot (c : Ledger) (sl : Slot) : Ledger :=
  { c with
    slots := redactOnStore sl.e (c.slots ++ [sl])
    lamport := if sl.e.lamport > c.lamport then sl.e.lamport else c.lamport }

@[simp] theorem storeSlot_self (c : Ledger) (sl : Slot) : (storeSlot c sl).self = c.self := rfl

def Quiet (c c' : Ledger) : Prop :=
  ∃ dropped duplicates forged,
    c' = { c with dropped := dropped, duplicates := duplicates, forged := forged }

theorem Quiet.refl (c : Ledger) : Quiet c c := ⟨c.dropped, c.duplicates, c.forged, rfl⟩

theorem store_cases (c : Ledger) (e : Entry) :
    (e.key ∈ c.keySet ∧ (store c e).1 = .duplicate ∧ Quiet c (store c e).2) ∨
      (e.key ∉ c.keySet ∧ 96 ≤ c.slots.length ∧ (store c e).1 = .full ∧ Quiet c (store c e).2) ∨
      (e.key ∉ c.keySet ∧ c.slots.length < 96 ∧
        store c e = (.stored, storeSlot c (Slot.new e))) := by
  unfold store
  split
  · rename_i hk
    exact .inl ⟨(find_isSome_iff c _ _).mp hk, rfl, c.dropped, c.duplicates + 1, c.forged, rfl⟩
  · rename_i hk
    have hk' := mt (find_isSome_iff c _ _).mpr hk
    split
    · exact .inr (.inl ⟨hk', ‹_›, rfl, c.dropped + 1, c.duplicates, c.forged, rfl⟩)
    · exact .inr (.inr ⟨hk', by omega, rfl⟩)

/-! ## Redaction touches texts only -/

def Entry.withText (e : Entry) (t : Text) : Entry := { e with text := t }

theorem redactSlot_eq (origin lamport : UInt32) (sl : Slot) : redactSlot origin lamport sl = sl ∨
      redactSlot origin lamport sl = { sl with e := sl.e.withText redactedText } := by
  unfold redactSlot
  split
  · exact .inr rfl
  · exact .inl rfl

theorem redact_map {β : Type*} (g : Slot → β)
    (hg : ∀ sl t, g { sl with e := sl.e.withText t } = g sl) (origin lamport : UInt32)
    (slots : List Slot) : (redact origin lamport slots).map g = slots.map g := by
  unfold redact
  rw [map_map]
  refine map_congr_left fun sl _ => ?_
  rcases redactSlot_eq origin lamport sl with h | h
  · rw [Function.comp_apply, h]
  · rw [Function.comp_apply, h, hg]

theorem redactOnStore_map {β : Type*} (g : Slot → β)
    (hg : ∀ sl t, g { sl with e := sl.e.withText t } = g sl) (e : Entry) (slots : List Slot) :
    (redactOnStore e slots).map g = slots.map g := by
  unfold redactOnStore
  split
  · exact redact_map g hg _ _ _
  split
  · split
    · exact redact_map g hg _ _ _
    · rfl
  · rfl

@[simp] theorem redactOnStore_length (e : Entry) (slots : List Slot) :
    (redactOnStore e slots).length = slots.length := by
  have h := congrArg List.length (redactOnStore_map (fun _ => ()) (fun _ _ => rfl) e slots)
  simpa using h

theorem laterRedact_congr (slots : List Slot) {a b : Slot} (h : a.e = b.e) (e : Entry) :
    (laterRedact (slots ++ [a]) e).map Slot.e = (laterRedact (slots ++ [b]) e).map Slot.e := by
  unfold laterRedact
  rw [List.find?_append, List.find?_append]
  cases List.find? _ slots with
  | some r => rfl
  | none =>
    simp only [Option.none_or, List.find?_singleton, h]
    split <;> simp [h]

theorem setLast_storeSlot (c : Ledger) (sl : Slot) (f : Slot → Slot) (he : (f sl).e = sl.e)
    (hf : ∀ sl t, f { sl with e := sl.e.withText t } = { f sl with e := (f sl).e.withText t }) :
    setLast f (storeSlot c sl) = storeSlot c (f sl) := by
  have hredact : ∀ (origin lamport : UInt32),
      (redact origin lamport (c.slots ++ [sl])).modify c.slots.length f =
        redact origin lamport (c.slots ++ [f sl]) := by
    intro origin lamport
    have hmod : (c.slots.map (redactSlot origin lamport) ++ [redactSlot origin lamport sl]).modify
        c.slots.length f = c.slots.map (redactSlot origin lamport) ++
          [f (redactSlot origin lamport sl)] := by
      have h := Tables.modify_append_singleton (c.slots.map (redactSlot origin lamport))
        (redactSlot origin lamport sl) f
      rwa [length_map] at h
    have hcomm : f (redactSlot origin lamport sl) = redactSlot origin lamport (f sl) := by
      unfold redactSlot
      rw [he]
      split
      · have h := hf sl redactedText
        rw [he] at h
        exact h
      · rfl
    simp only [redact, map_append, map_cons, map_nil]
    rw [hmod, hcomm]
  have hplain := Tables.modify_append_singleton c.slots sl f
  have hlater := laterRedact_congr c.slots he.symm sl.e
  have hslots : (redactOnStore sl.e (c.slots ++ [sl])).modify c.slots.length f =
      redactOnStore sl.e (c.slots ++ [f sl]) := by
    unfold redactOnStore
    split
    · exact hredact _ _
    split
    · cases h1 : laterRedact (c.slots ++ [sl]) sl.e with
      | none =>
        rw [h1] at hlater
        rw [Option.map_eq_none_iff.mp hlater.symm]
        exact hplain
      | some r =>
        rw [h1] at hlater
        obtain ⟨r', hr', hre⟩ := Option.map_eq_some_iff.mp hlater.symm
        rw [hr']
        dsimp only
        rw [hre]
        exact hredact _ _
    · exact hplain
  simp only [setLast, storeSlot, redactOnStore_length, length_append, length_singleton,
    Nat.add_sub_cancel, he, hslots]

/-! ## Emitting -/

variable (P : Prim)

def emitSlot (c : Ledger) (e : Entry) : Slot :=
  if c.signing then
    match P.csigSign c.sk (signInput e (textHash P e.text)) with
    | some sig => { Slot.new e with th := textHash P e.text, sig := sig, hasSig := true }
    | none => { Slot.new e with th := textHash P e.text }
  else Slot.new e

@[simp] theorem emitSlot_e (c : Ledger) (e : Entry) : (emitSlot P c e).e = e := by
  unfold emitSlot
  split
  · split <;> rfl
  · rfl

def emitLedger (c : Ledger) (e : Entry) : Ledger :=
  { storeSlot c (emitSlot P c e) with seq := e.seq }

theorem signLast_storeSlot (c : Ledger) (e : Entry) :
    signLast P e { storeSlot c (Slot.new e) with seq := e.seq } = emitLedger P c e := by
  have hset : ∀ f : Slot → Slot, (f (Slot.new e)).e = e →
      (∀ sl t, f { sl with e := sl.e.withText t } = { f sl with e := (f sl).e.withText t }) →
      setLast f { storeSlot c (Slot.new e) with seq := e.seq } =
        { storeSlot c (f (Slot.new e)) with seq := e.seq } := by
    intro f he hf
    rw [← setLast_storeSlot c (Slot.new e) f he hf]
    rfl
  by_cases hs : c.signing = true
  · have hs' : ({ storeSlot c (Slot.new e) with seq := e.seq } : Ledger).signing = true := hs
    rw [signLast, if_pos hs', emitLedger, emitSlot, if_pos hs]
    change (match P.csigSign c.sk (signInput e (textHash P e.text)) with
      | some sig => _
      | none => _) = _
    cases P.csigSign c.sk (signInput e (textHash P e.text)) with
    | some sig =>
      exact hset (fun sl => { sl with th := textHash P e.text, sig := sig, hasSig := true }) rfl
        fun _ _ => rfl
    | none => exact hset (fun sl => { sl with th := textHash P e.text }) rfl fun _ _ => rfl
  · have hs' : ¬ ({ storeSlot c (Slot.new e) with seq := e.seq } : Ledger).signing = true := hs
    rw [signLast, if_neg hs', emitLedger, emitSlot, if_neg hs]

theorem collabEmit_eq {ty : CE} {peer ref amount aux : UInt32} {text : List UInt8} {e : Entry}
    (he : emitEntry c ty peer ref amount aux text = e) (hty : CE.ofByte type = some ty)
    (hself : c.self ≠ 0) (hlen : (cStr text).length < 40) (hroom : c.slots.length < 96)
    (hk : e.key ∉ c.keySet) : collabEmit P c type peer ref amount aux text =
      (.emitted (c.seq + 1), emitLedger P c e, sendLast (emitLedger P c e)) := by
  have hargs : ¬ (c.self = 0 ∨ (cStr text).length ≥ 40) := by
    rw [not_or]
    exact ⟨hself, by omega⟩
  have hst : store c e = (.stored, storeSlot c (Slot.new e)) := by
    rcases store_cases c e with ⟨hk', _⟩ | ⟨_, hn, _⟩ | h
    · exact absurd hk' hk
    · omega
    · exact h.2.2
  rw [collabEmit, hty]
  dsimp only
  rw [if_neg hargs, he, hst]
  rw [← signLast_storeSlot, ← he]
  rfl

theorem collabEmit_cases (c : Ledger) (type : UInt8) (peer ref amount aux : UInt32) (text : List UInt8) :
    (Quiet c (collabEmit P c type peer ref amount aux text).2.1 ∧
        (collabEmit P c type peer ref amount aux text).2.2 = [] ∧
        ∀ q, (collabEmit P c type peer ref amount aux text).1 ≠ .emitted q) ∨
      ∃ ty, CE.ofByte type = some ty ∧ c.self ≠ 0 ∧ (cStr text).length < 40 ∧
        c.slots.length < 96 ∧ (emitEntry c ty peer ref amount aux text).key ∉ c.keySet ∧
        collabEmit P c type peer ref amount aux text =
          (.emitted (c.seq + 1), emitLedger P c (emitEntry c ty peer ref amount aux text),
            sendLast (emitLedger P c (emitEntry c ty peer ref amount aux text))) := by
  cases hty : CE.ofByte type with
  | none =>
    left
    rw [collabEmit, hty]
    exact ⟨Quiet.refl c, rfl, by simp⟩
  | some ty =>
    by_cases hargs : c.self = 0 ∨ (cStr text).length ≥ 40
    · left
      rw [collabEmit, hty]
      dsimp only
      rw [if_pos hargs]
      exact ⟨Quiet.refl c, rfl, by simp⟩
    · obtain ⟨hself, hlen⟩ := not_or.mp hargs
      generalize he : emitEntry c ty peer ref amount aux text = e
      have hfail : (store c e).1 ≠ .stored →
          collabEmit P c type peer ref amount aux text = (.notStored, (store c e).2, []) := by
        intro hr
        rw [collabEmit, hty]
        dsimp only
        rw [if_neg hargs, he]
        revert hr
        rcases store c e with ⟨r, c'⟩
        cases r with
        | stored => exact fun hr => absurd rfl hr
        | duplicate => exact fun _ => rfl
        | full => exact fun _ => rfl
      rcases store_cases c e with ⟨_, hr, hq⟩ | ⟨_, _, hr, hq⟩ | ⟨hk, hn, _⟩
      · left
        rw [hfail (by rw [hr]; simp)]
        exact ⟨hq, rfl, by simp⟩
      · left
        rw [hfail (by rw [hr]; simp)]
        exact ⟨hq, rfl, by simp⟩
      · subst he
        exact .inr ⟨ty, rfl, hself, by omega, hn, hk,
          collabEmit_eq P rfl hty hself (by omega) hn hk⟩

/-! ## Receiving -/

def recvSlot (e : Entry) : Option Signed → Slot
  | some s => { Slot.new e with sig := s.sig, th := s.th, hasSig := true }
  | none => Slot.new e

@[simp] theorem recvSlot_e (e : Entry) (signed : Option Signed) : (recvSlot e signed).e = e := by
  cases signed <;> rfl

def boundLedger (c : Ledger) (e : Entry) : Option Signed → Ledger
  | some s => (bindKey c e.origin s.pk).2
  | none => c

theorem bindKey_eq (c : Ledger) (origin : UInt32) (pk : Block 128) :
    ∃ keys, (bindKey c origin pk).2 = { c with keys := keys } := by
  unfold bindKey
  split
  · exact ⟨c.keys, rfl⟩
  split
  · exact ⟨c.keys, rfl⟩
  · exact ⟨_, rfl⟩

@[simp] theorem bindKey_slots (c : Ledger) (origin : UInt32) (pk : Block 128) :
    (bindKey c origin pk).2.slots = c.slots := by
  obtain ⟨keys, heq⟩ := bindKey_eq c origin pk
  rw [heq]

theorem bindKey_room (origin : UInt32) (pk : Block 128) (hc : c.keys.length ≤ 8) :
    (bindKey c origin pk).2.keys.length ≤ 8 := by
  unfold bindKey
  split
  · exact hc
  split
  · exact hc
  rw [length_append, length_singleton]
  omega

theorem boundLedger_eq (c : Ledger) (e : Entry) (signed : Option Signed) :
    ∃ keys, boundLedger c e signed = { c with keys := keys } := by
  cases signed with
  | none => exact ⟨c.keys, rfl⟩
  | some s => exact bindKey_eq c e.origin s.pk

@[simp] theorem boundLedger_slots (c : Ledger) (e : Entry) (signed : Option Signed) :
    (boundLedger c e signed).slots = c.slots := by
  obtain ⟨keys, heq⟩ := boundLedger_eq c e signed
  rw [heq]

/-- The checks an entry passes before it is stored: an unsigned one on a node that does not
sign, a signed one whose key and signature are good. -/
inductive Accepts (c : Ledger) (b : List UInt8) (e : Entry) : UInt8 → Option Signed → Prop
  | unsigned : c.signing = false → Accepts c b e 1 none
  | signed : 272 ≤ b.length → checkSigned P c e (signedPart P e b) = none →
      Accepts c b e 3 (some (signedPart P e b))

theorem checkSigned_none {e : Entry} {s : Signed} (hs : checkSigned P c e s = none) :
    P.csigVerify s.pk (signInput e s.th) s.sig = true ∧
      ∀ pk, collabKeyOf c e.origin = some pk → pk = s.pk := by
  have hver : ∀ r : Option Refusal, (if P.csigVerify s.pk (signInput e s.th) s.sig = true then none
      else some .badSignature) = r → r = none → P.csigVerify s.pk (signInput e s.th) s.sig = true := by
    intro r hr hnone
    by_contra hv
    rw [if_neg hv, hnone] at hr
    cases hr
  unfold checkSigned at hs
  dsimp only at hs
  split at hs
  · rename_i known hknown
    split at hs
    · cases hs
    rename_i hpk
    refine ⟨hver _ rfl hs, ?_⟩
    intro pk hpk'
    rw [hknown] at hpk'
    cases hpk'
    exact not_not.mp hpk
  · rename_i hnone
    split at hs
    · cases hs
    refine ⟨hver _ rfl hs, ?_⟩
    intro pk hpk
    rw [hnone] at hpk
    cases hpk

def checksPass (c : Ledger) (type : UInt8) (b : List UInt8) (e : Entry) : Bool :=
  if type = 1 then !c.signing
  else type = 3 && 272 ≤ b.length && (checkSigned P c e (signedPart P e b)).isNone

variable {b : List UInt8}

theorem checksPass_iff {P : Prim} {e : Entry} :
    checksPass P c type b e = true ↔ ∃ signed, Accepts P c b e type signed := by
  constructor
  · intro hp
    unfold checksPass at hp
    split at hp
    · rename_i h1
      subst h1
      exact ⟨none, .unsigned (by simpa using hp)⟩
    · simp only [Bool.and_eq_true, decide_eq_true_eq, Option.isNone_iff_eq_none] at hp
      obtain ⟨⟨rfl, hlen⟩, hcheck⟩ := hp
      exact ⟨_, .signed hlen hcheck⟩
  · rintro ⟨signed, hacc⟩
    cases hacc with
    | unsigned hs => simp [checksPass, hs]
    | signed hlen hcheck => simp [checksPass, hlen, hcheck]

theorem acceptEntry_cases (h : Host) (c : Ledger) (e : Entry) (src : UInt32)
    (signed : Option Signed) (hk : e.key ∉ c.keySet) :
    (96 ≤ c.slots.length ∧ Quiet c (acceptEntry h c e src signed).1) ∨
      (c.slots.length < 96 ∧ (acceptEntry h c e src signed).1 = storeSlot c (recvSlot e signed)) := by
  unfold acceptEntry
  rcases store_cases c e with ⟨hk', _⟩ | ⟨_, hn, hr, hq⟩ | ⟨_, hn, hst⟩
  · exact absurd hk' hk
  · left
    revert hr hq
    cases store c e with
    | mk r c' =>
      rintro rfl hq
      exact ⟨hn, hq⟩
  · refine .inr ⟨hn, ?_⟩
    rw [hst]
    cases signed with
    | none => rfl
    | some s => exact setLast_storeSlot c (Slot.new e) _ rfl fun _ _ => rfl

theorem collabReceive_cases (h : Host) (c : Ledger) (src : UInt32) (d : List UInt8) :
    Quiet c (collabReceive P h c src d).1 ∨
      ∃ type b e signed, d = type :: b ∧ collabDecode b = some e ∧ e.key ∉ c.keySet ∧
        Accepts P c b e type signed ∧
        ((96 ≤ c.slots.length ∧ Quiet (boundLedger c e signed) (collabReceive P h c src d).1) ∨
          (c.slots.length < 96 ∧ (collabReceive P h c src d).1 =
            storeSlot (boundLedger c e signed) (recvSlot e signed))) := by
  cases d with
  | nil => exact .inl (Quiet.refl c)
  | cons type b =>
    unfold collabReceive
    dsimp only
    split
    · rename_i htype
      unfold receiveEntry
      cases hdec : collabDecode b with
      | none => exact .inl (Quiet.refl c)
      | some e =>
        dsimp only
        split
        · exact .inl ⟨c.dropped, c.duplicates + 1, c.forged, rfl⟩
        rename_i hfind
        have hk : e.key ∉ c.keySet := fun hm => hfind ((find_isSome_iff c _ _).mpr hm)
        split
        · rename_i h1
          split
          · exact .inl ⟨c.dropped, c.duplicates, c.forged + 1, rfl⟩
          rename_i hs
          subst h1
          refine .inr ⟨1, b, e, none, rfl, hdec, hk, .unsigned (by simpa using hs), ?_⟩
          exact acceptEntry_cases h c e src none hk
        · rename_i h1
          split
          · exact .inl (Quiet.refl c)
          have h3 : type = 3 := htype.resolve_left h1
          subst h3
          cases hcheck : checkSigned P c e (signedPart P e b) with
          | some why => exact .inl ⟨c.dropped, c.duplicates, c.forged + 1, rfl⟩
          | none =>
            refine .inr ⟨3, b, e, some (signedPart P e b), rfl, hdec, hk,
              .signed (by omega) hcheck, ?_⟩
            have hk' : e.key ∉ (bindKey c e.origin (signedPart P e b).pk).2.keySet := by
              rw [Ledger.keySet, bindKey_slots]
              exact hk
            have := acceptEntry_cases h (bindKey c e.origin (signedPart P e b).pk).2 e src
              (some (signedPart P e b)) hk'
            rwa [bindKey_slots] at this
    · split <;> exact .inl (Quiet.refl c)

theorem collabReceive_eq (h : Host) (src : UInt32)
    {e : Entry} {signed : Option Signed} (hd : collabDecode b = some e) (hk : e.key ∉ c.keySet)
    (hacc : Accepts P c b e type signed) (hroom : c.slots.length < 96) :
    (collabReceive P h c src (type :: b)).1 =
      storeSlot (boundLedger c e signed) (recvSlot e signed) := by
  have hfind : ¬ (find c e.origin e.seq).isSome = true := fun hs =>
    hk ((find_isSome_iff c _ _).mp hs)
  have hk' : e.key ∉ (boundLedger c e signed).keySet := by
    rw [Ledger.keySet, boundLedger_slots]
    exact hk
  have haccept := acceptEntry_cases h (boundLedger c e signed) e src signed hk'
  rw [boundLedger_slots] at haccept
  rcases haccept with ⟨hn, _⟩ | ⟨_, haccept⟩
  · omega
  · rw [← haccept]
    cases hacc with
    | unsigned hs =>
      rw [collabReceive, if_pos (.inl rfl), receiveEntry, hd]
      dsimp only
      rw [if_neg hfind, if_pos rfl, if_neg (by simp [hs])]
      rfl
    | signed hlen hcheck =>
      rw [collabReceive, if_pos (.inr rfl), receiveEntry, hd]
      dsimp only
      rw [if_neg hfind, if_neg (by decide), if_neg (by omega), hcheck]
      rfl

def carried : List UInt8 → Option Entry
  | [] => none
  | ty :: b => if ty = 1 ∨ ty = 3 then collabDecode b else none

theorem Accepts.carried {P : Prim} {e : Entry}
    {signed : Option Signed} (hacc : Accepts P c b e type signed) (hd : collabDecode b = some e) :
    carried (type :: b) = some e := by
  rw [Collab.carried, if_pos, hd]
  cases hacc
  · exact .inl rfl
  · exact .inr rfl

theorem carried_entryMessage (c : Ledger) {sl : Slot} (hsl : sl.e.origin ≠ 0 ∧ sl.e.seq ≠ 0) :
    carried (entryMessage c sl) = some { sl.e with text := sl.e.text.sanitise } := by
  have hdec : ∀ rest, collabDecode (collabEncode sl.e ++ rest) =
      some { sl.e with text := sl.e.text.sanitise } := by
    intro rest
    rw [collabDecode_collabEncode, if_neg (by simp [hsl])]
  unfold entryMessage
  split
  · exact hdec _
  have h := hdec []
  rw [append_nil] at h
  exact h

theorem signedPart_encode (e x : Entry) (th : Block 32) (sig : Block 40) (pk : Block 128) :
    signedPart P e (collabEncode x ++ (th.val ++ (sig.val ++ pk.val))) =
      ⟨if isRedacted e then th else textHash P e.text, sig, pk⟩ := by
  set b := collabEncode x ++ (th.val ++ (sig.val ++ pk.val)) with hb
  have h72 : b.drop 72 = th.val ++ (sig.val ++ pk.val) := drop_left' (collabEncode_length x)
  have h104 : b.drop 104 = sig.val ++ pk.val := drop_next h72 th.property
  have h144 : b.drop 144 = pk.val ++ [] := (drop_next h104 sig.property).trans (append_nil _).symm
  rw [signedPart, h72, h104, h144, Block.read_append, Block.read_append, Block.read_append]

theorem collabReceive_sends (h : Host) (c : Ledger) (src dst : UInt32) (d m : List UInt8)
    (hm : Out.send dst m ∈ (collabReceive P h c src d).2) :
    dst = src ∧ ∃ sl ∈ c.slots, m = entryMessage c sl := by
  cases d with
  | nil => cases hm
  | cons type b =>
    unfold collabReceive at hm
    dsimp only at hm
    split at hm
    · exfalso
      revert hm
      fun_cases receiveEntry P h c src type b
      all_goals simp [reject, acceptEntry]
      all_goals (split <;> simp)
    · split at hm
      · revert hm
        fun_cases answerSync h c src b
        · simp
        · simp
        · intro hm
          rcases mem_append.mp hm with hm | hm
          · obtain ⟨sl, hsl, heq⟩ := mem_map.mp hm
            cases heq
            exact ⟨rfl, sl, mem_of_mem_filter hsl, rfl⟩
          · simp at hm
      · cases hm

end Mohhdy.Collab
