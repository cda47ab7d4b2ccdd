import Mohhdy.Collab.Causality
import Mohhdy.Collab.Convergence
import Mohhdy.Collab.Persist

/-! The copies of an entry: the one its emitter stores, the one a receiver decodes, and the one a
saved ledger is loaded with. The emitter stores the text it was given, and both other copies are
cleaned, so they agree on printable texts only. A receiver that signs recomputes the hash it
verifies from the cleaned text. -/
namespace Mohhdy.Collab
open Words Runs List
set_option autoImplicit false

/-! ## The slot just stored -/

theorem eraseCovered_concat_self (es : List Entry) (e : Entry) :
    eraseCovered (es ++ [e]) e = eraseCovered es e := by
  have hcov : covered (es ++ [e]) e = covered es e := by
    simp [covered]
  rw [eraseCovered, hcov]
  rfl

variable {c : Ledger}

theorem storeSlot_getLast (hn : Normal c.entries) (sl : Slot) :
    ∃ last, (storeSlot c sl).slots.getLast? = some last ∧
      last.e = eraseCovered c.entries sl.e ∧ last.th = sl.th ∧ last.sig = sl.sig ∧
      last.hasSig = sl.hasSig := by
  have hentry : ((storeSlot c sl).slots.map Slot.e).getLast? =
      some (eraseCovered c.entries sl.e) := by
    change (storeSlot c sl).entries.getLast? = _
    rw [storeSlot_entries hn, normalise, List.getLast?_map, List.getLast?_concat,
      Option.map_some, eraseCovered_concat_self]
  have hrest : ((storeSlot c sl).slots.map fun x => (x.th, x.sig, x.hasSig)).getLast? =
      some (sl.th, sl.sig, sl.hasSig) := by
    change ((redactOnStore sl.e (c.slots ++ [sl])).map _).getLast? = _
    rw [redactOnStore_map _ (fun _ _ => rfl), List.getLast?_map, List.getLast?_concat]
    rfl
  rw [List.getLast?_map] at hentry hrest
  obtain ⟨last, hlast, he⟩ := Option.map_eq_some_iff.mp hentry
  rw [hlast, Option.map_some, Option.some.injEq, Prod.mk.injEq, Prod.mk.injEq] at hrest
  exact ⟨last, hlast, he, hrest.1, hrest.2.1, hrest.2.2⟩

/-! ## Copies that agree -/

variable (P : Prim) (h : Host)

/-- What is documented of the signature scheme: a signature made with a secret key verifies
under its public key. -/
def Prim.SignCorrect : Prop :=
  ∀ seed sk pk msg sig, P.csigKeypair seed = some (sk, pk) → P.csigSign sk msg = some sig →
    P.csigVerify pk msg sig = true

def WireAgrees (c : Ledger) (a : EmitArgs) : Prop :=
  ∃ m sl, (a.emit P c).2.2 = [.send 0 m] ∧ (a.emit P c).2.1.slots.getLast? = some sl ∧
    carried m = some sl.e

/-- A signing receiver that holds the key of the sender, has room and lacks the entry stores
it. -/
def SignedAccepts (c : Ledger) (a : EmitArgs) : Prop :=
  c.signing = true → ∀ (r : Ledger) (src : UInt32), r.signing = true →
    collabKeyOf r c.self = some c.pk → (c.self, c.seq + 1) ∉ r.keySet → r.slots.length < 96 →
    ∀ m ∈ sends (a.emit P c).2.2, (c.self, c.seq + 1) ∈ (collabReceive P h r src m).1.keySet

def SaveAgrees (c : Ledger) : Prop :=
  ∀ (d : Ledger) (cap : ℕ) (b : List UInt8), collabSave c cap = some b →
    (collabLoad P d b).1 = some c.slots.length ∧ (collabLoad P d b).2.entries = c.entries

def EmitArgs.entry (a : EmitArgs) (c : Ledger) (ty : CE) : Entry :=
  emitEntry c ty a.peer a.ref a.amount a.aux a.text

/-- The text is printable, or it is a profile that a stored redaction of the node itself erases
at once (its lamport is ahead of the next one, which the clock reaches by wrapping only). -/
def TextKept (c : Ledger) (a : EmitArgs) : Prop :=
  (∀ b ∈ cStr a.text, printable b = true) ∨ (CE.ofByte a.type = some .profile ∧
    ∃ r ∈ c.entries, r.type = .redact ∧ r.origin = c.self ∧ r.lamport > c.lamport + 1)

def KeyKept (c : Ledger) (a : EmitArgs) : Prop :=
  c.signing = true → collabKeyOf c c.self = some c.pk ∧
    ∀ ty, CE.ofByte a.type = some ty →
      (P.csigSign c.sk (signInput (a.entry c ty) (textHash P (a.entry c ty).text))).isSome = true

/-! ## Saving -/

theorem saveAgrees_iff (hc : c.Ok) (hk : c.keys.length ≤ 8) :
    SaveAgrees P c ↔ ∀ e ∈ c.entries, ∀ b ∈ e.text.str, printable b = true := by
  have hnz : ∀ sl ∈ c.slots, sl.e.origin ≠ 0 ∧ sl.e.seq ≠ 0 := fun sl hsl =>
    hc.nonzero sl.e (mem_map_of_mem hsl)
  have hload : ∀ (d : Ledger) (cap : ℕ) (b : List UInt8), collabSave c cap = some b →
      collabLoad P d b = (some c.slots.length, restored P c d.profile) :=
    fun d cap b hb => collabLoad_collabSave P hb hc.room hk hnz d
  have hentries : ∀ profile, (restored P c profile).entries =
      c.entries.map fun e => e.withText e.text.sanitise := by
    intro profile
    change (c.slots.map (restoreSlot P)).map Slot.e = (c.slots.map Slot.e).map _
    rw [map_map, map_map]
    rfl
  have hsame : (c.entries.map fun e => e.withText e.text.sanitise) = c.entries ↔
      ∀ e ∈ c.entries, ∀ b ∈ e.text.str, printable b = true := by
    rw [Tables.map_eq_self_iff]
    refine forall_congr' fun e => forall_congr' fun _ => ?_
    rw [← Text.sanitise_eq_iff]
    exact ⟨fun h => congrArg Entry.text h, fun h => by rw [h]; rfl⟩
  rw [← hsame]
  constructor
  · intro hall
    obtain ⟨b, hb⟩ : ∃ b, collabSave c
        (32 + 128 + 20 + c.keys.length * 132 + c.slots.length * 145) = some b :=
      ⟨_, if_neg (lt_irrefl _)⟩
    have hb2 := (hall c _ b hb).2
    rw [hload c _ b hb, hentries] at hb2
    exact hb2
  · intro hsame d cap b hb
    rw [hload d cap b hb]
    exact ⟨rfl, (hentries _).trans hsame⟩

/-! ## Emitting -/

structure Emission (c : Ledger) (a : EmitArgs) (ty : CE) (last : Slot) : Prop where
  type : CE.ofByte a.type = some ty
  short : (cStr a.text).length < 40
  self : c.self ≠ 0
  stored : (a.emit P c).2.1.slots.getLast? = some last
  sent : (a.emit P c).2.2 = [.send 0 (entryMessage c last)]
  entry : last.e = eraseCovered c.entries (a.entry c ty)
  th : c.signing = true → last.th = textHash P (a.entry c ty).text
  unsigned : last.hasSig = true →
    (P.csigSign c.sk (signInput (a.entry c ty) (textHash P (a.entry c ty).text))).isSome = true
  signed : c.signing = true → ∀ sig,
    P.csigSign c.sk (signInput (a.entry c ty) (textHash P (a.entry c ty).text)) = some sig →
    last.hasSig = true ∧ last.sig = sig

theorem emitSlot_signed (c : Ledger) (e : Entry) :
    (c.signing = true → (emitSlot P c e).th = textHash P e.text) ∧ ((emitSlot P c e).hasSig = true →
        (P.csigSign c.sk (signInput e (textHash P e.text))).isSome = true) ∧
      (c.signing = true → ∀ sig, P.csigSign c.sk (signInput e (textHash P e.text)) = some sig →
        (emitSlot P c e).hasSig = true ∧ (emitSlot P c e).sig = sig) := by
  unfold emitSlot
  split_ifs with hs
  · cases hsig : P.csigSign c.sk (signInput e (textHash P e.text)) with
    | some sig =>
      refine ⟨fun _ => rfl, fun _ => rfl, ?_⟩
      rintro _ _ ⟨⟩
      exact ⟨rfl, rfl⟩
    | none => exact ⟨fun _ => rfl, nofun, nofun⟩
  · exact ⟨fun h => absurd h hs, nofun, fun h => absurd h hs⟩

theorem emission_of_emitted (hc : c.Ok) {a : EmitArgs} {q : UInt32}
    (hq : (a.emit P c).1 = .emitted q) : ∃ ty last, Emission P c a ty last := by
  obtain ⟨_, _, hno⟩ | ⟨ty, hty, hself, hlen, hroom, hk, heq⟩ :=
    collabEmit_cases P c a.type a.peer a.ref a.amount a.aux a.text
  · exact absurd hq (hno q)
  · obtain ⟨last, hlast, he, hth, hsig, hhas⟩ :=
      storeSlot_getLast hc.normal (emitSlot P c (a.entry c ty))
    obtain ⟨hth', hhas', hsigned⟩ := emitSlot_signed P c (a.entry c ty)
    rw [emitSlot_e] at he
    have hemit : a.emit P c = (.emitted (c.seq + 1), emitLedger P c (a.entry c ty),
        sendLast (emitLedger P c (a.entry c ty))) := heq
    refine ⟨ty, last, hty, hlen, hself, by rw [hemit]; exact hlast, ?_, he, ?_, ?_, ?_⟩
    · have hsend : (emitLedger P c (a.entry c ty)).slots.getLast? = some last := hlast
      rw [hemit]
      rw [sendLast, hsend]
      rfl
    · exact fun hs => hth.trans (hth' hs)
    · rw [hhas]
      exact hhas'
    · rw [hhas, hsig]
      exact hsigned

variable {P} {c : Ledger} {a : EmitArgs} {ty : CE} {last : Slot}

theorem Emission.key (he : Emission P c a ty last) : last.e.key = (c.self, c.seq + 1) := by
  obtain ⟨t, ht⟩ := eraseCovered_header c.entries (a.entry c ty)
  rw [he.entry, ht]
  rfl

theorem Emission.nonzero (hc : c.Ok) (he : Emission P c a ty last) :
    last.e.origin ≠ 0 ∧ last.e.seq ≠ 0 := by
  have hkey := he.key
  have hsucc := hc.seq_succ
  rw [show last.e.origin = c.self from congrArg Prod.fst hkey,
    show last.e.seq = c.seq + 1 from congrArg Prod.snd hkey]
  refine ⟨he.self, fun h0 => ?_⟩
  rw [h0] at hsucc
  simp at hsucc

theorem Emission.text_iff (he : Emission P c a ty last) :
    last.e.text.sanitise = last.e.text ↔ TextKept c a := by
  have hstr : (a.entry c ty).text.str = cStr a.text := by
    rw [EmitArgs.entry, emitEntry, Text.str_ofStr]
    exact take_of_length_le (by have := he.short; omega)
  have hcov : ((a.entry c ty).type = .profile ∧ covered c.entries (a.entry c ty) = true) ↔
      (CE.ofByte a.type = some .profile ∧
        ∃ r ∈ c.entries, r.type = .redact ∧ r.origin = c.self ∧ r.lamport > c.lamport + 1) := by
    rw [he.type, covered_iff, Option.some.injEq]
    rfl
  rw [TextKept, ← hcov, he.entry, eraseCovered]
  split
  · rename_i hred
    exact iff_of_true redactedText_sanitise (.inr hred)
  · rename_i hred
    rw [or_iff_left hred, Text.sanitise_eq_iff, hstr]

theorem Emission.wire_iff (hc : c.Ok) (he : Emission P c a ty last) :
    WireAgrees P c a ↔ TextKept c a := by
  have hcar := carried_entryMessage c (he.nonzero hc)
  rw [← he.text_iff]
  constructor
  · rintro ⟨m, sl, hm, hsl, hdec⟩
    rw [he.sent] at hm
    rw [he.stored, Option.some.injEq] at hsl
    subst hsl
    cases hm
    rw [hcar, Option.some.injEq] at hdec
    exact congrArg Entry.text hdec
  · intro htext
    refine ⟨_, last, he.sent, he.stored, ?_⟩
    rw [hcar, htext]

/-! ## Signed receivers -/

theorem Emission.hash (he : Emission P c a ty last) (hs : c.signing = true) :
    (if isRedacted last.e then last.th else textHash P last.e.text) =
      textHash P (a.entry c ty).text := by
  split
  · exact he.th hs
  rename_i hred
  have hkept : last.e = a.entry c ty := by
    rw [he.entry, eraseCovered, if_neg]
    rintro ⟨hty, hcov⟩
    refine hred ?_
    rw [he.entry, eraseCovered, if_pos ⟨hty, hcov⟩]
    simp [isRedacted, Entry.withText, hty]
  rw [hkept]

theorem Emission.accepted (hP : P.SignCorrect) (hc : c.Ok) (he : Emission P c a ty last)
    (hpair : ∃ seed, P.csigKeypair seed = some (c.sk, c.pk)) (hs : c.signing = true)
    (htext : TextKept c a) (hkey : KeyKept P c a) {r : Ledger} (src : UInt32)
    (hr : collabKeyOf r c.self = some c.pk) (hfresh : (c.self, c.seq + 1) ∉ r.keySet)
    (hroom : r.slots.length < 96) :
    (c.self, c.seq + 1) ∈ (collabReceive P h r src (entryMessage c last)).1.keySet := by
  obtain ⟨hown, hsign⟩ := hkey hs
  obtain ⟨sig, hsig⟩ := Option.isSome_iff_exists.mp (hsign ty he.type)
  obtain ⟨hhas, rfl⟩ := he.signed hs sig hsig
  have horigin : last.e.origin = c.self := congrArg Prod.fst he.key
  have hmsg : entryMessage c last = 3 :: (collabEncode last.e ++
      (last.th.val ++ (last.sig.val ++ c.pk.val))) := by
    rw [entryMessage, hhas, horigin, hown]
  have hdec : collabDecode (collabEncode last.e ++ (last.th.val ++ (last.sig.val ++ c.pk.val))) =
      some last.e := by
    have hz := he.nonzero hc
    rw [collabDecode_collabEncode, if_neg (by simp [hz]), he.text_iff.mpr htext]
  have hlen : 272 ≤ (collabEncode last.e ++ (last.th.val ++ (last.sig.val ++ c.pk.val))).length := by
    simp only [length_append, collabEncode_length, last.th.property, last.sig.property,
      c.pk.property]
    omega
  have hinput : signInput last.e (textHash P (a.entry c ty).text) =
      signInput (a.entry c ty) (textHash P (a.entry c ty).text) := by
    obtain ⟨t, ht⟩ := eraseCovered_header c.entries (a.entry c ty)
    rw [he.entry, ht]
    rfl
  obtain ⟨seed, hseed⟩ := hpair
  have hverify := hP seed c.sk c.pk _ _ hseed hsig
  have hpart := signedPart_encode P last.e last.e last.th last.sig c.pk
  rw [he.hash hs] at hpart
  have hcheck : checkSigned P r last.e (signedPart P last.e
      (collabEncode last.e ++ (last.th.val ++ (last.sig.val ++ c.pk.val)))) = none := by
    rw [hpart, checkSigned, horigin, hr]
    simp [hinput, hverify]
  have hst := collabReceive_eq P h src hdec (by rw [he.key]; exact hfresh)
    (Accepts.signed hlen hcheck) hroom
  rw [hmsg, hst, storeSlot_keySet, recvSlot_e, he.key]
  exact mem_append_right _ (mem_singleton_self _)

def keyHolder (o : UInt32) (pk : Block 128) : Ledger :=
  { collabInit 0 with signing := true, keys := [(o, pk)] }

theorem Emission.keyKept (he : Emission P c a ty last) (hacc : (c.self, c.seq + 1) ∈
      (collabReceive P h (keyHolder c.self c.pk) 0 (entryMessage c last)).1.keySet) :
    collabKeyOf c c.self = some c.pk ∧ last.hasSig = true := by
  have horigin : last.e.origin = c.self := congrArg Prod.fst he.key
  obtain hq | ⟨type, b, e, signed, hd, hdec, _, haccepts, ⟨hfull, _⟩ | ⟨_, hst⟩⟩ :=
    collabReceive_cases P h (keyHolder c.self c.pk) 0 (entryMessage c last)
  · rw [Ledger.keySet, hq.slots_eq] at hacc
    cases hacc
  · exact absurd hfull (by simp [keyHolder, collabInit])
  · cases haccepts with
    | unsigned hs => cases hs
    | signed hlen hcheck =>
      unfold entryMessage at hd
      split at hd
      · rename_i pk hhas hpk
        rw [horigin] at hpk
        obtain ⟨_, rfl⟩ := List.cons.inj hd
        have hz : ¬ (last.e.origin = 0 ∨ last.e.seq = 0) := by
          intro hz
          rw [collabDecode_collabEncode, if_pos hz] at hdec
          cases hdec
        have he' : e.origin = c.self := by
          rw [collabDecode_collabEncode, if_neg hz, Option.some.injEq] at hdec
          rw [← hdec]
          exact horigin
        have hknown := (checkSigned_none P hcheck).2 c.pk (by
          rw [he']
          simp [collabKeyOf, keyHolder])
        rw [signedPart_encode] at hknown
        rw [hknown]
        exact ⟨hpk, hhas⟩
      · cases hd

theorem Emission.copies_iff (hP : P.SignCorrect) (hc : c.Ok) (he : Emission P c a ty last)
    (hpair : c.signing = true → ∃ seed, P.csigKeypair seed = some (c.sk, c.pk)) :
    (WireAgrees P c a ∧ SignedAccepts P h c a) ↔ (TextKept c a ∧ KeyKept P c a) := by
  have hsends : sends (a.emit P c).2.2 = [entryMessage c last] := by
    rw [he.sent]
    rfl
  rw [he.wire_iff hc]
  refine and_congr_right fun htext => ⟨?_, ?_⟩
  · intro hacc hs
    have hstored := hacc hs (keyHolder c.self c.pk) 0 rfl (by simp [collabKeyOf, keyHolder])
      (by simp [keyHolder, collabInit, Ledger.keySet]) (by simp [keyHolder, collabInit])
      (entryMessage c last) (by rw [hsends]; exact mem_singleton_self _)
    obtain ⟨hown, hhas⟩ := he.keyKept h hstored
    refine ⟨hown, fun ty' hty' => ?_⟩
    rw [he.type, Option.some.injEq] at hty'
    subst hty'
    exact he.unsigned hhas
  · intro hkey hs r src _ hr hfresh hroom m hm
    rw [hsends, mem_singleton] at hm
    subst hm
    exact he.accepted h hP hc (hpair hs) hs htext hkey src hr hfresh hroom

/-! ## Runs -/

structure Keyed (P : Prim) (c : Ledger) : Prop where
  room : c.keys.length ≤ 8
  pair : c.signing = true → ∃ seed, P.csigKeypair seed = some (c.sk, c.pk)

theorem Keyed.bound (hc : Keyed P c) (e : Entry) (signed : Option Signed) :
    Keyed P (boundLedger c e signed) := by
  obtain ⟨keys, heq⟩ := boundLedger_eq c e signed
  refine ⟨?_, by rw [heq]; exact hc.pair⟩
  cases signed with
  | none => exact hc.room
  | some s => exact bindKey_room e.origin s.pk hc.room

theorem Keyed.keysSet (hc : Keyed P c) (seed : Block 32) : Keyed P (collabKeysSet P c seed).2 := by
  unfold collabKeysSet
  split
  · exact hc
  rename_i sk pk hpair
  dsimp only
  split
  · refine ⟨?_, fun _ => ⟨seed, hpair⟩⟩
    rw [length_map]
    exact hc.room
  · obtain ⟨keys, heq⟩ := bindKey_eq { c with sk := sk, pk := pk, signing := true } c.self pk
    refine ⟨bindKey_room c.self pk hc.room, fun _ => ?_⟩
    rw [heq]
    exact ⟨seed, hpair⟩

theorem nodeStep_keyed (c : Ledger) (ev : NodeEvent) (hc : Keyed P c) :
    Keyed P (nodeStep P h c ev) :=
  nodeStep_keyRule P h (fun _ _ _ _ _ _ _ hc => ⟨hc.room, hc.pair⟩) (fun _ e signed hc => hc.bound e signed)
    (fun _ seed hc => hc.keysSet seed) c ev hc

theorem nodeRun_keyed (self : UInt32) (evs : List NodeEvent) : Keyed P (nodeRun P h self evs) :=
  run_invariant_all (nodeStep_keyed h) ⟨Nat.zero_le _, nofun⟩

/-- In every state a run reaches, a saved ledger is loaded unchanged exactly when every stored
text is printable, and the copies of an emission agree exactly when its text is kept and, on a
node that signs, so is its key. -/
theorem nodeRun_copies_iff (hP : P.SignCorrect) (self : UInt32) (evs : List NodeEvent) :
    (SaveAgrees P (nodeRun P h self evs) ↔
        ∀ e ∈ (nodeRun P h self evs).entries, ∀ b ∈ e.text.str, printable b = true) ∧
      ∀ (a : EmitArgs) (q : UInt32), (a.emit P (nodeRun P h self evs)).1 = .emitted q →
        (WireAgrees P (nodeRun P h self evs) a ∧ SignedAccepts P h (nodeRun P h self evs) a ↔
          TextKept (nodeRun P h self evs) a ∧ KeyKept P (nodeRun P h self evs) a) := by
  have hok := nodeRun_ok P h self evs
  have hkeyed := nodeRun_keyed (P := P) h self evs
  refine ⟨saveAgrees_iff P hok hkeyed.room, fun a q hq => ?_⟩
  obtain ⟨ty, last, he⟩ := emission_of_emitted P hok hq
  exact he.copies_iff h hP hok hkeyed.pair

def Prim.echo : Prim :=
  { Prim.permissive with csigVerify := fun _ msg sig => sig = Block.read 40 msg }

theorem Prim.echo_signCorrect : Prim.echo.SignCorrect := by
  intro seed sk pk msg sig _ hsig
  cases hsig
  exact decide_eq_true rfl

def keyedNode : Ledger := nodeRun Prim.echo Host.nameless 5 [.keysSet (Block.zero 32)]

def ticketArgs (text : List UInt8) : EmitArgs := ⟨15, 0, 0, 0, 0, text⟩

instance (c : Ledger) (a : EmitArgs) : Decidable (TextKept c a) :=
  inferInstanceAs (Decidable ((∀ b ∈ _, _) ∨ (_ ∧ ∃ r ∈ _, _)))

theorem nodeRun_copies_iff_ticket :
    SaveAgrees Prim.echo keyedNode ∧ WireAgrees Prim.echo keyedNode (ticketArgs [104, 105]) ∧
      SignedAccepts Prim.echo Host.nameless keyedNode (ticketArgs [104, 105]) := by
  obtain ⟨hsave, hemit⟩ := nodeRun_copies_iff Host.nameless Prim.echo_signCorrect 5
    [.keysSet (Block.zero 32)]
  refine ⟨hsave.mpr (by decide +kernel), (hemit (ticketArgs [104, 105]) 1 (by decide +kernel)).mpr
    ⟨by decide +kernel, fun _ => ⟨by decide +kernel, fun ty hty => rfl⟩⟩⟩

/-- With the byte 1 in its text the ticket is emitted, and all three copies differ: a receiver
decodes another text, a receiver that signs refuses the signature, and a saved ledger is loaded
with another text. -/
theorem keyedNode_copies_differ : ((ticketArgs [1]).emit Prim.echo keyedNode).1 = .emitted 1 ∧
      ¬ WireAgrees Prim.echo keyedNode (ticketArgs [1]) ∧
      ¬ SignedAccepts Prim.echo Host.nameless keyedNode (ticketArgs [1]) ∧
      ¬ SaveAgrees Prim.echo (nodeRun Prim.echo Host.nameless 5
        [.keysSet (Block.zero 32), .emit 15 0 0 0 0 [1]]) := by
  have hq : ((ticketArgs [1]).emit Prim.echo keyedNode).1 = .emitted 1 := by decide +kernel
  have hok := nodeRun_ok Prim.echo Host.nameless 5 [.keysSet (Block.zero 32)]
  refine ⟨hq, ?_, ?_, ?_⟩
  · obtain ⟨ty, last, he⟩ := emission_of_emitted Prim.echo hok hq
    intro hwire
    exact absurd ((he.wire_iff hok).mp hwire) (by decide +kernel)
  · intro hacc
    have hstored := hacc (by decide +kernel) (keyHolder 5 keyedNode.pk) 0 rfl (by decide +kernel)
      (by decide +kernel) (by decide +kernel)
    exact absurd hstored (by decide +kernel)
  · have hok' := nodeRun_ok Prim.echo Host.nameless 5
      [.keysSet (Block.zero 32), .emit 15 0 0 0 0 [1]]
    have hkeyed := nodeRun_keyed (P := Prim.echo) Host.nameless 5
      [.keysSet (Block.zero 32), .emit 15 0 0 0 0 [1]]
    rw [saveAgrees_iff Prim.echo hok' hkeyed.room]
    decide +kernel

end Mohhdy.Collab
