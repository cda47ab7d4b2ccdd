import Mohhdy.Collab.Fold
import Mohhdy.Collab.Node

/-! Convergence of the ledgers of a network.

A node is known by its id. The network keeps every message ever sent and delivers any of them to
any node, any number of times and in any order, so loss, duplication and reordering need no
events of their own. A ghost list records the entries `collab_emit` built; it tells the original
of an entry from a copy that was redacted on the way. -/
namespace Mohhdy.Collab
open Words Runs List
set_option autoImplicit false

variable {e : Entry} {c : Ledger} {emitted es fs : List Entry}

/-! ## The network -/

structure Net where
  node : UInt32 → Ledger
  sent : List (List UInt8)
  emitted : List Entry

def Net.init : Net := ⟨collabInit, [], []⟩

inductive Event where
  | emit (n : UInt32) (type : UInt8) (peer ref amount aux : UInt32) (text : List UInt8)
  | receive (n src : UInt32) (k : ℕ)
  | sync (n : UInt32)
  | keysSet (n : UInt32) (seed : Block 32)

def sends (outs : List Out) : List (List UInt8) :=
  outs.filterMap fun
    | .send _ m => some m
    | .line _ => none

variable (P : Prim) (h : Host)

def netStep (net : Net) : Event → Net
  | .emit n type peer ref amount aux text =>
    let (r, c, outs) := collabEmit P (net.node n) type peer ref amount aux text
    { node := Function.update net.node n c
      sent := net.sent ++ sends outs
      emitted := match r, CE.ofByte type with
        | .emitted _, some ty =>
          net.emitted ++ [emitEntry (net.node n) ty peer ref amount aux text]
        | _, _ => net.emitted }
  | .receive n src k =>
    match net.sent[k]? with
    | none => net
    | some d =>
      let (c, outs) := collabReceive P h (net.node n) src d
      { net with node := Function.update net.node n c, sent := net.sent ++ sends outs }
  | .sync n => { net with sent := net.sent ++ sends (collabSync (net.node n)) }
  | .keysSet n seed =>
    { net with node := Function.update net.node n (collabKeysSet P (net.node n) seed).2 }

/-- The condition on steps: an emitted text is printable, and a copy of a profile that differs
from what its origin emitted reaches a node that lacks the entry only after the redaction has. -/
def Clean (net : Net) : Event → Prop
  | .emit _ _ _ _ _ _ text => ∀ b ∈ cStr text, printable b = true
  | .receive n _ k => ∀ e ∈ net.sent[k]?.bind carried, e.key ∉ (net.node n).keySet →
      ∀ o ∈ net.emitted, o.key = e.key → e.text ≠ o.text → covered (net.node n).entries e = true
  | .sync _ => True
  | .keysSet _ _ => True

instance (net : Net) (ev : Event) : Decidable (Clean net ev) :=
  match ev with
  | .emit _ _ _ _ _ _ _ => inferInstanceAs (Decidable (∀ b ∈ _, _))
  | .receive _ _ _ => inferInstanceAs (Decidable (∀ e ∈ _, _ → ∀ o ∈ _, _))
  | .sync _ => .isTrue trivial
  | .keysSet _ _ => .isTrue trivial

/-- Two nodes see the same, whatever is on their stacks: accounts, digest, and the status of every
entry they share. -/
def Agree (a b : Ledger) : Prop :=
  ∀ st st' : ℕ → Stale, (collabFold P st a).2.state.acc = (collabFold P st' b).2.state.acc ∧
    (collabFold P st a).2.digest = (collabFold P st' b).2.digest ∧
    ∀ sa ∈ (collabFold P st a).1.slots, ∀ sb ∈ (collabFold P st' b).1.slots,
      sa.e.key = sb.e.key → sa.status = sb.status

def Ledger.legible (c : Ledger) : Bool := foldLegible State.init (canonical c.entries)

/-! ## The invariant -/

/-- A collection of entries consists of emitted ones, erased where a redaction in the
collection covers them. -/
def Faithful (emitted es : List Entry) : Prop :=
  ∀ e ∈ es, ∃ o ∈ emitted, e = eraseCovered es o

def CopyOf (emitted : List Entry) (e : Entry) : Prop :=
  ∃ o ∈ emitted, e = o ∨ (o.type = .profile ∧ e = o.withText redactedText)

structure Inv (net : Net) : Prop where
  self : ∀ n, (net.node n).self = n
  nodup : ∀ n, (net.node n).keySet.Nodup
  stored : ∀ n, Faithful net.emitted (net.node n).entries
  messages : ∀ d ∈ net.sent, ∀ e, carried d = some e → CopyOf net.emitted e
  own : ∀ o ∈ net.emitted, o.key ∈ (net.node o.origin).keySet
  clean : ∀ o ∈ net.emitted, o.text.sanitise = o.text
  unique : ∀ o ∈ net.emitted, ∀ o' ∈ net.emitted, o.key = o'.key → o = o'

@[simp] theorem withText_key (e : Entry) (t : Text) : (e.withText t).key = e.key := rfl

@[simp] theorem eraseCovered_key (es : List Entry) (e : Entry) : (eraseCovered es e).key = e.key := by
  obtain ⟨t, ht⟩ := eraseCovered_header es e
  rw [ht, withText_key]

theorem covered_mono (hsub : ∀ r ∈ es, r ∈ fs) (hc : covered es e = true) : covered fs e = true := by
  obtain ⟨r, hr, hrest⟩ := covered_iff.mp hc
  exact covered_iff.mpr ⟨r, hsub r hr, hrest⟩

theorem eraseCovered_eraseCovered (hsub : ∀ r ∈ es, r ∈ fs) (o : Entry) :
    eraseCovered fs (eraseCovered es o) = eraseCovered fs o := by
  by_cases ho : o.type = .profile ∧ covered es o = true
  · have hes : eraseCovered es o = o.withText redactedText := if_pos ho
    have hfs : eraseCovered fs o = o.withText redactedText := if_pos ⟨ho.1, covered_mono hsub ho.2⟩
    rw [hes, hfs, eraseCovered]
    split <;> rfl
  · have hes : eraseCovered es o = o := if_neg ho
    rw [hes]

theorem Faithful.normal (hf : Faithful emitted es) : Normal es := by
  intro e he
  obtain ⟨o, _, ho⟩ := hf e he
  rw [ho, eraseCovered_eraseCovered (fun _ h => h)]

theorem Faithful.mono (hf : Faithful emitted es) (new : List Entry) : Faithful (emitted ++ new) es := by
  intro e he
  obtain ⟨o, ho, heq⟩ := hf e he
  exact ⟨o, mem_append_left _ ho, heq⟩

/-- Storing an original, or a redacted copy whose redaction is stored, keeps the collection
faithful. -/
theorem Faithful.store {x o : Entry} (hf : Faithful emitted es) (ho : o ∈ emitted)
    (hx : x = o ∨ (o.type = .profile ∧ x = o.withText redactedText ∧ covered es x = true)) :
    Faithful emitted (normalise (es ++ [x])) := by
  have hsub : ∀ r ∈ es, r ∈ es ++ [x] := fun r hr => mem_append_left _ hr
  have hcov : ∀ o, eraseCovered (normalise (es ++ [x])) o = eraseCovered (es ++ [x]) o := by
    intro o
    simp only [eraseCovered, covered_normalise]
  refine forall_mem_map.mpr fun z hz => ?_
  rcases mem_append.mp hz with hz | hz
  · obtain ⟨o', ho', rfl⟩ := hf z hz
    exact ⟨o', ho', by rw [hcov, eraseCovered_eraseCovered hsub]⟩
  · rw [mem_singleton.mp hz]
    refine ⟨o, ho, ?_⟩
    rw [hcov]
    rcases hx with rfl | ⟨hp, hxo, hc⟩
    · rfl
    · have hxc : covered (es ++ [x]) x = true := covered_mono hsub hc
      have hoc : covered (es ++ [x]) o = true := by
        rw [← covered_withText _ o redactedText, ← hxo]
        exact hxc
      have hxp : x.type = .profile := by
        rw [hxo]
        exact hp
      rw [eraseCovered, if_pos ⟨hxp, hxc⟩, eraseCovered, if_pos ⟨hp, hoc⟩, hxo]
      rfl

/-! ## Messages -/

theorem entryMessage_eq (c : Ledger) (sl : Slot) :
    ∃ ty rest, entryMessage c sl = ty :: (collabEncode sl.e ++ rest) := by
  unfold entryMessage
  split
  · exact ⟨3, _, rfl⟩
  · exact ⟨1, [], by simp⟩

theorem entryMessage_carried {sl : Slot}
    (hd : carried (entryMessage c sl) = some e) (ht : sl.e.text.sanitise = sl.e.text) :
    e = sl.e := by
  obtain ⟨ty, rest, heq⟩ := entryMessage_eq c sl
  rw [heq, carried] at hd
  split at hd
  · rw [collabDecode_collabEncode, ht] at hd
    split at hd
    · cases hd
    cases hd
    rfl
  · cases hd

theorem Faithful.copyOf (hf : Faithful emitted es) (he : e ∈ es) : CopyOf emitted e := by
  obtain ⟨o, ho, rfl⟩ := hf e he
  refine ⟨o, ho, ?_⟩
  unfold eraseCovered
  split
  · rename_i hp
    exact .inr ⟨hp.1, rfl⟩
  · exact .inl rfl

theorem CopyOf.sanitise (hc : CopyOf emitted e)
    (hclean : ∀ o ∈ emitted, o.text.sanitise = o.text) : e.text.sanitise = e.text := by
  obtain ⟨o, ho, rfl | ⟨_, rfl⟩⟩ := hc
  · exact hclean _ ho
  · exact redactedText_sanitise

theorem Faithful.message (hf : Faithful emitted c.entries)
    (hclean : ∀ o ∈ emitted, o.text.sanitise = o.text) {sl : Slot} (hsl : sl ∈ c.slots)
    (hd : carried (entryMessage c sl) = some e) : CopyOf emitted e := by
  have hcopy := hf.copyOf (mem_map_of_mem hsl : sl.e ∈ c.entries)
  rw [entryMessage_carried hd (hcopy.sanitise hclean)]
  exact hcopy

theorem mem_sends {outs : List Out} {m : List UInt8} : m ∈ sends outs ↔ ∃ dst, Out.send dst m ∈ outs := by
  simp only [sends, mem_filterMap]
  constructor
  · rintro ⟨o, ho, heq⟩
    cases o with
    | send dst m' =>
      cases heq
      exact ⟨dst, ho⟩
    | line _ => cases heq
  · rintro ⟨dst, hm⟩
    exact ⟨_, hm, rfl⟩

/-! ## Steps keep the invariant -/

variable {net : Net}

theorem Inv.replace (hI : Inv net) {n : UInt32}
    {ms : List (List UInt8)} {em : Option Entry} (hself : c.self = n) (hnodup : c.keySet.Nodup)
    (hsub : ∀ k ∈ (net.node n).keySet, k ∈ c.keySet)
    (hst : Faithful (net.emitted ++ em.toList) c.entries)
    (hms : ∀ d ∈ ms, ∀ e, carried d = some e → CopyOf (net.emitted ++ em.toList) e)
    (hem : ∀ o ∈ em, o.origin = n ∧ o.key ∈ c.keySet ∧ o.key ∉ (net.node n).keySet ∧
      o.text.sanitise = o.text) :
    Inv ⟨Function.update net.node n c, net.sent ++ ms, net.emitted ++ em.toList⟩ := by
  have hfresh : ∀ o ∈ net.emitted, ∀ o' ∈ em.toList, o.key ≠ o'.key := by
    intro o ho o' ho' hk
    obtain ⟨horig, _, hnot, _⟩ := hem o' (Option.mem_toList.mp ho')
    have hown := hI.own o ho
    have : o.origin = n := (Prod.ext_iff.mp hk).1.trans horig
    rw [this, hk] at hown
    exact hnot hown
  have hgrow : ∀ {e : Entry}, CopyOf net.emitted e → CopyOf (net.emitted ++ em.toList) e := by
    rintro e ⟨o, ho, he⟩
    exact ⟨o, mem_append_left _ ho, he⟩
  constructor
  · exact (Function.forall_update_iff net.node fun m x => x.self = m).mpr ⟨hself, fun m _ => hI.self m⟩
  · exact (Function.forall_update_iff net.node fun _ x => x.keySet.Nodup).mpr ⟨hnodup, fun m _ => hI.nodup m⟩
  · exact (Function.forall_update_iff net.node fun _ x => Faithful _ x.entries).mpr
      ⟨hst, fun m _ => (hI.stored m).mono em.toList⟩
  · exact forall_mem_append.mpr
      ⟨fun d hmem e hd => hgrow (hI.messages d hmem e hd), hms⟩
  · intro o ho
    rcases mem_append.mp ho with ho | ho
    · have hown := hI.own o ho
      by_cases hm : o.origin = n
      · simp only [hm, Function.update_self]
        rw [hm] at hown
        exact hsub _ hown
      · simpa [Function.update_of_ne hm] using hown
    · obtain ⟨horig, hk, _⟩ := hem o (Option.mem_toList.mp ho)
      simpa [horig] using hk
  · exact forall_mem_append.mpr
      ⟨hI.clean, fun o ho => (hem o (Option.mem_toList.mp ho)).2.2.2⟩
  · intro o ho o' ho' hk
    rcases mem_append.mp ho with ho | ho <;> rcases mem_append.mp ho' with ho' | ho'
    · exact hI.unique o ho o' ho' hk
    · exact absurd hk (hfresh o ho o' ho')
    · exact absurd hk.symm (hfresh o' ho' o ho)
    · exact Option.mem_unique (Option.mem_toList.mp ho) (Option.mem_toList.mp ho')

theorem Quiet.slots_eq {c' : Ledger} (hq : Quiet c c') : c'.slots = c.slots := by
  obtain ⟨_, _, _, rfl⟩ := hq
  rfl

theorem Quiet.self_eq {c' : Ledger} (hq : Quiet c c') : c'.self = c.self := by
  obtain ⟨_, _, _, rfl⟩ := hq
  rfl

theorem Inv.sameSlots (hI : Inv net) {n : UInt32}
    (ms : List (List UInt8)) (hself : c.self = n) (hslots : c.slots = (net.node n).slots)
    (hms : ∀ m ∈ ms, (∃ b, m = 2 :: b) ∨ ∃ sl ∈ (net.node n).slots,
      m = entryMessage (net.node n) sl) :
    Inv ⟨Function.update net.node n c, net.sent ++ ms, net.emitted⟩ := by
  have hk : c.keySet = (net.node n).keySet := by rw [Ledger.keySet, hslots]; rfl
  have he : c.entries = (net.node n).entries := by rw [Ledger.entries, hslots]; rfl
  have hnil : net.emitted ++ (none : Option Entry).toList = net.emitted := append_nil _
  rw [← hnil]
  refine hI.replace hself ?_ ?_ ?_ ?_ (by simp)
  · rw [hk]
    exact hI.nodup n
  · rw [hk]
    exact fun _ h => h
  · rw [he, hnil]
    exact hI.stored n
  · intro d hm e hd
    rw [hnil]
    rcases hms _ hm with ⟨b, rfl⟩ | ⟨sl, hsl, rfl⟩
    · cases hd
    · exact (hI.stored n).message hI.clean hsl hd

theorem ofStr_sanitise {text : List UInt8} (ht : ∀ b ∈ cStr text, printable b = true) :
    (Text.ofStr text).sanitise = Text.ofStr text := by
  rw [Text.sanitise_eq_iff, Text.str_ofStr]
  exact fun b hb => ht b (mem_of_mem_take hb)

theorem Inv.emit (hI : Inv net) (n : UInt32) (type : UInt8) (peer ref amount aux : UInt32) {text : List UInt8}
    (ht : ∀ b ∈ cStr text, printable b = true) :
    Inv (netStep P h net (.emit n type peer ref amount aux text)) := by
  rcases collabEmit_cases P (net.node n) type peer ref amount aux text with
    ⟨hq, houts, hr⟩ | ⟨ty, hty, _, _, _, hk, heq⟩
  · have hstep : netStep P h net (.emit n type peer ref amount aux text) =
        ⟨Function.update net.node n (collabEmit P (net.node n) type peer ref amount aux text).2.1,
          net.sent ++ [], net.emitted⟩ := by
      simp only [netStep, houts]
      cases hres : (collabEmit P (net.node n) type peer ref amount aux text).1 with
      | emitted q => exact absurd hres (hr q)
      | badArgs => rfl
      | notStored => rfl
    rw [hstep]
    exact hI.sameSlots _ (hq.self_eq.trans (hI.self n)) hq.slots_eq (by simp)
  · set o := emitEntry (net.node n) ty peer ref amount aux text with ho
    set c := emitLedger P (net.node n) o with hc
    have hstep : netStep P h net (.emit n type peer ref amount aux text) =
        ⟨Function.update net.node n c, net.sent ++ sends (sendLast c),
          net.emitted ++ (some o).toList⟩ := by
      simp only [netStep, heq, hty]
      rfl
    have hkeys : c.keySet = (net.node n).keySet ++ [o.key] := by
      have := storeSlot_keySet (net.node n) (emitSlot P (net.node n) o)
      rwa [emitSlot_e] at this
    have hst : Faithful (net.emitted ++ (some o).toList) c.entries := by
      have hmem : o ∈ net.emitted ++ [o] := mem_append_right _ (mem_singleton_self o)
      have hf := ((hI.stored n).mono [o]).store hmem (.inl rfl)
      have hent := storeSlot_entries (hI.stored n).normal (emitSlot P (net.node n) o)
      rw [emitSlot_e] at hent
      rw [← hent] at hf
      exact hf
    have hclean : ∀ x ∈ net.emitted ++ (some o).toList, x.text.sanitise = x.text := by
      exact forall_mem_append.mpr ⟨hI.clean, forall_mem_singleton.mpr (ofStr_sanitise ht)⟩
    rw [hstep]
    refine hI.replace ((hI.self n) : _) ?_ ?_ hst ?_ ?_
    · refine storeSlot_nodup (hI.nodup n) (?_ : (emitSlot P (net.node n) o).e.key ∉ _)
      rw [emitSlot_e]
      exact hk
    · intro k hk'
      rw [hkeys]
      exact mem_append_left _ hk'
    · intro d hm e hd
      obtain ⟨dst, hm⟩ := mem_sends.mp hm
      unfold sendLast at hm
      split at hm
      · rename_i sl hsl
        obtain ⟨_, rfl⟩ := Out.send.inj (mem_singleton.mp hm)
        exact hst.message hclean (mem_of_getLast? hsl) hd
      · cases hm
    · intro x hx
      cases hx
      refine ⟨hI.self n, ?_, hk, ofStr_sanitise ht⟩
      rw [hkeys]
      exact mem_append_right _ (mem_singleton_self _)

theorem boundLedger_self (c : Ledger) (e : Entry) (signed : Option Signed) :
    (boundLedger c e signed).self = c.self := by
  obtain ⟨keys, hkeys⟩ := boundLedger_eq c e signed
  rw [hkeys]

theorem Inv.receive (hI : Inv net) {n src : UInt32} {k : ℕ}
    (hclean : Clean net (.receive n src k)) : Inv (netStep P h net (.receive n src k)) := by
  cases hget : net.sent[k]? with
  | none => simpa [netStep, hget] using hI
  | some d =>
    set c := (collabReceive P h (net.node n) src d).1 with hc
    set ms := sends (collabReceive P h (net.node n) src d).2 with hms
    have hstep : netStep P h net (.receive n src k) =
        ⟨Function.update net.node n c, net.sent ++ ms, net.emitted⟩ := by
      simp only [netStep, hget]
      rfl
    have hsends : ∀ m ∈ ms, ∃ sl ∈ (net.node n).slots, m = entryMessage (net.node n) sl := by
      intro m hm
      obtain ⟨dst, hm⟩ := mem_sends.mp hm
      exact (collabReceive_sends P h _ _ _ _ _ hm).2
    rw [hstep]
    rcases collabReceive_cases P h (net.node n) src d with
      hq | ⟨type, b, e, signed, rfl, hd, hk, hacc, ⟨_, hq⟩ | ⟨_, hst⟩⟩
    · exact hI.sameSlots _ (hq.self_eq.trans (hI.self n)) hq.slots_eq fun m hm =>
        .inr (hsends m hm)
    · refine hI.sameSlots _ ?_ ?_ fun m hm => .inr (hsends m hm)
      · exact (hq.self_eq.trans (boundLedger_self _ _ _)).trans (hI.self n)
      · exact hq.slots_eq.trans (boundLedger_slots _ _ _)
    · have hcar := hacc.carried hd
      have hbe : (boundLedger (net.node n) e signed).entries = (net.node n).entries := by
        rw [Ledger.entries, boundLedger_slots]
        rfl
      have hbk : (boundLedger (net.node n) e signed).keySet = (net.node n).keySet := by
        rw [Ledger.keySet, boundLedger_slots]
        rfl
      -- the received entry is an original, or a redacted copy whose redaction is here
      obtain ⟨o, ho, hcopy⟩ := hI.messages _ (mem_of_getElem? hget) e hcar
      have hx : e = o ∨ (o.type = .profile ∧ e = o.withText redactedText ∧
          covered (net.node n).entries e = true) := by
        rcases hcopy with rfl | ⟨hp, rfl⟩
        · exact .inl rfl
        · by_cases htext : redactedText = o.text
          · left
            rw [htext]
            rfl
          · refine .inr ⟨hp, rfl, hclean _ ?_ hk o ho rfl htext⟩
            rw [hget]
            exact hcar
      have hentries : c.entries = normalise ((net.node n).entries ++ [e]) := by
        have hnorm : Normal (boundLedger (net.node n) e signed).entries := by
          rw [hbe]
          exact (hI.stored n).normal
        rw [hc, hst, storeSlot_entries hnorm, hbe, recvSlot_e]
      have hkeys : c.keySet = (net.node n).keySet ++ [e.key] := by
        rw [hc, hst, storeSlot_keySet, hbk, recvSlot_e]
      have hnil : net.emitted ++ (none : Option Entry).toList = net.emitted := append_nil _
      rw [← hnil]
      refine hI.replace ?_ ?_ ?_ ?_ ?_ (by simp)
      · rw [hc, hst, storeSlot_self, boundLedger_self]
        exact hI.self n
      · rw [hc, hst]
        refine storeSlot_nodup ?_ ?_
        · rw [hbk]
          exact hI.nodup n
        · rw [hbk, recvSlot_e]
          exact hk
      · intro k' hk'
        rw [hkeys]
        exact mem_append_left _ hk'
      · rw [hnil, hentries]
        exact (hI.stored n).store ho hx
      · intro d hm e' hd'
        rw [hnil]
        obtain ⟨sl, hsl, rfl⟩ := hsends _ hm
        exact (hI.stored n).message hI.clean hsl hd'

theorem netStep_inv (net : Net) (ev : Event) (hI : Inv net) (hclean : Clean net ev) : Inv (netStep P h net ev) := by
  cases ev with
  | emit n type peer ref amount aux text => exact hI.emit P h n type peer ref amount aux hclean
  | receive n src k => exact hI.receive P h hclean
  | sync n =>
    have hrep := hI.sameSlots (c := net.node n) (sends (collabSync (net.node n))) (hI.self n) rfl
      (by
        intro m hm
        obtain ⟨dst, hm⟩ := mem_sends.mp hm
        cases mem_singleton.mp hm
        exact .inl ⟨_, rfl⟩)
    rwa [Function.update_eq_self] at hrep
  | keysSet n seed =>
    obtain ⟨_, _, _, _, heq⟩ := collabKeysSet_eq P (net.node n) seed
    have hrep := hI.sameSlots [] (n := n) (c := (collabKeysSet P (net.node n) seed).2)
      (by rw [heq]; exact hI.self n) (by rw [heq]) (by simp)
    rwa [append_nil] at hrep

theorem inv_init : Inv Net.init where
  self := fun _ => rfl
  nodup := fun _ => nodup_nil
  stored := fun _ _ he => by cases he
  messages := fun _ hm => by cases hm
  own := fun _ ho => by cases ho
  clean := fun _ ho => by cases ho
  unique := fun _ ho => by cases ho

/-! ## Agreement -/

section
variable (hes : Faithful emitted es) (hfs : Faithful emitted fs)
  (hu : ∀ o ∈ emitted, ∀ o' ∈ emitted, o.key = o'.key → o = o')
include hes hfs hu

theorem same_original (he : e ∈ es) (hk : e.key ∈ fs.map Entry.key) :
    ∃ o, e = eraseCovered es o ∧ eraseCovered fs o ∈ fs := by
  obtain ⟨o, ho, rfl⟩ := hes e he
  obtain ⟨f, hf, hkey⟩ := mem_map.mp hk
  obtain ⟨o', ho', rfl⟩ := hfs f hf
  obtain rfl : o' = o := hu o' ho' o ho (by simpa using hkey)
  exact ⟨o', rfl, hf⟩

theorem covered_of_keys (hk : ∀ k ∈ es.map Entry.key, k ∈ fs.map Entry.key)
    (hc : covered es e = true) : covered fs e = true := by
  obtain ⟨r, hr, hrest⟩ := covered_iff.mp hc
  obtain ⟨o, rfl, ho⟩ := same_original hes hfs hu hr (hk _ (mem_map_of_mem hr))
  obtain ⟨t, ht⟩ := eraseCovered_header es o
  obtain ⟨t', ht'⟩ := eraseCovered_header fs o
  rw [ht] at hrest
  refine covered_iff.mpr ⟨_, ho, ?_⟩
  rw [ht']
  exact hrest

theorem mem_of_keys (hk : ∀ k, k ∈ es.map Entry.key ↔ k ∈ fs.map Entry.key) (he : e ∈ es) :
    e ∈ fs := by
  obtain ⟨o, rfl, ho⟩ := same_original hes hfs hu he ((hk _).mp (mem_map_of_mem he))
  have hcov : covered es o = covered fs o := by
    rw [Bool.eq_iff_iff]
    exact ⟨covered_of_keys hes hfs hu fun k hk' => (hk k).mp hk',
      covered_of_keys hfs hes hu fun k hk' => (hk k).mpr hk'⟩
  have hsame : eraseCovered es o = eraseCovered fs o := by simp only [eraseCovered, hcov]
  rw [hsame]
  exact ho

end

theorem Inv.agree (hI : Inv net) {a b : UInt32} (hk : ∀ k, k ∈ (net.node a).keySet ↔ k ∈ (net.node b).keySet)
    (hlegible : (net.node a).legible = true) : Agree P (net.node a) (net.node b) := by
  intro st st'
  have hk' : ∀ k, k ∈ (net.node a).entries.map Entry.key ↔
      k ∈ (net.node b).entries.map Entry.key := by
    intro k
    rw [← Ledger.keySet_eq, ← Ledger.keySet_eq]
    exact hk k
  have hnodup : ∀ n, ((net.node n).entries.map Entry.key).Nodup := by
    intro n
    rw [← Ledger.keySet_eq]
    exact hI.nodup n
  have hperm : (net.node a).entries.Perm (net.node b).entries := by
    refine (perm_ext_iff_of_nodup (List.Nodup.of_map _ (hnodup a)) (List.Nodup.of_map _ (hnodup b))).mpr ?_
    intro e
    exact ⟨mem_of_keys (hI.stored a) (hI.stored b) hI.unique hk',
      mem_of_keys (hI.stored b) (hI.stored a) hI.unique fun k => (hk' k).symm⟩
  have hcanon : canonical (net.node a).entries = canonical (net.node b).entries :=
    canonical_congr hperm (hnodup a)
  have hloop := foldLoop_legible hlegible st st'
  have hfold := collabFold_congr P hcanon hloop
  refine ⟨by rw [hfold], by rw [hfold], ?_⟩
  intro sa hsa sb hsb hkey
  obtain ⟨ra, hra, hsta⟩ := collabFold_status P st _ hsa
  obtain ⟨rb, hrb, hstb⟩ := collabFold_status P st' _ hsb
  -- the key has one place in the canonical order
  have hnc : ((canonical (net.node b).entries).map Entry.key).Nodup :=
    ((canonical_perm _).map _).nodup_iff.mpr (hnodup b)
  change (sa.e, ra) ∈ (canonical (net.node a).entries).zip
    (foldLoop st State.init (canonical (net.node a).entries)).1 at hra
  rw [hloop, hcanon] at hra
  obtain ⟨i, hi, hia⟩ := getElem_of_mem hra
  obtain ⟨j, hj, hjb⟩ := getElem_of_mem hrb
  simp only [getElem_zip, Prod.mk.injEq] at hia hjb
  have hi' : i < ((canonical (net.node b).entries).map Entry.key).length := by
    rw [length_map]
    exact (lt_min_iff.mp (length_zip ▸ hi)).1
  have hj' : j < ((canonical (net.node b).entries).map Entry.key).length := by
    rw [length_map]
    exact (lt_min_iff.mp (length_zip ▸ hj)).1
  have hij : i = j := by
    refine hnc.getElem_inj_iff.mp (?_ : ((canonical (net.node b).entries).map Entry.key)[i] =
      ((canonical (net.node b).entries).map Entry.key)[j])
    simp only [getElem_map, hia.1]
    rw [hkey, ← hjb.1]
    rfl
  subst hij
  rw [hsta, hstb, ← hia.2, ← hjb.2]
  rfl

/-- In every run whose steps are clean, two nodes that store the same keys, and read no stale bytes in
their folds, fold to the same accounts, digest and status codes. -/
theorem netRun_agree (evs : List Event) (hclean : Along (netStep P h) Clean Net.init evs) (a b : UInt32)
    (hk : ∀ k, k ∈ ((run (netStep P h) Net.init evs).node a).keySet ↔
      k ∈ ((run (netStep P h) Net.init evs).node b).keySet)
    (hlegible : ((run (netStep P h) Net.init evs).node a).legible = true) :
    Agree P ((run (netStep P h) Net.init evs).node a) ((run (netStep P h) Net.init evs).node b) :=
  (run_invariant (netStep_inv P h) inv_init hclean).agree P hk hlegible

def profileRun (texts : List (List UInt8)) : List Event :=
  .emit 1 1 0 0 0 0 [] :: texts.map (.emit 1 13 0 0 0 0) ++ (range (texts.length + 1)).map (.receive 2 1)

/-- Node 1 joins, shares a profile and redacts it. Node 2 receives everything, node 3 misses the
redaction, and node 4 gets the profile from node 2, as an answer to its summary. -/
def relayRun : List Event :=
  [.emit 1 1 0 0 0 0 [], .emit 1 13 0 0 0 0 (ascii ['a', '=', 'b']), .emit 1 14 0 0 0 0 [],
    .receive 2 1 0, .receive 2 1 1, .receive 2 1 2, .receive 3 1 0, .receive 3 1 1,
    .receive 4 1 0, .sync 4, .receive 2 4 3, .receive 4 2 4]

def netAfter (evs : List Event) : Net := run (netStep Prim.permissive Host.nameless) Net.init evs

theorem netRun_agree_profile : Agree Prim.permissive ((netAfter (profileRun [ascii ['a', '=', 'b']])).node 1)
      ((netAfter (profileRun [ascii ['a', '=', 'b']])).node 2) := by
  refine netRun_agree Prim.permissive Host.nameless _ ?_ 1 2 (fun k => ?_) (by decide +kernel)
  · refine ⟨?_, ?_, ?_, ?_, trivial⟩ <;> decide +kernel
  · exact Iff.of_eq (congrArg (k ∈ ·) (by decide +kernel))

def Diverged (a b : Ledger) : Prop :=
  a.keySet = b.keySet ∧ a.dropped = 0 ∧ b.dropped = 0 ∧ ¬ Agree Prim.permissive a b

def cutTexts : List (List UInt8) :=
  [97 :: 61 :: replicate 37 120, [98, 61], replicate 38 75 ++ [61], [97, 61, 50]]

/-- With the byte 1 in a profile the emitter keeps it and the receiver stores `?`. With a redacted copy
relayed ahead of the redaction, one node shows the profile and another does not. With a segment that
was cut off, each node shows what is on its stack. -/
theorem netAfter_diverged : Diverged ((netAfter (profileRun [[97, 61, 1]])).node 1)
        ((netAfter (profileRun [[97, 61, 1]])).node 2) ∧
      Diverged ((netAfter relayRun).node 3) ((netAfter relayRun).node 4) ∧
      Diverged ((netAfter (profileRun cutTexts)).node 1) ((netAfter (profileRun cutTexts)).node 2) := by
  refine ⟨?_, ?_, ?_⟩
  · refine ⟨by decide +kernel, by decide +kernel, by decide +kernel, fun hagree => ?_⟩
    exact absurd (hagree (fun _ _ => []) fun _ _ => []).1 (by decide +kernel)
  · refine ⟨by decide +kernel, by decide +kernel, by decide +kernel, fun hagree => ?_⟩
    exact absurd (hagree (fun _ _ => []) fun _ _ => []).1 (by decide +kernel)
  · refine ⟨by decide +kernel, by decide +kernel, by decide +kernel, fun hagree => ?_⟩
    exact absurd (hagree (fun _ _ => []) fun _ _ => [122]).1 (by decide +kernel)

end Mohhdy.Collab
