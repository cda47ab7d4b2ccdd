import Mohhdy.Foundations.Runs
import Mohhdy.Collab.Redaction

/-! Runs of one node: local emissions, receipts of arbitrary bytes from arbitrary senders, and
changes of its own key. A summary and its answer are such receipts. What holds of every ledger
such a run reaches is collected in `Ledger.Ok`. -/
namespace Mohhdy.Collab
open Words Runs List
set_option autoImplicit false

variable {c : Ledger}

inductive NodeEvent where
  | emit (type : UInt8) (peer ref amount aux : UInt32) (text : List UInt8)
  | receive (src : UInt32) (d : List UInt8)
  | keysSet (seed : Block 32)

def nodeStep (P : Prim) (h : Host) (c : Ledger) : NodeEvent → Ledger
  | .emit type peer ref amount aux text => (collabEmit P c type peer ref amount aux text).2.1
  | .receive src d => (collabReceive P h c src d).1
  | .keysSet seed => (collabKeysSet P c seed).2

def nodeRun (P : Prim) (h : Host) (self : UInt32) (evs : List NodeEvent) : Ledger :=
  run (nodeStep P h) (collabInit self) evs

def Ledger.ownCount (c : Ledger) : ℕ := c.entries.countP fun e => e.origin = c.self

/-- The invariant of a run. The sequence counter never wraps, since each of its values is the
number of an entry that is stored; the clock is the largest stored lamport. -/
structure Ledger.Ok (c : Ledger) : Prop where
  room : c.slots.length ≤ 96
  nodup : c.keySet.Nodup
  normal : Normal c.entries
  nonzero : ∀ e ∈ c.entries, e.origin ≠ 0 ∧ e.seq ≠ 0
  seq : c.seq.toNat ≤ c.ownCount
  clockBound : ∀ e ∈ c.entries, e.lamport ≤ c.lamport
  clockHit : c.lamport ≠ 0 → ∃ e ∈ c.entries, e.lamport = c.lamport
  text : ∀ e ∈ c.entries, e.origin ≠ c.self → e.text.sanitise = e.text

theorem ok_init (self : UInt32) : (collabInit self).Ok where
  room := by simp [collabInit]
  nodup := nodup_nil
  normal := fun _ he => by cases he
  nonzero := fun _ he => by cases he
  seq := le_refl _
  clockBound := fun _ he => by cases he
  clockHit := absurd rfl
  text := fun _ he => by cases he

theorem Ledger.Ok.congr {d : Ledger} (hc : c.Ok) (hslots : d.slots = c.slots)
    (hself : d.self = c.self) (hseq : d.seq = c.seq) (hlam : d.lamport = c.lamport) : d.Ok := by
  have he : d.entries = c.entries := by rw [Ledger.entries, hslots]; rfl
  constructor
  · rw [hslots]
    exact hc.room
  · rw [Ledger.keySet, hslots]
    exact hc.nodup
  · rw [he]
    exact hc.normal
  · rw [he]
    exact hc.nonzero
  · rw [hseq, Ledger.ownCount, he, hself]
    exact hc.seq
  · rw [he, hlam]
    exact hc.clockBound
  · rw [he, hlam]
    exact hc.clockHit
  · rw [he, hself]
    exact hc.text

theorem Ledger.Ok.ownCount_le (hc : c.Ok) : c.ownCount ≤ 96 := by
  have h : c.ownCount ≤ c.entries.length := countP_le_length
  have hl : c.entries.length = c.slots.length := by simp [Ledger.entries]
  have := hc.room
  omega

/-! ## Storing -/

theorem storeSlot_forall (hn : Normal c.entries) (sl : Slot) {p : Entry → Prop}
    (hp : ∀ e t, p e → p (e.withText t)) (hold : ∀ e ∈ c.entries, p e) (hnew : p sl.e) :
    ∀ e ∈ (storeSlot c sl).entries, p e := by
  intro e he
  rw [storeSlot_entries hn] at he
  obtain ⟨x, hx, rfl⟩ := mem_map.mp he
  obtain ⟨t, ht⟩ := eraseCovered_header (c.entries ++ [sl.e]) x
  rw [ht]
  apply hp
  exact forall_mem_append.mpr ⟨hold, forall_mem_singleton.mpr hnew⟩ x hx

theorem storeSlot_ownCount (hn : Normal c.entries) (sl : Slot) :
    (storeSlot c sl).ownCount = c.ownCount + if sl.e.origin = c.self then 1 else 0 := by
  have hmap := normalise_map (fun e => e.origin) (fun _ _ => rfl) (c.entries ++ [sl.e])
  have hcount : ∀ es : List Entry, es.countP (fun e => e.origin = c.self) =
      (es.map fun e => e.origin).countP fun o => o = c.self := by
    intro es
    rw [countP_map]
    rfl
  rw [Ledger.ownCount, storeSlot_entries hn, storeSlot_self, hcount, hmap, ← hcount,
    countP_append, countP_singleton]
  simp [Ledger.ownCount]

theorem storeSlot_lamport (c : Ledger) (sl : Slot) :
    c.lamport ≤ (storeSlot c sl).lamport ∧ sl.e.lamport ≤ (storeSlot c sl).lamport ∧
      ((storeSlot c sl).lamport = c.lamport ∨ (storeSlot c sl).lamport = sl.e.lamport) := by
  unfold storeSlot
  split
  · rename_i h
    exact ⟨UInt32.le_of_lt h, UInt32.le_refl _, .inr rfl⟩
  · rename_i h
    exact ⟨UInt32.le_refl _, UInt32.not_lt.mp h, .inl rfl⟩

theorem Ledger.Ok.storeSlot (hc : c.Ok) (sl : Slot) (hk : sl.e.key ∉ c.keySet)
    (hroom : c.slots.length < 96) (ho : sl.e.origin ≠ 0) (hs : sl.e.seq ≠ 0)
    (ht : sl.e.origin ≠ c.self → sl.e.text.sanitise = sl.e.text) : (Collab.storeSlot c sl).Ok := by
  obtain ⟨hold, hnew, heq⟩ := storeSlot_lamport c sl
  constructor
  · simp only [Collab.storeSlot, redactOnStore_length, length_append, length_singleton]
    omega
  · exact storeSlot_nodup hc.nodup hk
  · rw [storeSlot_entries hc.normal]
    exact normal_normalise _
  · exact storeSlot_forall hc.normal sl (fun _ _ h => h) hc.nonzero ⟨ho, hs⟩
  · have hcount := storeSlot_ownCount hc.normal sl
    have hseq := hc.seq
    change c.seq.toNat ≤ _
    omega
  · exact storeSlot_forall hc.normal sl (fun _ _ h => h)
      (fun e he => UInt32.le_trans (hc.clockBound e he) hold) hnew
  · intro hl
    have hmem : (Collab.storeSlot c sl).lamport ∈
        (c.entries ++ [sl.e]).map fun e => e.lamport := by
      rcases heq with heq | heq
      · rw [heq] at hl
        obtain ⟨e, he, hle⟩ := hc.clockHit hl
        rw [heq, ← hle]
        exact mem_map_of_mem (mem_append_left _ he)
      · rw [heq]
        exact mem_map_of_mem (mem_append_right _ (mem_singleton_self _))
    rw [← normalise_map (fun e => e.lamport) (fun _ _ => rfl), ← storeSlot_entries hc.normal] at hmem
    exact mem_map.mp hmem
  · intro e he horigin
    rw [storeSlot_entries hc.normal] at he
    obtain ⟨x, hx, rfl⟩ := mem_map.mp he
    have hx' : x.origin ≠ c.self → x.text.sanitise = x.text :=
      forall_mem_append.mpr ⟨hc.text, forall_mem_singleton.mpr ht⟩ x hx
    unfold eraseCovered at horigin ⊢
    split
    · exact redactedText_sanitise
    rename_i hcov
    rw [if_neg hcov] at horigin
    exact hx' horigin

/-! ## Steps -/

theorem UInt32_succ_toNat {v : UInt32} (hv : v.toNat < 2 ^ 32 - 1) :
    (v + 1).toNat = v.toNat + 1 := by
  exact Nat.mod_eq_of_lt (by simpa using by omega)

theorem Ledger.Ok.seq_succ (hc : c.Ok) : (c.seq + 1).toNat = c.seq.toNat + 1 := by
  have h1 := hc.seq
  have h2 := hc.ownCount_le
  exact UInt32_succ_toNat (by omega)

variable (P : Prim)

theorem Ledger.Ok.emitLedger (hc : c.Ok) {e : Entry}
    (hk : e.key ∉ c.keySet) (hroom : c.slots.length < 96) (ho : e.origin = c.self)
    (hself : c.self ≠ 0) (hs : e.seq = c.seq + 1) : (Collab.emitLedger P c e).Ok := by
  have hsucc := hc.seq_succ
  have hst : (Collab.storeSlot c (emitSlot P c e)).Ok := by
    refine hc.storeSlot _ ?_ hroom ?_ ?_ ?_ <;> rw [emitSlot_e]
    · exact hk
    · rw [ho]
      exact hself
    · rw [hs]
      intro h0
      rw [h0] at hsucc
      simp at hsucc
    · exact fun h => absurd ho h
  refine { hst with seq := ?_ }
  have hcount := storeSlot_ownCount hc.normal (emitSlot P c e)
  rw [emitSlot_e, if_pos ho] at hcount
  have hseq := hc.seq
  change e.seq.toNat ≤ (Collab.storeSlot c (emitSlot P c e)).ownCount
  rw [hs, hcount]
  omega

theorem Quiet.ok {d : Ledger} (hq : Quiet c d) (hc : c.Ok) : d.Ok := by
  obtain ⟨_, _, _, rfl⟩ := hq
  exact hc.congr rfl rfl rfl rfl

theorem Ledger.Ok.bound (hc : c.Ok) (e : Entry) (signed : Option Signed) :
    (boundLedger c e signed).Ok := by
  obtain ⟨keys, hkeys⟩ := boundLedger_eq c e signed
  rw [hkeys]
  exact hc.congr rfl rfl rfl rfl

theorem Ledger.Ok.emit (hc : c.Ok) (type : UInt8)
    (peer ref amount aux : UInt32) (text : List UInt8) :
    (collabEmit P c type peer ref amount aux text).2.1.Ok := by
  rcases collabEmit_cases P c type peer ref amount aux text with
    ⟨hq, _⟩ | ⟨ty, _, hself, _, hroom, hk, heq⟩
  · exact hq.ok hc
  · rw [heq]
    exact hc.emitLedger P hk hroom rfl hself rfl

theorem Ledger.Ok.receive (h : Host) (hc : c.Ok) (src : UInt32)
    (d : List UInt8) : (collabReceive P h c src d).1.Ok := by
  rcases collabReceive_cases P h c src d with
    hq | ⟨type, b, e, signed, rfl, hd, hk, _, ⟨_, hq⟩ | ⟨hroom, hst⟩⟩
  · exact hq.ok hc
  · exact hq.ok (hc.bound e signed)
  · obtain ⟨ho, hs, ht⟩ := collabDecode_wellFormed hd
    rw [hst]
    refine (hc.bound e signed).storeSlot _ ?_ ?_ ?_ ?_ ?_
    · rw [Ledger.keySet, boundLedger_slots, recvSlot_e]
      exact hk
    · rw [boundLedger_slots]
      exact hroom
    · rw [recvSlot_e]
      exact ho
    · rw [recvSlot_e]
      exact hs
    · rw [recvSlot_e]
      exact fun _ => ht

theorem collabKeysSet_eq (c : Ledger) (seed : Block 32) :
    ∃ signing sk pk keys, (collabKeysSet P c seed).2 =
      { c with signing := signing, sk := sk, pk := pk, keys := keys } := by
  unfold collabKeysSet
  split
  · exact ⟨_, _, _, _, rfl⟩
  dsimp only
  split
  · exact ⟨_, _, _, _, rfl⟩
  unfold bindKey
  split
  · exact ⟨_, _, _, _, rfl⟩
  · split <;> exact ⟨_, _, _, _, rfl⟩

/-- A fact about the keys of a ledger alone: a step that sets no key binds one at most. -/
theorem nodeStep_keyRule {I : Ledger → Prop} (h : Host)
    (hkeep : ∀ (c : Ledger) slots seq lamport dropped duplicates forged, I c → I { c with
      slots := slots, seq := seq, lamport := lamport, dropped := dropped, duplicates := duplicates, forged := forged })
    (hbound : ∀ c e signed, I c → I (boundLedger c e signed))
    (hset : ∀ c seed, I c → I (collabKeysSet P c seed).2) (c : Ledger) (ev : NodeEvent) (hc : I c) :
    I (nodeStep P h c ev) := by
  have hquiet : ∀ {c d : Ledger}, Quiet c d → I c → I d := by
    rintro c _ ⟨_, _, _, rfl⟩ hc
    exact hkeep c c.slots c.seq c.lamport _ _ _ hc
  cases ev with
  | emit type peer ref amount aux text =>
    rw [nodeStep]
    obtain ⟨hq, _⟩ | ⟨ty, _, _, _, _, _, heq⟩ := collabEmit_cases P c type peer ref amount aux text
    · exact hquiet hq hc
    · rw [heq]
      exact hkeep c _ _ _ c.dropped c.duplicates c.forged hc
  | receive src d =>
    rw [nodeStep]
    obtain hq | ⟨type, b, e, signed, rfl, _, _, _, ⟨_, hq⟩ | ⟨_, hst⟩⟩ :=
      collabReceive_cases P h c src d
    · exact hquiet hq hc
    · exact hquiet hq (hbound c e signed hc)
    · rw [hst]
      exact hkeep (boundLedger c e signed) _ _ _ _ _ _ (hbound c e signed hc)
  | keysSet seed => exact hset c seed hc

theorem nodeStep_ok (h : Host) (c : Ledger) (ev : NodeEvent) (hc : c.Ok) :
    (nodeStep P h c ev).Ok := by
  cases ev with
  | emit type peer ref amount aux text => exact hc.emit P type peer ref amount aux text
  | receive src d => exact hc.receive P h src d
  | keysSet seed =>
    obtain ⟨_, _, _, _, heq⟩ := collabKeysSet_eq P c seed
    rw [nodeStep, heq]
    exact hc.congr rfl rfl rfl rfl

theorem nodeRun_ok (h : Host) (self : UInt32) (evs : List NodeEvent) : (nodeRun P h self evs).Ok :=
  run_invariant_all (nodeStep_ok P h) (ok_init self)

end Mohhdy.Collab
