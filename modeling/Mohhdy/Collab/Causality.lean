import Mohhdy.Collab.Node

/-! Local entries and the canonical order.

`collab_emit` takes the next sequence number from a counter that only its own emissions advance,
and the next lamport from a clock that every stored entry advances. Both are 32-bit: an entry of
the node's own origin that came from outside can be ahead of the counter, and a received lamport
can be the largest there is. -/
namespace Mohhdy.Collab
open Runs List
set_option autoImplicit false

variable {c : Ledger}

structure EmitArgs where
  type : UInt8
  (peer ref amount aux : UInt32)
  text : List UInt8

def EmitArgs.Valid (a : EmitArgs) (c : Ledger) : Prop :=
  (CE.ofByte a.type).isSome ∧ c.self ≠ 0 ∧ (cStr a.text).length < 40

def EmitArgs.emit (a : EmitArgs) (P : Prim) (c : Ledger) : EmitResult × Ledger × List Out :=
  collabEmit P c a.type a.peer a.ref a.amount a.aux a.text

/-- The emission succeeds, its number is larger than every stored one of the node, and its entry
comes after every stored one. -/
def CausalEmit (P : Prim) (c : Ledger) (a : EmitArgs) : Prop :=
  ∃ q, (a.emit P c).1 = .emitted q ∧
    (∀ x ∈ c.entries, x.origin = c.self → x.seq < q) ∧
    ∃ e ∈ (a.emit P c).2.1.entries, e.key = (c.self, q) ∧
      ∀ x ∈ c.entries, before x e = true

def OwnInOrder (c : Ledger) : Prop := ∀ x ∈ c.entries, x.origin = c.self → x.seq ≤ c.seq

instance (c : Ledger) : Decidable (OwnInOrder c) :=
  inferInstanceAs (Decidable (∀ x ∈ _, _))

def ClockRoom (c : Ledger) : Prop := c.lamport ≠ 0xffffffff

instance (c : Ledger) : Decidable (ClockRoom c) :=
  inferInstanceAs (Decidable (_ ≠ _))

theorem lt_succ_of_le {x v : UInt32} (hv : (v + 1).toNat = v.toNat + 1) : x < v + 1 ↔ x ≤ v := by
  rw [UInt32.lt_iff_toNat_lt, UInt32.le_iff_toNat_le]
  omega

theorem clock_succ (hc : ClockRoom c) : (c.lamport + 1).toNat = c.lamport.toNat + 1 := by
  apply UInt32_succ_toNat
  have hlt : c.lamport.toNat < 2 ^ 32 := c.lamport.toNat_lt
  have hne : c.lamport.toNat ≠ 0xffffffff := fun h => hc (UInt32.toNat_inj.mp h)
  omega

theorem before_of_lamport_lt {x e : Entry} (h : x.lamport < e.lamport) : before x e = true := by
  have hne : x.lamport ≠ e.lamport := UInt32.ne_of_lt h
  simp [before, hne, h]

theorem CausalEmit.conditions {P : Prim} {a : EmitArgs} (hc : c.Ok)
    (h : CausalEmit P c a) : OwnInOrder c ∧ ClockRoom c := by
  obtain ⟨q, hq, hseq, e, he, hkey, hbefore⟩ := h
  rcases collabEmit_cases P c a.type a.peer a.ref a.amount a.aux a.text with
    ⟨_, _, hno⟩ | ⟨ty, _, _, _, hroom, hk, heq⟩
  · exact absurd hq (hno q)
  · have hq' : q = c.seq + 1 := by
      change (collabEmit P c a.type a.peer a.ref a.amount a.aux a.text).1 = _ at hq
      rw [heq] at hq
      cases hq
      rfl
    subst hq'
    refine ⟨fun x hx ho => (lt_succ_of_le hc.seq_succ).mp (hseq x hx ho), fun hclock => ?_⟩
    -- the clock is the lamport of some entry, and the new lamport has wrapped to 0
    obtain ⟨x, hx, hxl⟩ := hc.clockHit (by rw [hclock]; decide)
    set o := emitEntry c ty a.peer a.ref a.amount a.aux a.text with ho
    have heo : e.lamport = 0 := by
      change e ∈ (collabEmit P c a.type a.peer a.ref a.amount a.aux a.text).2.1.entries at he
      rw [heq] at he
      change e ∈ (storeSlot c (emitSlot P c o)).entries at he
      rw [storeSlot_entries hc.normal, emitSlot_e] at he
      obtain ⟨y, hy, rfl⟩ := mem_map.mp he
      obtain ⟨t, ht⟩ := eraseCovered_header (c.entries ++ [o]) y
      rw [ht] at hkey ⊢
      rcases mem_append.mp hy with hy | hy
      · exact absurd (mem_map_of_mem hy) (by
          rw [← Ledger.keySet_eq]
          intro hmem
          apply hk
          have hyk : y.key = o.key := hkey
          rwa [hyk] at hmem)
      · rw [mem_singleton.mp hy]
        change c.lamport + 1 = 0
        rw [hclock]
        rfl
    have hb := hbefore x hx
    simp [before, hxl, hclock, heo] at hb

theorem CausalEmit.of_conditions {P : Prim} {a : EmitArgs} (hc : c.Ok)
    (hv : a.Valid c) (hroom : c.slots.length < 96) (hown : OwnInOrder c) (hclock : ClockRoom c) :
    CausalEmit P c a := by
  obtain ⟨hty, hself, hlen⟩ := hv
  obtain ⟨ty, hty⟩ := Option.isSome_iff_exists.mp hty
  set o := emitEntry c ty a.peer a.ref a.amount a.aux a.text with ho
  have hseq : ∀ x ∈ c.entries, x.origin = c.self → x.seq < c.seq + 1 := fun x hx hxo =>
    (lt_succ_of_le hc.seq_succ).mpr (hown x hx hxo)
  have hk : o.key ∉ c.keySet := by
    rw [Ledger.keySet_eq]
    intro hmem
    obtain ⟨x, hx, hxk⟩ := mem_map.mp hmem
    obtain ⟨hxo, hxs⟩ := Prod.ext_iff.mp hxk
    have := hseq x hx hxo
    change x.seq = c.seq + 1 at hxs
    rw [hxs] at this
    exact absurd this (UInt32.lt_irrefl _)
  have heq := collabEmit_eq P rfl hty hself hlen hroom hk
  refine ⟨c.seq + 1, ?_, hseq, ?_⟩
  · change (collabEmit P c a.type a.peer a.ref a.amount a.aux a.text).1 = _
    rw [heq]
  · refine ⟨eraseCovered (c.entries ++ [o]) o, ?_, ?_, ?_⟩
    · change _ ∈ (collabEmit P c a.type a.peer a.ref a.amount a.aux a.text).2.1.entries
      rw [heq]
      change _ ∈ (storeSlot c (emitSlot P c o)).entries
      rw [storeSlot_entries hc.normal, emitSlot_e]
      exact mem_map_of_mem (mem_append_right _ (mem_singleton_self o))
    · obtain ⟨t, ht⟩ := eraseCovered_header (c.entries ++ [o]) o
      rw [ht]
      rfl
    · intro x hx
      obtain ⟨t, ht⟩ := eraseCovered_header (c.entries ++ [o]) o
      rw [ht]
      apply before_of_lamport_lt
      exact (lt_succ_of_le (clock_succ hclock)).mpr (hc.clockBound x hx)

/-! ## Runs -/

/-- The condition on steps: no entry is stored that is the node's own and ahead of its counter,
and the clock stays below its largest value. -/
def Orderly (c : Ledger) : NodeEvent → Prop
  | .emit _ _ _ _ _ _ => c.lamport ≠ 0xfffffffe
  | .receive _ d => ∀ e ∈ carried d, e.key ∉ c.keySet →
      (e.origin = c.self → e.seq ≤ c.seq) ∧ e.lamport ≠ 0xffffffff
  | .keysSet _ => True

instance (c : Ledger) (ev : NodeEvent) : Decidable (Orderly c ev) :=
  match ev with
  | .emit _ _ _ _ _ _ => inferInstanceAs (Decidable (_ ≠ _))
  | .receive _ _ => inferInstanceAs (Decidable (∀ e ∈ _, _))
  | .keysSet _ => .isTrue trivial

structure Ready (c : Ledger) : Prop where
  ok : c.Ok
  own : OwnInOrder c
  clock : ClockRoom c

theorem Ready.congr {d : Ledger} (hc : Ready c) (hslots : d.slots = c.slots)
    (hself : d.self = c.self) (hseq : d.seq = c.seq) (hlam : d.lamport = c.lamport) : Ready d := by
  refine ⟨hc.ok.congr hslots hself hseq hlam, ?_, ?_⟩
  · rw [OwnInOrder, Ledger.entries, hslots, hself, hseq]
    exact hc.own
  · rw [ClockRoom, hlam]
    exact hc.clock

theorem Quiet.ready {d : Ledger} (hq : Quiet c d) (hc : Ready c) : Ready d := by
  obtain ⟨_, _, _, rfl⟩ := hq
  exact hc.congr rfl rfl rfl rfl

theorem storeSlot_clockRoom (sl : Slot) (hc : ClockRoom c)
    (hsl : sl.e.lamport ≠ 0xffffffff) : ClockRoom (storeSlot c sl) := by
  rcases (storeSlot_lamport c sl).2.2 with h | h
  · rw [ClockRoom, h]
    exact hc
  · rw [ClockRoom, h]
    exact hsl

theorem Ready.emit (P : Prim) (hc : Ready c) (type : UInt8)
    (peer ref amount aux : UInt32) (text : List UInt8) (hl : c.lamport ≠ 0xfffffffe) :
    Ready (collabEmit P c type peer ref amount aux text).2.1 := by
  rcases collabEmit_cases P c type peer ref amount aux text with
    ⟨hq, _⟩ | ⟨ty, _, hself, _, hroom, hk, heq⟩
  · exact hq.ready hc
  · rw [heq]
    set o := emitEntry c ty peer ref amount aux text with ho
    refine ⟨hc.ok.emitLedger P hk hroom rfl hself rfl, ?_, ?_⟩
    · have hle : ∀ x : UInt32, x ≤ c.seq → x ≤ c.seq + 1 := fun x hx =>
        UInt32.le_of_lt ((lt_succ_of_le hc.ok.seq_succ).mpr hx)
      refine storeSlot_forall hc.ok.normal _ (p := fun e => e.origin = c.self → e.seq ≤ c.seq + 1)
        (fun _ _ h => h) (fun e he hown => hle _ (hc.own e he hown)) ?_
      rw [emitSlot_e]
      exact fun _ => UInt32.le_refl _
    · refine storeSlot_clockRoom (emitSlot P c o) hc.clock ?_
      rw [emitSlot_e]
      change c.lamport + 1 ≠ 0xffffffff
      intro h
      apply hl
      have : c.lamport + 1 - 1 = 0xffffffff - 1 := by rw [h]
      simpa using this

theorem Ready.receive (P : Prim) (h : Host) (hc : Ready c) (src : UInt32)
    (d : List UInt8) (hd : Orderly c (.receive src d)) : Ready (collabReceive P h c src d).1 := by
  have hok := hc.ok.receive P h src d
  rcases collabReceive_cases P h c src d with
    hq | ⟨type, b, e, signed, rfl, hdec, hk, hacc, ⟨_, hq⟩ | ⟨hroom, hst⟩⟩
  · exact hq.ready hc
  · obtain ⟨keys, hkeys⟩ := boundLedger_eq c e signed
    refine hq.ready ?_
    rw [hkeys]
    exact hc.congr rfl rfl rfl rfl
  · obtain ⟨hown, hlam⟩ := hd e (hacc.carried hdec) hk
    obtain ⟨keys, hkeys⟩ := boundLedger_eq c e signed
    rw [hst, hkeys] at hok ⊢
    refine ⟨hok, ?_, ?_⟩
    · refine storeSlot_forall (c := { c with keys := keys }) hc.ok.normal _
        (p := fun e => e.origin = c.self → e.seq ≤ c.seq) (fun _ _ h => h) hc.own ?_
      rw [recvSlot_e]
      exact hown
    · refine storeSlot_clockRoom (c := { c with keys := keys }) _ hc.clock ?_
      rw [recvSlot_e]
      exact hlam

theorem nodeStep_ready (P : Prim) (h : Host) (c : Ledger) (ev : NodeEvent) (hc : Ready c)
    (hev : Orderly c ev) : Ready (nodeStep P h c ev) := by
  cases ev with
  | emit type peer ref amount aux text => exact hc.emit P type peer ref amount aux text hev
  | receive src d => exact hc.receive P h src d hev
  | keysSet seed =>
    obtain ⟨_, _, _, _, heq⟩ := collabKeysSet_eq P c seed
    rw [nodeStep, heq]
    exact hc.congr rfl rfl rfl rfl

theorem ready_init (self : UInt32) : Ready (collabInit self) where
  ok := ok_init self
  own := fun _ hx => by cases hx
  clock := by simp [ClockRoom, collabInit]

/-- In every state a run reaches, a valid emission with room is in causal order exactly when no
stored own entry is ahead of the counter and the clock is not at its largest value. Both hold in
every state of a run whose steps are orderly. -/
theorem nodeRun_causal (P : Prim) (h : Host) (self : UInt32) (evs : List NodeEvent)
    (a : EmitArgs) (hv : a.Valid (nodeRun P h self evs))
    (hroom : (nodeRun P h self evs).slots.length < 96) : (CausalEmit P (nodeRun P h self evs) a ↔
        OwnInOrder (nodeRun P h self evs) ∧ ClockRoom (nodeRun P h self evs)) ∧
      (Along (nodeStep P h) Orderly (collabInit self) evs →
        CausalEmit P (nodeRun P h self evs) a) := by
  have hok := nodeRun_ok P h self evs
  have hiff : CausalEmit P (nodeRun P h self evs) a ↔
      OwnInOrder (nodeRun P h self evs) ∧ ClockRoom (nodeRun P h self evs) :=
    ⟨fun hcausal => hcausal.conditions hok,
      fun hcond => CausalEmit.of_conditions hok hv hroom hcond.1 hcond.2⟩
  refine ⟨hiff, fun halong => hiff.mpr ?_⟩
  have hready : Ready (nodeRun P h self evs) :=
    run_invariant (nodeStep_ready P h) (ready_init self) halong
  exact ⟨hready.own, hready.clock⟩

def joinMessage (origin seq lamport : UInt32) : List UInt8 :=
  1 :: collabEncode ⟨.join, origin, seq, lamport, 0, 0, 0, 0, Text.ofStr []⟩

def afterJoin (origin lamport : UInt32) : Ledger :=
  nodeRun Prim.permissive Host.nameless 5 [.receive 6 (joinMessage origin 1 lamport)]

def joinArgs : EmitArgs := ⟨1, 0, 0, 0, 0, []⟩

theorem nodeRun_causal_other : CausalEmit Prim.permissive (afterJoin 6 9) joinArgs :=
  (nodeRun_causal Prim.permissive Host.nameless 5 [.receive 6 (joinMessage 6 1 9)] joinArgs
    ⟨by decide, by decide +kernel, by decide⟩ (by decide +kernel)).2
    ⟨by decide +kernel, trivial⟩

/-- A node that gets its own entry back ahead of its counter cannot emit, and one that receives
the largest lamport emits an entry that comes first. -/
theorem afterJoin_not_causal : (joinArgs.Valid (afterJoin 5 1) ∧ (afterJoin 5 1).slots.length < 96 ∧
        (joinArgs.emit Prim.permissive (afterJoin 5 1)).1 = .notStored ∧
        ¬ CausalEmit Prim.permissive (afterJoin 5 1) joinArgs) ∧
      joinArgs.Valid (afterJoin 6 0xffffffff) ∧ (afterJoin 6 0xffffffff).slots.length < 96 ∧
        ¬ CausalEmit Prim.permissive (afterJoin 6 0xffffffff) joinArgs := by
  refine ⟨⟨⟨by decide, by decide +kernel, by decide⟩, by decide +kernel, by decide +kernel,
    fun hcausal => ?_⟩, ⟨by decide, by decide +kernel, by decide⟩, by decide +kernel,
    fun hcausal => ?_⟩
  · have hown := (hcausal.conditions (nodeRun_ok _ _ _ _)).1
    revert hown
    decide +kernel
  · have hclock := (hcausal.conditions (nodeRun_ok _ _ _ _)).2
    revert hclock
    decide +kernel

end Mohhdy.Collab
