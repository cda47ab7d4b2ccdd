import Mohhdy.Collab.Convergence

/-! Origin authentication on a node that signs: every stored entry of another node carries a
signature that verifies under the key bound to its origin.

A key is bound when the first entry of its origin is accepted. The table has eight places, and
an entry is stored even when there is none left for its key. -/
namespace Mohhdy.Collab
open Words Runs List
set_option autoImplicit false

variable {c : Ledger}

/-! ## Keys -/

theorem collabKeyOf_isSome {o : UInt32} : (collabKeyOf c o).isSome = true ↔ o ∈ c.keys.map Prod.fst := by
  simp [collabKeyOf]

theorem collabKeyOf_bindKey_of_some {o : UInt32} {pk : Block 128} (o' : UInt32)
    (pk' : Block 128) (hk : collabKeyOf c o = some pk) :
    collabKeyOf (bindKey c o' pk').2 o = some pk := by
  unfold bindKey
  split
  · exact hk
  split
  · exact hk
  obtain ⟨k, hfind, hkp⟩ := Option.map_eq_some_iff.mp hk
  rw [collabKeyOf, List.find?_append, hfind, Option.some_or, Option.map_some, hkp]

theorem collabKeyOf_bindKey_of_none {o : UInt32} (pk : Block 128)
    (hk : collabKeyOf c o = none) (hroom : c.keys.length < 8) :
    collabKeyOf (bindKey c o pk).2 o = some pk := by
  have hfind : c.keys.find? (fun k => k.1 = o) = none := Option.map_eq_none_iff.mp hk
  rw [bindKey, if_neg (by simp [hk]), if_neg (by omega), collabKeyOf, List.find?_append, hfind]
  simp

theorem bindKey_keys_nodup (o : UInt32) (pk : Block 128)
    (hn : (c.keys.map Prod.fst).Nodup) : ((bindKey c o pk).2.keys.map Prod.fst).Nodup := by
  unfold bindKey
  split
  · exact hn
  rename_i hnone
  split
  · exact hn
  rw [map_append, map_singleton]
  refine nodup_append.mpr ⟨hn, nodup_singleton o, ?_⟩
  intro x hx y hy hxy
  rw [mem_singleton.mp hy] at hxy
  rw [hxy] at hx
  exact hnone (collabKeyOf_isSome.mpr hx)

theorem collabKeyOf_rebind {o self : UInt32} (pk : Block 128) (ho : o ≠ self) :
    collabKeyOf { c with keys := c.keys.map fun k => if k.1 = self then (k.1, pk) else k } o =
      collabKeyOf c o := by
  unfold collabKeyOf
  induction c.keys with
  | nil => rfl
  | cons k ks ih =>
    rw [map_cons, List.find?_cons, List.find?_cons]
    by_cases hk : k.1 = self
    · have hne : ¬ k.1 = o := fun h => ho (h.symm.trans hk)
      simp only [if_pos hk, hne, decide_false]
      exact ih
    · simp only [if_neg hk]
      split
      · rfl
      · exact ih

/-! ## The property -/

variable (P : Prim) (h : Host)

/-- Each origin has one key, and a foreign entry verifies under the one of its origin. -/
def Authentic (c : Ledger) : Prop :=
  (c.keys.map Prod.fst).Nodup ∧ ∀ sl ∈ c.slots, sl.e.origin ≠ c.self →
    sl.hasSig = true ∧ ∃ pk, collabKeyOf c sl.e.origin = some pk ∧
      P.csigVerify pk (signInput sl.e sl.th) sl.sig = true

/-- The message carries an entry that will be stored, and no key can be bound for its origin. -/
def Unbindable (c : Ledger) : List UInt8 → Prop
  | [] => False
  | type :: b => c.keys.length = 8 ∧ c.slots.length < 96 ∧ ∃ e ∈ carried (type :: b),
      e.key ∉ c.keySet ∧ collabKeyOf c e.origin = none ∧ checksPass P c type b e = true

def KeyRoom (c : Ledger) : NodeEvent → Prop
  | .receive _ d => ¬ Unbindable P c d
  | _ => True

instance (c : Ledger) (d : List UInt8) : Decidable (Unbindable P c d) :=
  match d with
  | [] => .isFalse id
  | _ :: _ => inferInstanceAs (Decidable (_ ∧ _ ∧ ∃ e ∈ _, _))

instance (c : Ledger) (ev : NodeEvent) : Decidable (KeyRoom P c ev) :=
  match ev with
  | .receive _ d => inferInstanceAs (Decidable (¬ Unbindable P c d))
  | .emit .. => .isTrue trivial
  | .keysSet _ => .isTrue trivial

structure Signing (c : Ledger) : Prop where
  signing : c.signing = true
  own : (collabKeyOf c c.self).isSome = true
  room : c.keys.length ≤ 8

theorem redactOnStore_forall {p : Slot → Prop}
    (hp : ∀ sl t, p { sl with e := sl.e.withText t } = p sl) {e : Entry} {slots : List Slot}
    (hall : ∀ sl ∈ slots, p sl) : ∀ sl ∈ redactOnStore e slots, p sl := by
  have hmap := redactOnStore_map p hp e slots
  intro sl hsl
  have hmem : p sl ∈ slots.map p := hmap ▸ mem_map_of_mem hsl
  obtain ⟨sl', hsl', heq⟩ := mem_map.mp hmem
  exact heq ▸ hall sl' hsl'

theorem Authentic.storeSlot (hc : Authentic P c) {sl : Slot}
    (hsl : sl.e.origin ≠ c.self → sl.hasSig = true ∧ ∃ pk, collabKeyOf c sl.e.origin = some pk ∧
      P.csigVerify pk (signInput sl.e sl.th) sl.sig = true) : Authentic P (storeSlot c sl) := by
  refine ⟨hc.1, ?_⟩
  refine redactOnStore_forall (p := fun sl => sl.e.origin ≠ c.self → sl.hasSig = true ∧ ∃ pk,
    collabKeyOf c sl.e.origin = some pk ∧ P.csigVerify pk (signInput sl.e sl.th) sl.sig = true)
    (fun _ _ => rfl) ?_
  exact forall_mem_append.mpr ⟨hc.2, forall_mem_singleton.mpr hsl⟩

theorem Authentic.bind (hc : Authentic P c) (o : UInt32) (pk : Block 128) : Authentic P (bindKey c o pk).2 := by
  refine ⟨bindKey_keys_nodup o pk hc.1, ?_⟩
  intro sl hsl hself
  rw [bindKey_slots] at hsl
  obtain ⟨keys, heq⟩ := bindKey_eq c o pk
  have hs : (bindKey c o pk).2.self = c.self := by rw [heq]
  rw [hs] at hself
  obtain ⟨hsig, pk', hk, hv⟩ := hc.2 sl hsl hself
  exact ⟨hsig, pk', collabKeyOf_bindKey_of_some o pk hk, hv⟩

theorem Quiet.authentic {c' : Ledger} (hq : Quiet c c') (hc : Authentic P c) : Authentic P c' := by
  obtain ⟨_, _, _, rfl⟩ := hq
  exact hc

/-! ## Steps -/

theorem Signing.bound (hc : Signing c) (e : Entry) (signed : Option Signed) : Signing (boundLedger c e signed) := by
  cases signed with
  | none => exact hc
  | some s =>
    obtain ⟨keys, heq⟩ := boundLedger_eq c e (some s)
    obtain ⟨pk, hpk⟩ := Option.isSome_iff_exists.mp hc.own
    have hkept := collabKeyOf_bindKey_of_some e.origin s.pk hpk
    refine ⟨by rw [heq]; exact hc.signing, ?_, bindKey_room e.origin s.pk hc.room⟩
    have hself : (boundLedger c e (some s)).self = c.self := by rw [heq]
    rw [hself]
    exact Option.isSome_of_eq_some hkept

theorem collabKeysSet_signing (hc : Signing c) (seed : Block 32) :
    Signing (collabKeysSet P c seed).2 ∧ (Authentic P c → Authentic P (collabKeysSet P c seed).2) := by
  unfold collabKeysSet
  split
  · exact ⟨hc, id⟩
  rename_i sk pk _
  have hown : (collabKeyOf { c with sk := sk, pk := pk, signing := true } c.self).isSome = true :=
    hc.own
  rw [if_pos hown]
  have hfst : (c.keys.map fun k => if k.1 = c.self then (k.1, pk) else k).map Prod.fst =
      c.keys.map Prod.fst := by
    rw [map_map]
    refine map_congr_left fun k _ => ?_
    rw [Function.comp_apply]
    split <;> rfl
  refine ⟨⟨rfl, ?_, ?_⟩, ?_⟩
  · rw [collabKeyOf_isSome]
    rw [hfst]
    exact collabKeyOf_isSome.mp hc.own
  · dsimp only
    rw [length_map]
    exact hc.room
  · intro ha
    refine ⟨hfst ▸ ha.1, ?_⟩
    intro sl hsl hself
    obtain ⟨hsig, k, hk, hv⟩ := ha.2 sl hsl hself
    exact ⟨hsig, k, (collabKeyOf_rebind pk hself).trans hk, hv⟩

theorem nodeStep_signing (c : Ledger) (ev : NodeEvent) (hc : Signing c) : Signing (nodeStep P h c ev) :=
  nodeStep_keyRule (I := Signing) P h (fun _ _ _ _ _ _ _ hc => ⟨hc.signing, hc.own, hc.room⟩)
    (fun _ e signed hc => hc.bound e signed) (fun _ seed hc => (collabKeysSet_signing P hc seed).1) c ev hc

theorem Authentic.emit (ha : Authentic P c) (type : UInt8) (peer ref amount aux : UInt32) (text : List UInt8) :
    Authentic P (collabEmit P c type peer ref amount aux text).2.1 := by
  obtain ⟨hq, _⟩ | ⟨ty, _, _, _, _, _, heq⟩ := collabEmit_cases P c type peer ref amount aux text
  · exact hq.authentic P ha
  · rw [heq]
    refine Authentic.storeSlot P ha fun hself => ?_
    rw [emitSlot_e] at hself
    exact absurd rfl hself

theorem Authentic.receive (hc : Signing c) (ha : Authentic P c) (src : UInt32)
    {d : List UInt8} (hroom : ¬ Unbindable P c d) : Authentic P (collabReceive P h c src d).1 := by
  obtain hq | ⟨type, b, e, signed, rfl, hdec, hk, hacc, hstored⟩ := collabReceive_cases P h c src d
  · exact hq.authentic P ha
  · have hpass := checksPass_iff.mpr ⟨signed, hacc⟩
    have hcar := hacc.carried hdec
    cases hacc with
    | unsigned hs => exact absurd hc.signing (by simp [hs])
    | signed hlen hcheck =>
      obtain ⟨hv, hknown⟩ := checkSigned_none P hcheck
      have hbound := ha.bind P e.origin (signedPart P e b).pk
      obtain ⟨_, hq⟩ | ⟨hn, hst⟩ := hstored
      · exact hq.authentic P hbound
      · rw [hst]
        refine Authentic.storeSlot P hbound fun _ => ⟨rfl, (signedPart P e b).pk, ?_, hv⟩
        cases hkey : collabKeyOf c e.origin with
        | some pk =>
          rw [recvSlot_e, collabKeyOf_bindKey_of_some _ _ hkey, hknown pk hkey]
        | none =>
          rw [recvSlot_e]
          refine collabKeyOf_bindKey_of_none _ hkey ?_
          -- a full table is what the condition excludes
          by_contra hfull
          refine hroom ⟨?_, hn, e, hcar, hk, hkey, hpass⟩
          have := hc.room
          omega

theorem Unbindable.not_authentic {d : List UInt8} (hc : Signing c) (src : UInt32)
    (hd : Unbindable P c d) : ¬ Authentic P (collabReceive P h c src d).1 := by
  cases d with
  | nil => exact hd.elim
  | cons type b =>
    obtain ⟨hfull, hn, e, hcar, hk, hkey, hpass⟩ := hd
    obtain ⟨signed, hacc⟩ := checksPass_iff.mp hpass
    have hdec : collabDecode b = some e := by
      rw [Option.mem_def, carried] at hcar
      split at hcar
      · exact hcar
      · cases hcar
    have hst := collabReceive_eq P h src hdec hk hacc hn
    have hsame : boundLedger c e signed = c := by
      cases signed with
      | none => rfl
      | some s => rw [boundLedger, bindKey, if_neg (by simp [hkey]), if_pos (by omega)]
    rw [hst, hsame]
    intro ha
    have hmem : e.key ∈ (storeSlot c (recvSlot e signed)).keySet := by
      rw [storeSlot_keySet, recvSlot_e]
      exact mem_append_right _ (mem_singleton_self _)
    obtain ⟨sl, hsl, hslk⟩ := mem_map.mp hmem
    have horigin : sl.e.origin = e.origin := congrArg Prod.fst hslk
    have hself : sl.e.origin ≠ c.self := by
      intro hs
      have hown := hc.own
      rw [← hs, horigin, hkey] at hown
      cases hown
    obtain ⟨_, pk, hpk, _⟩ := ha.2 sl hsl hself
    change collabKeyOf c sl.e.origin = some pk at hpk
    rw [horigin, hkey] at hpk
    cases hpk

theorem nodeStep_authentic (c : Ledger) (ev : NodeEvent) (hc : Signing c) (ha : Authentic P c) :
    Authentic P (nodeStep P h c ev) ↔ KeyRoom P c ev := by
  cases ev with
  | emit type peer ref amount aux text =>
    exact iff_of_true (ha.emit P type peer ref amount aux text) trivial
  | receive src d =>
    exact ⟨fun hafter hd => hd.not_authentic P h hc src hafter,
      ha.receive P h hc src⟩
  | keysSet seed => exact iff_of_true ((collabKeysSet_signing P hc seed).2 ha) trivial

/-! ## Runs -/

def signingNode (self : UInt32) (seed : Block 32) : Ledger :=
  (collabKeysSet P (collabInit self) seed).2

/-- From a node that has set its key first, every state of a run is authentic exactly when no
step stores an entry whose key finds no place. -/
theorem signingNode_authentic_iff (self : UInt32) (seed : Block 32)
    (hset : (collabKeysSet P (collabInit self) seed).1 = true) (evs : List NodeEvent) :
    (∀ pre, pre <+: evs → Authentic P (run (nodeStep P h) (signingNode P self seed) pre)) ↔
      Along (nodeStep P h) (KeyRoom P) (signingNode P self seed) evs := by
  cases hpair : P.csigKeypair seed with
  | none =>
    rw [collabKeysSet, hpair] at hset
    cases hset
  | some pair =>
    have hnode : signingNode P self seed = { collabInit self with
        sk := pair.1, pk := pair.2, signing := true, keys := [(self, pair.2)] } := by
      rw [signingNode, collabKeysSet, hpair]
      rfl
    rw [hnode]
    refine run_prefix_iff (nodeStep_signing P h) (nodeStep_authentic P h) ⟨rfl, ?_, by simp⟩
      ⟨by simp, ?_⟩
    · simp [collabKeyOf, collabInit]
    · intro sl hsl
      cases hsl

def firstEntries (origins : List UInt32) : List NodeEvent :=
  origins.flatMap fun n =>
    (sends (collabEmit Prim.permissive (signingNode Prim.permissive n (Block.zero 32))
      1 0 0 0 0 []).2.2).map (.receive n ·)

def afterFirst (origins : List UInt32) : Ledger :=
  run (nodeStep Prim.permissive Host.nameless)
    (signingNode Prim.permissive 1 (Block.zero 32)) (firstEntries origins)

theorem signingNode_authentic_iff_seven : (afterFirst [2, 3, 4, 5, 6, 7, 8]).slots.length = 7 ∧
      ∀ pre, pre <+: firstEntries [2, 3, 4, 5, 6, 7, 8] →
        Authentic Prim.permissive (run (nodeStep Prim.permissive Host.nameless)
          (signingNode Prim.permissive 1 (Block.zero 32)) pre) := by
  refine ⟨by decide +kernel, ?_⟩
  refine (signingNode_authentic_iff Prim.permissive Host.nameless 1 (Block.zero 32) rfl _).mpr ?_
  decide +kernel

/-- The entry of an eighth foreign origin is stored, and no key is bound for it. -/
theorem afterFirst_not_authentic : (collabKeysSet Prim.permissive (collabInit 1) (Block.zero 32)).1 = true ∧
      (∃ sl ∈ (afterFirst [2, 3, 4, 5, 6, 7, 8, 9]).slots, sl.e.origin = 9) ∧
      collabKeyOf (afterFirst [2, 3, 4, 5, 6, 7, 8, 9]) 9 = none ∧
      ¬ Authentic Prim.permissive (afterFirst [2, 3, 4, 5, 6, 7, 8, 9]) := by
  have hstored : ∃ sl ∈ (afterFirst [2, 3, 4, 5, 6, 7, 8, 9]).slots, sl.e.origin = 9 := by
    decide +kernel
  have hkey : collabKeyOf (afterFirst [2, 3, 4, 5, 6, 7, 8, 9]) 9 = none := by decide +kernel
  have hself : (afterFirst [2, 3, 4, 5, 6, 7, 8, 9]).self = 1 := by decide +kernel
  refine ⟨rfl, hstored, hkey, fun ha => ?_⟩
  obtain ⟨sl, hsl, horigin⟩ := hstored
  obtain ⟨_, pk, hpk, _⟩ := ha.2 sl hsl (by rw [horigin, hself]; decide)
  rw [horigin, hkey] at hpk
  cases hpk

end Mohhdy.Collab
