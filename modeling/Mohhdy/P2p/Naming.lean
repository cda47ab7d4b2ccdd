import Mohhdy.P2p.Store

/-! A key, a version and an origin name one value.

Every node takes the versions it issues from its own table: a put at once, a proposal when it
starts, for an item that exists only when it commits. While a proposal waits, the table may still
stand at the version before it; a put of the same key would then issue the pair a second time. -/
namespace Mohhdy.Store
set_option autoImplicit false

open Raft (Item kvApply u32 sub32)
open LastWriter Runs List

variable {it : Item}

abbrev Names := Bytes → ℕ → ℕ → Option Bytes

def Names.assign (val : Names) (it : Item) : Names := fun k v o =>
  if k = it.key ∧ v = it.version ∧ o = it.origin then some it.value else val k v o

def Named (keys : Finset Bytes) (val : Names) (it : Item) : Prop :=
  val it.key it.version it.origin = some it.value ∧ it.key ∈ keys

/-- The step keeps names apart: no put that is not refused takes the version a waiting proposal of
the node holds for the same key, and no version wraps. -/
def VersionKept (w : World) : Event → Prop
  | .put v env key value => ¬ refusesPut env (w.node v) key value →
    (∀ it ∈ p2pGetLocal (w.node v).kv key, it.version + 1 < 2 ^ 32) ∧
      ¬ ((w.node v).prop.active ∧ (w.node v).prop.key = key ∧
        (w.node v).prop.version = nextVersion (w.node v).kv key)
  | .propose v env key value => ¬ refusesProposal env (w.node v) key value →
    ∀ it ∈ p2pGetLocal (w.node v).kv key, it.version + 1 < 2 ^ 32
  | .tick _ _ _ | .sync _ _ => True

structure NodeInv (keys : Finset Bytes) (val : Names) (v : ℕ) (n : Replica) : Prop where
  id : n.id = v
  nodup : (n.kv.map (·.key)).Nodup
  named : ∀ it ∈ n.kv, Named keys val it
  -- what the node has issued is not above what its table holds
  own : ∀ k ver x, val k ver v = some x →
    ((toLex (ver, v) : ℕ ×ₗ ℕ) : WithBot (ℕ ×ₗ ℕ)) ≤ rank stamp (p2pGetLocal n.kv k)
  pending : n.prop.active = true → val n.prop.key n.prop.version v = none ∧ n.prop.key ∈ keys ∧
    n.prop.commitResends = 0
  committed : n.prop.active = false → n.prop.commitResends ≠ 0 → Named keys val (n.prop.item v)

def Inv (keys : Finset Bytes) (w : World) : Prop :=
  ∃ val : Names, (∀ v, NodeInv keys val v (w.node v)) ∧
    ∀ p ∈ w.sent, ∀ it ∈ p.msg.items, Named keys val it

section Node
variable {keys : Finset Bytes} {val : Names} {v : ℕ} {n : Replica}

theorem NodeInv.keyed (h : NodeInv keys val v n) : Keyed keys n.kv :=
  ⟨h.nodup, fun it hit => (h.named it hit).2⟩

theorem NodeInv.init (keys : Finset Bytes) (v : ℕ) :
    NodeInv keys (fun _ _ _ => none) v ⟨v, [], Proposal.zero⟩ where
  id := rfl
  nodup := nodup_nil
  named := by simp
  own := by simp
  pending := by simp [Proposal.zero]
  committed := by simp [Proposal.zero]

theorem NodeInv.setProp (h : NodeInv keys val v n) {pr : Proposal}
    (hp : pr.active = true → val pr.key pr.version v = none ∧ pr.key ∈ keys ∧ pr.commitResends = 0)
    (hc : pr.active = false → pr.commitResends ≠ 0 → Named keys val (pr.item v)) :
    NodeInv keys val v { n with prop := pr } where
  __ := h
  pending := hp
  committed := hc

theorem NodeInv.apply (hkeys : keys.card ≤ 16) (h : NodeInv keys val v n)
    (hit : Named keys val it) : NodeInv keys val v { n with kv := kvApply n.kv it } where
  __ := h
  nodup := (h.keyed.kvApply hit.2).nodup
  named := by
    intro x hx
    rcases kvApply_mem hx with rfl | hx
    · exact hit
    · exact h.named x hx
  own k ver x hx := (h.own k ver x hx).trans (rank_le_kvApply h.keyed hkeys hit.2 k)

theorem NodeInv.applyAll (hkeys : keys.card ≤ 16) {items : List Item} (h : NodeInv keys val v n)
    (hit : ∀ it ∈ items, Named keys val it) :
    NodeInv keys val v { n with kv := items.foldl kvApply n.kv } :=
  List.foldlRecOn (motive := fun kv => NodeInv keys val v { n with kv := kv }) _ _ h
    fun _ hkv it hmem => hkv.apply hkeys (hit it hmem)

def Fresh (val : Names) (it : Item) : Prop := val it.key it.version it.origin = none

theorem Named.assign {x : Item} (hx : Named keys val x) (hf : Fresh val it) :
    Named keys (val.assign it) x := by
  refine ⟨?_, hx.2⟩
  by_cases heq : x.key = it.key ∧ x.version = it.version ∧ x.origin = it.origin
  · obtain ⟨h1, h2, h3⟩ := heq
    have := hx.1
    rw [h1, h2, h3, hf] at this
    exact absurd this (by simp)
  · simp [Names.assign, heq, hx.1]

theorem named_assign_self (hk : it.key ∈ keys) : Named keys (val.assign it) it :=
  ⟨by simp [Names.assign], hk⟩

theorem NodeInv.assign_other (h : NodeInv keys val v n) (hv : it.origin ≠ v)
    (hf : Fresh val it) : NodeInv keys (val.assign it) v n where
  __ := h
  named x hx := (h.named x hx).assign hf
  own k ver x hx := by
    rw [Names.assign, if_neg (fun hc => hv hc.2.2.symm)] at hx
    exact h.own k ver x hx
  pending hp := by
    rw [Names.assign, if_neg (fun hc => hv hc.2.2.symm)]
    exact h.pending hp
  committed hp hc := (h.committed hp hc).assign hf

theorem NodeInv.assign_own (hkeys : keys.card ≤ 16) (h : NodeInv keys val v n)
    (hv : it.origin = v) (hk : it.key ∈ keys) (hf : Fresh val it)
    (hp : n.prop.active = true → ¬ (n.prop.key = it.key ∧ n.prop.version = it.version)) :
    NodeInv keys (val.assign it) v { n with kv := kvApply n.kv it } where
  id := h.id
  nodup := (h.keyed.kvApply hk).nodup
  named := by
    intro x hx
    rcases kvApply_mem hx with rfl | hx
    · exact named_assign_self hk
    · exact (h.named x hx).assign hf
  own k ver x hx := by
    by_cases heq : k = it.key ∧ ver = it.version ∧ v = it.origin
    · obtain ⟨rfl, rfl, hvo⟩ := heq
      rw [hvo]
      exact stamp_le_kvApply h.keyed hkeys hk
    · rw [Names.assign, if_neg heq] at hx
      exact (h.own k ver x hx).trans (rank_le_kvApply h.keyed hkeys hk k)
  pending hact := by
    rw [Names.assign, if_neg fun hc => hp hact ⟨hc.1, hc.2.1⟩]
    exact h.pending hact
  committed hact hc := (h.committed hact hc).assign hf

theorem NodeInv.nextVersion_fresh (h : NodeInv keys val v n) {key : Bytes}
    (hwrap : ∀ it ∈ p2pGetLocal n.kv key, it.version + 1 < 2 ^ 32) :
    val key (nextVersion n.kv key) v = none := by
  by_contra hne
  obtain ⟨x, hx⟩ := Option.ne_none_iff_exists'.mp hne
  have hle := h.own _ _ _ hx
  cases hget : p2pGetLocal n.kv key with
  | none => simp [hget] at hle
  | some old =>
    have hver : nextVersion n.kv key = old.version + 1 := by
      simp only [nextVersion, hget, Option.elim_some, u32]
      exact Nat.mod_eq_of_lt (hwrap old hget)
    rw [hget, rank_some, WithBot.coe_le_coe, hver, stamp, Prod.Lex.toLex_le_toLex] at hle
    omega

end Node

/-! ## One step -/

section Step
variable {keys : Finset Bytes} {w : World}

theorem Inv.act_of {val : Names} {v : ℕ} {out : Out} (hnode : ∀ u, u ≠ v → NodeInv keys val u (w.node u))
    (hsent : ∀ p ∈ w.sent, ∀ it ∈ p.msg.items, Named keys val it) (hn : NodeInv keys val v out.1)
    (hout : ∀ m ∈ out.2, ∀ it ∈ m.2.items, Named keys val it) : Inv keys (w.act v out) := by
  refine ⟨val, fun u => ?_, forall_mem_append.mpr ⟨hsent, forall_mem_map.mpr hout⟩⟩
  by_cases hu : u = v
  · subst hu
    simpa [World.act] using hn
  · simpa [World.act, hu] using hnode u hu

section
variable {val : Names} (hnode : ∀ v, NodeInv keys val v (w.node v))
  (hsent : ∀ p ∈ w.sent, ∀ it ∈ p.msg.items, Named keys val it)
include hnode hsent

theorem Inv.act (v : ℕ) {out : Out} (hn : NodeInv keys val v out.1)
    (hout : ∀ m ∈ out.2, ∀ it ∈ m.2.items, Named keys val it) : Inv keys (w.act v out) :=
  Inv.act_of (fun u _ => hnode u) hsent hn hout

theorem Inv.act_assign {v : ℕ} (hv : it.origin = v) (hf : Fresh val it) {out : Out}
    (hn : NodeInv keys (val.assign it) v out.1)
    (hout : ∀ m ∈ out.2, ∀ x ∈ m.2.items, Named keys (val.assign it) x) : Inv keys (w.act v out) :=
  Inv.act_of (fun u hu => (hnode u).assign_other (fun ho => hu (ho.symm.trans hv)) hf)
    (fun p hp x hx => (hsent p hp x hx).assign hf) hn hout

end

theorem forall_cast {P : Item → Prop} {dsts : List ℕ} {m : Msg} (h : ∀ it ∈ m.items, P it) :
    ∀ out ∈ cast dsts m, ∀ it ∈ out.2.items, P it :=
  forall_mem_map.mpr fun _ _ => h

theorem Inv.put (hkeys : keys.card ≤ 16) (h : Inv keys w) {v : ℕ} {env : Env} {key value : Bytes}
    (hk : key ∈ keys) (hc : VersionKept w (.put v env key value)) :
    Inv keys (step w (.put v env key value)) := by
  obtain ⟨val, hnode, hsent⟩ := h
  simp only [step, p2pPut]
  split
  · exact Inv.act hnode hsent v (hnode v) (by simp)
  rename_i haccepted
  have hc := hc haccepted
  have hfresh : Fresh val ⟨key, value, nextVersion (w.node v).kv key, (w.node v).id⟩ := by
    rw [Fresh, (hnode v).id]
    exact (hnode v).nextVersion_fresh hc.1
  refine Inv.act_assign hnode hsent (hnode v).id hfresh ?_ ?_
  · refine (hnode v).assign_own hkeys (hnode v).id hk hfresh ?_
    exact fun hact heq => hc.2 ⟨hact, heq⟩
  · exact forall_cast (forall_mem_singleton.mpr (named_assign_self hk))

theorem Inv.propose (h : Inv keys w) {v : ℕ} {env : Env} {key value : Bytes}
    (hk : key ∈ keys) (hc : VersionKept w (.propose v env key value)) :
    Inv keys (step w (.propose v env key value)) := by
  obtain ⟨val, hnode, hsent⟩ := h
  simp only [step, p2pPropose]
  split
  · exact Inv.act hnode hsent v (hnode v) (by simp)
  rename_i haccepted
  refine Inv.act hnode hsent v ?_ ?_
  · refine (hnode v).setProp ?_ ?_
    · exact fun _ => ⟨(hnode v).nextVersion_fresh (hc haccepted), hk, rfl⟩
    · simp
  · exact forall_cast (by simp [Msg.items])

theorem Inv.commitProposal (hkeys : keys.card ≤ 16) (h : Inv keys w) {v : ℕ} {env : Env}
    (hact : (w.node v).prop.active = true) :
    Inv keys (w.act v (commitProposal env (w.node v))) := by
  obtain ⟨val, hnode, hsent⟩ := h
  obtain ⟨hfresh, hk, -⟩ := (hnode v).pending hact
  have hid := (hnode v).id
  have hfresh : Fresh val ((w.node v).prop.item (w.node v).id) := by rwa [Fresh, hid]
  refine Inv.act_assign hnode hsent hid hfresh ?_ ?_
  · -- close the proposal first, so that its name is free to be issued
    have hclosed : NodeInv keys val v { w.node v with
        prop := { (w.node v).prop with active := false, commitResends := 0 } } :=
      (hnode v).setProp (by simp) (by simp)
    have hkv := hclosed.assign_own hkeys hid hk hfresh (by simp)
    have hitem : (w.node v).prop.item (w.node v).id = (w.node v).prop.item v := by rw [hid]
    exact hkv.setProp (by simp) fun _ _ => hitem ▸ named_assign_self hk
  · exact forall_cast (forall_mem_singleton.mpr (named_assign_self hk))

theorem Inv.tick (hkeys : keys.card ≤ 16) (h : Inv keys w) (v : ℕ) (env : Env) :
    Inv keys (w.act v (tick env (w.node v))) := by
  unfold Store.tick
  by_cases hact : (w.node v).prop.active = true
  · simp only [hact, Bool.true_eq_false, if_false]
    split
    · exact h.commitProposal hkeys hact
    obtain ⟨val, hnode, hsent⟩ := h
    have hpend := (hnode v).pending hact
    -- a proposal that is given up has no commit to repeat
    have hgive : NodeInv keys val v { w.node v with
        prop := { (w.node v).prop with active := false } } :=
      (hnode v).setProp (by simp) fun _ hc => absurd hpend.2.2 hc
    split
    · exact Inv.act hnode hsent v hgive (by simp)
    split
    · exact Inv.act hnode hsent v hgive (by simp)
    split
    · refine Inv.act hnode hsent v ((hnode v).setProp (fun _ => hpend) ?_) (forall_cast (by simp [Msg.items]))
      intro hfalse
      simp at hfalse
    · exact Inv.act hnode hsent v (hnode v) (by simp)
  · have hact : (w.node v).prop.active = false := by simpa using hact
    obtain ⟨val, hnode, hsent⟩ := h
    rw [if_pos hact]
    split
    · rename_i hc
      have hnamed := (hnode v).committed hact hc.1
      have hitem : (w.node v).prop.item (w.node v).id = (w.node v).prop.item v := by rw [(hnode v).id]
      exact Inv.act hnode hsent v ((hnode v).setProp (by simp [hact]) fun _ _ => hnamed)
        (forall_cast (forall_mem_singleton.mpr (hitem ▸ hnamed)))
    · exact Inv.act hnode hsent v (hnode v) (by simp)

theorem packItems_flatten (items cur : List Item) (pos : ℕ) :
    (packItems items cur pos).flatten = cur ++ items := by
  induction items generalizing cur pos with
  | nil => simp [packItems]
  | cons it items ih =>
    rw [packItems]
    split
    · simp [ih]
    · simp [ih]

theorem mem_sendItemsNewer {kv : List Item} {theirs : List Mark} :
    (∃ m ∈ sendItemsNewer kv theirs, it ∈ m.items) ↔ it ∈ kv ∧ newer theirs it = true := by
  have hflat := packItems_flatten (kv.filter (newer theirs)) [] 1
  rw [nil_append] at hflat
  rw [← mem_filter, ← hflat, mem_flatten]
  simp [sendItemsNewer, Msg.items]

theorem mem_syncReply {kv : List Item} {reply : Bool} {theirs : List Mark} {m : Msg}
    (hm : m ∈ syncReply kv reply theirs) (hit : it ∈ m.items) : it ∈ kv := by
  unfold syncReply at hm
  split at hm
  · simp at hm
  rcases mem_append.mp hm with hm | hm
  · exact (mem_sendItemsNewer.mp ⟨m, hm, hit⟩).1
  · cases reply
    · obtain rfl : m = _ := by simpa using hm
      simp [Msg.items] at hit
    · simp at hm

theorem onVote_eq (pr : Proposal) (src round : ℕ) (yes : Bool) :
    ∃ y n vs, onVote pr src round yes = { pr with yes := y, no := n, voters := vs } := by
  unfold onVote
  split
  · exact ⟨pr.yes, pr.no, pr.voters, rfl⟩
  · exact ⟨_, _, _, rfl⟩

theorem Inv.receive (hkeys : keys.card ≤ 16) (h : Inv keys w) (v i : ℕ) :
    Inv keys (w.receive v i) := by
  unfold World.receive
  cases hget : w.sent[i]? with
  | none => exact h
  | some p =>
    rw [Option.elim_some]
    split
    swap
    · exact h
    obtain ⟨val, hnode, hsent⟩ := h
    have hitems := hsent p (mem_of_getElem? hget)
    have hn := hnode v
    cases hmsg : p.msg with
    | put it | commit it =>
      have hit : Named keys val it := hitems it (by simp [hmsg, Msg.items])
      exact Inv.act hnode hsent _ (hn.apply hkeys hit) (by simp [onMsg])
    | propose round it =>
      refine Inv.act hnode hsent _ hn ?_
      simp [onMsg, Msg.items]
    | vote round yes =>
      refine Inv.act hnode hsent _ ?_ (by simp [onMsg])
      obtain ⟨y, no, vs, heq⟩ := onVote_eq (w.node v).prop p.src round yes
      simp only [onMsg, heq]
      exact hn.setProp hn.pending hn.committed
    | syncReq reply theirs =>
      refine Inv.act hnode hsent _ hn ?_
      intro m hm x hx
      obtain ⟨m', hm', rfl⟩ := mem_map.mp hm
      exact hn.named x (mem_syncReply hm' hx)
    | syncItems items =>
      have hall : ∀ it ∈ items, Named keys val it := by
        intro it hit
        exact hitems it (by simpa [hmsg, Msg.items] using hit)
      exact Inv.act hnode hsent _ (hn.applyAll hkeys hall) (by simp [onMsg])

theorem Inv.p2pTick (hkeys : keys.card ≤ 16) (h : Inv keys w) (v : ℕ) (env : Env) (received : List ℕ) :
    Inv keys (w.p2pTick v env received) := by
  unfold World.p2pTick
  split
  · have hreceived : Inv keys (received.foldl (World.receive v) w) :=
      List.foldlRecOn _ _ h fun _ hw i _ => hw.receive hkeys v i
    exact hreceived.tick hkeys v env
  · exact h

end Step

theorem inv_run {keys : Finset Bytes} (hkeys : keys.card ≤ 16) {evs : List Event}
    (h : Along step (fun w e => VersionKept w e ∧ ∀ k ∈ e.key?, k ∈ keys) World.init evs) :
    Inv keys (run step World.init evs) := by
  have hstep : ∀ w e, Inv keys w → (VersionKept w e ∧ ∀ k ∈ e.key?, k ∈ keys) →
      Inv keys (step w e) := by
    intro w e hw hc
    cases e with
    | put v env key value => exact hw.put hkeys (hc.2 key rfl) hc.1
    | propose v env key value => exact hw.propose (hc.2 key rfl) hc.1
    | tick v env received => exact hw.p2pTick hkeys v env received
    | sync v env =>
      obtain ⟨val, hnode, hsent⟩ := hw
      exact Inv.act hnode hsent v (hnode v) (forall_cast (by simp [Msg.items]))
  exact run_invariant hstep ⟨_, NodeInv.init keys, by simp [World.init]⟩ h

end Mohhdy.Store
