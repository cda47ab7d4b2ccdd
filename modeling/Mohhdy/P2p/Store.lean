import Mohhdy.Foundations.LastWriter
import Mohhdy.Foundations.Runs
import Mohhdy.Raft.Node

/-! The replicated key-value table of a node: writes, proposals and digest exchanges.

`src/userspace/p2p.c`, the functions around `kv_apply`. A message is its fields; what a link does
with it, lose it, repeat it or delay it, is a choice of which messages of the world's pool a tick
receives, when and how often. What a call reads from the rest of the node (the clock, the peers a
send reaches) is its `Env`. -/
namespace Mohhdy.Store
set_option autoImplicit false

open Raft (Item kvApply u32 sub32)
open LastWriter List

variable {it : Item}

abbrev Bytes := List UInt8

/-- One entry of a digest: key, version, origin. -/
abbrev Mark := Bytes × ℕ × ℕ

inductive Msg where
  | put (it : Item)
  | commit (it : Item)
  | propose (round : ℕ) (it : Item)
  | vote (round : ℕ) (yes : Bool)
  | syncReq (reply : Bool) (theirs : List Mark)
  | syncItems (items : List Item)
deriving DecidableEq

def Msg.items : Msg → List Item
  | .put it | .commit it => [it]
  | .syncItems items => items
  | .propose _ _ | .vote _ _ | .syncReq _ _ => []

/-- `p2p_proposal_t`; `voters` lists the members counted in `yes + no`. -/
structure Proposal where
  active : Bool
  (round started : ℕ)
  (key value : Bytes)
  (version yes no needed members : ℕ)
  voters : List ℕ
  (lastTx commitResends : ℕ)
deriving DecidableEq

def Proposal.zero : Proposal := ⟨false, 0, 0, [], [], 0, 0, 0, 0, 0, [], 0, 0⟩

structure Replica where
  id : ℕ
  kv : List Item
  prop : Proposal
deriving DecidableEq

/-- `up`: the node runs; `msgId`: its frame counter; `peers`: the keyed peers that are up;
`relayed`: the keyed peers known through another; `upCount`: the peers that are up. -/
structure Env where
  up : Bool
  (now msgId : ℕ)
  (peers relayed : List ℕ)
  upCount : ℕ

abbrev Out := Replica × List (ℕ × Msg)

def cast (dsts : List ℕ) (m : Msg) : List (ℕ × Msg) := dsts.map fun d => (d, m)

/-! ## The table -/

def p2pGetLocal (kv : List Item) (key : Bytes) : Option Item := kv.find? (·.key = key)

def nextVersion (kv : List Item) (key : Bytes) : ℕ :=
  (p2pGetLocal kv key).elim 1 fun it => u32 (it.version + 1)

def full (kv : List Item) (key : Bytes) : Bool :=
  !kv.any (·.key = key) && decide (16 ≤ kv.length)

def writable (key value : Bytes) : Bool :=
  decide (key ≠ []) && decide (key.length < 20) && decide (value.length < 48)

variable (env : Env) (n : Replica)

def refusesPut (key value : Bytes) : Prop :=
  env.up = false ∨ writable key value = false ∨ full n.kv key = true

instance (key value : Bytes) : Decidable (refusesPut env n key value) := inferInstanceAs (Decidable (_ ∨ _))

def p2pPut (key value : Bytes) : Out :=
  if refusesPut env n key value then (n, [])
  else
    let it : Item := ⟨key, value, nextVersion n.kv key, n.id⟩
    ({ n with kv := kvApply n.kv it }, cast env.peers (.put it))

/-! ## Proposals -/

def Proposal.item (pr : Proposal) (id : ℕ) : Item := ⟨pr.key, pr.value, pr.version, id⟩

def proposeSend (onlyMissing : Bool) : List (ℕ × Msg) :=
  cast (env.peers.filter fun p => !(onlyMissing && n.prop.voters.contains p))
    (.propose n.prop.round (n.prop.item n.id))

def refusesProposal (key value : Bytes) : Prop :=
  env.up = false ∨ n.prop.active = true ∨ writable key value = false

instance (key value : Bytes) : Decidable (refusesProposal env n key value) := inferInstanceAs (Decidable (_ ∨ _))

def p2pPropose (key value : Bytes) : Out :=
  if refusesProposal env n key value then (n, [])
  else
    let n := { n with
      prop :=
        { Proposal.zero with
          active := true, round := u32 (env.msgId + 1), started := env.now, key, value,
          version := nextVersion n.kv key, members := env.upCount + 1,
          needed := (env.upCount + 1) / 2 + 1, yes := 1, voters := [n.id],
          lastTx := env.now } }
    (n, proposeSend env n false)

def commitResend : Out :=
  let pr := n.prop
  ({ n with prop := { pr with commitResends := pr.commitResends - 1, lastTx := env.now } },
    cast env.peers (.commit (pr.item n.id)))

def commitProposal : Out :=
  let pr := n.prop
  ({ n with
      kv := kvApply n.kv (pr.item n.id)
      prop := { pr with active := false, commitResends := 3, lastTx := env.now } },
    cast (env.peers ++ env.relayed) (.commit (pr.item n.id)))

/-- The part of `p2p_tick` about proposals: 1500 is `P2P_PROPOSE_TICKS` and 200
`P2P_PROPOSE_RESEND_TICKS`. -/
def tick : Out :=
  let pr := n.prop
  if pr.active = false then
    if pr.commitResends ≠ 0 ∧ 200 ≤ sub32 env.now pr.lastTx then commitResend env n else (n, [])
  else if pr.needed ≤ pr.yes then commitProposal env n
  else if sub32 pr.members pr.needed < pr.no then
    ({ n with prop := { pr with active := false } }, [])
  else if 1500 ≤ sub32 env.now pr.started then
    ({ n with prop := { pr with active := false } }, [])
  else if 200 ≤ sub32 env.now pr.lastTx then
    ({ n with prop := { pr with lastTx := env.now } }, proposeSend env n true)
  else (n, [])

def voteFor (kv : List Item) (it : Item) : Bool :=
  (p2pGetLocal kv it.key).elim true fun have_ =>
    decide (have_.version < it.version ∨ (it.version = have_.version ∧ have_.origin < it.origin))

/-- A vote that arrives; `voters` has room for `P2P_PEERS + 1`. -/
def onVote (pr : Proposal) (src round : ℕ) (yes : Bool) : Proposal :=
  if pr.active = false ∨ round ≠ pr.round ∨ pr.voters.contains src ∨ 7 ≤ pr.yes + pr.no then pr
  else
    { pr with
      voters := pr.voters ++ [src]
      yes := if yes then pr.yes + 1 else pr.yes
      no := if yes then pr.no else pr.no + 1 }

/-! ## Digests -/

def digest (kv : List Item) : List Mark := kv.map fun it => (it.key, it.version, it.origin)

def itemSize (it : Item) : ℕ := 1 + it.key.length + (1 + it.value.length) + 8

def newer (theirs : List Mark) (it : Item) : Bool :=
  !theirs.any fun t => decide (t.1 = it.key ∧
    (it.version < t.2.1 ∨ (t.2.1 = it.version ∧ it.origin ≤ t.2.2)))

/-- The loop of `send_items_newer` that fills one message after the other: `pos` bytes of the
current one are used, and 400 is its size. -/
def packItems : List Item → List Item → ℕ → List (List Item)
  | [], cur, _ => [cur]
  | it :: rest, cur, pos =>
    if pos + itemSize it ≤ 400 then packItems rest (cur ++ [it]) (pos + itemSize it)
    else cur :: packItems rest [it] (1 + itemSize it)

def sendItemsNewer (kv : List Item) (theirs : List Mark) : List Msg :=
  (packItems (kv.filter (newer theirs)) [] 1).map .syncItems

def syncReply (kv : List Item) (reply : Bool) (theirs : List Mark) : List Msg :=
  if 16 < theirs.length then []
  else sendItemsNewer kv theirs ++ if reply then [] else [.syncReq true (digest kv)]

def p2pSync : Out := (n, cast env.peers (.syncReq false (digest n.kv)))

def onMsg (src : ℕ) : Msg → Out
  | .put it | .commit it => ({ n with kv := kvApply n.kv it }, [])
  | .syncReq reply theirs => (n, (syncReply n.kv reply theirs).map fun m => (src, m))
  | .syncItems items => ({ n with kv := items.foldl kvApply n.kv }, [])
  | .propose round it => (n, [(src, .vote round (voteFor n.kv it))])
  | .vote round yes => ({ n with prop := onVote n.prop src round yes }, [])

/-! ## The nodes and the messages between them -/

structure Packet where
  (src dst : ℕ)
  msg : Msg

structure World where
  node : ℕ → Replica
  sent : List Packet

def World.init : World := ⟨fun v => ⟨v, [], Proposal.zero⟩, []⟩

def World.act (w : World) (v : ℕ) (out : Out) : World :=
  ⟨Function.update w.node v out.1, w.sent ++ out.2.map fun m => ⟨v, m.1, m.2⟩⟩

def World.receive (v : ℕ) (w : World) (i : ℕ) : World :=
  (w.sent[i]?).elim w fun p => if p.dst = v then w.act v (onMsg (w.node v) p.src p.msg) else w

/-- `p2p_tick`: what has arrived is handled before the proposal is looked at. -/
def World.p2pTick (w : World) (v : ℕ) (env : Env) (received : List ℕ) : World :=
  if env.up then
    let w := received.foldl (World.receive v) w
    w.act v (tick env (w.node v))
  else w

inductive Event where
  | put (v : ℕ) (env : Env) (key value : Bytes)
  | propose (v : ℕ) (env : Env) (key value : Bytes)
  | tick (v : ℕ) (env : Env) (received : List ℕ)
  | sync (v : ℕ) (env : Env)

def step (w : World) : Event → World
  | .put v env key value => w.act v (p2pPut env (w.node v) key value)
  | .propose v env key value => w.act v (p2pPropose env (w.node v) key value)
  | .tick v env received => w.p2pTick v env received
  | .sync v env => w.act v (p2pSync env (w.node v))

def Event.key? : Event → Option Bytes
  | .put _ _ key _ | .propose _ _ key _ => some key
  | .tick _ _ _ | .sync _ _ => none

/-! ## Reading the table -/

def stamp (it : Item) : ℕ ×ₗ ℕ := toLex (it.version, it.origin)

theorem stamp_lt {old : Item} : stamp old < stamp it ↔ ¬ (it.version < old.version ∨
      (it.version = old.version ∧ it.origin ≤ old.origin)) := by
  simp only [stamp, Prod.Lex.toLex_lt_toLex]
  omega

theorem stamp_le {v o : ℕ} :
    stamp it ≤ toLex (v, o) ↔ it.version < v ∨ (it.version = v ∧ it.origin ≤ o) :=
  Prod.Lex.toLex_le_toLex

structure Keyed (keys : Finset Bytes) (kv : List Item) : Prop where
  nodup : (kv.map (·.key)).Nodup
  mem : ∀ it ∈ kv, it.key ∈ keys

variable {kv items : List Item} {k : Bytes} {keys : Finset Bytes}

theorem p2pGetLocal_mem (h : p2pGetLocal kv k = some it) : it ∈ kv ∧ it.key = k :=
  ⟨mem_of_find?_eq_some h, by simpa using List.find?_some h⟩

theorem p2pGetLocal_eq_none : p2pGetLocal kv k = none ↔ ∀ it ∈ kv, it.key ≠ k := by
  simp [p2pGetLocal]

theorem any_key_iff :
    kv.any (fun it => decide (it.key = k)) = true ↔ (p2pGetLocal kv k).isSome := by
  simp [p2pGetLocal, List.find?_isSome]

theorem Keyed.length_lt (h : Keyed keys kv)
    (hkeys : keys.card ≤ 16) (hk : k ∈ keys) (hnone : p2pGetLocal kv k = none) :
    kv.length < 16 := by
  have hsub : (kv.map (·.key)).toFinset ⊆ keys.erase k := by
    intro x hx
    obtain ⟨it, hit, rfl⟩ := mem_map.mp (mem_toFinset.mp hx)
    exact Finset.mem_erase.mpr ⟨p2pGetLocal_eq_none.mp hnone it hit, h.mem it hit⟩
  have hcard := Finset.card_le_card hsub
  rw [toFinset_card_of_nodup h.nodup, length_map, Finset.card_erase_of_mem hk] at hcard
  omega

theorem p2pGetLocal_kvApply (h : Keyed keys kv)
    (hkeys : keys.card ≤ 16) (hit : it.key ∈ keys) (k : Bytes) : p2pGetLocal (kvApply kv it) k =
      if k = it.key then some (newest stamp (p2pGetLocal kv k) it) else p2pGetLocal kv k := by
  by_cases hany : (p2pGetLocal kv it.key).isSome
  · have hmap : p2pGetLocal (kvApply kv it) k = (p2pGetLocal kv k).map fun old =>
        if old.key = it.key ∧ stamp old < stamp it then it else old := by
      rw [kvApply, if_pos (any_key_iff.mpr hany)]
      simp only [← stamp_lt, p2pGetLocal, List.find?_map]
      congr 1
      congr 1
      funext old
      by_cases hold : old.key = it.key ∧ stamp old < stamp it <;> simp [hold]
    rw [hmap]
    split_ifs with hk
    · subst hk
      obtain ⟨old, hold⟩ := Option.isSome_iff_exists.mp hany
      simp [hold, newest, (p2pGetLocal_mem hold).2]
    · cases hget : p2pGetLocal kv k with
      | none => rfl
      | some old =>
        have hne : old.key ≠ it.key := (p2pGetLocal_mem hget).2 ▸ hk
        simp [hne]
  · have hnone : p2pGetLocal kv it.key = none := by simpa using hany
    have happ : kvApply kv it = kv ++ [it] := by
      rw [kvApply, if_neg (mt any_key_iff.mp hany), if_pos (h.length_lt hkeys hit hnone)]
    by_cases hk : k = it.key
    · subst hk
      rw [happ, if_pos rfl, hnone]
      simp only [p2pGetLocal] at hnone ⊢
      simp [List.find?_append, hnone, newest]
    · rw [happ, if_neg hk]
      simp [p2pGetLocal, List.find?_append, Ne.symm hk]

theorem kvApply_mem {x : Item} (hx : x ∈ kvApply kv it) : x = it ∨ x ∈ kv := by
  unfold kvApply at hx
  split at hx
  · obtain ⟨old, hold, rfl⟩ := mem_map.mp hx
    split
    · exact .inl rfl
    · exact .inr hold
  · split at hx
    · simpa [or_comm] using hx
    · exact .inr hx

theorem Keyed.kvApply (h : Keyed keys kv) (hit : it.key ∈ keys) : Keyed keys (kvApply kv it) := by
  constructor
  · unfold Raft.kvApply
    split
    · have hkeys : (kv.map fun old => if old.key = it.key ∧ ¬ (it.version < old.version ∨
          (it.version = old.version ∧ it.origin ≤ old.origin)) then it else old).map (·.key) =
          kv.map (·.key) := by
        rw [map_map]
        refine map_congr_left fun old _ => ?_
        by_cases hold : old.key = it.key ∧ ¬ (it.version < old.version ∨
          (it.version = old.version ∧ it.origin ≤ old.origin))
        · rw [Function.comp_apply, if_pos hold, hold.1]
        · rw [Function.comp_apply, if_neg hold]
      rw [hkeys]
      exact h.nodup
    · rename_i hany
      split
      · rw [map_append, nodup_append]
        refine ⟨h.nodup, nodup_singleton _, ?_⟩
        intro a ha b hb
        obtain ⟨old, hold, rfl⟩ := mem_map.mp ha
        obtain rfl : b = it.key := by simpa using hb
        intro heq
        exact hany (any_eq_true.mpr ⟨old, hold, by simpa using heq⟩)
      · exact h.nodup
  · intro x hx
    rcases kvApply_mem hx with rfl | hx
    · exact hit
    · exact h.mem x hx

theorem Keyed.foldl {items kv : List Item} (h : Keyed keys kv)
    (hit : ∀ it ∈ items, it.key ∈ keys) : Keyed keys (items.foldl Raft.kvApply kv) :=
  List.foldlRecOn _ _ h fun _ hkv it hmem => hkv.kvApply (hit it hmem)

section Rank
variable (h : Keyed keys kv) (hkeys : keys.card ≤ 16)
include h hkeys

theorem rank_kvApply (hit : it.key ∈ keys) (k : Bytes) :
    rank stamp (p2pGetLocal (kvApply kv it) k) =
      if k = it.key then max (rank stamp (p2pGetLocal kv k)) (stamp it)
      else rank stamp (p2pGetLocal kv k) := by
  rw [p2pGetLocal_kvApply h hkeys hit]
  split
  · exact rank_newest stamp _ _
  · rfl

theorem rank_le_kvApply (hit : it.key ∈ keys) (k : Bytes) :
    rank stamp (p2pGetLocal kv k) ≤ rank stamp (p2pGetLocal (kvApply kv it) k) := by
  rw [rank_kvApply h hkeys hit]
  split
  · exact le_max_left _ _
  · exact le_rfl

theorem stamp_le_kvApply (hit : it.key ∈ keys) :
    (stamp it : WithBot (ℕ ×ₗ ℕ)) ≤ rank stamp (p2pGetLocal (kvApply kv it) it.key) := by
  rw [rank_kvApply h hkeys hit, if_pos rfl]
  exact le_max_right _ _

end Rank

theorem rank_le_foldl (h : Keyed keys kv)
    (hkeys : keys.card ≤ 16) (hit : ∀ it ∈ items, it.key ∈ keys) (k : Bytes) :
    rank stamp (p2pGetLocal kv k) ≤ rank stamp (p2pGetLocal (items.foldl kvApply kv) k) := by
  induction items generalizing kv with
  | nil => exact le_rfl
  | cons x items ih =>
    have hx := hit x (by simp)
    exact (rank_le_kvApply h hkeys hx k).trans
      (ih (h.kvApply hx) fun y hy => hit y (mem_cons_of_mem _ hy))

theorem stamp_le_foldl (h : Keyed keys kv)
    (hkeys : keys.card ≤ 16) (hit : ∀ it ∈ items, it.key ∈ keys) (hmem : it ∈ items) :
    (stamp it : WithBot (ℕ ×ₗ ℕ)) ≤ rank stamp (p2pGetLocal (items.foldl kvApply kv) it.key) := by
  induction items generalizing kv with
  | nil => simp at hmem
  | cons x items ih =>
    have hx := hit x (by simp)
    have hrest : ∀ y ∈ items, y.key ∈ keys := fun y hy => hit y (mem_cons_of_mem _ hy)
    rcases mem_cons.mp hmem with rfl | hmem
    · exact (stamp_le_kvApply h hkeys hx).trans (rank_le_foldl (h.kvApply hx) hkeys hrest _)
    · exact ih (h.kvApply hx) hrest hmem

theorem foldl_kvApply_mem {x : Item} (hx : x ∈ items.foldl kvApply kv) : x ∈ items ∨ x ∈ kv := by
  induction items generalizing kv with
  | nil => exact .inr hx
  | cons it items ih =>
    rcases ih hx with h | h
    · exact .inl (mem_cons_of_mem _ h)
    · rcases kvApply_mem h with rfl | h
      · exact .inl (by simp)
      · exact .inr h

end Mohhdy.Store
