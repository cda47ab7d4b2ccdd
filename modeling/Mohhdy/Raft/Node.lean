import Mathlib.Tactic

/-! The Raft state of a node (`p2p_raft_state_t` and the `raft_` fields of its peers) and the
functions of `p2p.c` on it.

The node is one of a fixed set that has keyed all the others, so every slot of its peer table in
use stands for one of them. The array `log` with its counter `log_count` is the list of entries
after `snapshot_index`; the table `kv` is the list of its used slots. Numbers are 32-bit: `u32`
and `sub32` stand where a value could wrap. The cache lines that `raft_apply` also writes, and
counters that are only reported, are left out. -/
namespace Mohhdy.Raft
set_option autoImplicit false

def u32 (n : ℕ) : ℕ := n % 2 ^ 32

def sub32 (a b : ℕ) : ℕ := (a + 2 ^ 32 - b) % 2 ^ 32

/-- `p2p_raft_role_t`. -/
inductive Role where
  | follower | candidate | leader | preCandidate
deriving DecidableEq, Repr

/-- `p2p_raft_entry_t`. -/
structure LogEntry where
  term : ℕ
  (key value : List UInt8)
deriving DecidableEq, Repr

/-- `p2p_item_t`. -/
structure Item where
  (key value : List UInt8)
  (version origin : ℕ)
deriving DecidableEq, Repr

/-- What `p2p_peer_t` has for Raft. -/
structure Peer where
  id : ℕ
  up : Bool
  (next matched commitSent txKey txTick snapGen snapOff : ℕ)
deriving DecidableEq, Repr

def Peer.new (id : ℕ) : Peer := ⟨id, true, 0, 0, 0, 0, 0, 0, 0⟩

structure Node where
  id : ℕ
  active : Bool
  role : Role
  (term votedFor leaderId votesGranted electionTick heartbeatTick : ℕ)
  log : List LogEntry
  (commitIndex lastApplied snapshotIndex snapshotTerm leaseUntil : ℕ)
  (snapKv snapIn : List Item)
  snapInIndex : ℕ
  kv : List Item
  peers : List Peer
deriving DecidableEq, Repr

def Node.init (id : ℕ) (peers : List ℕ) : Node where
  id := id
  active := false
  role := .follower
  term := 1
  votedFor := 0
  leaderId := 0
  votesGranted := 0
  electionTick := 0
  heartbeatTick := 0
  log := []
  commitIndex := 0
  lastApplied := 0
  snapshotIndex := 0
  snapshotTerm := 0
  leaseUntil := 0
  snapKv := []
  snapIn := []
  snapInIndex := 0
  kv := []
  peers := peers.map Peer.new

/-- The Raft messages. Terms, ids and indices are as the sender wrote them; the items of a
snapshot are those of one datagram. -/
inductive Msg where
  | prevoteReq (term cand lastIdx lastTerm : ℕ)
  | prevoteResp (granted : Bool) (term : ℕ)
  | voteReq (term cand lastIdx lastTerm : ℕ)
  | voteResp (granted : Bool) (term : ℕ)
  | heartbeat (term leader : ℕ)
  | append (term leader prevI prevT lcommit eindex : ℕ) (e : LogEntry)
  | appendResp (term : ℕ) (ok : Bool) (matched : ℕ)
  | snapshot (term leader snapI snapT : ℕ) (last : Bool) (off : ℕ) (items : List Item)
  | snapshotResp (term : ℕ) (ok : Bool) (matched off : ℕ)
deriving DecidableEq, Repr

inductive Mark where
  | voted (term cand : ℕ)
  | elected (term : ℕ)
  | committed (term index : ℕ) (e : LogEntry)
  | applied (index : ℕ) (key value : List UInt8)
deriving DecidableEq, Repr

structure Env where
  now : ℕ
  ok : ℕ → Msg → Bool

/-- The result of a call: the node, the messages with the peers they are for, and the marks. -/
structure Act where
  node : Node
  sent : List (ℕ × Msg)
  marks : List Mark

variable (env : Env) (n : Node)

def Act.pure : Act := ⟨n, [], []⟩

@[simp] theorem Act.pure_sent : (Act.pure n).sent = [] := rfl

@[simp] theorem Act.pure_marks : (Act.pure n).marks = [] := rfl

def Act.andThen (a : Act) (f : Node → Act) : Act :=
  let b := f a.node
  ⟨b.node, a.sent ++ b.sent, a.marks ++ b.marks⟩

/-! ## The log -/

def Node.logCount : ℕ := n.snapshotIndex + n.log.length

def raftLogSlot (index : ℕ) : Option ℕ :=
  if index = 0 ∨ index ≤ n.snapshotIndex then none
  else if index - n.snapshotIndex - 1 ≥ 16 then none
  else some (index - n.snapshotIndex - 1)

def raftLogAt (index : ℕ) : Option LogEntry :=
  if index > n.logCount then none
  else (raftLogSlot n index).bind fun slot => n.log[slot]?

def raftLastTerm : ℕ :=
  if n.logCount = 0 then 0
  else if n.logCount ≤ n.snapshotIndex then n.snapshotTerm
  else if n.logCount - n.snapshotIndex - 1 ≥ 16 then 0
  else (n.log[n.logCount - n.snapshotIndex - 1]?.map LogEntry.term).getD 0

def raftPrevOk (prevI prevT : ℕ) : Bool :=
  if prevI > n.logCount ∨ prevI < n.snapshotIndex then false
  else if prevI = 0 then prevT = 0
  else if prevI = n.snapshotIndex then prevT = n.snapshotTerm
  else if prevI - n.snapshotIndex - 1 ≥ 16 then false
  else (n.log[prevI - n.snapshotIndex - 1]?.map LogEntry.term).getD 0 = prevT

def logOk (lastIdx lastTerm : ℕ) : Bool :=
  !(lastTerm < raftLastTerm n || (lastTerm = raftLastTerm n && lastIdx < n.logCount))

def raftMajority : ℕ := (1 + n.peers.length) / 2 + 1

def raftStepDown (term : ℕ) : Node :=
  { n with term := term, role := .follower, votedFor := 0, leaderId := 0 }

def raftNoteLease : Node := { n with leaseUntil := u32 (env.now + 1000) }

def raftLeaseValid : Bool := n.leaseUntil ≠ 0 ∧ env.now < n.leaseUntil

/-- `kv_apply`: the higher version wins, then the higher origin; a new key needs a free slot. -/
def kvApply (kv : List Item) (it : Item) : List Item :=
  if kv.any (·.key = it.key) then
    kv.map fun old =>
      if old.key = it.key ∧ ¬ (it.version < old.version ∨
        (it.version = old.version ∧ it.origin ≤ old.origin)) then it else old
  else if kv.length < 16 then kv ++ [it] else kv

def applyLoop : ℕ → Node → Act
  | 0, n => Act.pure n
  | fuel + 1, n =>
    if n.lastApplied < n.commitIndex ∧ n.lastApplied < n.logCount then
      let n := { n with lastApplied := n.lastApplied + 1 }
      if n.lastApplied ≤ n.snapshotIndex then applyLoop fuel n
      else match raftLogAt n n.lastApplied with
        | none => Act.pure n
        | some e =>
          Act.andThen
            ⟨{ n with kv := kvApply n.kv ⟨e.key, e.value, n.lastApplied, n.id⟩ }, [],
              [.applied n.lastApplied e.key e.value]⟩
            (applyLoop fuel)
    else Act.pure n

def raftApply : Act := applyLoop (n.commitIndex - n.lastApplied) n

/-! ## Sending -/

def forPeers (f : Peer → Peer × List Msg) : Act where
  node := { n with peers := n.peers.map fun p => (f p).1 }
  sent := n.peers.flatMap fun p => (f p).2.map fun m => (p.id, m)
  marks := []

def sealSend (dst : ℕ) (m : Msg) : List Msg := if env.ok dst m then [m] else []

def fitItems : ℕ → List Item → List Item
  | _, [] => []
  | pos, it :: items =>
    let np := pos + 1 + it.key.length + 1 + it.value.length + 8
    if np > 360 then [] else it :: fitItems np items

def raftSendSnapshot (p : Peer) : Peer × List Msg :=
  let p := if p.snapGen ≠ n.snapshotIndex then
    { p with snapGen := n.snapshotIndex, snapOff := 0 } else p
  let off := if p.snapOff > n.snapKv.length then 0 else p.snapOff
  let items := fitItems 19 ((n.snapKv.drop off).take 4)
  let last := decide (off + items.length ≥ n.snapKv.length)
  (p, sealSend env p.id (.snapshot n.term n.id n.snapshotIndex n.snapshotTerm last off items))

def prevTerm (prevI : ℕ) : ℕ :=
  if prevI = 0 then 0
  else if prevI = n.snapshotIndex then n.snapshotTerm
  else ((raftLogAt n prevI).map LogEntry.term).getD 0

def raftSendOne (p : Peer) : Peer × List Msg :=
  if !p.up then (p, [])
  else if n.snapshotIndex > 0 ∧ p.matched < n.snapshotIndex then raftSendSnapshot env n p
  else
    let p := if p.next = 0 ∨ p.next ≤ n.snapshotIndex then
      { p with next := u32 (n.snapshotIndex + 1) } else p
    if p.next > n.logCount ∨ p.next = 0 then (p, [])
    else match raftLogAt n p.next with
      | none => (p, [])
      | some e =>
        let m := Msg.append n.term n.id (p.next - 1) (prevTerm n (p.next - 1)) n.commitIndex p.next e
        if env.ok p.id m then ({ p with commitSent := n.commitIndex }, [m]) else (p, [])

def raftReplicate : Act :=
  if !n.active ∨ n.role ≠ .leader then Act.pure n
  else forPeers n fun p =>
    if !p.up then (p, [])
    else
      let key := if n.snapshotIndex > 0 ∧ p.matched < n.snapshotIndex then
        0x80000000 ||| n.snapshotIndex else p.next
      if key = p.txKey ∧ p.commitSent = n.commitIndex ∧ sub32 env.now p.txTick < 25 then (p, [])
      else raftSendOne env n { p with txKey := key, txTick := env.now }

def broadcast (m : Msg) : Act :=
  forPeers n fun p => (p, if p.up then sealSend env p.id m else [])

def reply (src : ℕ) (m : Msg) (n : Node) : Act :=
  ⟨n, (sealSend env src m).map fun m => (src, m), []⟩

end Mohhdy.Raft
