import Mohhdy.Raft.Node

/-! The Raft handlers of `on_sealed`, the calls of the shell, and the Raft part of `p2p_tick`. -/
namespace Mohhdy.Raft
set_option autoImplicit false

variable (env : Env)

/-! ## Elections -/

variable (n : Node)

def raftBecomeLeader : Act :=
  let n := raftNoteLease env { n with role := .leader, leaderId := n.id, heartbeatTick := 0 }
  let n := { n with peers := n.peers.map fun p =>
    { p with next := u32 (n.logCount + 1), txKey := 0, matched := 0 } }
  Act.andThen ⟨n, [], [.elected n.term]⟩ (raftReplicate env)

def raftStartElection : Act :=
  let n := { n with role := .candidate, term := u32 (n.term + 1), votedFor := n.id
                    votesGranted := 1, electionTick := env.now }
  Act.andThen ⟨n, [], [.voted n.term n.id]⟩ fun n =>
    broadcast env n (.voteReq n.term n.id n.logCount (raftLastTerm n))

/-- `p2p_raft_elect`: a follower that holds the leader's lease does not campaign. -/
def p2pRaftElect : Act :=
  if raftLeaseValid env n ∧ n.leaderId ≠ 0 ∧ n.role ≠ .leader then Act.pure n
  else
    let n := { n with active := true, role := .preCandidate, votesGranted := 1
                      electionTick := env.now }
    broadcast env n (.prevoteReq (u32 (n.term + 1)) n.id n.logCount (raftLastTerm n))

/-- `P2P_I_RAFT_PREVOTE_REQ`. -/
def onPrevoteReq (src term lastIdx lastTerm : ℕ) : Act :=
  let timerExpired := sub32 env.now n.electionTick ≥ 3000 ∨ n.role = .preCandidate ∨
    n.role = .candidate
  let grant := logOk n lastIdx lastTerm ∧ term > n.term ∧ n.role ≠ .leader ∧
    ¬ raftLeaseValid env n ∧ (n.leaderId = 0 ∨ timerExpired)
  reply env src (.prevoteResp grant n.term) n

/-- `P2P_I_RAFT_PREVOTE_RESP`. -/
def onPrevoteResp (granted : Bool) (term : ℕ) : Act :=
  if term > n.term then Act.pure (raftStepDown n term)
  else if n.role = .preCandidate ∧ term = n.term ∧ granted then
    let n := { n with votesGranted := u32 (n.votesGranted + 1) }
    if n.votesGranted ≥ raftMajority n then raftStartElection env n else Act.pure n
  else Act.pure n

def leaseRefuses (cand : ℕ) : Bool :=
  raftLeaseValid env n ∧ n.leaderId ≠ 0 ∧ cand ≠ n.leaderId

def giveVote (src term cand lastIdx lastTerm : ℕ) : Act :=
  if logOk n lastIdx lastTerm ∧ term = n.term ∧ (n.votedFor = 0 ∨ n.votedFor = cand) then
    Act.andThen ⟨{ n with votedFor := cand, electionTick := env.now }, [], [.voted term cand]⟩
      fun n => reply env src (.voteResp true n.term) n
  else reply env src (.voteResp false n.term) n

def takeTerm (term : ℕ) : Node := if term > n.term then raftStepDown n term else n

/-- `P2P_I_RAFT_VOTE_REQ`. -/
def onVoteReq (src term cand lastIdx lastTerm : ℕ) : Act :=
  if leaseRefuses env n cand then reply env src (.voteResp false n.term) n
  else giveVote env (takeTerm n term) src term cand lastIdx lastTerm

/-- `P2P_I_RAFT_VOTE_RESP`. -/
def onVoteResp (granted : Bool) (term : ℕ) : Act :=
  if term > n.term then Act.pure (raftStepDown n term)
  else if n.role = .candidate ∧ term = n.term ∧ granted then
    let n := { n with votesGranted := u32 (n.votesGranted + 1) }
    if n.votesGranted ≥ raftMajority n then raftBecomeLeader env n else Act.pure n
  else Act.pure n

/-- `P2P_I_RAFT_HEARTBEAT`: the vote of the term is cleared even when the term is not new. -/
def onHeartbeat (term leader : ℕ) : Act :=
  if term ≥ n.term then
    let n := takeTerm n term
    Act.pure (raftNoteLease env { n with
      role := .follower, leaderId := leader, votedFor := 0, electionTick := env.now })
  else Act.pure n

/-! ## Replication -/

def raftPushCommit : Act :=
  forPeers n fun p =>
    if !p.up ∨ n.logCount = 0 ∨ p.matched < n.logCount then (p, [])
    else
      let r := raftSendOne env n { p with next := n.logCount }
      ({ r.1 with next := p.next }, r.2)

/-- The leader may count index `i` as committed: an entry of its own term that a majority has. -/
def committable (i : ℕ) : Bool :=
  match raftLogAt n i with
  | none => false
  | some e => e.term = n.term ∧
      1 + n.peers.countP (fun p => p.up ∧ p.matched ≥ i) ≥ raftMajority n

def commitMarks (lo hi : ℕ) : List Mark :=
  (List.range' (lo + 1) (hi - lo)).filterMap fun i =>
    (raftLogAt n i).map fun e => .committed n.term i e

def raftMaybeCommit : Act :=
  if n.role ≠ .leader then Act.pure n
  else
    let commit := (List.range' (n.commitIndex + 1) (n.logCount - n.commitIndex)).foldl
      (fun c i => if committable n i then i else c) n.commitIndex
    Act.andThen (Act.andThen
      ⟨{ n with commitIndex := commit }, [], commitMarks n n.commitIndex commit⟩
      fun m => if commit ≠ n.commitIndex then raftPushCommit env m else Act.pure m)
      raftApply

def heardFrom (leader : ℕ) : Node :=
  raftNoteLease env { n with role := .follower, leaderId := leader, electionTick := env.now }

def refuseAppend (src : ℕ) : Act := reply env src (.appendResp n.term false 0) n

/-- What the entry of an append does to the log: a conflicting entry and everything after it go,
and the entry is added if it is next. The flag says whether the entry is there now. -/
def storeEntry (eindex : ℕ) (e : LogEntry) : Node × Bool :=
  if eindex ≤ n.snapshotIndex then (n, true)
  else
    let found := raftLogAt n eindex
    let conflict := decide (∃ old ∈ found, old.term ≠ e.term)
    let n := if conflict then
      { n with
        log := n.log.take (eindex - 1 - n.snapshotIndex)
        commitIndex := min n.commitIndex (eindex - 1)
        lastApplied := min n.lastApplied (eindex - 1) } else n
    if eindex = u32 (n.logCount + 1) then
      match raftLogSlot n eindex with
      | none => (n, false)
      | some _ => ({ n with log := n.log ++ [e] }, true)
    else (n, found.isSome ∧ ¬ conflict)

/-- `P2P_I_RAFT_APPEND`. -/
def onAppend (src term leader prevI prevT lcommit eindex : ℕ) (e : LogEntry) : Act :=
  if leaseRefuses env n leader ∧ term > n.term then refuseAppend env n src
  else
    let n := takeTerm n term
    if term < n.term then refuseAppend env n src
    else
      let n := heardFrom env n leader
      if !raftPrevOk n prevI prevT ∨ eindex = 0 ∨ eindex > u32 (n.snapshotIndex + 16) then
        refuseAppend env n src
      else match storeEntry n eindex e with
        | (n, false) => refuseAppend env n src
        | (n, true) =>
          let upto := min (min eindex n.logCount) lcommit
          Act.andThen (raftApply { n with commitIndex := max n.commitIndex upto }) fun n =>
            reply env src (.appendResp n.term true eindex) n

def setPeer (id : ℕ) (f : Peer → Peer) : Node :=
  { n with peers := n.peers.map fun p => if p.id = id then f p else p }

def sendTo (id : ℕ) (f : Peer → Peer × List Msg) : Act :=
  forPeers n fun p => if p.id = id then f p else (p, [])

/-- The send that follows an accepted append: the commit index if the peer lacks it, and what
comes next otherwise. -/
def sendAfterAck (p : Peer) : Peer × List Msg :=
  if n.logCount ≠ 0 ∧ p.matched ≥ n.logCount ∧ n.commitIndex > p.commitSent then
    let r := raftSendOne env n { p with next := n.logCount }
    ({ r.1 with next := p.next }, r.2)
  else raftSendOne env n p

def sendAfterRefusal (p : Peer) : Peer × List Msg :=
  if p.next > u32 (n.snapshotIndex + 1) then raftSendOne env n { p with next := p.next - 1 }
  else if n.snapshotIndex > 0 ∧ p.matched < n.snapshotIndex then raftSendSnapshot env n p
  else (p, [])

/-- `P2P_I_RAFT_APPEND_RESP`. -/
def onAppendResp (src term : ℕ) (ok : Bool) (matched : ℕ) : Act :=
  if term > n.term then Act.pure (raftStepDown n term)
  else if n.role ≠ .leader ∨ term ≠ n.term then Act.pure n
  else if ok then
    let n := setPeer n src fun p =>
      { p with matched := max p.matched matched, next := u32 (max p.matched matched + 1) }
    Act.andThen (raftMaybeCommit env n) fun n => sendTo n src (sendAfterAck env n)
  else sendTo n src (sendAfterRefusal env n)

/-! ## Snapshots -/

/-- `raft_install_snapshot`. Entries behind the snapshot are kept whatever precedes them. -/
def raftInstallSnapshot (index term : ℕ) : Node :=
  let kept := if n.logCount > index ∧ n.snapshotIndex ≤ index then
    n.log.drop (index - n.snapshotIndex) else []
  let count := index + kept.length
  { n with
    log := kept
    snapshotIndex := index
    snapshotTerm := term
    commitIndex := min (max n.commitIndex index) count
    lastApplied := min (max n.lastApplied index) count
    kv := (n.snapIn.take 16).foldl kvApply n.kv }

def addItems (snapIn items : List Item) : List Item := snapIn ++ items.take (16 - snapIn.length)

def openTransfer (off snapI : ℕ) : Node :=
  if off = 0 ∨ n.snapInIndex ≠ snapI then { n with snapIn := [], snapInIndex := snapI } else n

/-- `P2P_I_RAFT_SNAPSHOT`. -/
def onSnapshot (src term leader snapI snapT : ℕ) (last : Bool) (off : ℕ)
    (items : List Item) : Act :=
  if leaseRefuses env n leader ∧ term > n.term then
    reply env src (.snapshotResp n.term false 0 0) n
  else
    let n := takeTerm n term
    if term < n.term ∨ snapI = 0 then reply env src (.snapshotResp n.term false 0 0) n
    else
      let n := heardFrom env n leader
      if snapI ≤ n.snapshotIndex ∧ n.lastApplied ≥ snapI then
        reply env src (.snapshotResp n.term true snapI (off + items.length)) n
      else
        let n := openTransfer n off snapI
        if off ≠ n.snapIn.length then
          reply env src (.snapshotResp n.term false 0 n.snapIn.length) n
        else
          let full := n.snapIn.length + items.length > 16
          let n := { n with snapIn := addItems n.snapIn items }
          if full then reply env src (.snapshotResp n.term false 0 n.snapIn.length) n
          else
            let n := if last then raftInstallSnapshot n snapI snapT else n
            reply env src
              (.snapshotResp n.term true (if last then snapI else 0) n.snapIn.length) n

/-- `P2P_I_RAFT_SNAPSHOT_RESP`. -/
def onSnapshotResp (src term : ℕ) (ok : Bool) (matched off : ℕ) : Act :=
  if term > n.term then Act.pure (raftStepDown n term)
  else if n.role ≠ .leader ∨ term ≠ n.term ∨ !ok then Act.pure n
  else
    let n := setPeer n src fun p => { p with snapOff := max p.snapOff off }
    sendTo n src fun p =>
      if n.snapshotIndex > 0 ∧ matched ≥ n.snapshotIndex ∧ p.snapOff ≥ n.snapKv.length then
        raftSendOne env n { p with
          matched := max p.matched n.snapshotIndex, next := u32 (n.snapshotIndex + 1) }
      else raftSendSnapshot env n p

def onRaft (src : ℕ) : Msg → Act
  | .prevoteReq term _ lastIdx lastTerm => onPrevoteReq env n src term lastIdx lastTerm
  | .prevoteResp granted term => onPrevoteResp env n granted term
  | .voteReq term cand lastIdx lastTerm => onVoteReq env n src term cand lastIdx lastTerm
  | .voteResp granted term => onVoteResp env n granted term
  | .heartbeat term leader => onHeartbeat env n term leader
  | .append term leader prevI prevT lcommit eindex e =>
    onAppend env n src term leader prevI prevT lcommit eindex e
  | .appendResp term ok matched => onAppendResp env n src term ok matched
  | .snapshot term leader snapI snapT last off items =>
    onSnapshot env n src term leader snapI snapT last off items
  | .snapshotResp term ok matched off => onSnapshotResp env n src term ok matched off

/-! ## Calls -/

def p2pRaftAppend (key value : List UInt8) : Act :=
  if n.role ≠ .leader ∨ key = [] ∨ key.length ≥ 20 ∨ value.length ≥ 48 then Act.pure n
  else if n.logCount - n.snapshotIndex ≥ 16 then Act.pure n
  else match raftLogSlot n (u32 (n.logCount + 1)) with
    | none => Act.pure n
    | some _ =>
      let n := { n with log := n.log ++ [⟨n.term, key, value⟩] }
      Act.andThen (raftReplicate env n) (raftMaybeCommit env)

def p2pRaftCompact : Node :=
  if n.lastApplied ≤ n.snapshotIndex then n
  else match raftLogAt n n.lastApplied with
    | none => n
    | some e =>
      let keep := n.logCount - n.lastApplied
      if keep > 16 ∨ ∃ i ∈ List.range keep, raftLogAt n (n.lastApplied + 1 + i) = none then n
      else { n with
        log := n.log.drop (n.lastApplied - n.snapshotIndex)
        snapshotIndex := n.lastApplied
        snapshotTerm := e.term
        snapKv := n.kv.take 16 }

/-- The heartbeat of `p2p_tick`, which renews the lease if it reaches a peer. -/
def heartbeat (n : Node) : Act :=
  if sub32 env.now n.heartbeatTick ≥ 100 then
    let a := broadcast env { n with heartbeatTick := env.now } (.heartbeat n.term n.id)
    { a with node := if a.sent = [] then a.node else raftNoteLease env a.node }
  else Act.pure n

def p2pTick : Act :=
  if n.active ∧ n.role = .leader then Act.andThen (raftReplicate env n) (heartbeat env)
  else if n.active ∧ ¬ raftLeaseValid env n ∧ sub32 env.now n.electionTick ≥ 3000 then
    p2pRaftElect env n
  else Act.pure n

end Mohhdy.Raft
