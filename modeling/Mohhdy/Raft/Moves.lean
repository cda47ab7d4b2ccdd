import Mohhdy.Raft.Network

/-! What a call of a node can do, as a sequence of moves.

A move changes the part of a node that the protocol's invariants read (`Core`) in one way, and
sends what that way allows. Every handler and every call is a sequence of moves, except for the
parts that deal with votes: standing for election, giving a vote, counting one. -/
namespace Mohhdy.Raft
set_option autoImplicit false
open List

variable {m m' : Msg} {n : Node} {f : Peer → Peer × List Msg}

structure Core where
  id : ℕ
  role : Role
  (term votedFor votesGranted : ℕ)
  log : List LogEntry
  (commitIndex lastApplied snapshotIndex snapshotTerm : ℕ)
  matched : List (ℕ × ℕ)

def Node.core (n : Node) : Core where
  id := n.id
  role := n.role
  term := n.term
  votedFor := n.votedFor
  votesGranted := n.votesGranted
  log := n.log
  commitIndex := n.commitIndex
  lastApplied := n.lastApplied
  snapshotIndex := n.snapshotIndex
  snapshotTerm := n.snapshotTerm
  matched := n.peers.map fun p => (p.id, p.matched)

def Act.seq (a b : Act) : Act := ⟨b.node, a.sent ++ b.sent, a.marks ++ b.marks⟩

theorem seq_assoc (a b c : Act) : (a.seq b).seq c = a.seq (b.seq c) := by
  simp [Act.seq]

theorem seq_pure (a : Act) : a.seq (Act.pure a.node) = a := by
  simp [Act.seq, Act.pure]

abbrev Hand := Option (ℕ × Msg)

def Reaches (hand : Hand) (n : Node) (dst : ℕ) : Prop :=
  dst ∈ n.peers.map Peer.id ∨ ∃ m, hand = some (dst, m)

def Idle (hand : Hand) : Msg → Prop
  | .prevoteReq term _ _ _ => term < 2 ^ 32
  | .prevoteResp granted term => granted = true → ∃ src term' cand lastIdx lastTerm,
        hand = some (src, .prevoteReq term' cand lastIdx lastTerm) ∧ term < term'
  | .voteResp granted _ => granted = false
  | .heartbeat _ _ => True
  | .appendResp _ ok _ => ok = false
  | .snapshotResp _ _ _ _ => True
  | _ => False

def FromLog (n : Node) : Msg → Prop
  | .append term _ prevI prevT lcommit eindex e =>
      term = n.term ∧ prevI + 1 = eindex ∧ prevT = prevTerm n prevI ∧ lcommit = n.commitIndex ∧
        raftLogAt n eindex = some e
  | .snapshot term _ snapI snapT _ _ _ =>
      term = n.term ∧ snapI = n.snapshotIndex ∧ snapT = n.snapshotTerm
  | _ => False

inductive Move (hand : Hand) (n : Node) : Act → Prop
  | idle {n' : Node} {sent : List (ℕ × Msg)} (hcore : n'.core = n.core)
      (hsent : ∀ x ∈ sent, Reaches hand n x.1 ∧ Idle hand x.2) : Move hand n ⟨n', sent, []⟩
  | lead {n' : Node} {sent : List (ℕ × Msg)} (hcore : n'.core = n.core)
      (hrole : n.role = .leader) (hsent : ∀ x ∈ sent, Reaches hand n x.1 ∧ FromLog n x.2) :
      Move hand n ⟨n', sent, []⟩
  | stepDown {term : ℕ} (hlt : n.term < term) : Move hand n (Act.pure (raftStepDown n term))
  | follow {n' : Node} {vote : ℕ} (hvote : vote = n.votedFor ∨ vote = 0)
      (hcore : n'.core = { n.core with role := .follower, votedFor := vote }) :
      Move hand n (Act.pure n')
  | campaign {n' : Node} {votes : ℕ}
      (hcore : n'.core = { n.core with role := .preCandidate, votesGranted := votes }) :
      Move hand n (Act.pure n')
  | propose {n' : Node} {e : LogEntry} (hrole : n.role = .leader) (hterm : e.term = n.term)
      (hroom : n.log.length < 16) (hcore : n'.core = { n.core with log := n.log ++ [e] }) :
      Move hand n (Act.pure n')
  | commit {n' : Node} {i : ℕ} (hrole : n.role = .leader)
      (hi : i = n.commitIndex ∨ (n.commitIndex < i ∧ committable n i = true))
      (hcore : n'.core = { n.core with commitIndex := i }) :
      Move hand n ⟨n', [], commitMarks n n.commitIndex i⟩
  | apply {n' : Node} {marks : List Mark} (hlt : n.lastApplied < n.commitIndex)
      (hmarks : marks = [] ∨ ∃ e, raftLogAt n (n.lastApplied + 1) = some e ∧
        marks = [.applied (n.lastApplied + 1) e.key e.value])
      (hcore : n'.core = { n.core with lastApplied := n.lastApplied + 1 }) :
      Move hand n ⟨n', [], marks⟩
  | ack {n' : Node} {src mt : ℕ} (hhand : hand = some (src, .appendResp n.term true mt))
      (hrole : n.role = .leader)
      (hcore : n'.core = { n.core with matched := n.core.matched.map fun x =>
        if x.1 = src then (x.1, max x.2 mt) else x }) : Move hand n (Act.pure n')
  | snapAck {n' : Node} {ms : List (ℕ × ℕ)} (hrole : n.role = .leader)
      (hids : ms.map Prod.fst = n.core.matched.map Prod.fst)
      (hms : ∀ y ∈ ms, ∃ x ∈ n.core.matched, x.1 = y.1 ∧ y.2 ≤ max x.2 n.snapshotIndex)
      (hcore : n'.core = { n.core with matched := ms }) : Move hand n (Act.pure n')
  | accept {n' : Node} {src leader prevI prevT lcommit eindex : ℕ} {e : LogEntry}
      (hhand : hand = some (src, .append n.term leader prevI prevT lcommit eindex e))
      (hrole : n.role = .follower) (hprev : raftPrevOk n prevI prevT = true)
      (hpos : 0 < eindex) (hidx : eindex ≤ u32 (n.snapshotIndex + 16))
      (hstore : (storeEntry n eindex e).2 = true)
      (hcore : n'.core = { (storeEntry n eindex e).1.core with
        commitIndex := max (storeEntry n eindex e).1.commitIndex
          (min (min eindex (storeEntry n eindex e).1.logCount) lcommit) }) :
      Move hand n (Act.pure n')
  | accepted {sent : List (ℕ × Msg)} {src leader prevI prevT lcommit eindex : ℕ} {e : LogEntry}
      (hhand : hand = some (src, .append n.term leader prevI prevT lcommit eindex e))
      (hprev : n.snapshotIndex ≤ prevI)
      (hheld : eindex ≤ n.snapshotIndex ∨
        ∃ old, raftLogAt n eindex = some old ∧ old.term = e.term)
      (hsent : ∀ x ∈ sent, x = (src, .appendResp n.term true eindex)) :
      Move hand n ⟨n, sent, []⟩
  | install {n' : Node} {src leader snapI snapT off : ℕ} {last : Bool} {items : List Item}
      (hhand : hand = some (src, .snapshot n.term leader snapI snapT last off items))
      (hrole : n.role = .follower) (hnew : ¬ (snapI ≤ n.snapshotIndex ∧ n.lastApplied ≥ snapI))
      (hcore : n'.core = (raftInstallSnapshot n snapI snapT).core) : Move hand n (Act.pure n')
  | compact {n' : Node} {e : LogEntry} (hlt : n.snapshotIndex < n.lastApplied)
      (he : raftLogAt n n.lastApplied = some e)
      (hcore : n'.core = { n.core with
        log := n.log.drop (n.lastApplied - n.snapshotIndex)
        snapshotIndex := n.lastApplied, snapshotTerm := e.term }) : Move hand n (Act.pure n')

inductive Moves (hand : Hand) : Node → Act → Prop
  | nil (n : Node) : Moves hand n (Act.pure n)
  | cons {n : Node} {a b : Act} (ha : Move hand n a) (hb : Moves hand a.node b) :
      Moves hand n (a.seq b)

variable {hand : Hand}

theorem Move.moves {a : Act} (h : Move hand n a) : Moves hand n a := by
  have h2 := Moves.cons h (Moves.nil a.node)
  rwa [seq_pure] at h2

theorem Moves.trans {a b : Act} (ha : Moves hand n a) (hb : Moves hand a.node b) :
    Moves hand n (a.seq b) := by
  induction ha with
  | nil n => exact hb
  | cons h _ ih =>
    rw [seq_assoc]
    exact .cons h (ih hb)

theorem Moves.andThen {a : Act} {f : Node → Act} (ha : Moves hand n a)
    (hf : Moves hand a.node (f a.node)) : Moves hand n (a.andThen f) :=
  ha.trans hf

theorem Moves.after {n' : Node} {a : Act} (hn : Moves hand n (Act.pure n'))
    (ha : Moves hand n' a) : Moves hand n a :=
  hn.trans ha

theorem Moves.same {n' : Node} (h : n'.core = n.core) : Moves hand n (Act.pure n') :=
  (Move.idle h (by simp)).moves

/-! ## Sending -/

/-- A send keeps who the peer is and what it has, and sends messages made from the log. -/
def SendsFromLog (n : Node) (p : Peer) (r : Peer × List Msg) : Prop :=
  r.1.id = p.id ∧ r.1.matched = p.matched ∧ ∀ m ∈ r.2, FromLog n m

theorem SendsFromLog.nothing (n : Node) (p : Peer) : SendsFromLog n p (p, []) := ⟨rfl, rfl, by simp⟩

theorem eq_of_mem_sealSend {env : Env} {dst : ℕ} (h : m' ∈ sealSend env dst m) : m' = m := by
  unfold sealSend at h
  split at h
  · exact mem_singleton.mp h
  · cases h

variable (env : Env)

theorem raftSendSnapshot_spec (n : Node) (p : Peer) :
    SendsFromLog n p (raftSendSnapshot env n p) := by
  unfold raftSendSnapshot
  refine ⟨?_, ?_, ?_⟩
  · dsimp only
    split <;> rfl
  · dsimp only
    split <;> rfl
  · intro m hm
    rw [eq_of_mem_sealSend hm]
    exact ⟨rfl, rfl, rfl⟩

theorem raftSendOne_spec (n : Node) (p : Peer) : SendsFromLog n p (raftSendOne env n p) := by
  unfold raftSendOne
  split
  · exact .nothing n p
  split
  · exact raftSendSnapshot_spec env n p
  set q : Peer := if p.next = 0 ∨ p.next ≤ n.snapshotIndex then
    { p with next := u32 (n.snapshotIndex + 1) } else p with hq
  have hid : q.id = p.id ∧ q.matched = p.matched := by
    rw [hq]
    split <;> exact ⟨rfl, rfl⟩
  dsimp only
  split
  · exact ⟨hid.1, hid.2, by simp⟩
  rename_i hnext
  split
  · exact ⟨hid.1, hid.2, by simp⟩
  rename_i e he
  split
  · refine ⟨hid.1, hid.2, fun m hm => ?_⟩
    rw [mem_singleton.mp hm]
    exact ⟨rfl, by omega, rfl, rfl, he⟩
  · exact ⟨hid.1, hid.2, by simp⟩

theorem SendsFromLog.restore {p q : Peer} {r : Peer × List Msg}
    (h : SendsFromLog n q r) (hid : q.id = p.id) (hm : q.matched = p.matched) (next : ℕ) :
    SendsFromLog n p ({ r.1 with next := next }, r.2) :=
  ⟨h.1.trans hid, h.2.1.trans hm, h.2.2⟩

theorem forPeers_core (hf : ∀ p, (f p).1.id = p.id ∧ (f p).1.matched = p.matched) :
    (forPeers n f).node.core = n.core := by
  have hmap : (n.peers.map fun p => (f p).1).map (fun p => (p.id, p.matched)) =
      n.peers.map fun p => (p.id, p.matched) := by
    rw [map_map]
    refine map_congr_left fun p _ => ?_
    rw [Function.comp_apply, (hf p).1, (hf p).2]
  simp only [Node.core, forPeers, hmap]

theorem mem_forPeers_sent {x : ℕ × Msg}
    (hx : x ∈ (forPeers n f).sent) : ∃ p ∈ n.peers, x.1 = p.id ∧ x.2 ∈ (f p).2 := by
  obtain ⟨p, hp, hx⟩ := mem_flatMap.mp hx
  obtain ⟨m, hm, rfl⟩ := mem_map.mp hx
  exact ⟨p, hp, rfl, hm⟩

theorem forPeers_moves (hrole : n.role = .leader)
    (hf : ∀ p, SendsFromLog n p (f p)) : Moves hand n (forPeers n f) := by
  refine (Move.lead (forPeers_core fun p => ⟨(hf p).1, (hf p).2.1⟩) hrole ?_).moves
  intro x hx
  obtain ⟨p, hp, hid, hm⟩ := mem_forPeers_sent hx
  exact ⟨.inl (hid ▸ mem_map_of_mem hp), (hf p).2.2 x.2 hm⟩

theorem sendTo_moves (hrole : n.role = .leader) (id : ℕ)
    (hf : ∀ p, SendsFromLog n p (f p)) : Moves hand n (sendTo n id f) := by
  refine forPeers_moves hrole fun p => ?_
  split
  · exact hf p
  · exact .nothing n p

theorem raftReplicate_moves (n : Node) : Moves hand n (raftReplicate env n) := by
  unfold raftReplicate
  split
  · exact .nil n
  rename_i hlead
  rw [not_or, not_not] at hlead
  refine forPeers_moves hlead.2 fun p => ?_
  split
  · exact .nothing n p
  extract_lets key
  split
  · exact .nothing n p
  · exact raftSendOne_spec env n { p with txKey := key, txTick := env.now }

theorem raftPushCommit_moves (hrole : n.role = .leader) : Moves hand n (raftPushCommit env n) := by
  refine forPeers_moves hrole fun p => ?_
  split
  · exact .nothing n p
  · exact (raftSendOne_spec env n { p with next := n.logCount }).restore rfl rfl p.next

section
variable (n : Node)

theorem broadcast_core (m : Msg) : (broadcast env n m).node.core = n.core :=
  forPeers_core fun _ => ⟨rfl, rfl⟩

theorem broadcast_sent (hm : Idle hand m) :
    ∀ x ∈ (broadcast env n m).sent, Reaches hand n x.1 ∧ Idle hand x.2 := by
  intro x hx
  obtain ⟨p, hp, hid, hx⟩ := mem_forPeers_sent hx
  refine ⟨.inl (hid ▸ mem_map_of_mem hp), ?_⟩
  split at hx
  · rw [eq_of_mem_sealSend hx]
    exact hm
  · cases hx

theorem broadcast_moves (hm : Idle hand m) : Moves hand n (broadcast env n m) :=
  (Move.idle (broadcast_core env n m) (broadcast_sent env n hm)).moves

theorem eq_of_mem_reply {env : Env} {src : ℕ} {x : ℕ × Msg}
    (hx : x ∈ (sealSend env src m).map fun m => (src, m)) : x = (src, m) := by
  obtain ⟨m', hm', rfl⟩ := mem_map.mp hx
  rw [eq_of_mem_sealSend hm']

theorem reply_moves {src : ℕ} (hhand : hand = some (src, m'))
    (hm : Idle hand m) : Moves hand n (reply env src m n) := by
  refine (Move.idle rfl fun x hx => ?_).moves
  rw [eq_of_mem_reply hx]
  exact ⟨.inr ⟨m', hhand⟩, hm⟩

/-! ## Committing and applying -/

theorem applyLoop_core (fuel : ℕ) (n : Node) : ∃ i, n.lastApplied ≤ i ∧
    (applyLoop fuel n).node.core = { n.core with lastApplied := i } := by
  induction fuel generalizing n with
  | zero => exact ⟨n.lastApplied, le_rfl, rfl⟩
  | succ fuel ih =>
    unfold applyLoop
    split
    · dsimp only
      split
      · obtain ⟨i, hi, heq⟩ := ih { n with lastApplied := n.lastApplied + 1 }
        exact ⟨i, by dsimp only at hi; omega, heq⟩
      · split
        · exact ⟨n.lastApplied + 1, by omega, rfl⟩
        · rename_i e _
          obtain ⟨i, hi, heq⟩ := ih { n with
            lastApplied := n.lastApplied + 1
            kv := kvApply n.kv ⟨e.key, e.value, n.lastApplied + 1, n.id⟩ }
          exact ⟨i, by dsimp only at hi; omega, heq⟩
    · exact ⟨n.lastApplied, le_rfl, rfl⟩

theorem applyLoop_moves (fuel : ℕ) (n : Node) : Moves hand n (applyLoop fuel n) := by
  induction fuel generalizing n with
  | zero => exact .nil n
  | succ fuel ih =>
    unfold applyLoop
    split
    · rename_i hlt
      dsimp only
      split
      · have hmove : Move hand n (Act.pure { n with lastApplied := n.lastApplied + 1 }) :=
          .apply hlt.1 (.inl rfl) rfl
        exact .cons hmove (ih _)
      · split
        · exact (Move.apply hlt.1 (.inl rfl) rfl).moves
        · rename_i e he
          refine .cons (Move.apply hlt.1 (.inr ⟨e, ?_, rfl⟩) rfl) (ih _)
          exact he
    · exact .nil n

theorem foldl_committable (is : List ℕ) (c : ℕ) :
    is.foldl (fun c i => if committable n i then i else c) c = c ∨
      ∃ i ∈ is, committable n i = true ∧
        is.foldl (fun c i => if committable n i then i else c) c = i := by
  induction is generalizing c with
  | nil => exact .inl rfl
  | cons i is ih =>
    rw [foldl_cons]
    obtain h | ⟨j, hj, hc, h⟩ := ih (if committable n i then i else c)
    · rw [h]
      split
      · rename_i hc
        exact .inr ⟨i, mem_cons_self, hc, rfl⟩
      · exact .inl rfl
    · exact .inr ⟨j, mem_cons_of_mem i hj, hc, h⟩

theorem raftMaybeCommit_moves : Moves hand n (raftMaybeCommit env n) := by
  unfold raftMaybeCommit
  split
  · exact .nil n
  rename_i hrole
  rw [not_not] at hrole
  set commit := (List.range' (n.commitIndex + 1) (n.logCount - n.commitIndex)).foldl
    (fun c i => if committable n i then i else c) n.commitIndex with hcommit
  have hi : commit = n.commitIndex ∨ (n.commitIndex < commit ∧ committable n commit = true) := by
    obtain h | ⟨i, hi, hc, h⟩ := foldl_committable n
      (List.range' (n.commitIndex + 1) (n.logCount - n.commitIndex)) n.commitIndex
    · exact .inl h
    · rw [← hcommit] at h
      subst h
      rw [mem_range'_1] at hi
      exact .inr ⟨by omega, hc⟩
  refine Moves.andThen (Moves.andThen (Move.commit hrole hi rfl).moves ?_) (applyLoop_moves _ _)
  split
  · exact raftPushCommit_moves env hrole
  · exact .nil _

theorem raftMaybeCommit_role : (raftMaybeCommit env n).node.role = n.role := by
  unfold raftMaybeCommit
  split
  · rfl
  obtain ⟨i, _, hi⟩ := applyLoop_core _ _
  refine (congrArg Core.role hi).trans ?_
  split
  · exact rfl
  · rfl

end

end Mohhdy.Raft
