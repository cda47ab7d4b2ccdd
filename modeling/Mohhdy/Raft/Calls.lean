import Mohhdy.Raft.Moves

/-! The handlers and the calls, taken apart: each is a sequence of moves, or deals with a vote and
then moves. -/
namespace Mohhdy.Raft
set_option autoImplicit false
open List

variable {eindex prevI prevT : ℕ} {n : Node} {hand : Hand}

/-! ## Handlers that are sequences of moves -/

theorem takeTerm_moves (n : Node) (term : ℕ) : Moves hand n (Act.pure (takeTerm n term)) := by
  unfold takeTerm
  split
  · rename_i h
    exact (Move.stepDown h).moves
  · exact .nil n

theorem takeTerm_term (n : Node) (term : ℕ) : (takeTerm n term).term = max n.term term := by
  unfold takeTerm
  split
  · change term = _
    omega
  · omega

variable (env : Env)

theorem heardFrom_moves (n : Node) (leader : ℕ) :
    Moves hand n (Act.pure (heardFrom env n leader)) :=
  (Move.follow (.inl rfl) rfl).moves

theorem onPrevoteReq_moves (n : Node) (src term cand lastIdx lastTerm : ℕ) :
    Moves (some (src, .prevoteReq term cand lastIdx lastTerm)) n
      (onPrevoteReq env n src term lastIdx lastTerm) := by
  refine reply_moves env n rfl fun hgrant => ?_
  exact ⟨src, term, cand, lastIdx, lastTerm, rfl, (of_decide_eq_true hgrant).2.1⟩

theorem p2pRaftElect_moves (n : Node) : Moves hand n (p2pRaftElect env n) := by
  unfold p2pRaftElect
  split
  · exact .nil n
  · exact .trans (Move.campaign rfl).moves (broadcast_moves env _ (Nat.mod_lt _ (by decide)))

theorem onHeartbeat_moves (n : Node) (term leader : ℕ) :
    Moves hand n (onHeartbeat env n term leader) := by
  unfold onHeartbeat
  split
  · exact .trans (takeTerm_moves n term) (Move.follow (.inr rfl) rfl).moves
  · exact .nil n

theorem raftPrevOk_le (h : raftPrevOk n prevI prevT = true) :
    n.snapshotIndex ≤ prevI ∧ prevI ≤ n.logCount := by
  unfold raftPrevOk at h
  split at h
  · cases h
  · omega

variable {e : LogEntry}

theorem raftLogAt_eq_some {i : ℕ} : raftLogAt n i = some e ↔
      n.snapshotIndex < i ∧ i - n.snapshotIndex - 1 < 16 ∧
        n.log[i - n.snapshotIndex - 1]? = some e := by
  unfold raftLogAt raftLogSlot Node.logCount
  constructor
  · intro h
    split at h
    · cases h
    split at h
    · cases h
    split at h
    · cases h
    · exact ⟨by omega, by omega, h⟩
  · rintro ⟨hlt, h16, he⟩
    have hlen : i - n.snapshotIndex - 1 < n.log.length := by
      obtain ⟨h, _⟩ := List.getElem?_eq_some_iff.mp he
      exact h
    rw [if_neg (by omega), if_neg (by omega), if_neg (by omega)]
    exact he

/-- What the entry of an append can do to the log: nothing, because it is refused or held already;
be added; or replace an entry of another term and everything after it. -/
theorem storeEntry_cases (n : Node) (e : LogEntry) (hidx : eindex ≤ u32 (n.snapshotIndex + 16)) :
    storeEntry n eindex e = (n, false) ∨
    (storeEntry n eindex e = (n, true) ∧ (eindex ≤ n.snapshotIndex ∨
      ∃ old, raftLogAt n eindex = some old ∧ old.term = e.term)) ∨
    (storeEntry n eindex e = ({ n with log := n.log ++ [e] }, true) ∧
      n.snapshotIndex < eindex ∧ eindex - n.snapshotIndex - 1 < 16 ∧
      eindex = u32 (n.logCount + 1) ∧ ∀ old, raftLogAt n eindex = some old → old.term = e.term) ∨
    ∃ old, raftLogAt n eindex = some old ∧ old.term ≠ e.term ∧ storeEntry n eindex e = ({ n with
        log := n.log.take (eindex - 1 - n.snapshotIndex) ++ [e]
        commitIndex := min n.commitIndex (eindex - 1)
        lastApplied := min n.lastApplied (eindex - 1) }, true) := by
  by_cases hsnap : eindex ≤ n.snapshotIndex
  · exact .inr (.inl ⟨if_pos hsnap, .inl hsnap⟩)
  rw [storeEntry, if_neg hsnap]
  by_cases hc : ∃ old ∈ raftLogAt n eindex, old.term ≠ e.term
  · obtain ⟨old, hold, hne⟩ := hc
    obtain ⟨hlt, h16, he⟩ := raftLogAt_eq_some.mp hold
    obtain ⟨hlen, _⟩ := List.getElem?_eq_some_iff.mp he
    refine .inr (.inr (.inr ⟨old, hold, hne, ?_⟩))
    have hmod : u32 (n.snapshotIndex + 16) < 2 ^ 32 := Nat.mod_lt _ (by decide)
    -- after the truncation the entry is exactly the next one
    have hcount : n.snapshotIndex + (n.log.take (eindex - 1 - n.snapshotIndex)).length + 1 =
        eindex := by
      rw [length_take]
      omega
    have hu : u32 eindex = eindex := Nat.mod_eq_of_lt (by omega)
    have hex : ∃ old ∈ raftLogAt n eindex, old.term ≠ e.term := ⟨old, hold, hne⟩
    simp only [hex, decide_true, if_true, Node.logCount, hcount, hu, raftLogSlot]
    rw [if_neg (by omega), if_neg (by omega)]
  · have hsame : ∀ old, raftLogAt n eindex = some old → old.term = e.term := by
      intro old hold
      by_contra hne
      exact hc ⟨old, hold, hne⟩
    simp only [hc, decide_false, Bool.false_eq_true, if_false]
    split_ifs with hnext
    · unfold raftLogSlot
      split_ifs
      · omega
      · exact .inl rfl
      · exact .inr (.inr (.inl ⟨rfl, by omega, by omega, hnext, hsame⟩))
    · cases hf : raftLogAt n eindex with
      | none => exact .inl rfl
      | some old => exact .inr (.inl ⟨rfl, .inr ⟨old, rfl, hsame old hf⟩⟩)

theorem storeEntry_held
    (hidx : eindex ≤ u32 (n.snapshotIndex + 16)) (h : (storeEntry n eindex e).2 = true) :
    eindex ≤ n.snapshotIndex ∨
      ∃ old, raftLogAt (storeEntry n eindex e).1 eindex = some old ∧ old.term = e.term := by
  obtain hr | ⟨hr, hheld⟩ | ⟨hr, hlt, h16, hnext, hsame⟩ | ⟨old, hold, -, hr⟩ :=
    storeEntry_cases n e hidx
  · rw [hr] at h
    cases h
  · rw [hr]
    exact hheld
  · right
    rw [hr]
    have hle : eindex ≤ n.logCount + 1 := hnext ▸ Nat.mod_le _ _
    unfold Node.logCount at hle
    by_cases heq : eindex - n.snapshotIndex - 1 = n.log.length
    · refine ⟨e, raftLogAt_eq_some.mpr ⟨hlt, h16, ?_⟩, rfl⟩
      rw [heq, List.getElem?_append_right le_rfl, Nat.sub_self]
      rfl
    · have hlen : eindex - n.snapshotIndex - 1 < n.log.length := by omega
      have hget := List.getElem?_eq_getElem hlen
      refine ⟨_, raftLogAt_eq_some.mpr ⟨hlt, h16, ?_⟩, hsame _ (raftLogAt_eq_some.mpr
        ⟨hlt, h16, hget⟩)⟩
      rw [List.getElem?_append_left hlen]
      exact hget
  · right
    obtain ⟨hlt, h16, he⟩ := raftLogAt_eq_some.mp hold
    obtain ⟨hlen, _⟩ := List.getElem?_eq_some_iff.mp he
    rw [hr]
    refine ⟨e, raftLogAt_eq_some.mpr ⟨hlt, h16, ?_⟩, rfl⟩
    have hslot : (n.log.take (eindex - 1 - n.snapshotIndex)).length =
        eindex - n.snapshotIndex - 1 := by
      rw [length_take]
      omega
    rw [← hslot, List.getElem?_append_right le_rfl, Nat.sub_self]
    rfl

theorem raftLogAt_congr {n' : Node} (hlog : n'.log = n.log)
    (hsnap : n'.snapshotIndex = n.snapshotIndex) (i : ℕ) : raftLogAt n' i = raftLogAt n i := by
  unfold raftLogAt raftLogSlot Node.logCount
  rw [hlog, hsnap]

theorem storeEntry_core (e : LogEntry) (hidx : eindex ≤ u32 (n.snapshotIndex + 16)) :
    ∃ log commit applied, (storeEntry n eindex e).1.core =
      { n.core with log := log, commitIndex := commit, lastApplied := applied } := by
  obtain hr | ⟨hr, -⟩ | ⟨hr, -⟩ | ⟨_, _, _, hr⟩ := storeEntry_cases n e hidx <;>
    rw [hr] <;> exact ⟨_, _, _, rfl⟩

theorem storeEntry_moves (src leader lcommit : ℕ) (hrole : n.role = .follower) (hprev : raftPrevOk n prevI prevT = true)
    (hpos : 0 < eindex) (hidx : eindex ≤ u32 (n.snapshotIndex + 16))
    (hstore : (storeEntry n eindex e).2 = true) :
    Moves (some (src, .append n.term leader prevI prevT lcommit eindex e)) n
      (Act.andThen (raftApply { (storeEntry n eindex e).1 with
          commitIndex := max (storeEntry n eindex e).1.commitIndex
            (min (min eindex (storeEntry n eindex e).1.logCount) lcommit) })
        fun n => reply env src (.appendResp n.term true eindex) n) := by
  set n' : Node := { (storeEntry n eindex e).1 with
    commitIndex := max (storeEntry n eindex e).1.commitIndex
      (min (min eindex (storeEntry n eindex e).1.logCount) lcommit) } with hn'
  obtain ⟨_, _, _, hcore⟩ := storeEntry_core e hidx
  have hterm : (storeEntry n eindex e).1.term = n.term := congrArg Core.term hcore
  have hsnap : (storeEntry n eindex e).1.snapshotIndex = n.snapshotIndex :=
    congrArg Core.snapshotIndex hcore
  have haccept : Move (some (src, .append n.term leader prevI prevT lcommit eindex e)) n
      (Act.pure n') := .accept rfl hrole hprev hpos hidx hstore rfl
  refine haccept.moves.after (Moves.trans (applyLoop_moves _ n') (Move.moves ?_))
  -- applying changes neither the log nor the term
  obtain ⟨i, _, hi⟩ := applyLoop_core _ n'
  have hterm' : (raftApply n').node.term = n.term := (congrArg Core.term hi).trans hterm
  have hsnap' : (raftApply n').node.snapshotIndex = n.snapshotIndex :=
    (congrArg Core.snapshotIndex hi).trans hsnap
  have hlog' : (raftApply n').node.log = (storeEntry n eindex e).1.log := congrArg Core.log hi
  have hhand : (some (src, .append n.term leader prevI prevT lcommit eindex e) : Hand) =
      some (src, .append (raftApply n').node.term leader prevI prevT lcommit eindex e) := by
    rw [hterm']
  refine .accepted hhand (hsnap' ▸ (raftPrevOk_le hprev).1) ?_ fun x hx => eq_of_mem_reply hx
  rw [hsnap']
  refine (storeEntry_held hidx hstore).imp_right ?_
  rintro ⟨old, hold, hold'⟩
  exact ⟨old, (raftLogAt_congr hlog' (hsnap'.trans hsnap.symm) eindex).trans hold, hold'⟩

section
variable (n : Node)

theorem onAppend_moves (src term leader prevI prevT lcommit eindex : ℕ)
    (e : LogEntry) : Moves (some (src, .append term leader prevI prevT lcommit eindex e)) n
      (onAppend env n src term leader prevI prevT lcommit eindex e) := by
  have hrefuse : ∀ m : Node, Moves (some (src, .append term leader prevI prevT lcommit eindex e)) m
      (refuseAppend env m src) := fun m => reply_moves env m rfl rfl
  unfold onAppend
  split
  · exact hrefuse n
  refine (takeTerm_moves n term).after ?_
  dsimp only
  split
  · exact hrefuse _
  rename_i hterm
  refine (heardFrom_moves env _ leader).after ?_
  have hm : (heardFrom env (takeTerm n term) leader).term = term := by
    change (takeTerm n term).term = term
    rw [takeTerm_term] at hterm ⊢
    omega
  have hrole : (heardFrom env (takeTerm n term) leader).role = .follower := rfl
  generalize heardFrom env (takeTerm n term) leader = m at hm hrole ⊢
  split
  · exact hrefuse m
  rename_i hguard
  rw [not_or, not_or, Bool.not_eq_true', Bool.not_eq_false] at hguard
  obtain ⟨hprev, hpos, hidx⟩ := hguard
  rw [not_lt] at hidx
  split
  · rename_i r hr
    obtain h | ⟨h, -⟩ | ⟨h, -⟩ | ⟨_, _, _, h⟩ := storeEntry_cases m e hidx <;>
      rw [hr] at h
    · rw [(Prod.mk.inj h).1]
      exact hrefuse m
    all_goals cases h
  · rename_i r hr
    have hmoves := storeEntry_moves env src leader lcommit hrole hprev
      (Nat.pos_of_ne_zero hpos) hidx (by rw [hr] : (storeEntry m eindex e).2 = true)
    rw [hm, hr] at hmoves
    exact hmoves

theorem setPeer_core (id : ℕ) (f : Peer → Peer) (g : ℕ → ℕ)
    (hf : ∀ p, (f p).id = p.id ∧ (f p).matched = g p.matched) :
    (setPeer n id f).core = { n.core with matched := n.core.matched.map fun x =>
      if x.1 = id then (x.1, g x.2) else x } := by
  have hmap : (n.peers.map fun p => if p.id = id then f p else p).map
      (fun p => (p.id, p.matched)) = (n.peers.map fun p => (p.id, p.matched)).map
        fun x => if x.1 = id then (x.1, g x.2) else x := by
    rw [map_map, map_map]
    refine map_congr_left fun p _ => ?_
    simp only [Function.comp_apply]
    split
    · rw [(hf p).1, (hf p).2]
    · rfl
  simp only [Node.core, setPeer, hmap]

theorem setPeer_same (id : ℕ) (f : Peer → Peer)
    (hf : ∀ p, (f p).id = p.id ∧ (f p).matched = p.matched) : (setPeer n id f).core = n.core := by
  rw [setPeer_core n id f (fun m => m) hf]
  simp

theorem onAppendResp_moves (src term : ℕ) (ok : Bool) (matched : ℕ) :
    Moves (some (src, .appendResp term ok matched)) n (onAppendResp env n src term ok matched) := by
  unfold onAppendResp
  split
  · rename_i h
    exact (Move.stepDown h).moves
  split
  · exact .nil n
  rename_i hlead
  rw [not_or, not_not, not_not] at hlead
  obtain ⟨hrole, rfl⟩ := hlead
  split
  · rename_i hok
    subst hok
    have hcore := setPeer_core n src (fun p => { p with
      matched := max p.matched matched, next := u32 (max p.matched matched + 1) })
      (max · matched) fun p => ⟨rfl, rfl⟩
    refine (Move.ack rfl hrole hcore).moves.after (Moves.andThen (raftMaybeCommit_moves env _) ?_)
    have hrole' := (raftMaybeCommit_role env (setPeer n src fun p => { p with
      matched := max p.matched matched, next := u32 (max p.matched matched + 1) })).trans hrole
    refine sendTo_moves hrole' src fun p => ?_
    unfold sendAfterAck
    split
    · exact (raftSendOne_spec env _ { p with next := _ }).restore rfl rfl p.next
    · exact raftSendOne_spec env _ p
  · refine sendTo_moves hrole src fun p => ?_
    unfold sendAfterRefusal
    split
    · exact raftSendOne_spec env n { p with next := p.next - 1 }
    split
    · exact raftSendSnapshot_spec env n p
    · exact .nothing n p

/-! ## Snapshots, calls and the clock -/

theorem openTransfer_core (off snapI : ℕ) :
    (openTransfer n off snapI).core = n.core := by
  unfold openTransfer
  split <;> rfl

theorem openTransfer_moves (off snapI : ℕ) :
    Moves hand n (Act.pure (openTransfer n off snapI)) :=
  .same (openTransfer_core n off snapI)

end

theorem installed_moves (src leader snapT : ℕ) (last : Bool) (off : ℕ)
    (items : List Item) {snapI : ℕ} (hrole : n.role = .follower)
    (hnew : ¬ (snapI ≤ n.snapshotIndex ∧ n.lastApplied ≥ snapI)) :
    Moves (some (src, .snapshot n.term leader snapI snapT last off items)) n (reply env src
        (.snapshotResp (if last then raftInstallSnapshot n snapI snapT else n).term true
          (if last then snapI else 0)
          (if last then raftInstallSnapshot n snapI snapT else n).snapIn.length)
        (if last then raftInstallSnapshot n snapI snapT else n)) := by
  refine Moves.after ?_ (reply_moves env _ rfl trivial)
  cases last with
  | false => exact .nil n
  | true => exact (Move.install rfl hrole hnew rfl).moves

theorem onSnapshot_moves (n : Node) (src term leader snapI snapT : ℕ) (last : Bool)
    (off : ℕ) (items : List Item) :
    Moves (some (src, .snapshot term leader snapI snapT last off items)) n
      (onSnapshot env n src term leader snapI snapT last off items) := by
  have hreply : ∀ (m : Node) (t : ℕ) (ok : Bool) (i o : ℕ),
      Moves (some (src, .snapshot term leader snapI snapT last off items)) m
        (reply env src (.snapshotResp t ok i o) m) :=
    fun m t ok i o => reply_moves env m rfl trivial
  unfold onSnapshot
  split
  · exact hreply n _ _ _ _
  refine (takeTerm_moves n term).after ?_
  dsimp only
  split
  · exact hreply _ _ _ _ _
  rename_i hterm
  refine (heardFrom_moves env _ leader).after ?_
  have hm : (heardFrom env (takeTerm n term) leader).term = term := by
    change (takeTerm n term).term = term
    rw [takeTerm_term] at hterm ⊢
    omega
  have hrole : (heardFrom env (takeTerm n term) leader).role = .follower := rfl
  generalize heardFrom env (takeTerm n term) leader = m at hm hrole ⊢
  split
  · exact hreply m _ _ _ _
  rename_i hnew
  refine (openTransfer_moves m off snapI).after ?_
  have hcore := openTransfer_core m off snapI
  have hm' : (openTransfer m off snapI).term = term := (congrArg Core.term hcore).trans hm
  have hrole' : (openTransfer m off snapI).role = .follower :=
    (congrArg Core.role hcore).trans hrole
  have hsnap : (openTransfer m off snapI).snapshotIndex = m.snapshotIndex :=
    congrArg Core.snapshotIndex hcore
  have hlast : (openTransfer m off snapI).lastApplied = m.lastApplied :=
    congrArg Core.lastApplied hcore
  rw [← hsnap, ← hlast] at hnew
  generalize openTransfer m off snapI = k at hm' hrole' hnew ⊢
  split
  · exact hreply k _ _ _ _
  have hadd : Node.core { k with snapIn := addItems k.snapIn items } = k.core := rfl
  refine (Moves.same hadd).after ?_
  split
  · exact hreply _ _ _ _ _
  subst hm'
  exact installed_moves (n := { k with snapIn := addItems _ items }) env src leader snapT
    last off items hrole' hnew

theorem sendSnapped_moves (hrole : n.role = .leader) (id : ℕ)
    {f : Peer → Peer × List Msg} (hf : ∀ p, (f p).1.id = p.id ∧
      (f p).1.matched ≤ max p.matched n.snapshotIndex ∧ ∀ m ∈ (f p).2, FromLog n m) :
    Moves hand n (sendTo n id f) := by
  set g : Peer → Peer × List Msg := fun p => if p.id = id then f p else (p, []) with hg
  have hgp : ∀ p, (g p).1.id = p.id ∧
      (g p).1.matched ≤ max p.matched n.snapshotIndex ∧ ∀ m ∈ (g p).2, FromLog n m := by
    intro p
    rw [hg]
    dsimp only
    split
    · exact hf p
    · exact ⟨rfl, le_max_left _ _, by simp⟩
  have hids : ((n.peers.map fun p => (g p).1).map fun p => (p.id, p.matched)).map Prod.fst =
      n.core.matched.map Prod.fst := by
    simp only [Node.core, map_map]
    exact map_congr_left fun p _ => (hgp p).1
  have hms : ∀ y ∈ (n.peers.map fun p => (g p).1).map fun p => (p.id, p.matched),
      ∃ x ∈ n.core.matched, x.1 = y.1 ∧ y.2 ≤ max x.2 n.snapshotIndex := by
    intro y hy
    rw [map_map] at hy
    obtain ⟨p, hp, rfl⟩ := mem_map.mp hy
    exact ⟨(p.id, p.matched), mem_map_of_mem hp, (hgp p).1.symm, (hgp p).2.1⟩
  have hnote : Move hand n (Act.pure (forPeers n g).node) := .snapAck hrole hids hms rfl
  have hrole' : (forPeers n g).node.role = .leader := hrole
  refine hnote.moves.after (Move.lead rfl hrole' ?_).moves
  intro x hx
  obtain ⟨p, hp, hid, hm⟩ := mem_forPeers_sent hx
  refine ⟨.inl ?_, (hgp p).2.2 x.2 hm⟩
  rw [hid, ← (hgp p).1]
  exact mem_map_of_mem (mem_map_of_mem hp)

section
variable (n : Node)

theorem onSnapshotResp_moves (src term : ℕ) (ok : Bool)
    (matched off : ℕ) : Moves hand n (onSnapshotResp env n src term ok matched off) := by
  unfold onSnapshotResp
  split
  · rename_i h
    exact (Move.stepDown h).moves
  split
  · exact .nil n
  rename_i hlead
  rw [not_or, not_not] at hlead
  have hsame := setPeer_same n src (fun p => { p with snapOff := max p.snapOff off })
    fun p => ⟨rfl, rfl⟩
  refine (Moves.same hsame).after ?_
  have hrole : (setPeer n src fun p => { p with snapOff := max p.snapOff off }).role = .leader :=
    hlead.1
  generalize (setPeer n src fun p => { p with snapOff := max p.snapOff off }) = m at hrole ⊢
  exact sendSnapped_moves hrole src fun p => by
    split
    · exact ⟨(raftSendOne_spec env m _).1, (raftSendOne_spec env m _).2.1.le,
        (raftSendOne_spec env m _).2.2⟩
    · exact ⟨(raftSendSnapshot_spec env m p).1, (raftSendSnapshot_spec env m p).2.1.le.trans
        (le_max_left _ _), (raftSendSnapshot_spec env m p).2.2⟩

theorem p2pRaftAppend_moves (key value : List UInt8) :
    Moves hand n (p2pRaftAppend env n key value) := by
  unfold p2pRaftAppend
  split
  · exact .nil n
  rename_i hlead
  rw [not_or, not_not] at hlead
  split
  · exact .nil n
  rename_i hroom
  unfold Node.logCount at hroom
  split
  · exact .nil n
  exact (Move.propose hlead.1 rfl (by omega) rfl).moves.after
    (.andThen (raftReplicate_moves env _) (raftMaybeCommit_moves env _))

theorem p2pRaftCompact_moves : Moves hand n (Act.pure (p2pRaftCompact n)) := by
  unfold p2pRaftCompact
  split
  · exact .nil n
  rename_i hlt
  split
  · exact .nil n
  rename_i e he
  dsimp only
  split
  · exact .nil n
  · exact (Move.compact (by omega) he rfl).moves

theorem raftNoteLease_core : (raftNoteLease env n).core = n.core := by
  simp only [Node.core, raftNoteLease]

theorem heartbeat_moves : Moves hand n (heartbeat env n) := by
  unfold heartbeat
  split
  · have hm : Idle hand (.heartbeat n.term n.id) := trivial
    have hsent : ∀ x ∈ (broadcast env { n with heartbeatTick := env.now }
        (.heartbeat n.term n.id)).sent, Reaches hand n x.1 ∧ Idle hand x.2 :=
      broadcast_sent env { n with heartbeatTick := env.now } hm
    have hcore : (broadcast env { n with heartbeatTick := env.now }
        (.heartbeat n.term n.id)).node.core = n.core := broadcast_core env _ _
    have hmarks : (broadcast env { n with heartbeatTick := env.now }
        (.heartbeat n.term n.id)).marks = [] := rfl
    generalize broadcast env { n with heartbeatTick := env.now } (.heartbeat n.term n.id) = a
      at hsent hcore hmarks ⊢
    dsimp only
    rw [hmarks]
    refine (Move.idle ?_ hsent).moves
    split
    · exact hcore
    · rw [raftNoteLease_core, hcore]
  · exact .nil n

theorem p2pTick_moves : Moves hand n (p2pTick env n) := by
  unfold p2pTick
  split
  · exact .andThen (raftReplicate_moves env n) (heartbeat_moves env _)
  split
  · exact p2pRaftElect_moves env n
  · exact .nil n

end

/-! ## Votes -/

/-- The votes that `raft_start_election` asks for: at most one request to each peer. -/
def requests (n : Node) : List (ℕ × Msg) :=
  n.peers.map fun p => (p.id, .voteReq (u32 (n.term + 1)) n.id n.logCount (raftLastTerm n))

inductive Ballot (env : Env) (hand : Hand) (n : Node) : Act → Prop
  | stand {n' : Node} {src : ℕ} {sent : List (ℕ × Msg)}
      (hhand : hand = some (src, .prevoteResp true n.term))
      (hsent : sent.Sublist (requests n))
      (hcore : n'.core = { n.core with
        role := .candidate, term := u32 (n.term + 1), votedFor := n.id, votesGranted := 1 }) :
      Ballot env hand n ⟨n', sent, [.voted (u32 (n.term + 1)) n.id]⟩
  | vote {n' : Node} {src term cand lastIdx lastTerm : ℕ} {sent : List (ℕ × Msg)}
      (hhand : hand = some (src, .voteReq term cand lastIdx lastTerm)) (hterm : n.term ≤ term)
      (hlease : leaseRefuses env n cand = false) (hlog : logOk n lastIdx lastTerm = true)
      (hfree : n.term = term → n.votedFor = 0 ∨ n.votedFor = cand)
      (hsent : sent.Sublist [(src, .voteResp true term)])
      (hcore : n'.core = { (takeTerm n term).core with votedFor := cand }) :
      Ballot env hand n ⟨n', sent, [.voted term cand]⟩
  | count {n' : Node} {src : ℕ} (hhand : hand = some (src, .voteResp true n.term))
      (hrole : n.role = .candidate)
      (hcore : n'.core = { n.core with votesGranted := u32 (n.votesGranted + 1) }) :
      Ballot env hand n (Act.pure n')
  | win {n' : Node} {src : ℕ} (hhand : hand = some (src, .voteResp true n.term))
      (hrole : n.role = .candidate) (hvotes : raftMajority n ≤ n.votesGranted + 1)
      (hcore : n'.core = { n.core with
        role := .leader, votesGranted := u32 (n.votesGranted + 1)
        matched := n.core.matched.map fun x => (x.1, 0) }) :
      Ballot env hand n ⟨n', [], [.elected n.term]⟩

/-- A call is a sequence of moves, or deals with a vote and then moves without the message. -/
inductive Call (env : Env) (hand : Hand) (n : Node) : Act → Prop
  | moves {a : Act} (h : Moves hand n a) : Call env hand n a
  | ballot {a b : Act} (ha : Ballot env hand n a) (hb : Moves none a.node b) :
      Call env hand n (a.seq b)

theorem Ballot.call {env : Env} {a : Act} (h : Ballot env hand n a) : Call env hand n a := by
  have h2 := Call.ballot h (Moves.nil a.node)
  rwa [seq_pure] at h2

section
variable (n : Node)

theorem broadcast_sublist (m : Msg) :
    (broadcast env n m).sent.Sublist (n.peers.map fun p => (p.id, m)) := by
  unfold broadcast forPeers
  dsimp only
  induction n.peers with
  | nil => exact List.Sublist.refl _
  | cons p ps ih =>
    rw [flatMap_cons, map_cons, ← singleton_append]
    refine List.Sublist.append ?_ ih
    unfold sealSend
    split
    · split
      · exact List.Sublist.refl _
      · exact nil_sublist _
    · exact nil_sublist _

theorem reply_sublist (src : ℕ) (m : Msg) :
    ((sealSend env src m).map fun m => (src, m)).Sublist [(src, m)] := by
  unfold sealSend
  split
  · exact List.Sublist.refl _
  · exact nil_sublist _

theorem raftStartElection_ballot (src votes : ℕ) :
    Ballot env (some (src, .prevoteResp true n.term)) n
      (raftStartElection env { n with votesGranted := votes }) := by
  have hcore : (raftStartElection env { n with votesGranted := votes }).node.core = { n.core with
      role := .candidate, term := u32 (n.term + 1), votedFor := n.id, votesGranted := 1 } :=
    broadcast_core env _ _
  have hsent : (raftStartElection env { n with votesGranted := votes }).sent.Sublist
      (requests n) := broadcast_sublist env _ _
  exact .stand rfl hsent hcore

theorem onPrevoteResp_call (src : ℕ) (granted : Bool) (term : ℕ) :
    Call env (some (src, .prevoteResp granted term)) n (onPrevoteResp env n granted term) := by
  unfold onPrevoteResp
  split
  · rename_i h
    exact .moves (Move.stepDown h).moves
  split
  · rename_i hcount
    obtain ⟨hrole, rfl, rfl⟩ := hcount
    dsimp only
    split
    · exact (raftStartElection_ballot env n src _).call
    have hcore : { n with votesGranted := u32 (n.votesGranted + 1) }.core =
        { n.core with role := .preCandidate, votesGranted := u32 (n.votesGranted + 1) } := by
      rw [← hrole]
      rfl
    exact .moves (Move.campaign hcore).moves
  · exact .moves (.nil n)

theorem logOk_takeTerm (term lastIdx lastTerm : ℕ) :
    logOk (takeTerm n term) lastIdx lastTerm = logOk n lastIdx lastTerm := by
  unfold takeTerm
  split <;> rfl

theorem onVoteReq_call (src term cand lastIdx lastTerm : ℕ) :
    Call env (some (src, .voteReq term cand lastIdx lastTerm)) n
      (onVoteReq env n src term cand lastIdx lastTerm) := by
  unfold onVoteReq
  split
  · exact .moves (reply_moves env n rfl rfl)
  rename_i hlease
  unfold giveVote
  split
  · rename_i hgive
    obtain ⟨hlog, hterm, hfree⟩ := hgive
    have hle : n.term ≤ term := by
      rw [takeTerm_term] at hterm
      omega
    have hfree' : n.term = term → n.votedFor = 0 ∨ n.votedFor = cand := by
      rintro rfl
      unfold takeTerm at hfree
      rwa [if_neg (lt_irrefl _)] at hfree
    refine (Ballot.vote rfl hle (Bool.not_eq_true _ ▸ hlease)
      (logOk_takeTerm n term lastIdx lastTerm ▸ hlog) hfree' ?_ rfl).call
    rw [← hterm]
    exact reply_sublist env src _
  · exact .moves ((takeTerm_moves n term).after (reply_moves env _ rfl rfl))

theorem onVoteResp_call (src : ℕ) (granted : Bool) (term : ℕ) :
    Call env (some (src, .voteResp granted term)) n (onVoteResp env n granted term) := by
  unfold onVoteResp
  split
  · rename_i h
    exact .moves (Move.stepDown h).moves
  split
  · rename_i hcount
    obtain ⟨hrole, rfl, rfl⟩ := hcount
    dsimp only
    split
    · rename_i hvotes
      have hle : u32 (n.votesGranted + 1) ≤ n.votesGranted + 1 := Nat.mod_le _ _
      refine Call.ballot (.win rfl hrole (hvotes.trans hle) ?_) (raftReplicate_moves env _)
      simp [Node.core, raftNoteLease]
    · exact (Ballot.count rfl hrole rfl).call
  · exact .moves (.nil n)

theorem onRaft_call (src : ℕ) (msg : Msg) :
    Call env (some (src, msg)) n (onRaft env n src msg) := by
  cases msg with
  | prevoteReq term cand lastIdx lastTerm =>
    exact .moves (onPrevoteReq_moves env n src term cand lastIdx lastTerm)
  | prevoteResp granted term => exact onPrevoteResp_call env n src granted term
  | voteReq term cand lastIdx lastTerm => exact onVoteReq_call env n src term cand lastIdx lastTerm
  | voteResp granted term => exact onVoteResp_call env n src granted term
  | heartbeat term leader => exact .moves (onHeartbeat_moves env n term leader)
  | append term leader prevI prevT lcommit eindex e =>
    exact .moves (onAppend_moves env n src term leader prevI prevT lcommit eindex e)
  | appendResp term ok matched => exact .moves (onAppendResp_moves env n src term ok matched)
  | snapshot term leader snapI snapT last off items =>
    exact .moves (onSnapshot_moves env n src term leader snapI snapT last off items)
  | snapshotResp term ok matched off =>
    exact .moves (onSnapshotResp_moves env n src term ok matched off)

end

end Mohhdy.Raft
