import Mohhdy.P2p.PeerTable

/-! Keys and nonces of the sealed frames of one node.

A session key is a function of two identities and the nonce is a counter of the slot that holds it,
so a slot that is keyed again with the same key starts the same nonces again. -/
namespace Mohhdy.P2p
open Tables Runs List
set_option autoImplicit false

variable {n' : Node}

/-! ## The bytes of the two ids -/

theorem put32_toNat (v : UInt32) : (put32 v).map UInt8.toNat = [v.toNat / 2 ^ 24 % 256, v.toNat / 2 ^ 16 % 256,
      v.toNat / 2 ^ 8 % 256, v.toNat % 256] := by
  simp [put32, UInt32.toNat_shiftRight, Nat.shiftRight_eq_div_pow]

theorem put32_injective {v v' : UInt32} (h : put32 v = put32 v') : v = v' := by
  have hmap := congrArg (List.map UInt8.toNat) h
  rw [put32_toNat, put32_toNat] at hmap
  simp only [List.cons.injEq, and_true] at hmap
  obtain ⟨h1, h2, h3, h4⟩ := hmap
  have hv := v.toNat_lt
  have hv' := v'.toNat_lt
  apply UInt32.toNat_inj.mp
  omega

theorem sessionIds_peer {a b b' : UInt32} (h : sessionIds a b = sessionIds a b') : b = b' := by
  obtain ⟨hlo, hhi⟩ := append_inj h rfl
  have hlo := put32_injective hlo
  have hhi := put32_injective hhi
  split at hlo <;> split at hlo <;> simp_all [UInt32.not_lt]

/-- Different pairs of ids give different keys: no collision of SHA-256 on what `derive` hashes. -/
def Prim.KeysApart {Box : Type} (P : Prim Box) : Prop :=
  ∀ a b a' b' key iv, SessionKey P a b key iv → SessionKey P a' b' key iv →
    sessionIds a b = sessionIds a' b'

/-! ## Runs of one node -/

variable {Box : Type}

structure Track where
  node : Node
  calls : List Call

def Track.init : Track := ⟨Node.zero, []⟩

def Track.act (s : Track) (o : Out Box) : Track := ⟨o.node, s.calls ++ o.calls⟩

def Track.step (P : Prim Box) (s : Track) (op : Op Box) : Track := s.act (op.run P s.node)

def Call.use (c : Call) : Bytes × Bytes × UInt32 × UInt32 := (c.key, c.iv, c.nonce)

/-- The sender and the HELLO of a datagram that holds one with the right tag. -/
def Op.received (P : Prim Box) (n : Node) : Op Box → Option (UInt32 × Hello)
  | .datagram _ (.hello src id h tag) => if tag = P.hmacSha256 n.netkey src id h then some (src, h) else none
  | _ => none

/-- No counter is at its last value, and a HELLO leaves the session of its sender as it is unless
nothing was ever sealed for that sender under this node's id. -/
def SessionKept (P : Prim Box) (s : Track) (op : Op Box) : Prop :=
  (∀ p ∈ s.node.peers, p.txCounter ≠ 0xffffffff) ∧
    ∀ x ∈ op.received P s.node,
      (byId s.node x.1).any (fun p => p.keyed && p.pub == x.2.pub) = true ∨
        ∀ c ∈ s.calls, ¬ (c.nonce.1 = s.node.id ∧ c.peer = x.1)

instance (P : Prim Box) (s : Track) (op : Op Box) : Decidable (SessionKept P s op) :=
  inferInstanceAs (Decidable (_ ∧ _))

variable {P : Prim Box} {s : Track} {n : Node}

structure Separate (P : Prim Box) (s : Track) : Prop where
  distinct : s.node.Distinct
  keys : ∀ p ∈ s.node.peers, p.keyed = true → SessionKey P s.node.id p.id p.key p.iv
  callKeys : ∀ c ∈ s.calls, SessionKey P c.nonce.1 c.peer c.key c.iv
  below : ∀ p ∈ s.node.peers, p.keyed = true → ∀ c ∈ s.calls, c.nonce.1 = s.node.id →
    c.peer = p.id → c.nonce.2 ≤ p.txCounter
  nodup : (s.calls.map Call.use).Nodup

theorem act_pure (s : Track) (n : Node) : s.act (Out.pure n : Out Box) = ⟨n, s.calls⟩ := by
  simp [Track.act, Out.pure]

theorem act_andThen (s : Track) (o : Out Box) (f : Node → Out Box) :
    s.act (o.andThen f) = (s.act o).act (f o.node) := by
  simp [Track.act, Out.andThen]

def Peer.seal (p : Peer) : UInt32 × Bool × Bytes × Bytes × UInt32 :=
  (p.id, p.keyed, p.key, p.iv, p.txCounter)

structure Quiet (n n' : Node) : Prop where
  id : n'.id = n.id
  peers : n'.peers.map Peer.seal = n.peers.map Peer.seal

theorem Quiet.refl (n : Node) : Quiet n n := ⟨rfl, rfl⟩

theorem Quiet.setPeer (n : Node) (id : UInt32) {f : Peer → Peer}
    (hf : ∀ p, (f p).seal = p.seal) : Quiet n (setPeer n id f) :=
  ⟨rfl, modifyFirst_map _ _ _ hf _⟩

theorem Quiet.mem {n : Node} (h : Quiet n n') {p' : Peer} (hp : p' ∈ n'.peers) :
    ∃ p ∈ n.peers, p.id = p'.id ∧ p.keyed = p'.keyed ∧ p.key = p'.key ∧ p.iv = p'.iv ∧
      p.txCounter = p'.txCounter := by
  have hin : p'.seal ∈ n.peers.map Peer.seal := h.peers ▸ mem_map_of_mem hp
  simpa [Peer.seal] using hin

def Room (n : Node) (id : UInt32) : Prop := ∀ p ∈ n.peers, p.id = id → p.txCounter ≠ 0xffffffff

theorem Quiet.room {n : Node} (h : Quiet n n') {id : UInt32} (hroom : Room n id) : Room n' id := by
  intro p' hp' hid
  obtain ⟨p, hp, hpid, -, -, -, htx⟩ := h.mem hp'
  exact htx ▸ hroom p hp (hpid.trans hid)

theorem Quiet.distinct {n : Node} (h : Quiet n n') (hd : n.Distinct) : n'.Distinct := by
  have hids := congrArg (List.map Prod.fst) h.peers
  rw [map_map, map_map] at hids
  exact (congrArg List.Nodup hids).mpr hd

theorem Separate.quiet (h : Separate P s) (hq : Quiet s.node n') : Separate P ⟨n', s.calls⟩ where
  distinct := hq.distinct h.distinct
  keys p' hp hk := by
    obtain ⟨p, hp, hid, hkd, hkey, hiv, _⟩ := hq.mem hp
    have hold := h.keys p hp (hkd.trans hk)
    rwa [hid, hkey, hiv, ← hq.id] at hold
  __ := h
  below p' hp hk c hc hself hpeer := by
    obtain ⟨p, hp, hid, hkd, _, _, htx⟩ := hq.mem hp
    rw [← htx]
    exact h.below p hp (hkd.trans hk) c hc (hself.trans hq.id) (hpeer.trans hid.symm)

theorem Separate.quietly (h : Separate P s) (hq : Quiet s.node n') : Separate P (s.act (Out.pure n' : Out Box)) := by
  rw [act_pure]
  exact h.quiet hq

theorem keepCopy_quiet (n : Node) (dst ctr : UInt32) (inner : Inner) : Quiet n (keepCopy n dst ctr inner) := by
  cases inner with
  | data m => exact Quiet.setPeer n dst fun p => rfl
  | _ => exact .refl n

theorem shapeEnqueue_quiet (n : Node) (dst : UInt32) (m : Message) : Quiet n (shapeEnqueue n dst m) := by
  unfold shapeEnqueue
  split
  · exact .refl n
  split <;> exact ⟨rfl, rfl⟩

/-! ## Sealing -/

theorem sealSend_quiet (P : Prim Box) (n : Node) (dst : UInt32) (inner : Inner) : sealSend P n dst inner = .pure n ∨
      ∃ p ∈ n.peers, p.id = dst ∧ p.keyed = true ∧
        (sealSend P n dst inner).calls = [⟨p.key, p.iv, (n.id, p.txCounter + 1), dst, inner⟩] ∧
        Quiet (counted n dst (p.txCounter + 1)) (sealSend P n dst inner).node := by
  obtain hnone | ⟨p, hp, hid, hk, hcalls, _, hout⟩ := sealSend_cases P n dst inner
  · exact .inl hnone
  refine .inr ⟨p, hp, hid, hk, hcalls, ?_⟩
  obtain ⟨_, hnode⟩ | ⟨_, _, _, _, _, _, hnode⟩ := hout <;> rw [hnode]
  · exact .refl _
  · exact keepCopy_quiet ..

theorem Separate.seal (hP : P.KeysApart) (h : Separate P s) (dst : UInt32) (inner : Inner)
    (hroom : Room s.node dst) : Separate P (s.act (sealSend P s.node dst inner)) := by
  obtain hnone | ⟨p, hp, rfl, hk, hcalls, hq⟩ := sealSend_quiet P s.node dst inner
  · rw [hnone, act_pure]
    exact h
  have hlt : p.txCounter < p.txCounter + 1 := by
    have hne := hroom p hp rfl
    have hmax : p.txCounter.toNat ≠ 0xffffffff := fun he => hne (UInt32.toNat_inj.mp he)
    have hbound := p.txCounter.toNat_lt
    rw [UInt32.lt_iff_toNat_lt, UInt32.toNat_add]
    simp only [UInt32.toNat_one]
    omega
  have hbelow := h.below p hp hk
  have hkey := h.keys p hp hk
  -- The state with only the counter moved and the call noted.
  have hmid : Separate P ⟨counted s.node p.id (p.txCounter + 1),
      s.calls ++ [⟨p.key, p.iv, (s.node.id, p.txCounter + 1), p.id, inner⟩]⟩ := by
    refine ⟨h.distinct.setPeer _ fun _ => rfl, ?_, ?_, ?_, ?_⟩
    · intro q hq hkq
      obtain ⟨hold, _⟩ | ⟨q, hold, hid, rfl⟩ := h.distinct.mem_setPeer hq
      · exact h.keys q hold hkq
      · exact h.keys q hold hkq
    · exact forall_mem_append.mpr ⟨h.callKeys, forall_mem_singleton.mpr hkey⟩
    · intro q hq hkq c hc hself hpeer
      obtain ⟨hold, hne⟩ | ⟨q, hold, hid, rfl⟩ := h.distinct.mem_setPeer hq
      · rcases mem_append.mp hc with hc | hc
        · exact h.below q hold hkq c hc hself hpeer
        · rw [mem_singleton.mp hc] at hpeer
          exact absurd hpeer.symm hne
      · rcases mem_append.mp hc with hc | hc
        · exact UInt32.le_of_lt (UInt32.lt_of_le_of_lt (hbelow c hc hself (hpeer.trans hid)) hlt)
        · rw [mem_singleton.mp hc]
          exact UInt32.le_refl _
    · rw [map_append, nodup_append]
      refine ⟨h.nodup, by simp, ?_⟩
      intro x hx y hy heq
      obtain ⟨c, hc, rfl⟩ := mem_map.mp hx
      obtain rfl : y = (p.key, p.iv, s.node.id, p.txCounter + 1) := by simpa [Call.use] using hy
      simp only [Call.use, Prod.mk.injEq] at heq
      obtain ⟨hck, hciv, hnonce⟩ := heq
      -- Equal keys are keys of the same two nodes, so the call was for this peer.
      have hself : c.nonce.1 = s.node.id := congrArg Prod.fst hnonce
      have hsame := h.callKeys c hc
      rw [hck, hciv, hself] at hsame
      have hpeer := sessionIds_peer (hP _ _ _ _ _ _ hsame hkey)
      have hle := hbelow c hc hself hpeer
      rw [congrArg Prod.snd hnonce] at hle
      exact absurd hlt (UInt32.not_lt.mpr hle)
  rw [Track.act, hcalls]
  exact hmid.quiet hq

theorem sealSend_room {dst id : UInt32} (hd : n.Distinct) (inner : Inner) (hne : id ≠ dst)
    (h : Room n id) : Room (sealSend P n dst inner).node id := by
  obtain hnone | ⟨p, -, rfl, _, _, hq⟩ := sealSend_quiet P n dst inner
  · rw [hnone]
    exact h
  refine hq.room fun q hmem hid => ?_
  obtain ⟨hold, _⟩ | ⟨x, _, hx, rfl⟩ := hd.mem_setPeer hmem
  · exact h q hold hid
  · exact absurd (hid.symm.trans hx) hne

theorem Separate.puts (hP : P.KeysApart) (body : Bytes) (issue : ℕ) (admitted : UInt32 → Bool)
    (paced : Bool) (ps : List Peer) :
    ∀ (s : Track) (o : Out Box), Separate P (s.act o) → (ps.map Peer.id).Nodup →
      (∀ p ∈ ps, Room o.node p.id) →
      Separate P (s.act (ps.foldl
        (fun o p => o.andThen fun n => putOne P body issue admitted paced n p) o)) := by
  induction ps with
  | nil => exact fun s o h _ _ => h
  | cons p ps ih =>
    intro s o h hnodup hroom
    obtain ⟨hp, hnodup⟩ := nodup_cons.mp hnodup
    obtain ⟨hroom0, hroom⟩ := forall_mem_cons.mp hroom
    rw [foldl_cons]
    -- One peer: nothing, a queued message, or a frame for that peer.
    have hone : Separate P ((s.act o).act (putOne P body issue admitted paced o.node p)) ∧
        ∀ q ∈ ps, Room (putOne P body issue admitted paced o.node p).node q.id := by
      unfold putOne
      split
      · exact ⟨h.quietly (.refl _), hroom⟩
      split
      · refine ⟨h.seal hP p.id _ hroom0, fun q hq => ?_⟩
        exact sealSend_room h.distinct _ (fun he => hp (he ▸ mem_map_of_mem hq)) (hroom q hq)
      split
      · have hq := shapeEnqueue_quiet o.node p.id ⟨.put, body, issue⟩
        exact ⟨h.quietly hq, fun q hmem => hq.room (hroom q hmem)⟩
      · exact ⟨h.quietly (.refl _), hroom⟩
    refine ih s _ ?_ hnodup hone.2
    rw [act_andThen]
    exact hone.1

/-! ## Receiving -/

theorem remember_quiet (n : Node) (src id : UInt32) : Quiet n (remember n src id) := ⟨rfl, rfl⟩

theorem screen_cases (n : Node) (mac : Bytes) (src id : UInt32) :
    screen n mac src id = none ∨ screen n mac src id = some (remember n src id) := by
  unfold screen
  split_ifs
  · exact .inl rfl
  · exact .inl rfl
  · exact .inl rfl
  · exact .inr rfl

theorem Separate.hello (h : Separate P s) (mac : Bytes) (src msgId : UInt32) (hello : Hello) (tag : Bytes)
    (hkept : tag = P.hmacSha256 s.node.netkey src msgId hello →
      (byId s.node src).any (fun p => p.keyed && p.pub == hello.pub) = true ∨
        ∀ c ∈ s.calls, ¬ (c.nonce.1 = s.node.id ∧ c.peer = src)) :
    Separate P ⟨onHello P s.node mac src msgId hello tag, s.calls⟩ := by
  by_cases htag : tag = P.hmacSha256 s.node.netkey src msgId hello
  swap
  · rw [onHello_of_tag_ne htag]
    exact h
  obtain ⟨hd, hid, hpeers⟩ := onHello_spec (P := P) h.distinct mac src msgId hello tag
  refine ⟨hd, fun p' hp' hk => ?_, h.callKeys, fun p' hp' hk c hc hself hpeer => ?_, h.nodup⟩
  · rcases hpeers p' hp' hk with hold | ⟨p, hp, hpid, hkd, hsess⟩ | ⟨rfl, hkey, _⟩
    · exact hid ▸ h.keys p' hold hk
    · have hold := h.keys p hp hkd
      simp only [Peer.session, Session.mk.injEq] at hsess
      rwa [hpid, ← hsess.1, ← hsess.2.1, ← hid] at hold
    · rw [hid]
      exact hkey
  · rcases hpeers p' hp' hk with hold | ⟨p, hp, hpid, hkd, hsess⟩ | ⟨rfl, _, _, _, hnew⟩
    · exact h.below p' hold hk c hc (hself.trans hid) hpeer
    · simp only [Peer.session, Session.mk.injEq] at hsess
      rw [hsess.2.2.1]
      exact h.below p hp hkd c hc (hself.trans hid) (hpeer.trans hpid.symm)
    · -- A fresh session: nothing was sealed for this peer.
      rcases hkept htag with hany | hnone
      · cases hany.symm.trans hnew
      · exact absurd ⟨hself.trans hid, hpeer⟩ (hnone c hc)

theorem onSealed_quiet (n : Node) (p : Peer) (inner : Inner) :
    (onSealed n p inner : Out Box).calls = [] ∧ Quiet n (onSealed n p inner : Out Box).node := by
  unfold onSealed
  split
  · exact ⟨rfl, Quiet.setPeer n p.id fun _ => rfl⟩
  · exact ⟨rfl, Quiet.setPeer n p.id fun _ => rfl⟩
  · exact ⟨rfl, .refl n⟩

theorem openSealed_quiet (P : Prim Box) (n : Node) (hdr : Header) (ctr : UInt32) (box : Box) :
    (openSealed P n hdr ctr box).calls = [] ∧ Quiet n (openSealed P n hdr ctr box).node := by
  unfold openSealed
  split
  · exact ⟨rfl, .refl n⟩
  rename_i p _
  split
  · exact ⟨rfl, .refl n⟩
  split
  · exact ⟨rfl, .refl n⟩
  rename_i inner _
  split
  · exact ⟨rfl, .refl n⟩
  have hset : Quiet n (setPeer n p.id fun p => { p with rxCounter := ctr }) :=
    Quiet.setPeer n p.id fun _ => rfl
  obtain ⟨hcalls, hq⟩ := @onSealed_quiet Box
    (setPeer n p.id fun p => { p with rxCounter := ctr }) { p with rxCounter := ctr } inner
  exact ⟨hcalls, hq.id.trans hset.id, hq.peers.trans hset.peers⟩

theorem relay_quiet (n : Node) (mac : Bytes) (hdr : Header) (ctr : UInt32) (box : Box) :
    (relay n mac hdr ctr box).calls = [] ∧ (relay n mac hdr ctr box).node = n := by
  unfold relay
  split
  · split
    · split <;> exact ⟨rfl, rfl⟩
    · exact ⟨rfl, rfl⟩
  · exact ⟨rfl, rfl⟩

theorem Separate.datagram (h : Separate P s) (mac : Bytes) (f : Frame Box) (hkept : SessionKept P s (.datagram mac f)) :
    Separate P (s.act (onDatagram P s.node mac f)) := by
  cases f with
  | foreign => exact h.quietly (.refl _)
  | other src id =>
    obtain hs | hs := screen_cases s.node mac src id <;> rw [onDatagram, hs]
    · exact h.quietly (.refl _)
    · exact h.quietly (remember_quiet ..)
  | hello src id hello tag =>
    obtain hs | hs := screen_cases s.node mac src id <;> rw [onDatagram, hs]
    · exact h.quietly (.refl _)
    · rw [act_pure]
      exact (h.quiet (remember_quiet s.node src id)).hello mac src id hello tag
        fun htag => hkept.2 (src, hello) (if_pos htag)
  | sealed hdr ctr box =>
    obtain hs | hs := screen_cases s.node mac hdr.src hdr.msgId <;> rw [onDatagram, hs]
    · exact h.quietly (.refl _)
    · dsimp only
      have hmem := h.quiet (remember_quiet s.node hdr.src hdr.msgId)
      split
      · obtain ⟨hcalls, hnode⟩ := relay_quiet (remember s.node hdr.src hdr.msgId) mac hdr ctr box
        rw [Track.act, hcalls, hnode, append_nil]
        exact hmem
      · obtain ⟨hcalls, hq⟩ := openSealed_quiet P (remember s.node hdr.src hdr.msgId) hdr ctr box
        rw [Track.act, hcalls, append_nil]
        exact hmem.quiet hq

/-! ## Runs -/

theorem p2pUp_cases (P : Prim Box) (n : Node) (name ip netkey seed : Bytes) :
    p2pUp P n name ip netkey seed = .pure n ∨ ∃ n' frames,
      p2pUp P n name ip netkey seed = ⟨n', [], frames, []⟩ ∧ n'.peers = [] ∧
        n'.shapeQ = List.replicate 8 none ∧ ∀ hdr ctr box, .sealed hdr ctr box ∉ frames := by
  unfold p2pUp
  split
  · exact .inl rfl
  dsimp only
  split
  · exact .inr ⟨_, [], rfl, rfl, rfl, by simp⟩
  · exact .inr ⟨_, _, rfl, rfl, rfl, by simp⟩

theorem Separate.up (h : Separate P s) (name ip netkey seed : Bytes) :
    Separate P (s.act (p2pUp P s.node name ip netkey seed)) := by
  obtain hnone | ⟨n', frames, hout, hpeers, -⟩ := p2pUp_cases P s.node name ip netkey seed
  · rw [hnone]
    exact h.quietly (.refl _)
  · rw [hout, Track.act, append_nil]
    refine ⟨?_, by simp [hpeers], h.callKeys, by simp [hpeers], h.nodup⟩
    rw [Node.Distinct, hpeers]
    exact nodup_nil

theorem Separate.expire (hP : P.KeysApart) (h : Separate P s) (dst ctr : UInt32) (sent : Bool)
    (hroom : Room s.node dst) : Separate P (s.act (rtxExpire P s.node dst ctr sent)) := by
  unfold rtxExpire
  split
  · exact h.quietly (.refl _)
  rename_i p _
  have hset : Quiet s.node (setPeer s.node dst fun p => { p with rtx := (p2pRtxLost p.rtx ctr).1 }) :=
    Quiet.setPeer s.node dst fun _ => rfl
  dsimp only
  split
  · exact h.quietly hset
  rename_i i slot _
  have hseal := (h.quiet hset).seal hP dst (.rtx slot.orig (some slot.msg)) (hset.room hroom)
  split
  · exact hseal.quiet (Quiet.setPeer _ dst fun _ => rfl)
  · exact hseal

theorem Separate.step (hP : P.KeysApart) (h : Separate P s) (op : Op Box)
    (hkept : SessionKept P s op) : Separate P (s.step P op) := by
  have hroom : ∀ id, Room s.node id := fun id p hp _ => hkept.1 p hp
  unfold Track.step
  cases op with
  | up name ip netkey seed => exact h.up name ip netkey seed
  | down => exact h.quietly ⟨rfl, rfl⟩
  | hello =>
    have hq : Quiet s.node { s.node with msgId := s.node.msgId + 1 } := ⟨rfl, rfl⟩
    simpa [Op.run, sendHello, Track.act] using h.quiet hq
  | datagram mac f =>
    rw [Op.run]
    split
    · exact h.datagram mac f hkept
    · exact h.quietly (.refl _)
  | sendText name text issue admitted =>
    rw [Op.run, p2pSendText]
    split
    · exact h.quietly (.refl _)
    rename_i p _
    split
    · exact h.quietly (.refl _)
    split
    · exact h.quietly (.refl _)
    split
    · exact h.seal hP p.id _ (hroom p.id)
    · exact h.quietly (shapeEnqueue_quiet ..)
  | put body issue admitted paced =>
    rw [Op.run, p2pPut]
    split
    · exact h.quietly (.refl _)
    exact Separate.puts hP body issue admitted paced s.node.peers s (.pure s.node)
      (h.quietly (.refl _)) h.distinct fun p _ => hroom p.id
  | drain i admitted =>
    rw [Op.run, shapeDrain]
    split
    · rename_i dst m _
      split
      · exact h.quietly ⟨rfl, rfl⟩
      split
      · exact h.quietly (.refl _)
      rw [act_andThen]
      exact (h.seal hP dst _ (hroom dst)).quietly ⟨rfl, rfl⟩
    · exact h.quietly (.refl _)
  | expire dst ctr sent => exact h.expire hP dst ctr sent (hroom dst)
  | acked dst ctr => exact h.quietly (Quiet.setPeer _ _ fun _ => rfl)
  | control dst body => exact h.seal hP dst _ (hroom dst)
  | peerDown id => exact h.quietly (Quiet.setPeer _ _ fun _ => rfl)
  | linkCost id cost => exact h.quietly (Quiet.setPeer _ _ fun _ => rfl)
  | block name blocked =>
    exact h.quietly ⟨rfl, modifyFirst_map _ (fun p : Peer => { p with blocked := blocked }) _
      (fun _ => rfl) _⟩
  | flowReset => exact h.quietly ⟨rfl, by simp [Peer.seal]⟩

theorem Separate.init (P : Prim Box) : Separate P Track.init where
  distinct := nodup_nil
  keys := by simp [Track.init, Node.zero]
  callKeys := by simp [Track.init]
  below := by simp [Track.init]
  nodup := nodup_nil

/-- In every run whose steps keep the sessions in use, no key, vector and nonce are used twice. -/
theorem nonces_unique (P : Prim Box) (hP : P.KeysApart) (ops : List (Op Box))
    (h : Along (Track.step P) (SessionKept P) Track.init ops) :
    ((run (Track.step P) Track.init ops).calls.map Call.use).Nodup := by
  have hstep : ∀ s op, Separate P s → SessionKept P s op → Separate P (s.step P op) :=
    fun s op hs hc => hs.step hP op hc
  exact (run_invariant hstep (Separate.init P) h).nodup

/-! ## A restart with the stored seed -/

abbrev Term := Bytes × Bytes × (UInt32 × UInt32) × Header × Inner

/-- Primitives that keep what they are given: a digest is the end of its input, and a cipher text
opens with exactly what it was sealed with. -/
def Prim.symbolic : Prim Term where
  sha256 m := m.drop (m.length - 8) ++ List.replicate 24 0
  hmacSha256 _ _ _ _ := []
  x25519PublicKey secret := some secret.reverse
  x25519SharedSecret _ _ := some [1]
  aes128GcmEncrypt key iv nonce aad inner := some (key, iv, nonce, aad, inner)
  aes128GcmDecrypt key iv nonce aad box :=
    if (key, iv, nonce, aad) = (box.1, box.2.1, box.2.2.1, box.2.2.2.1) then some box.2.2.2.2
    else none

theorem symbolic_keysApart : Prim.symbolic.KeysApart := by
  have hkey : ∀ a b key iv, SessionKey Prim.symbolic a b key iv →
      key = sessionIds a b ++ List.replicate 8 0 := by
    rintro a b key iv ⟨netkey, shared, rfl, _⟩
    have hdrop : ∀ m : Bytes,
        (m ++ sessionIds a b).drop ((m ++ sessionIds a b).length - 8) = sessionIds a b := by
      intro m
      rw [length_append, show (sessionIds a b).length = 8 from rfl, Nat.add_sub_cancel, drop_left]
    change ((_ ++ sessionIds a b).drop _ ++ List.replicate 24 0).take 16 = _
    rw [hdrop]
    rfl
  intro a b a' b' key iv h h'
  have heq := (hkey a b key iv h).symm.trans (hkey a' b' key iv h')
  exact (append_inj heq rfl).1

def upA : Op Term := .up [97] [10, 0, 0, 1] (List.replicate 8 0) (List.replicate 32 0)

def helloB (msgId : UInt32) : Op Term :=
  .datagram [2] (.hello 7 msgId ⟨[98], [10, 0, 0, 2], [5], []⟩ [])

def twoTexts : List (Op Term) :=
  [upA, helloB 1, .sendText [98] [104] 0 true, helloB 2, .sendText [98] [105] 1 true]

theorem nonces_unique_twoTexts : (run (Track.step Prim.symbolic) Track.init twoTexts).calls.length = 2 ∧
      ((run (Track.step Prim.symbolic) Track.init twoTexts).calls.map Call.use).Nodup :=
  ⟨by decide +kernel, nonces_unique Prim.symbolic symbolic_keysApart _ (by decide +kernel)⟩

/-- After `p2p_down` and `p2p_up` with the same seed, the same announcement gives the same key and
the first frame the same nonce. -/
theorem restart_repeats_nonce : ¬ ((run (Track.step Prim.symbolic) Track.init
      [upA, helloB 1, .sendText [98] [104] 0 true, .down, upA, helloB 1,
        .sendText [98] [105] 1 true]).calls.map Call.use).Nodup := by
  decide +kernel

end Mohhdy.P2p
