import Mohhdy.P2p.Session

/-! What the functions of the transport do to the peer table: which slots they touch, and which
fields of them. -/
namespace Mohhdy.P2p
open Tables List
set_option autoImplicit false

variable {p : Peer} {Box : Type} {P : Prim Box} {n : Node}

def Node.Distinct (n : Node) : Prop := (n.peers.map Peer.id).Nodup

theorem byId_mem {id : UInt32} (h : byId n id = some p) : p ∈ n.peers ∧ p.id = id :=
  ⟨mem_of_find?_eq_some h, by simpa using List.find?_some h⟩

theorem byId_none {id : UInt32} (h : byId n id = none) : ∀ p ∈ n.peers, p.id ≠ id := by
  simpa [byId] using h

theorem Node.Distinct.eq_of_id (h : n.Distinct) {q : Peer} (hp : p ∈ n.peers) (hq : q ∈ n.peers)
    (hid : p.id = q.id) : p = q :=
  inj_on_of_nodup_map h hp hq hid

theorem Node.Distinct.byId (h : n.Distinct) (hp : p ∈ n.peers) : byId n p.id = some p := by
  cases hq : P2p.byId n p.id with
  | none => exact absurd rfl (byId_none hq p hp)
  | some q =>
    obtain ⟨hmem, hid⟩ := byId_mem hq
    rw [h.eq_of_id hmem hp hid]

theorem Node.Distinct.setPeer (h : n.Distinct) (id : UInt32) {f : Peer → Peer}
    (hf : ∀ p, (f p).id = p.id) : (setPeer n id f).Distinct := by
  change ((modifyFirst _ f n.peers).map Peer.id).Nodup
  rw [modifyFirst_map _ _ _ hf]
  exact h

theorem Node.Distinct.mem_setPeer (h : n.Distinct) {id : UInt32} {f : Peer → Peer}
    (hp : p ∈ (P2p.setPeer n id f).peers) :
    (p ∈ n.peers ∧ p.id ≠ id) ∨ ∃ q ∈ n.peers, q.id = id ∧ p = f q :=
  mem_modifyFirst (fun a => by simp) h hp

/-! ## Sealing -/

def counted (n : Node) (dst ctr : UInt32) : Node :=
  setPeer { n with msgId := n.msgId + 1 } dst fun q => { q with txCounter := ctr }

theorem sealSend_cases (P : Prim Box) (n : Node) (dst : UInt32) (inner : Inner) : sealSend P n dst inner = .pure n ∨
      ∃ p ∈ n.peers, p.id = dst ∧ p.keyed = true ∧
        (sealSend P n dst inner).calls = [⟨p.key, p.iv, (n.id, p.txCounter + 1), dst, inner⟩] ∧
        (sealSend P n dst inner).delivered = [] ∧
        (((sealSend P n dst inner).frames = [] ∧
            (sealSend P n dst inner).node = counted n dst (p.txCounter + 1)) ∨
          ∃ hdr box, hdr.src = n.id ∧ hdr.dst = dst ∧
            P.aes128GcmEncrypt p.key p.iv (n.id, p.txCounter + 1) hdr.aad inner = some box ∧
            (sealSend P n dst inner).frames = [.sealed hdr (p.txCounter + 1) box] ∧
            (sealSend P n dst inner).node =
              keepCopy (counted n dst (p.txCounter + 1)) dst (p.txCounter + 1) inner) := by
  unfold sealSend
  split
  · exact .inl rfl
  rename_i p hp
  obtain ⟨hmem, rfl⟩ := byId_mem hp
  split
  · exact .inl rfl
  rename_i hk
  split
  · exact .inl rfl
  split
  · exact .inl rfl
  refine .inr ⟨p, hmem, rfl, by simpa using hk, ?_⟩
  dsimp only
  split
  · exact ⟨rfl, rfl, .inl ⟨rfl, rfl⟩⟩
  rename_i box hbox
  exact ⟨rfl, rfl, .inr ⟨_, box, rfl, rfl, hbox, rfl, rfl⟩⟩

/-! ## Slots for a HELLO -/

theorem slotFor_spec (h : n.Distinct) {src : UInt32} {name : Bytes} {peers : List Peer}
    (hs : slotFor n src name = some peers) : (peers.map Peer.id).Nodup ∧
      ∀ p ∈ peers, p ∈ n.peers ∨ (byId n src = none ∧ ∃ b, p = Peer.new src b) := by
  have hfree : byId n src = none →
      (if n.peers.length < 6 then some (n.peers ++ [Peer.new src false]) else none) = some peers →
      (peers.map Peer.id).Nodup ∧
        ∀ p ∈ peers, p ∈ n.peers ∨ (byId n src = none ∧ ∃ b, p = Peer.new src b) := by
    intro hnone hif
    split at hif
    · cases hif
      constructor
      · rw [map_append, nodup_append]
        refine ⟨h, by simp, ?_⟩
        intro a ha b hb heq
        obtain ⟨p, hp, rfl⟩ := mem_map.mp ha
        have hb' : b = src := by simpa [Peer.new] using hb
        exact byId_none hnone p hp (heq.trans hb')
      · intro p hp
        rcases mem_append.mp hp with hp | hp
        · exact .inl hp
        · exact .inr ⟨hnone, false, mem_singleton.mp hp⟩
    · cases hif
  unfold slotFor at hs
  dsimp only at hs
  split at hs
  · cases hs
    exact ⟨h, fun p hp => .inl hp⟩
  rename_i hnone
  split at hs
  · exact hfree hnone hs
  rename_i old hold
  split at hs
  · exact hfree hnone hs
  cases hs
  refine ⟨?_, modifyFirst_forall (fun p hp => .inl hp) fun x _ _ => .inr ⟨hnone, x.blocked, rfl⟩⟩
  -- The slot of the peer that is down changes its id to one that no other slot has.
  obtain ⟨l₁, l₂, hl, -, -, hmod⟩ := modifyFirst_found hold fun old => Peer.new src old.blocked
  have hnew := byId_none hnone
  rw [Node.Distinct, hl, map_append, map_cons, nodup_middle, nodup_cons] at h
  rw [hmod, map_append, map_cons, nodup_middle, nodup_cons]
  refine ⟨fun hin => ?_, h.2⟩
  rw [← map_append] at hin
  obtain ⟨p, hp, hid⟩ := mem_map.mp hin
  exact hnew p (hl ▸ perm_middle.mem_iff.mpr (mem_cons_of_mem _ hp)) hid

theorem greet_id (mac : Bytes) (h : Hello) (p : Peer) : (greet P n mac h p).id = p.id := by
  unfold greet derive
  split
  · rfl
  dsimp only
  split
  · split
    · rfl
    · split <;> rfl
  · rfl

structure Session where
  (key iv : Bytes)
  (txCounter rxCounter : UInt32)
  rtx : Rtx

def Peer.session (p : Peer) : Session := ⟨p.key, p.iv, p.txCounter, p.rxCounter, p.rtx⟩

def SessionKey (P : Prim Box) (a b : UInt32) (key iv : Bytes) : Prop :=
  ∃ netkey shared, key = (P.sha256 (keyLabel ++ netkey ++ shared ++ sessionIds a b)).take 16 ∧
    iv = ((P.sha256 (keyLabel ++ netkey ++ shared ++ sessionIds a b)).drop 16).take 4

theorem derive_keyed (hk : (derive P n p).keyed = true) :
    SessionKey P n.id p.id (derive P n p).key (derive P n p).iv ∧
      (derive P n p).txCounter = 0 ∧ (derive P n p).rxCounter = 0 ∧
      (derive P n p).rtx = p2pRtxInit := by
  unfold derive at hk ⊢
  split at hk
  · cases hk
  rename_i shared hshared
  split at hk
  · cases hk
  rename_i hz
  rw [if_neg hz]
  exact ⟨⟨n.netkey, shared, rfl, rfl⟩, rfl, rfl, rfl⟩

theorem greet_cases {mac : Bytes} {h : Hello} (hk : (greet P n mac h p).keyed = true) :
    (p.keyed = true ∧ (greet P n mac h p).session = p.session) ∨
      (¬ (p.keyed = true ∧ p.pub = h.pub) ∧
        SessionKey P n.id p.id (greet P n mac h p).key (greet P n mac h p).iv ∧
        (greet P n mac h p).txCounter = 0 ∧ (greet P n mac h p).rtx = p2pRtxInit) := by
  unfold greet at hk ⊢
  split at hk
  · rename_i hb
    rw [if_pos hb]
    exact .inl ⟨hk, rfl⟩
  rename_i hb
  rw [if_neg hb]
  dsimp only at hk ⊢
  split at hk
  · rename_i hnew
    rw [if_pos hnew]
    obtain ⟨hkey, htx, _, hrtx⟩ := derive_keyed hk
    refine .inr ⟨?_, hkey, htx, hrtx⟩
    rintro ⟨hkd, hpub⟩
    simp [hkd, hpub] at hnew
  · rename_i hnew
    rw [if_neg hnew]
    exact .inl ⟨hk, rfl⟩

theorem onHello_of_tag_ne {mac : Bytes} {src msgId : UInt32} {h : Hello} {tag : Bytes}
    (hne : tag ≠ P.hmacSha256 n.netkey src msgId h) : onHello P n mac src msgId h tag = n :=
  if_pos (.inr hne)

/-- After a HELLO: the slots of other peers are unchanged or gone, and that of its sender, if
keyed, has its old session or a fresh one. -/
theorem onHello_spec (hd : n.Distinct) (mac : Bytes) (src msgId : UInt32) (h : Hello) (tag : Bytes) :
    (onHello P n mac src msgId h tag).Distinct ∧ (onHello P n mac src msgId h tag).id = n.id ∧
      ∀ p' ∈ (onHello P n mac src msgId h tag).peers, p'.keyed = true → p' ∈ n.peers ∨
          (∃ p ∈ n.peers, p.id = p'.id ∧ p.keyed = true ∧ p'.session = p.session) ∨
          (p'.id = src ∧ SessionKey P n.id src p'.key p'.iv ∧ p'.txCounter = 0 ∧
            p'.rtx = p2pRtxInit ∧ (byId n src).any (fun p => p.keyed && p.pub == h.pub) = false) := by
  unfold onHello
  split
  · exact ⟨hd, rfl, fun p' hp _ => .inl hp⟩
  split
  · exact ⟨hd, rfl, fun p' hp _ => .inl hp⟩
  rename_i peers hslot
  obtain ⟨hnodup, hpeers⟩ := slotFor_spec hd hslot
  have hd' : Node.Distinct { n with peers := peers } := hnodup
  refine ⟨hd'.setPeer src fun p => greet_id .., rfl, fun p' hp' hk => ?_⟩
  obtain ⟨hp, hne⟩ | ⟨p, hp, hid, rfl⟩ := hd'.mem_setPeer hp'
  · rcases hpeers p' hp with hold | ⟨_, b, rfl⟩
    · exact .inl hold
    · exact absurd rfl hne
  · rcases greet_cases hk with ⟨hkd, hsess⟩ | ⟨hpub, hkey, htx, hrtx⟩
    · rcases hpeers p hp with hold | ⟨_, b, rfl⟩
      · exact .inr (.inl ⟨p, hold, (greet_id ..).symm, hkd, hsess⟩)
      · cases hkd
    · refine .inr (.inr ⟨(greet_id ..).trans hid, hid ▸ hkey, htx, hrtx, ?_⟩)
      rcases hpeers p hp with hold | ⟨hnone, _⟩
      · rw [← hid, hd.byId hold]
        simpa using hpub
      · rw [hnone]
        rfl

end Mohhdy.P2p
