import Mohhdy.P2p.Delivery

/-! Every call and every arrival keeps the register of messages and the windows of a receiver that
keeps its sessions, so it delivers no message twice. -/
namespace Mohhdy.P2p
open Tables Runs List
set_option autoImplicit false

variable {Box : Type} {P : Prim Box} {r v : ℕ} {w : World Box} {reg : Register} {n n' : Node}

/-! ## Calls that issue or send user data -/

theorem Out.eta (o : Out Box) (h : o.delivered = []) : (⟨o.node, o.calls, o.frames, []⟩ : Out Box) = o := by
  cases o
  cases h
  rfl

theorem sealSend_delivered (P : Prim Box) (n : Node) (dst : UInt32) (inner : Inner) :
    (sealSend P n dst inner).delivered = [] := by
  obtain hnone | ⟨_, _, _, _, _, hdel, _⟩ := sealSend_cases P n dst inner
  · rw [hnone]
    rfl
  · exact hdel

theorem sealSend_queue (P : Prim Box) (n : Node) (dst : UInt32) (inner : Inner) :
    (sealSend P n dst inner).node.shapeQ = n.shapeQ := by
  obtain hnone | ⟨_, _, _, _, _, _, ⟨_, hnode⟩ | ⟨_, _, _, _, _, _, hnode⟩⟩ :=
    sealSend_cases P n dst inner
  · rw [hnone]
    rfl
  · rw [hnode]
    rfl
  · rw [hnode]
    cases inner <;> rfl

theorem Once.sealNow (h : Once P r w reg) {dst : UInt32} {m : Message}
    (hun : Unused w reg m.issue dst) (hlt : m.issue < w.issued) :
    Onward P r w reg m.issue dst (w.act v (sealSend P (w.node v) dst (.data m))) := by
  have hq : ∀ x i m', Queued (Function.update w.node v
      (sealSend P (w.node v) dst (.data m)).node x) i dst m' → m'.issue ≠ m.issue := by
    intro x i m' hm'
    refine hun.2 x i m' (queued_update (fun i d m'' hm'' => ?_) i dst m' hm')
    rwa [Queued, sealSend_queue] at hm''
  have hstep := h.sealData hun.1 hlt (.refl _) hq
  rwa [Out.eta _ (sealSend_delivered ..)] at hstep

theorem Once.putOne (h : Once P r w reg) (body : Bytes) (issue : ℕ) (admitted : UInt32 → Bool)
    (paced : Bool) (p : Peer) (hun : Unused w reg issue p.id) (hlt : issue < w.issued) :
    Onward P r w reg issue p.id
      (w.act v (P2p.putOne P body issue admitted paced (w.node v) p)) := by
  have hnothing : Onward P r w reg issue p.id (w.act v (.pure (w.node v))) :=
    h.onward (.refl _) issue p.id
  unfold P2p.putOne
  split
  · exact hnothing
  split
  · exact h.sealNow (m := ⟨.put, body, issue⟩) hun hlt
  split
  · exact h.enqueue (m := ⟨.put, body, issue⟩) hun hlt
  · exact hnothing

/-- The loop of `p2p_put`: the peers that are left are ones the message is not used for. -/
theorem Once.puts (body : Bytes) (issue : ℕ) (admitted : UInt32 → Bool) (paced : Bool)
    (ps : List Peer) : ∀ (w : World Box) (o : Out Box) (reg : Register), Once P r (w.act v o) reg →
      issue < w.issued → (ps.map Peer.id).Nodup →
      (∀ p ∈ ps, Unused (w.act v o) reg issue p.id) →
      ∃ reg', Once P r (w.act v (ps.foldl
        (fun o p => o.andThen fun n => P2p.putOne P body issue admitted paced n p) o)) reg' := by
  induction ps with
  | nil => exact fun w o reg h _ _ _ => ⟨reg, h⟩
  | cons p ps ih =>
    intro w o reg h hlt hnodup hun
    obtain ⟨hp, hnodup⟩ := nodup_cons.mp hnodup
    obtain ⟨hun0, hun⟩ := forall_mem_cons.mp hun
    have hone : Onward P r (w.act v o) reg issue p.id
        (w.act v (o.andThen fun n => P2p.putOne P body issue admitted paced n p)) := by
      have hput := h.putOne (v := v) body issue admitted paced p hun0 hlt
      rw [act_node_self] at hput
      rw [World.act_andThen]
      exact hput
    obtain ⟨reg', h', hkeep⟩ := hone
    refine ih w _ reg' h' hlt hnodup fun q hq => hkeep q.id ?_ (hun q hq)
    exact fun heq => hp (heq ▸ mem_map_of_mem hq)

theorem Once.drain (h : Once P r w reg) (i : ℕ) (admitted : Bool) :
    ∃ reg', Once P r (w.act v (shapeDrain P (w.node v) i admitted)) reg' := by
  have hclear : ∀ n : Node, ∀ j dst m, Queued { n with shapeQ := n.shapeQ.set i none } j dst m →
      Queued n j dst m ∧ j ≠ i := by
    intro n j dst m hq
    change (n.shapeQ.set i none)[j]? = some (some (dst, m)) at hq
    rw [List.getElem?_set] at hq
    split at hq
    · split at hq <;> cases hq
    rename_i hne
    exact ⟨hq, Ne.symm hne⟩
  have hcalm : ∀ n : Node, Calm n { n with shapeQ := n.shapeQ.set i none } := fun n =>
    ⟨rfl, fun hd => hd, (Calm.refl n).peers, fun j dst m hq => (hclear n j dst m hq).1⟩
  unfold shapeDrain
  split
  · rename_i dst m hslot
    split
    · exact ⟨reg, h.calm (hcalm _)⟩
    split
    · exact ⟨reg, h.calm (.refl _)⟩
    obtain ⟨hfree, hlt⟩ := h.queues.free v i dst m hslot
    -- The slot is the only one that holds the message, and it is cleared.
    have hq : ∀ x j m', Queued (Function.update w.node v
        { (sealSend P (w.node v) dst (.data m)).node with
          shapeQ := (sealSend P (w.node v) dst (.data m)).node.shapeQ.set i none } x) j dst m' →
        m'.issue ≠ m.issue := by
      intro x j m' hm' heq
      by_cases hxv : x = v
      · subst hxv
        rw [Function.update_self] at hm'
        obtain ⟨hold, hji⟩ := hclear _ j dst m' hm'
        rw [Queued, sealSend_queue] at hold
        exact hji (h.queues.once x j x i dst m' m hold hslot heq).2
      · rw [Function.update_of_ne hxv] at hm'
        exact hxv (h.queues.once x j v i dst m' m hm' hslot heq).1
    obtain ⟨reg', h', _⟩ := h.sealData (v := v) hfree hlt (hcalm _) hq
    refine ⟨reg', ?_⟩
    simpa [Out.andThen, Out.pure, sealSend_delivered] using h'
  · exact ⟨reg, h.calm (.refl _)⟩

theorem lost_marked {q : Rtx} {ctr o : UInt32} (h : q.Marked o) : (p2pRtxLost q ctr).1.Marked o := by
  unfold p2pRtxLost
  split
  · exact h
  split
  · split
    · exact h
    · exact h
  · exact h

theorem Once.expire (h : Once P r w reg) (dst ctr : UInt32) (sent : Bool) :
    Once P r (w.act v (rtxExpire P (w.node v) dst ctr sent)) reg := by
  unfold rtxExpire
  split
  · exact h.calm (.refl _)
  rename_i p hp
  have hset : Calm (w.node v)
      (setPeer (w.node v) dst fun p => { p with rtx := (p2pRtxLost p.rtx ctr).1 }) :=
    Calm.setPeer (w.node v) dst (fun _ => rfl) (fun _ hk => hk)
      (fun _ s hs => ⟨s, copies_lost hs, rfl, rfl⟩) fun _ _ ho => lost_marked ho
  dsimp only
  generalize setPeer (w.node v) dst (fun p => { p with rtx := (p2pRtxLost p.rtx ctr).1 }) = n1
    at hset ⊢
  split
  · exact h.calm hset
  rename_i i slot hslot
  obtain ⟨hmem, hid⟩ := byId_mem hp
  -- The copy is registered, so the frame that carries it is.
  have hreg := (h.copies v).copies p hmem slot (lost_mem hslot)
  rw [hid, ← hset.id] at hreg
  have hseal : ∀ n', Calm (sealSend P n1 dst (.rtx slot.orig (some slot.msg))).node n' →
      Once P r (w.act v ⟨n', (sealSend P n1 dst (.rtx slot.orig (some slot.msg))).calls,
        (sealSend P n1 dst (.rtx slot.orig (some slot.msg))).frames, []⟩) reg := by
    intro n' hc
    have hin : ∀ c, InnerOk reg n1.id dst c (.rtx slot.orig (some slot.msg)) := fun _ => hreg
    exact h.sealPlain hset hin (fun _ _ => rfl) hc
  split
  · have hresent := Calm.setPeer (sealSend P n1 dst (.rtx slot.orig (some slot.msg))).node dst
      (f := fun p => { p with rtx := p2pRtxResent p.rtx i p.txCounter }) (fun _ => rfl)
      (fun _ hk => hk) (fun _ s hs => copies_resent hs) fun _ _ ho => ho
    have hdone := hseal _ hresent
    rwa [← sealSend_delivered P n1 dst (.rtx slot.orig (some slot.msg))] at hdone
  · have hdone := hseal _ (.refl _)
    rwa [Out.eta _ (sealSend_delivered ..)] at hdone

/-! ## Arrivals -/

theorem remember_calm (n : Node) (src id : UInt32) : Calm n (remember n src id) :=
  ⟨rfl, fun h => h, (Calm.refl n).peers, fun _ _ _ h => h⟩

theorem onHello_queue (n : Node) (mac : Bytes) (src id : UInt32) (h : Hello) (tag : Bytes) :
    (onHello P n mac src id h tag).shapeQ = n.shapeQ := by
  unfold onHello
  split
  · rfl
  split <;> rfl

theorem greet_copies {mac : Bytes} {h : Hello} {p : Peer} {s : RtxSlot}
    (hs : s ∈ (greet P n mac h p).rtx.copies) : s ∈ p.rtx.copies := by
  have hinit : s ∉ p2pRtxInit.copies := by simp [Rtx.copies, p2pRtxInit]
  unfold greet at hs
  split at hs
  · exact hs
  dsimp only at hs
  split at hs
  · unfold derive at hs
    split at hs
    · exact hs
    split at hs
    · exact hs
    · exact absurd hs hinit
  · exact hs

theorem onHello_copies (hd : CopiesOk reg n) (mac : Bytes) (src id : UInt32) (h : Hello)
    (tag : Bytes) : CopiesOk reg (onHello P n mac src id h tag) := by
  obtain ⟨hdist, hid, _⟩ := onHello_spec (P := P) hd.distinct mac src id h tag
  refine ⟨hdist, ?_⟩
  rw [hid]
  unfold onHello
  split
  · exact hd.copies
  split
  · exact hd.copies
  rename_i peers hslot
  obtain ⟨hnodup, hpeers⟩ := slotFor_spec hd.distinct hslot
  have hslots : ∀ p ∈ peers, ∀ s ∈ p.rtx.copies, reg s.msg.issue p.id = some (n.id, s.orig) := by
    intro p hp s hs
    rcases hpeers p hp with hold | ⟨_, b, rfl⟩
    · exact hd.copies p hold s hs
    · simp [Peer.new, Rtx.copies, p2pRtxInit] at hs
  refine modifyFirst_forall hslots fun p _ hp s hs => ?_
  rw [greet_id]
  exact hp s (greet_copies hs)

section
variable (h : Once P r w reg) (hn : Calm (w.node v) n) {hdr : Header} {ctr : UInt32} {box : Box}
include h hn

theorem Once.hello (mac : Bytes) (src id : UInt32) (hello : Hello) (tag : Bytes)
    (hkept : v = r → tag = P.hmacSha256 n.netkey src id hello →
      (byId n src).any (fun p => p.keyed && p.pub == hello.pub) = true ∨ NothingFrom w r src) :
    Once P r (w.act v (.pure (onHello P n mac src id hello tag))) reg := by
  by_cases htag : tag = P.hmacSha256 n.netkey src id hello
  swap
  · rw [onHello_of_tag_ne htag]
    exact h.calm hn
  have hcopies := (h.copies v).calm hn
  obtain ⟨_, hid, hpeers⟩ := onHello_spec (P := P) hcopies.distinct mac src id hello tag
  refine h.update (.refl _) (by simp [Out.pure]) (onHello_copies hcopies ..)
    (h.queues.update fun i dst m hq => hn.queue i dst m ?_) h.fresh ?_
  · change (onHello P n mac src id hello tag).shapeQ[_]? = _ at hq
    rwa [onHello_queue] at hq
  rintro rfl
  rw [Out.pure, append_nil]
  have hwin := h.windows.calm hn
  refine ⟨fun p' hp' hk d hdel hsrc => ?_, fun d hdel => ?_, hwin.nodup⟩
  · rcases hpeers p' hp' hk with hold | ⟨p, hp, hpid, hkd, hsess⟩ | ⟨hpsrc, _, _, _, hnew⟩
    · exact hwin.marked p' hold hk d hdel hsrc
    · simp only [Peer.session, Session.mk.injEq] at hsess
      rw [hsess.2.2.2.2]
      exact hwin.marked p hp hkd d hdel (hsrc.trans hpid.symm)
    · -- A session just started: nothing of this peer was delivered.
      rcases hkept rfl htag with hany | hnone
      · cases hany.symm.trans hnew
      · obtain ⟨x, hx, rfl⟩ := mem_map.mp hdel
        rw [mem_filter] at hx
        exact absurd ⟨by simpa using hx.2, hsrc.trans hpsrc⟩ (hnone x hx.1)
  · rw [hid]
    exact hwin.known d hdel

theorem Once.accept {p : Peer} (hp : p ∈ n.peers) (hk : p.keyed = true) (orig : UInt32)
    (m : Message) (hreg : reg m.issue n.id = some (p.id, orig)) :
    Once P r (w.act v ⟨setPeer n p.id fun p => { p with rtx := (p2pRtxAccept p.rtx orig).1 },
      [], [], if (p2pRtxAccept p.rtx orig).2 then [⟨p.id, orig, m⟩] else []⟩) reg := by
  have hd := ((h.copies v).calm hn).distinct
  have hcopies : ∀ q : Rtx, (p2pRtxAccept q orig).1.slots = q.slots := by
    intro q
    unfold p2pRtxAccept
    split
    · rfl
    split
    · rfl
    dsimp only
    split
    · rfl
    split <;> rfl
  have hset : Calm (w.node v)
      (setPeer n p.id fun p => { p with rtx := (p2pRtxAccept p.rtx orig).1 }) :=
    hn.trans <| Calm.setPeer n p.id (fun _ => rfl) (fun _ hk => hk)
      (fun q s hs => ⟨s, by rwa [Rtx.copies, hcopies] at hs, rfl, rfl⟩) fun _ _ ho => ho.accept orig
  refine h.update (.refl _) (by simp) ((h.copies v).calm hset) (h.queues.update hset.queue)
    h.fresh ?_
  rintro rfl
  have hwin := h.windows.calm hset
  split
  · rename_i hacc
    have hnew : ¬ p.rtx.Marked orig := not_marked_of_accept hacc
    refine ⟨fun p' hp' hk' d hdel hsrc => ?_, forall_mem_append.mpr
      ⟨hwin.known, forall_mem_singleton.mpr hreg⟩, ?_⟩
    · rcases mem_append.mp hdel with hdel | hdel
      · exact hwin.marked p' hp' hk' d hdel hsrc
      · rw [mem_singleton.mp hdel] at hsrc ⊢
        obtain ⟨_, hne⟩ | ⟨q, hq, hqid, rfl⟩ := hd.mem_setPeer hp'
        · exact absurd hsrc.symm hne
        · obtain rfl := hd.eq_of_id hq hp hqid
          exact marked_of_accept hacc
    · rw [map_append, nodup_append]
      refine ⟨hwin.nodup, by simp, ?_⟩
      intro x hx y hy heq
      obtain ⟨d, hdel, rfl⟩ := mem_map.mp hx
      obtain rfl : y = (p.id, orig) := by simpa using hy
      simp only [Prod.mk.injEq] at heq
      have hmark := (h.windows.calm hn).marked p hp hk d hdel heq.1
      rw [heq.2] at hmark
      exact hnew hmark
  · rw [append_nil]
    exact hwin

theorem Once.opened (hf : FrameOk P w.calls reg (.sealed hdr ctr box))
    (hgenuine : ∀ c ∈ w.calls, c.Seals P (.sealed hdr ctr box) →
      ∀ inner ∈ P2p.opened P n (.sealed hdr ctr box), inner = c.inner)
    (hdst : hdr.dst = n.id) : Once P r (w.act v (openSealed P n hdr ctr box)) reg := by
  unfold openSealed
  split
  · exact h.calm hn
  rename_i p hp
  obtain ⟨hmem, hsrc⟩ := byId_mem hp
  split
  · exact h.calm hn
  rename_i hk
  split
  · exact h.calm hn
  rename_i inner hdec
  split
  · exact h.calm hn
  obtain ⟨c, hc, hseals, hin⟩ := hf
  rw [← hgenuine c hc hseals inner (by rw [P2p.opened, hp]; exact hdec)] at hin
  -- The counter of the session has moved; the slot is otherwise as before.
  have hset : Calm (w.node v) (setPeer n p.id fun p => { p with rxCounter := ctr }) :=
    hn.trans <| Calm.setPeer n p.id (fun _ => rfl) (fun _ hk => hk)
      (fun _ s hs => ⟨s, hs, rfl, rfl⟩) fun _ _ ho => ho
  have hslot : { p with rxCounter := ctr } ∈
      (setPeer n p.id fun p => { p with rxCounter := ctr }).peers :=
    modifyFirst_mem (f := fun p : Peer => { p with rxCounter := ctr }) (hsrc ▸ hp)
  have hdeliver : ∀ (orig : UInt32) (m : Message), reg m.issue n.id = some (hdr.src, orig) → _ :=
    fun orig m hreg => h.accept hset hslot (by simpa using hk) orig m (hsrc ▸ hreg)
  cases inner with
  | data m => exact hdeliver ctr m (hdst ▸ hin)
  | rtx orig m =>
    cases m with
    | none => exact h.calm hset
    | some m => exact hdeliver orig m (hdst ▸ hin)
  | other body => exact h.calm hset

theorem Once.relayed (mac : Bytes) (hf : FrameOk P w.calls reg (.sealed hdr ctr box)) :
    Once P r (w.act v (relay n mac hdr ctr box)) reg := by
  unfold relay
  split
  · split
    · split
      · exact h.emit hn (forall_mem_singleton.mpr (hf.extend (.refl _) (subset_append_left ..)))
      · exact h.calm hn
    · exact h.calm hn
  · exact h.calm hn

end

theorem Once.arrive (h : Once P r w reg) (mac : Bytes) (f : Frame Box) (hf : FrameOk P w.calls reg f)
    (hgenuine : ∀ c ∈ w.calls, c.Seals P f → ∀ inner ∈ P2p.opened P (w.node v) f, inner = c.inner)
    (hkept : v = r → ∀ x ∈ (Op.datagram mac f).received P (w.node r),
      (byId (w.node r) x.1).any (fun p => p.keyed && p.pub == x.2.pub) = true ∨
        NothingFrom w r x.1) :
    Once P r (w.act v (onDatagram P (w.node v) mac f)) reg := by
  have hsame : Once P r (w.act v (.pure (w.node v))) reg := h.calm (.refl _)
  -- A frame that passes the screen is noted as seen; the rest starts from there.
  have hseen : ∀ src id, Calm (w.node v) (remember (w.node v) src id) := remember_calm _
  cases f with
  | foreign => exact hsame
  | other src id =>
    obtain hs | hs := screen_cases (w.node v) mac src id <;> rw [onDatagram, hs]
    · exact hsame
    · exact h.calm (hseen src id)
  | hello src id hello tag =>
    obtain hs | hs := screen_cases (w.node v) mac src id <;> rw [onDatagram, hs]
    · exact hsame
    · refine h.hello (hseen src id) mac src id hello tag fun hvr htag => ?_
      subst hvr
      exact hkept rfl (src, hello) (if_pos htag)
  | sealed hdr ctr box =>
    obtain hs | hs := screen_cases (w.node v) mac hdr.src hdr.msgId <;> rw [onDatagram, hs]
    · exact hsame
    · dsimp only
      split
      · exact h.relayed (hseen hdr.src hdr.msgId) mac hf
      · rename_i hdst
        exact h.opened (hseen hdr.src hdr.msgId) hf hgenuine (not_not.mp hdst)

/-! ## Runs -/

theorem frameOk_of_not_sealed {f : Frame Box} {calls : List Call} (h : ∀ hdr ctr box, f ≠ .sealed hdr ctr box) :
    FrameOk P calls reg f := by
  cases f with
  | sealed hdr ctr box => exact absurd rfl (h hdr ctr box)
  | _ => trivial

theorem Once.up (h : Once P r w reg) (name ip netkey seed : Bytes)
    (hnone : ¬(name = [] ∨ name.length ≥ 12 ∨ netkey.length < 8) → v = r → w.deliveredAt r = []) :
    Once P r (w.act v (p2pUp P (w.node v) name ip netkey seed)) reg := by
  by_cases hrefused : name = [] ∨ name.length ≥ 12 ∨ netkey.length < 8
  · rw [p2pUp, if_pos hrefused]
    exact h.calm (.refl _)
  obtain hsame | ⟨n', frames, hout, hpeers, hqueue, hframes⟩ :=
    p2pUp_cases P (w.node v) name ip netkey seed
  · rw [hsame]
    exact h.calm (.refl _)
  rw [hout]
  refine h.update (.refl _) (fun f hf => frameOk_of_not_sealed fun hdr ctr box heq => ?_) ?_
    (h.queues.update fun i d m hq => ?_) h.fresh ?_
  · exact hframes hdr ctr box (heq ▸ hf)
  · refine ⟨?_, by simp [hpeers]⟩
    rw [Node.Distinct, hpeers]
    exact nodup_nil
  · rw [Queued, hqueue] at hq
    simpa using mem_of_getElem? hq
  · rintro rfl
    rw [hnone hrefused rfl]
    exact ⟨by simp [hpeers], by simp, by simp⟩

theorem deliveredAt_nil (h : ∀ d ∈ w.delivered, d.1 ≠ r) : w.deliveredAt r = [] := by
  have hfilter : w.delivered.filter (fun d => decide (d.1 = r)) = [] := by
    simpa [filter_eq_nil_iff] using h
  rw [World.deliveredAt, hfilter, map_nil]

theorem Once.flowReset (h : Once P r w reg) (hnone : v = r → w.deliveredAt r = []) :
    Once P r (w.act v (.pure { w.node v with
      peers := (w.node v).peers.map fun p => { p with rtx := p2pRtxInit } })) reg := by
  refine h.update (.refl _) (by simp [Out.pure]) ⟨?_, ?_⟩ (h.queues.update fun _ _ _ hq => hq)
    h.fresh ?_
  · have hd := (h.copies v).distinct
    simpa [Node.Distinct, Out.pure, Function.comp_def] using hd
  · intro p hp s hs
    obtain ⟨q, _, rfl⟩ := mem_map.mp hp
    simp [Rtx.copies, p2pRtxInit] at hs
  · rintro rfl
    rw [hnone rfl]
    exact ⟨by simp [Out.pure], by simp [Out.pure], by simp [Out.pure]⟩

theorem Once.bump (h : Once P r w reg) : Once P r { w with issued := w.issued + 1 } reg ∧
      ∀ dst, Unused { w with issued := w.issued + 1 } reg w.issued dst := by
  refine ⟨⟨h.pool, h.copies, ⟨fun v i dst m hq => ?_, h.queues.once⟩,
    fun i dst hi => h.fresh i dst (Nat.le_of_succ_le hi), h.windows⟩, fun dst => ⟨?_, ?_⟩⟩
  · obtain ⟨hreg, hlt⟩ := h.queues.free v i dst m hq
    exact ⟨hreg, Nat.lt_succ_of_lt hlt⟩
  · exact h.fresh _ dst le_rfl
  · intro x i m hq
    exact ((h.queues.free x i dst m hq).2).ne

theorem Once.call (h : Once P r w reg) (v : ℕ) (op : Op Box)
    (hkept : WindowKept P r w (.call v op)) : ∃ reg', Once P r (w.step P (.call v op)) reg' := by
  obtain ⟨hb, hun⟩ := h.bump
  have hlt : w.issued < w.issued + 1 := Nat.lt_succ_self _
  have hsame : ∀ {n'}, Calm (w.node v) n' → ∃ reg', Once P r
      ({ w with issued := w.issued + 1 }.act v (.pure n')) reg' := fun hc => ⟨reg, hb.calm hc⟩
  cases op with
  | up name ip netkey seed =>
    refine ⟨reg, hb.up name ip netkey seed fun haccepted hvr => deliveredAt_nil (hkept ?_ hvr)⟩
    simpa [Op.forgets] using haccepted
  | down => exact hsame ⟨rfl, fun hd => hd, (Calm.refl _).peers, fun _ _ _ hq => hq⟩
  | hello =>
    have hcalm : Calm (w.node v) { w.node v with msgId := (w.node v).msgId + 1 } :=
      ⟨rfl, fun hd => hd, (Calm.refl _).peers, fun _ _ _ hq => hq⟩
    refine ⟨reg, hb.emit hcalm fun f hf => ?_⟩
    rw [mem_singleton.mp hf]
    trivial
  | datagram mac f =>
    change ∃ reg', Once P r (World.act _ v (if (w.node v).up then .pure (w.node v)
      else .pure (w.node v))) reg'
    rw [ite_self]
    exact hsame (.refl _)
  | sendText name text issue admitted =>
    change ∃ reg', Once P r (World.act _ v (p2pSendText P (w.node v) name text w.issued admitted)) reg'
    rw [p2pSendText]
    split
    · exact hsame (.refl _)
    rename_i p _
    split
    · exact hsame (.refl _)
    split
    · exact hsame (.refl _)
    split
    · obtain ⟨reg', h', _⟩ := hb.sealNow (v := v)
        (m := ⟨.msg, UInt8.ofNat text.length :: text, w.issued⟩) (hun p.id) hlt
      exact ⟨reg', h'⟩
    · obtain ⟨reg', h', _⟩ := hb.enqueue (v := v)
        (m := ⟨.msg, UInt8.ofNat text.length :: text, w.issued⟩) (hun p.id) hlt
      exact ⟨reg', h'⟩
  | put body issue admitted paced =>
    change ∃ reg', Once P r (World.act _ v (p2pPut P (w.node v) body w.issued admitted paced)) reg'
    rw [p2pPut]
    split
    · exact hsame (.refl _)
    refine Once.puts body _ admitted paced (w.node v).peers _ (.pure (w.node v)) reg
      (hb.calm (.refl _)) hlt (h.copies v).distinct fun p _ => ⟨(hun p.id).1, fun x i m hq => ?_⟩
    exact (hun p.id).2 x i m (queued_update (fun _ _ _ hq => hq) i p.id m hq)
  | drain i admitted => exact hb.drain i admitted
  | expire dst ctr sent => exact ⟨reg, hb.expire dst ctr sent⟩
  | acked dst ctr =>
    exact hsame (Calm.setPeer _ dst (fun _ => rfl) (fun _ hk => hk)
      (fun _ s hs => ⟨s, copies_acked hs, rfl, rfl⟩) fun _ _ ho => by
        unfold p2pRtxAcked
        split
        · exact ho
        · exact ho)
  | control dst body =>
    have hin : ∀ c, InnerOk reg (w.node v).id dst c (.other body) := fun _ => trivial
    have hdone := hb.sealPlain (v := v) (.refl _) hin (fun _ _ => rfl) (.refl _)
    rw [Out.eta _ (sealSend_delivered ..)] at hdone
    exact ⟨reg, hdone⟩
  | peerDown id =>
    exact hsame (Calm.setPeer _ id (fun _ => rfl) (fun _ hk => hk)
      (fun _ s hs => ⟨s, hs, rfl, rfl⟩) fun _ _ ho => ho)
  | linkCost id cost =>
    exact hsame (Calm.setPeer _ id (fun _ => rfl) (fun _ hk => hk)
      (fun _ s hs => ⟨s, hs, rfl, rfl⟩) fun _ _ ho => ho)
  | block name blocked =>
    refine hsame ⟨rfl, fun hd => ?_, modifyFirst_forall
      (fun p hp => ⟨p, hp, rfl, fun hk => hk, fun s hs => ⟨s, hs, rfl, rfl⟩, fun _ ho => ho⟩)
      fun p hp _ => ⟨p, mem_of_find?_eq_some hp, rfl, fun hk => hk,
        fun s hs => ⟨s, hs, rfl, rfl⟩, fun _ ho => ho⟩, fun _ _ _ hq => hq⟩
    rw [Node.Distinct, p2pBlock, modifyFirst_map _ (fun p : Peer => { p with blocked := blocked }) _
      (fun _ => rfl)]
    exact hd
  | flowReset => exact ⟨reg, hb.flowReset fun hvr => deliveredAt_nil (hkept rfl hvr)⟩

theorem Once.step (h : Once P r w reg) (e : Event Box) (hkept : WindowKept P r w e)
    (hgenuine : Genuine P w e) : ∃ reg', Once P r (w.step P e) reg' := by
  cases e with
  | call v op => exact h.call v op hkept
  | arrive v k mac =>
    cases hk : w.pool[k]? with
    | none => exact ⟨reg, by simpa only [World.step, hk] using h⟩
    | some f =>
      have hf := h.pool f (mem_of_getElem? hk)
      have hdone : Once P r (w.act v ((Op.datagram mac f).run P (w.node v))) reg := by
        rw [Op.run]
        split
        · exact h.arrive mac f hf (hgenuine f hk) fun hvr => hkept hvr f hk
        · exact h.calm (.refl _)
      exact ⟨reg, by simpa only [World.step, hk] using hdone⟩

theorem Once.timesDelivered_le (h : Once P r w reg) (issue : ℕ) : w.timesDelivered r issue ≤ 1 := by
  -- The deliveries of one call come from one peer under one counter.
  have hcount : w.timesDelivered r issue =
      ((w.deliveredAt r).filter fun d => decide (d.msg.issue = issue)).length := by
    rw [World.timesDelivered, World.deliveredAt, filter_map, length_map,
      filter_filter, countP_eq_length_filter]
    congr 2
    funext d
    simp [Bool.and_comm]
  rw [hcount]
  have hnodup := h.windows.nodup.sublist
    ((filter_sublist (p := fun d => decide (d.msg.issue = issue))).map
      fun d : Delivery => (d.src, d.orig))
  have hsame : ∀ d ∈ (w.deliveredAt r).filter fun d => decide (d.msg.issue = issue),
      reg issue (w.node r).id = some (d.src, d.orig) := by
    intro d hd
    rw [mem_filter] at hd
    have hknown := h.windows.known d hd.1
    rwa [of_decide_eq_true hd.2] at hknown
  generalize (w.deliveredAt r).filter (fun d => decide (d.msg.issue = issue)) = l at *
  rcases l with _ | ⟨a, _ | ⟨b, l⟩⟩
  · exact Nat.zero_le _
  · exact le_rfl
  · have hab : some (a.src, a.orig) = some (b.src, b.orig) :=
      (hsame a (by simp)).symm.trans (hsame b (by simp))
    simp only [map_cons, nodup_cons, mem_cons, not_or] at hnodup
    exact absurd (Option.some.inj hab) hnodup.1.1

/-- A receiver that keeps its sessions delivers every message at most once. -/
theorem delivered_at_most_once (P : Prim Box) (r : ℕ) (evs : List (Event Box))
    (h : Along (World.step P) (fun w e => WindowKept P r w e ∧ Genuine P w e) World.init evs) (issue : ℕ) :
    (run (World.step P) World.init evs).timesDelivered r issue ≤ 1 := by
  have hstep : ∀ w e, (∃ reg, Once P r w reg) → WindowKept P r w e ∧ Genuine P w e →
      ∃ reg, Once P r (World.step P w e) reg := by
    rintro w e ⟨reg, hw⟩ ⟨hkept, hgenuine⟩
    exact hw.step e hkept hgenuine
  obtain ⟨reg, hend⟩ := run_invariant hstep ⟨_, Once.init P r⟩ h
  exact hend.timesDelivered_le issue

/-! ## A session started twice -/

instance : DecidableEq Term := inferInstanceAs (DecidableEq (_ × _))

/-- Node 0 is `r` and node 1 is `a`; they hear each other's HELLO. The text of the third call
arrives; its acknowledgement does not, so a copy leaves, and after it another HELLO. -/
def textAndCopy : List (Event Term) :=
  [.call 0 (.up [114] [10, 0, 0, 1] (List.replicate 8 0) (List.replicate 32 0)),
    .call 1 (.up [97] [10, 0, 0, 2] (List.replicate 8 0) (List.replicate 32 0)),
    .arrive 0 1 [1], .arrive 1 0 [0], .call 1 (.sendText [114] [104, 105] 0 true),
    .arrive 0 2 [1], .call 1 (.expire 0x72000001 1 true), .call 1 .hello]

theorem delivered_at_most_once_copy :
    (run (World.step Prim.symbolic) World.init (textAndCopy ++ [.arrive 0 3 [1]])).delivered.length =
        1 ∧
      (run (World.step Prim.symbolic) World.init (textAndCopy ++ [.arrive 0 3 [1]])).timesDelivered
        0 2 ≤ 1 :=
  ⟨by decide +kernel, delivered_at_most_once Prim.symbolic 0 _ (by decide +kernel) 2⟩

/-- Node 1 goes down and comes back as another `a`, then is silent too: each time its slot at node 0
is given to the next announcement of that name. The delayed HELLO of the first `a` starts its
session again, and the copy is delivered. -/
def secondSession : List (Event Term) :=
  textAndCopy ++
    [.call 0 (.peerDown 0x61000001),
      .call 1 (.up [97] [10, 0, 0, 2] (List.replicate 8 0) (List.replicate 31 0 ++ [1])),
      .arrive 0 5 [1], .call 0 (.peerDown 0x61010001), .arrive 0 4 [1], .arrive 0 3 [1]]

theorem secondSession_delivers_twice :
    (run (World.step Prim.symbolic) World.init secondSession).timesDelivered 0 2 = 2 := by
  decide +kernel

end Mohhdy.P2p
