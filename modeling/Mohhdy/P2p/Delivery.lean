import Mohhdy.P2p.Nonces

/-! User data over a network that delivers any frame ever sent, any number of times.

Every message is known by the call that issued it. The node that seals it for a peer gives it one
counter, its original one; copies that leave later carry that counter inside. A receiver delivers
an original counter of a session once, so a message is delivered twice only when the receiver
starts a session with the same peer a second time. -/
namespace Mohhdy.P2p
open Tables List
set_option autoImplicit false

variable {ds : List Delivery} {m : Message} {ctr dst : UInt32} {Box : Type}

/-! ## Nodes and the network -/

/-- `calls` are the encryptions of all nodes so far. -/
structure World (Box : Type) where
  node : ℕ → Node
  pool : List (Frame Box)
  calls : List Call
  delivered : List (ℕ × Delivery)
  issued : ℕ

def World.init : World Box where
  node _ := Node.zero
  pool := []
  calls := []
  delivered := []
  issued := 0

/-- A call of node `v`, or the arrival at node `v` of a frame of the pool. -/
inductive Event (Box : Type) where
  | call (v : ℕ) (op : Op Box)
  | arrive (v k : ℕ) (mac : Bytes)

def World.act (w : World Box) (v : ℕ) (o : Out Box) : World Box where
  node := Function.update w.node v o.node
  pool := w.pool ++ o.frames
  calls := w.calls ++ o.calls
  delivered := w.delivered ++ o.delivered.map (v, ·)
  issued := w.issued

/-- A call that issues a message does so under a new number; frames come from the pool only. -/
def Op.stamp (issue : ℕ) : Op Box → Op Box
  | .sendText name text _ admitted => .sendText name text issue admitted
  | .put body _ admitted paced => .put body issue admitted paced
  | .datagram mac _ => .datagram mac .foreign
  | op => op

def World.step (P : Prim Box) (w : World Box) : Event Box → World Box
  | .call v op =>
    { w with issued := w.issued + 1 }.act v ((op.stamp w.issued).run P (w.node v))
  | .arrive v k mac =>
    match w.pool[k]? with
    | none => w
    | some f => w.act v ((Op.datagram mac f).run P (w.node v))

def World.timesDelivered (w : World Box) (r issue : ℕ) : ℕ :=
  w.delivered.countP fun d => decide (d.1 = r ∧ d.2.msg.issue = issue)

def NothingFrom (w : World Box) (r : ℕ) (src : UInt32) : Prop :=
  ∀ d ∈ w.delivered, ¬ (d.1 = r ∧ d.2.src = src)

instance (w : World Box) (r : ℕ) (src : UInt32) : Decidable (NothingFrom w r src) :=
  inferInstanceAs (Decidable (∀ d ∈ w.delivered, _))

/-- `p2p_up` that is not refused, and `p2p-flow reset`. -/
def Op.forgets : Op Box → Bool
  | .up name _ netkey _ => !(name = [] ∨ name.length ≥ 12 ∨ netkey.length < 8)
  | .flowReset => true
  | _ => false

/-- Node `r` does not restart or reset its flows once it has delivered something, and a HELLO leaves
the session of its sender as it is unless nothing of that sender was delivered. -/
def WindowKept (P : Prim Box) (r : ℕ) (w : World Box) : Event Box → Prop
  | .call v op => op.forgets = true → v = r → ∀ d ∈ w.delivered, d.1 ≠ r
  | .arrive v k mac => v = r → ∀ f ∈ w.pool[k]?, ∀ x ∈ (Op.datagram mac f).received P (w.node r),
      (byId (w.node r) x.1).any (fun p => p.keyed && p.pub == x.2.pub) = true ∨ NothingFrom w r x.1

instance (P : Prim Box) (r : ℕ) (w : World Box) : ∀ e, Decidable (WindowKept P r w e)
  | .call _ _ => inferInstanceAs (Decidable (_ → _))
  | .arrive _ _ _ => inferInstanceAs (Decidable (_ → _))

/-- The call made the box of the frame, with the nonce and the header that the frame has. -/
def Call.Seals (P : Prim Box) (c : Call) : Frame Box → Prop
  | .sealed hdr ctr box => P.aes128GcmEncrypt c.key c.iv (hdr.src, ctr) hdr.aad c.inner = some box
  | _ => False

instance [DecidableEq Box] (P : Prim Box) (c : Call) : ∀ f, Decidable (c.Seals P f)
  | .sealed _ _ _ => inferInstanceAs (Decidable (_ = _))
  | .foreign | .other _ _ | .hello _ _ _ _ => .isFalse id

def opened (P : Prim Box) (n : Node) : Frame Box → Option Inner
  | .sealed hdr ctr box =>
    (byId n hdr.src).bind fun p => P.aes128GcmDecrypt p.key p.iv (hdr.src, ctr) hdr.aad box
  | _ => none

/-- AES-GCM on the frames of the run: where a frame arrives it opens to what a node sealed in it. -/
def Genuine (P : Prim Box) (w : World Box) : Event Box → Prop
  | .call _ _ => True
  | .arrive v k _ => ∀ f ∈ w.pool[k]?, ∀ c ∈ w.calls, c.Seals P f →
      ∀ inner ∈ opened P (w.node v) f, inner = c.inner

instance [DecidableEq Box] (P : Prim Box) (w : World Box) : ∀ e, Decidable (Genuine P w e)
  | .call _ _ => .isTrue trivial
  | .arrive _ k _ => inferInstanceAs (Decidable (∀ f ∈ w.pool[k]?, _))

/-! ## The invariant -/

/-- Which peer's counter a message was first sealed with, by its call and the node it is for. -/
abbrev Register := ℕ → UInt32 → Option (UInt32 × UInt32)

def InnerOk (reg : Register) (src dst ctr : UInt32) : Inner → Prop
  | .data m => reg m.issue dst = some (src, ctr)
  | .rtx orig (some m) => reg m.issue dst = some (src, orig)
  | _ => True

def FrameOk (P : Prim Box) (calls : List Call) (reg : Register) : Frame Box → Prop
  | .sealed hdr ctr box =>
    ∃ c ∈ calls, c.Seals P (.sealed hdr ctr box) ∧ InnerOk reg hdr.src hdr.dst ctr c.inner
  | _ => True

def Queued (n : Node) (i : ℕ) (dst : UInt32) (m : Message) : Prop :=
  n.shapeQ[i]? = some (some (dst, m))

structure QueuesOk (node : ℕ → Node) (reg : Register) (issued : ℕ) : Prop where
  free : ∀ v i dst m, Queued (node v) i dst m → reg m.issue dst = none ∧ m.issue < issued
  once : ∀ v i v' i' dst m m', Queued (node v) i dst m → Queued (node v') i' dst m' →
    m.issue = m'.issue → v = v' ∧ i = i'

structure CopiesOk (reg : Register) (n : Node) : Prop where
  distinct : n.Distinct
  copies : ∀ p ∈ n.peers, ∀ s ∈ p.rtx.copies, reg s.msg.issue p.id = some (n.id, s.orig)

structure WindowsOk (reg : Register) (n : Node) (ds : List Delivery) : Prop where
  marked : ∀ p ∈ n.peers, p.keyed = true → ∀ d ∈ ds, d.src = p.id → p.rtx.Marked d.orig
  known : ∀ d ∈ ds, reg d.msg.issue n.id = some (d.src, d.orig)
  nodup : (ds.map fun d => (d.src, d.orig)).Nodup

def World.deliveredAt (w : World Box) (r : ℕ) : List Delivery :=
  (w.delivered.filter fun d => decide (d.1 = r)).map Prod.snd

structure Once (P : Prim Box) (r : ℕ) (w : World Box) (reg : Register) : Prop where
  pool : ∀ f ∈ w.pool, FrameOk P w.calls reg f
  copies : ∀ v, CopiesOk reg (w.node v)
  queues : QueuesOk w.node reg w.issued
  fresh : ∀ i dst, w.issued ≤ i → reg i dst = none
  windows : WindowsOk reg (w.node r) (w.deliveredAt r)

variable {P : Prim Box} {r v : ℕ} {w : World Box} {reg reg' : Register} {n n' : Node}

def Register.Extends (reg reg' : Register) : Prop :=
  ∀ i dst x, reg i dst = some x → reg' i dst = some x

theorem Register.Extends.refl (reg : Register) : reg.Extends reg := fun _ _ _ h => h

theorem InnerOk.extend {src : UInt32} {inner : Inner} (h : InnerOk reg src dst ctr inner)
    (hx : reg.Extends reg') : InnerOk reg' src dst ctr inner := by
  cases inner with
  | data m => exact hx _ _ _ h
  | rtx orig m =>
    cases m with
    | none => trivial
    | some m => exact hx _ _ _ h
  | other body => trivial

theorem FrameOk.extend {f : Frame Box} {calls calls' : List Call} (h : FrameOk P calls reg f)
    (hx : reg.Extends reg') (hsub : calls ⊆ calls') : FrameOk P calls' reg' f := by
  cases f with
  | sealed hdr ctr box =>
    obtain ⟨c, hc, hseals, hin⟩ := h
    exact ⟨c, hsub hc, hseals, hin.extend hx⟩
  | _ => trivial

theorem CopiesOk.extend (h : CopiesOk reg n) (hx : reg.Extends reg') : CopiesOk reg' n :=
  ⟨h.distinct, fun p hp s hs => hx _ _ _ (h.copies p hp s hs)⟩

theorem WindowsOk.extend (h : WindowsOk reg n ds) (hx : reg.Extends reg') : WindowsOk reg' n ds :=
  ⟨h.marked, fun d hd => hx _ _ _ (h.known d hd), h.nodup⟩

theorem Once.init (P : Prim Box) (r : ℕ) : Once P r World.init fun _ _ => none where
  pool := by simp [World.init]
  copies v := ⟨nodup_nil, by simp [World.init, Node.zero]⟩
  queues := by
    have hnone : ∀ i dst m, ¬ Queued Node.zero i dst m := by
      intro i dst m h
      have := mem_of_getElem? h
      simp [Node.zero] at this
    exact ⟨fun v i dst m h => absurd h (hnone i dst m),
      fun v i v' i' dst m m' h => absurd h (hnone i dst m)⟩
  fresh _ _ _ := rfl
  windows := ⟨by simp [World.init, Node.zero], by simp [World.init, World.deliveredAt],
    by simp [World.init, World.deliveredAt]⟩

theorem deliveredAt_act_self (w : World Box) (v : ℕ) (o : Out Box) :
    (w.act v o).deliveredAt v = w.deliveredAt v ++ o.delivered := by
  have hmap : (o.delivered.map (v, ·)).filter (fun d => decide (d.1 = v)) =
      o.delivered.map (v, ·) := by
    simp [filter_eq_self]
  simp [World.deliveredAt, World.act, filter_append, hmap, Function.comp_def]

theorem deliveredAt_act_of_ne (w : World Box) {v r : ℕ} (hne : r ≠ v) (o : Out Box) :
    (w.act v o).deliveredAt r = w.deliveredAt r := by
  have hmap : (o.delivered.map (v, ·)).filter (fun d => decide (d.1 = r)) = [] := by
    simp [filter_eq_nil_iff, Ne.symm hne]
  simp [World.deliveredAt, World.act, filter_append, hmap]

theorem act_node_self (w : World Box) (v : ℕ) (o : Out Box) : (w.act v o).node v = o.node :=
  Function.update_self ..

theorem act_node_of_ne (w : World Box) {v x : ℕ} (hne : x ≠ v) (o : Out Box) : (w.act v o).node x = w.node x :=
  Function.update_of_ne hne ..

theorem Once.update (h : Once P r w reg) {o : Out Box} (hx : reg.Extends reg')
    (hpool : ∀ f ∈ o.frames, FrameOk P (w.calls ++ o.calls) reg' f) (hcopies : CopiesOk reg' o.node)
    (hqueues : QueuesOk (w.act v o).node reg' w.issued)
    (hfresh : ∀ i dst, w.issued ≤ i → reg' i dst = none)
    (hwin : v = r → WindowsOk reg' o.node (w.deliveredAt r ++ o.delivered)) :
    Once P r (w.act v o) reg' where
  pool := forall_mem_append.mpr ⟨fun f hf => (h.pool f hf).extend hx (subset_append_left ..), hpool⟩
  copies := (Function.forall_update_iff _ fun _ n => CopiesOk reg' n).mpr
    ⟨hcopies, fun x _ => (h.copies x).extend hx⟩
  queues := hqueues
  fresh := hfresh
  windows := by
    by_cases hvr : v = r
    · subst hvr
      rw [act_node_self, deliveredAt_act_self]
      exact hwin rfl
    · rw [act_node_of_ne w (Ne.symm hvr), deliveredAt_act_of_ne w (Ne.symm hvr)]
      exact h.windows.extend hx

/-! ## Calls that keep sessions -/

/-- A change that loses no session: slots keep their peer, their windows what is marked, and the
copies and the queue gain nothing. -/
structure Calm (n n' : Node) : Prop where
  id : n'.id = n.id
  distinct : n.Distinct → n'.Distinct
  peers : ∀ p' ∈ n'.peers, ∃ p ∈ n.peers, p.id = p'.id ∧ (p'.keyed = true → p.keyed = true) ∧
    (∀ s ∈ p'.rtx.copies, ∃ s' ∈ p.rtx.copies, s'.orig = s.orig ∧ s'.msg = s.msg) ∧
    ∀ o, p.rtx.Marked o → p'.rtx.Marked o
  queue : ∀ i dst m, Queued n' i dst m → Queued n i dst m

theorem Calm.refl (n : Node) : Calm n n :=
  ⟨rfl, fun h => h,
    fun p hp => ⟨p, hp, rfl, fun h => h, fun s hs => ⟨s, hs, rfl, rfl⟩, fun _ h => h⟩,
    fun _ _ _ h => h⟩

theorem Calm.trans {n'' : Node} (h : Calm n n') (h' : Calm n' n'') : Calm n n'' where
  id := h'.id.trans h.id
  distinct hd := h'.distinct (h.distinct hd)
  peers p'' hp'' := by
    obtain ⟨p', hp', hid', hk', hc', hm'⟩ := h'.peers p'' hp''
    obtain ⟨p, hp, hid, hk, hc, hm⟩ := h.peers p' hp'
    refine ⟨p, hp, hid.trans hid', fun hkk => hk (hk' hkk), fun s hs => ?_,
      fun o ho => hm' o (hm o ho)⟩
    obtain ⟨s', hs', ho', hmsg'⟩ := hc' s hs
    obtain ⟨s0, hs0, ho0, hmsg0⟩ := hc s' hs'
    exact ⟨s0, hs0, ho0.trans ho', hmsg0.trans hmsg'⟩
  queue i dst m hq := h.queue i dst m (h'.queue i dst m hq)

theorem Calm.setPeer (n : Node) (id : UInt32) {f : Peer → Peer} (hid : ∀ p, (f p).id = p.id)
    (hk : ∀ p, (f p).keyed = true → p.keyed = true)
    (hc : ∀ p, ∀ s ∈ (f p).rtx.copies, ∃ s' ∈ p.rtx.copies, s'.orig = s.orig ∧ s'.msg = s.msg)
    (hm : ∀ p : Peer, ∀ o, p.rtx.Marked o → (f p).rtx.Marked o) : Calm n (setPeer n id f) where
  id := rfl
  distinct hd := hd.setPeer id hid
  peers := modifyFirst_forall
    (fun p hp => ⟨p, hp, rfl, fun h => h, fun s hs => ⟨s, hs, rfl, rfl⟩, fun _ h => h⟩)
    fun p hp _ => ⟨p, mem_of_find?_eq_some hp, (hid p).symm, hk p, hc p, hm p⟩
  queue _ _ _ hq := hq

theorem CopiesOk.calm (h : CopiesOk reg n) (hc : Calm n n') : CopiesOk reg n' := by
  refine ⟨hc.distinct h.distinct, fun p' hp' s hs => ?_⟩
  obtain ⟨p, hp, hid, _, hcopies, _⟩ := hc.peers p' hp'
  obtain ⟨s', hs', horig, hmsg⟩ := hcopies s hs
  have hreg := h.copies p hp s' hs'
  rwa [horig, hmsg, hid, ← hc.id] at hreg

theorem WindowsOk.of_peers (h : WindowsOk reg n ds) (hid : n'.id = n.id)
    (hpeers : ∀ p' ∈ n'.peers, ∃ p ∈ n.peers, p.id = p'.id ∧ (p'.keyed = true → p.keyed = true) ∧
      ∀ o, p.rtx.Marked o → p'.rtx.Marked o) : WindowsOk reg n' ds := by
  refine ⟨fun p' hp' hk d hd hsrc => ?_, fun d hd => hid ▸ h.known d hd, h.nodup⟩
  obtain ⟨p, hp, hpid, hkeyed, hmarked⟩ := hpeers p' hp'
  exact hmarked _ (h.marked p hp (hkeyed hk) d hd (hsrc.trans hpid.symm))

theorem WindowsOk.calm (h : WindowsOk reg n ds) (hc : Calm n n') : WindowsOk reg n' ds :=
  h.of_peers hc.id fun p' hp' => by
    obtain ⟨p, hp, hid, hk, _, hm⟩ := hc.peers p' hp'
    exact ⟨p, hp, hid, hk, hm⟩

theorem QueuesOk.shrink {node node' : ℕ → Node} {issued : ℕ} (h : QueuesOk node reg issued)
    (hq : ∀ v i dst m, Queued (node' v) i dst m → Queued (node v) i dst m) :
    QueuesOk node' reg issued :=
  ⟨fun v i dst m hm => h.free v i dst m (hq v i dst m hm),
    fun v i v' i' dst m m' hm hm' => h.once v i v' i' dst m m' (hq _ _ _ _ hm) (hq _ _ _ _ hm')⟩

theorem queued_update {v x : ℕ} (hc : ∀ i dst m, Queued n' i dst m → Queued (w.node v) i dst m)
    (i : ℕ) (dst : UInt32) (m : Message) (hq : Queued (Function.update w.node v n' x) i dst m) :
    Queued (w.node x) i dst m := by
  by_cases hxv : x = v
  · subst hxv
    rw [Function.update_self] at hq
    exact hc i dst m hq
  · rwa [Function.update_of_ne hxv] at hq

theorem QueuesOk.update {issued : ℕ} (h : QueuesOk w.node reg issued)
    (hc : ∀ i dst m, Queued n' i dst m → Queued (w.node v) i dst m) :
    QueuesOk (Function.update w.node v n') reg issued :=
  h.shrink fun _ i dst m => queued_update hc i dst m

theorem Once.emit (h : Once P r w reg) (hc : Calm (w.node v) n') {calls : List Call}
    {frames : List (Frame Box)} (hf : ∀ f ∈ frames, FrameOk P (w.calls ++ calls) reg f) :
    Once P r (w.act v ⟨n', calls, frames, []⟩) reg := by
  refine h.update (.refl _) hf ((h.copies v).calm hc) (h.queues.update hc.queue) h.fresh
    fun hvr => ?_
  subst hvr
  simpa using h.windows.calm hc

theorem Once.calm (h : Once P r w reg) (hc : Calm (w.node v) n') : Once P r (w.act v (.pure n')) reg :=
  h.emit hc (by simp)

theorem World.act_andThen (w : World Box) (v : ℕ) (o : Out Box) (f : Node → Out Box) :
    w.act v (o.andThen f) = (w.act v o).act v (f o.node) := by
  simp [World.act, Out.andThen]

/-! ## Sealing -/

theorem counted_calm (n : Node) (dst ctr : UInt32) : Calm n (counted n dst ctr) :=
  have hset := Calm.setPeer { n with msgId := n.msgId + 1 } dst
    (f := fun q => { q with txCounter := ctr }) (fun _ => rfl) (fun _ h => h)
    (fun _ s hs => ⟨s, hs, rfl, rfl⟩) fun _ _ h => h
  { hset with }

def Register.add (reg : Register) (issue : ℕ) (dst : UInt32) (x : UInt32 × UInt32) : Register :=
  fun i d => if i = issue ∧ d = dst then some x else reg i d

theorem Register.add_self (reg : Register) (issue : ℕ) (dst : UInt32) (x : UInt32 × UInt32) :
    reg.add issue dst x issue dst = some x :=
  if_pos ⟨rfl, rfl⟩

theorem Register.add_eq_none {issue i : ℕ} {d : UInt32} {x : UInt32 × UInt32}
    (hnone : reg i d = none) (hne : ¬ (i = issue ∧ d = dst)) : reg.add issue dst x i d = none :=
  (if_neg hne).trans hnone

theorem Register.extends_add {issue : ℕ} (hfree : reg issue dst = none)
    (x : UInt32 × UInt32) : reg.Extends (reg.add issue dst x) := by
  intro i d y hy
  refine (if_neg ?_).trans hy
  rintro ⟨rfl, rfl⟩
  cases hfree.symm.trans hy

def Unused (w : World Box) (reg : Register) (issue : ℕ) (dst : UInt32) : Prop :=
  reg issue dst = none ∧ ∀ x i m, Queued (w.node x) i dst m → m.issue ≠ issue

def Onward (P : Prim Box) (r : ℕ) (w : World Box) (reg : Register) (issue : ℕ) (dst : UInt32)
    (w' : World Box) : Prop :=
  ∃ reg', Once P r w' reg' ∧ ∀ d, d ≠ dst → Unused w reg issue d → Unused w' reg' issue d

theorem Once.onward (h : Once P r w reg) (hc : Calm (w.node v) n') (issue : ℕ) (dst : UInt32)
    {calls : List Call} : Onward P r w reg issue dst (w.act v ⟨n', calls, [], []⟩) := by
  refine ⟨reg, h.emit hc (by simp), fun d _ hun => ⟨hun.1, fun x i m hm => ?_⟩⟩
  exact hun.2 x i m (queued_update hc.queue i d m hm)

theorem keep_marked {q : Rtx} {o : UInt32} (h : q.Marked o) : (p2pRtxKeep q ctr m).Marked o := by
  unfold p2pRtxKeep
  split
  · exact h
  · exact h

theorem keepCopy_data_copies (h : CopiesOk reg n) (hfree : reg m.issue dst = none) :
    CopiesOk (reg.add m.issue dst (n.id, ctr)) (keepCopy n dst ctr (.data m)) := by
  refine ⟨h.distinct.setPeer dst fun _ => rfl, fun p' hp' s hs => ?_⟩
  have hx := Register.extends_add hfree (n.id, ctr)
  obtain ⟨hp, _⟩ | ⟨p, hp, hid, rfl⟩ := h.distinct.mem_setPeer hp'
  · exact hx _ _ _ (h.copies p' hp s hs)
  · rcases copies_keep hs with hold | ⟨horig, hmsg⟩
    · exact hx _ _ _ (h.copies p hp s hold)
    · rw [hmsg, horig]
      change reg.add m.issue dst (n.id, ctr) m.issue p.id = some (n.id, ctr)
      rw [hid, Register.add_self]

theorem keepCopy_windows (h : WindowsOk reg n ds) (dst ctr : UInt32)
    (m : Message) : WindowsOk reg (keepCopy n dst ctr (.data m)) ds :=
  h.of_peers rfl (modifyFirst_forall (fun p hp => ⟨p, hp, rfl, fun hk => hk, fun _ ho => ho⟩)
    fun p hp _ => ⟨p, mem_of_find?_eq_some hp, rfl, fun hk => hk, fun _ ho => keep_marked ho⟩)

theorem Once.sealData (h : Once P r w reg) (hfree : reg m.issue dst = none) (hlt : m.issue < w.issued)
    (hc : Calm (sealSend P (w.node v) dst (.data m)).node n')
    (hq : ∀ x i m', Queued (Function.update w.node v n' x) i dst m' → m'.issue ≠ m.issue) :
    Onward P r w reg m.issue dst (w.act v ⟨n', (sealSend P (w.node v) dst (.data m)).calls,
        (sealSend P (w.node v) dst (.data m)).frames, []⟩) := by
  obtain hnone | ⟨p, hp, rfl, hk, hcalls, _, hout⟩ := sealSend_cases P (w.node v) dst (.data m)
  · rw [hnone] at hc ⊢
    exact h.onward hc m.issue dst
  set ctr := p.txCounter + 1
  have hcalm := counted_calm (w.node v) p.id ctr
  obtain ⟨hframes, hnode⟩ | ⟨hdr, box, hsrc, hdst, henc, hframes, hnode⟩ := hout
  · rw [hnode] at hc
    rw [hframes]
    exact h.onward (hcalm.trans hc) m.issue p.id
  · rw [hnode] at hc
    have hx := Register.extends_add hfree ((w.node v).id, ctr)
    have hqueue : ∀ i d m', Queued n' i d m' → Queued (w.node v) i d m' := hc.queue
    refine ⟨reg.add m.issue p.id ((w.node v).id, ctr), h.update hx ?_ ?_ ?_ ?_ ?_, ?_⟩
    · rw [hframes]
      intro f hf
      rw [mem_singleton.mp hf]
      refine ⟨_, mem_append_right _ (hcalls ▸ mem_singleton_self _), ?_, ?_⟩
      · change P.aes128GcmEncrypt _ _ (hdr.src, _) _ _ = _
        rw [hsrc]
        exact henc
      change reg.add _ _ _ m.issue hdr.dst = _
      rw [hdst, hsrc, Register.add_self]
    · exact (keepCopy_data_copies ((h.copies v).calm hcalm) hfree).calm hc
    · constructor
      · intro x i d m' hm'
        have hold := queued_update hqueue i d m' hm'
        obtain ⟨hnone, hlt'⟩ := h.queues.free x i d m' hold
        refine ⟨Register.add_eq_none hnone ?_, hlt'⟩
        rintro ⟨hissue, rfl⟩
        exact hq x i m' hm' hissue
      · intro x i x' i' d m' m'' hm' hm''
        exact h.queues.once x i x' i' d m' m'' (queued_update hqueue i d m' hm')
          (queued_update hqueue i' d m'' hm'')
    · intro i d hi
      exact Register.add_eq_none (h.fresh i d hi) fun hboth => by omega
    · rintro rfl
      rw [append_nil]
      exact (keepCopy_windows ((h.windows.calm hcalm).extend hx) p.id ctr m).calm hc
    · exact fun d hne hun => ⟨Register.add_eq_none hun.1 fun hboth => hne hboth.2,
        fun x i m' hm' => hun.2 x i m' (queued_update hqueue i d m' hm')⟩

theorem Once.sealPlain (h : Once P r w reg) (hn : Calm (w.node v) n) {inner : Inner}
    (hin : ∀ ctr, InnerOk reg n.id dst ctr inner) (hkeep : ∀ n ctr, keepCopy n dst ctr inner = n)
    (hc : Calm (sealSend P n dst inner).node n') :
    Once P r (w.act v ⟨n', (sealSend P n dst inner).calls, (sealSend P n dst inner).frames, []⟩)
      reg := by
  have hall : Calm n n' ∧ ∀ f ∈ (sealSend P n dst inner).frames,
      FrameOk P (w.calls ++ (sealSend P n dst inner).calls) reg f := by
    obtain hnone | ⟨p, hp, rfl, hk, hcalls, _, hout⟩ := sealSend_cases P n dst inner
    · rw [hnone] at hc ⊢
      exact ⟨hc, by simp [Out.pure]⟩
    have hcalm := counted_calm n p.id (p.txCounter + 1)
    obtain ⟨hframes, hnode⟩ | ⟨hdr, box, hsrc, hdst, henc, hframes, hnode⟩ := hout
    · rw [hnode] at hc
      rw [hframes]
      exact ⟨hcalm.trans hc, by simp⟩
    · rw [hnode, hkeep] at hc
      refine ⟨hcalm.trans hc, fun f hf => ?_⟩
      rw [hframes, mem_singleton] at hf
      rw [hf]
      refine ⟨_, mem_append_right _ (hcalls ▸ mem_singleton_self _), ?_, ?_⟩
      · change P.aes128GcmEncrypt _ _ (hdr.src, _) _ _ = _
        rw [hsrc]
        exact henc
      rw [hsrc, hdst]
      exact hin _
  exact h.emit (hn.trans hall.1) hall.2

/-! ## The shaping queue -/

theorem shapeEnqueue_cases (n : Node) (dst : UInt32) (m : Message) :
    shapeEnqueue n dst m = n ∨ ∃ j, shapeEnqueue n dst m =
      { n with shapeQ := n.shapeQ.set j (some (dst, m)) } := by
  unfold shapeEnqueue
  split
  · exact .inl rfl
  split
  · exact .inl rfl
  · exact .inr ⟨_, rfl⟩

theorem queued_set {j i : ℕ} {d : UInt32} {m' : Message}
    (hq : Queued { n with shapeQ := n.shapeQ.set j (some (dst, m)) } i d m') :
    Queued n i d m' ∨ (i = j ∧ d = dst ∧ m' = m) := by
  change (n.shapeQ.set j (some (dst, m)))[i]? = some (some (d, m')) at hq
  rw [List.getElem?_set] at hq
  split at hq
  · split at hq
    · cases hq
      rename_i hij _
      exact .inr ⟨hij.symm, rfl, rfl⟩
    · cases hq
  · exact .inl hq

theorem Once.enqueue (h : Once P r w reg) (hun : Unused w reg m.issue dst) (hlt : m.issue < w.issued) :
    Onward P r w reg m.issue dst (w.act v (.pure (shapeEnqueue (w.node v) dst m))) := by
  obtain hsame | ⟨j, hset⟩ := shapeEnqueue_cases (w.node v) dst m
  · rw [hsame]
    exact h.onward (.refl _) m.issue dst
  rw [hset]
  -- An entry of the queues is an old one, or the new one at slot `j` of node `v`.
  have hcases : ∀ x i d m', Queued ((w.act v (.pure { w.node v with
      shapeQ := (w.node v).shapeQ.set j (some (dst, m)) } : Out Box)).node x) i d m' →
      Queued (w.node x) i d m' ∨ (x = v ∧ i = j ∧ d = dst ∧ m' = m) := by
    intro x i d m' hm'
    by_cases hxv : x = v
    · subst hxv
      rw [act_node_self] at hm'
      obtain hold | hnew := queued_set hm'
      · exact .inl hold
      · exact .inr ⟨rfl, hnew⟩
    · rw [act_node_of_ne w hxv] at hm'
      exact .inl hm'
  refine ⟨reg, h.update (.refl _) (by simp [Out.pure]) ?_ ?_ h.fresh ?_, ?_⟩
  · exact ⟨(h.copies v).distinct, (h.copies v).copies⟩
  · constructor
    · intro x i d m' hm'
      obtain hold | ⟨_, _, rfl, rfl⟩ := hcases x i d m' hm'
      · exact h.queues.free x i d m' hold
      · exact ⟨hun.1, hlt⟩
    · intro x i x' i' d m1 m2 h1 h2 heq
      obtain hold1 | ⟨rfl, rfl, rfl, rfl⟩ := hcases x i d m1 h1
      · obtain hold2 | ⟨rfl, rfl, rfl, rfl⟩ := hcases x' i' d m2 h2
        · exact h.queues.once x i x' i' d m1 m2 hold1 hold2 heq
        · exact absurd heq (hun.2 x i m1 hold1)
      · obtain hold2 | ⟨rfl, rfl, _, rfl⟩ := hcases x' i' d m2 h2
        · exact absurd heq.symm (hun.2 x' i' m2 hold2)
        · exact ⟨rfl, rfl⟩
  · rintro rfl
    rw [Out.pure, append_nil]
    exact ⟨h.windows.marked, h.windows.known, h.windows.nodup⟩
  · refine fun d hne hd => ⟨hd.1, fun x i m' hm' => ?_⟩
    obtain hold | ⟨_, _, rfl, _⟩ := hcases x i d m' hm'
    · exact hd.2 x i m' hold
    · exact absurd rfl hne

end Mohhdy.P2p
