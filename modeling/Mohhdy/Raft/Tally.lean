import Mohhdy.Foundations.Consensus
import Mohhdy.Raft.Calls

/-! Invariants of the network, and the tally of an election: every node that leads has the votes
of a majority, whatever becomes of the messages. -/
namespace Mohhdy.Raft
open Consensus List
set_option autoImplicit false

variable {p : Packet} {sent : List (ℕ × Msg)}
  {w : World} {U k src v x : ℕ} {n n' : Node} {a : Act} {tally : ℕ → ℕ → Finset ℕ} {ids : List ℕ}

/-! ## A rule for invariants -/

theorem act_seq (w : World) (v : ℕ) (a b : Act) : w.act v (a.seq b) = (w.act v a).act v b := by
  simp [World.act, Act.seq]

def InHand (w : World) (v : ℕ) (hand : Hand) : Prop :=
  ∀ src m, hand = some (src, m) → ⟨src, v, m⟩ ∈ w.net

theorem InHand.act {hand : Hand} (h : InHand w v hand) (a : Act) : InHand (w.act v a) v hand :=
  fun src m hm => mem_append_left _ (h src m hm)

/-- What has to be shown of an invariant: it survives losses, moves, and dealings with votes. -/
structure Preserved (ids : List ℕ) (cond : World → Event → Prop) (inv : World → Prop) : Prop where
  shrink : ∀ w net, inv w → net.Subperm w.net → inv { w with net := net }
  move : ∀ w v hand a, v ∈ ids → InHand w v hand → Move hand (w.node v) a → inv w → inv (w.act v a)
  ballot : ∀ w k env p a, cond w (.deliver k env) → w.net[k]? = some p → p.dst ∈ ids →
    Ballot env (some (p.src, p.msg)) (w.node p.dst) a → inv w → inv ((w.take k).act p.dst a)

variable {cond : World → Event → Prop} {inv : World → Prop}

theorem Preserved.moves (h : Preserved ids cond inv) (hv : v ∈ ids) {hand : Hand} (ha : Moves hand n a) :
    ∀ w, w.node v = n → InHand w v hand → inv w → inv (w.act v a) := by
  induction ha with
  | nil n =>
    rintro w rfl _ hw
    rwa [act_pure]
  | @cons n a b ha _ ih =>
    rintro w rfl hhand hw
    rw [act_seq]
    refine ih _ ?_ (hhand.act a) (h.move w v hand a hv hhand ha hw)
    exact Function.update_self ..

theorem net_perm (hk : w.net[k]? = some p) : w.net.Perm (p :: (w.take k).net) := by
  obtain ⟨hlt, rfl⟩ := List.getElem?_eq_some_iff.mp hk
  exact (getElem_cons_eraseIdx_perm hlt).symm

theorem Preserved.call (h : Preserved ids cond inv) {f : Node → Act}
    (hf : ∀ n, Moves none n (f n)) (hw : inv w) : inv (w.call ids v f) := by
  unfold World.call
  split
  · rename_i hv
    exact h.moves hv (hf _) w rfl (by simp [InHand]) hw
  · exact hw

theorem Preserved.deliver (h : Preserved ids cond inv) {env : Env}
    (hk : w.net[k]? = some p) (hcond : cond w (.deliver k env)) (hw : inv w) :
    inv ((w.take k).call ids p.dst fun n => onRaft env n p.src p.msg) := by
  have hsub : (w.take k).net.Subperm w.net := (eraseIdx_sublist ..).subperm
  unfold World.call
  split
  · rename_i hdst
    change inv ((w.take k).act p.dst (onRaft env (w.node p.dst) p.src p.msg))
    have hcall := onRaft_call env (w.node p.dst) p.src p.msg
    generalize onRaft env (w.node p.dst) p.src p.msg = a at hcall ⊢
    cases hcall with
    | moves ha =>
      have hhand : InHand w p.dst (some (p.src, p.msg)) := by
        rintro _ _ ⟨⟩
        exact mem_of_getElem? hk
      have hafter := h.moves hdst ha w rfl hhand hw
      exact h.shrink _ _ hafter (hsub.append (List.Subperm.refl _))
    | @ballot a b ha hb =>
      rw [act_seq]
      refine h.moves hdst hb _ (Function.update_self ..) (by simp [InHand]) ?_
      exact h.ballot w k env p a hcond hk hdst ha hw
  · exact h.shrink w _ hw hsub

theorem Preserved.step (h : Preserved ids cond inv) (w : World) (e : Event) (hw : inv w)
    (hcond : cond w e) : inv (w.step ids e) := by
  cases e with
  | deliver k env =>
    cases hk : w.net[k]? with
    | none => simpa only [World.step, hk] using hw
    | some p => simpa only [World.step, hk] using h.deliver hk hcond hw
  | drop k => exact h.shrink w _ hw (eraseIdx_sublist ..).subperm
  | elect v env => exact h.call (fun n => p2pRaftElect_moves env n) hw
  | append v key value env => exact h.call (fun n => p2pRaftAppend_moves env n key value) hw
  | compact v => exact h.call (fun n => p2pRaftCompact_moves n) hw
  | tick v env => exact h.call (fun n => p2pTick_moves env n) hw
  | peerUp v peer up =>
    exact h.call (f := fun n => Act.pure (setPeer n peer fun p => { p with up := up }))
      (fun n => .same (setPeer_same n peer _ fun p => ⟨rfl, rfl⟩)) hw
  | kvChange v kv =>
    exact h.call (f := fun n => Act.pure { n with kv := kv }) (fun n => .same rfl) hw

/-! ## What moves leave to elections -/

structure Quiet (c c' : Core) : Prop where
  id : c'.id = c.id
  peers : c'.matched.map Prod.fst = c.matched.map Prod.fst
  term : c.term ≤ c'.term
  candidate : c'.role = .candidate →
    c.role = .candidate ∧ c'.term = c.term ∧ c'.votesGranted = c.votesGranted
  leader : c'.role = .leader → c.role = .leader ∧ c'.term = c.term
  vote : c'.term = c.term → c'.votedFor = c.votedFor ∨ c'.votedFor = 0

def Silent (hand : Hand) : Msg → Prop
  | .prevoteReq term _ _ _ => term < 2 ^ 32
  | .prevoteResp granted term => granted = true → ∃ src term' cand lastIdx lastTerm,
        hand = some (src, .prevoteReq term' cand lastIdx lastTerm) ∧ term < term'
  | .voteReq _ _ _ _ => False
  | .voteResp granted _ => granted = false
  | _ => True

theorem Idle.silent {hand : Hand} {m : Msg} (h : Idle hand m) : Silent hand m := by
  cases m <;> first | exact h | trivial

theorem FromLog.silent {hand : Hand} {m : Msg} (h : FromLog n m) : Silent hand m := by
  cases m <;> first | exact h.elim | trivial

theorem Quiet.refl (c : Core) : Quiet c c :=
  ⟨rfl, rfl, le_rfl, fun h => ⟨h, rfl, rfl⟩, fun h => ⟨h, rfl⟩, fun _ => .inl rfl⟩

theorem Quiet.of_eq {c c' : Core} (hid : c'.id = c.id)
    (hpeers : c'.matched.map Prod.fst = c.matched.map Prod.fst) (hterm : c'.term = c.term)
    (hrole : c'.role = c.role) (hvotes : c'.votesGranted = c.votesGranted)
    (hvote : c'.votedFor = c.votedFor) : Quiet c c' :=
  ⟨hid, hpeers, hterm.ge, fun h => ⟨hrole ▸ h, hterm, hvotes⟩, fun h => ⟨hrole ▸ h, hterm⟩,
    fun _ => .inl hvote⟩

variable {hand : Hand}

theorem pure_node (n : Node) : (Act.pure n).node = n := rfl

theorem Move.quiet (h : Move hand n a) : Quiet n.core a.node.core := by
  cases h with
  | idle hcore _ => exact hcore ▸ .refl _
  | lead hcore _ _ => exact hcore ▸ .refl _
  | stepDown hlt =>
    exact ⟨rfl, rfl, hlt.le, (nomatch ·), (nomatch ·), fun h => absurd h hlt.ne'⟩
  | follow hvote hcore =>
    rw [pure_node, hcore]
    exact ⟨rfl, rfl, le_rfl, (nomatch ·), (nomatch ·), fun _ => hvote⟩
  | campaign hcore =>
    rw [pure_node, hcore]
    exact ⟨rfl, rfl, le_rfl, (nomatch ·), (nomatch ·), fun _ => .inl rfl⟩
  | propose _ _ _ hcore => exact hcore ▸ .of_eq rfl rfl rfl rfl rfl rfl
  | commit _ _ hcore => exact hcore ▸ .of_eq rfl rfl rfl rfl rfl rfl
  | apply _ _ hcore => exact hcore ▸ .of_eq rfl rfl rfl rfl rfl rfl
  | ack _ _ hcore =>
    refine hcore ▸ .of_eq rfl ?_ rfl rfl rfl rfl
    rw [map_map]
    refine map_congr_left fun x _ => ?_
    rw [Function.comp_apply]
    split <;> rfl
  | snapAck _ hids _ hcore => exact hcore ▸ .of_eq rfl hids rfl rfl rfl rfl
  | accept _ _ _ _ hidx _ hcore =>
    obtain ⟨_, _, _, hstore⟩ := storeEntry_core _ hidx
    rw [hstore] at hcore
    exact hcore ▸ .of_eq rfl rfl rfl rfl rfl rfl
  | accepted _ _ _ _ => exact .refl _
  | install _ _ _ hcore => exact hcore ▸ .of_eq rfl rfl rfl rfl rfl rfl
  | compact _ _ hcore => exact hcore ▸ .of_eq rfl rfl rfl rfl rfl rfl

theorem Move.sends (h : Move hand n a) : ∀ x ∈ a.sent, Reaches hand n x.1 ∧ Silent hand x.2 := by
  cases h with
  | idle _ hsent => exact fun x hx => ⟨(hsent x hx).1, (hsent x hx).2.silent⟩
  | lead _ _ hsent => exact fun x hx => ⟨(hsent x hx).1, (hsent x hx).2.silent⟩
  | accepted hhand _ _ hsent =>
    intro x hx
    rw [hsent x hx]
    exact ⟨.inr ⟨_, hhand⟩, trivial⟩
  | _ => simp [Act.pure]

theorem Move.marks (h : Move hand n a) : ∀ m ∈ a.marks, (∀ U c, m ≠ .voted U c) ∧ ∀ U, m ≠ .elected U := by
  cases h with
  | commit _ _ _ =>
    intro m hm
    obtain ⟨i, _, hi⟩ := mem_filterMap.mp hm
    obtain ⟨e, _, rfl⟩ := Option.map_eq_some_iff.mp hi
    exact ⟨fun _ _ => nofun, fun _ => nofun⟩
  | apply _ hmarks _ =>
    obtain rfl | ⟨e, _, rfl⟩ := hmarks
    · simp
    · intro m hm
      rw [mem_singleton.mp hm]
      exact ⟨fun _ _ => nofun, fun _ => nofun⟩
  | _ => simp [Act.pure]

/-! ## The tally -/

def ballotOf (v U c : ℕ) : Packet → Bool
  | ⟨src, dst, .voteReq U' _ _ _⟩ => U' = U ∧ src = c ∧ dst = v
  | ⟨src, dst, .voteResp granted U'⟩ => granted ∧ U' = U ∧ src = v ∧ dst = c
  | _ => false

def Counts (w : World) : Packet → Prop
  | ⟨_, _, .prevoteReq term _ _ _⟩ => term < 2 ^ 32
  | ⟨_, _, .prevoteResp granted term⟩ => granted = true → term + 1 < 2 ^ 32
  | ⟨src, _, .voteReq U c _ _⟩ => c = src ∧ U ≤ (w.node c).term
  | ⟨src, dst, .voteResp granted U⟩ => granted = true →
      (src, .voted U dst) ∈ w.hist ∧ U ≤ (w.node dst).term
  | _ => True

structure Tally (ids : List ℕ) (w : World) (tally : ℕ → ℕ → Finset ℕ) : Prop where
  known : ∀ v ∈ ids, (w.node v).id = v ∧ (w.node v).peers.map Peer.id = ids.filter (· ≠ v)
  routed : ∀ p ∈ w.net, p.src ∈ ids ∧ p.dst ∈ ids ∧ p.dst ≠ p.src
  counts : ∀ p ∈ w.net, Counts w p
  voted : ∀ v U c, (v, .voted U c) ∈ w.hist → U ≤ (w.node v).term
  once : ∀ v U c, w.net.countP (ballotOf v U c) + (if v ∈ tally c U then 1 else 0) ≤ 1
  counted : ∀ c U, ∀ v ∈ tally c U,
    v ∈ ids ∧ v ≠ c ∧ (v, .voted U c) ∈ w.hist ∧ U ≤ (w.node c).term
  standing : ∀ c ∈ ids, (w.node c).role = .candidate →
    (c, .voted (w.node c).term c) ∈ w.hist ∧
      (w.node c).votesGranted ≤ 1 + (tally c (w.node c).term).card
  elected : ∀ c U, (c, .elected U) ∈ w.hist →
    ∃ Q, Majority ids.toFinset Q ∧ ∀ v ∈ Q, (v, .voted U c) ∈ w.hist

theorem Tally.init (ids : List ℕ) : Tally ids (World.init ids) fun _ _ => ∅ where
  known v _ := ⟨rfl, by simp [World.init, Node.init, Peer.new, Function.comp_def]⟩
  routed := by simp [World.init]
  counts := by simp [World.init]
  voted := by simp [World.init]
  once := by simp [World.init]
  counted := by simp
  standing := by simp [World.init, Node.init]
  elected := by simp [World.init]

structure Grows (w w' : World) : Prop where
  term : ∀ v, (w.node v).term ≤ (w'.node v).term
  hist : w.hist ⊆ w'.hist

theorem Counts.mono {w' : World} (h : Counts w p) (hg : Grows w w') : Counts w' p := by
  obtain ⟨src, dst, msg⟩ := p
  cases msg with
  | voteReq U c i l => exact ⟨h.1, h.2.trans (hg.term _)⟩
  | voteResp granted U => exact fun hyes => ⟨hg.hist (h hyes).1, (h hyes).2.trans (hg.term _)⟩
  | _ => exact h

theorem Tally.shrink (h : Tally ids w tally)
    {net : List Packet} (hsub : net.Subperm w.net) : Tally ids { w with net := net } tally where
  __ := h
  routed p hp := h.routed p (hsub.subset hp)
  counts p hp := (h.counts p (hsub.subset hp)).mono ⟨fun _ => le_rfl, List.Subset.refl _⟩
  once v U c := by
    have hold := h.once v U c
    have hle : net.countP (ballotOf v U c) ≤ w.net.countP (ballotOf v U c) := hsub.countP_le _
    dsimp only
    omega

theorem Tally.take (h : Tally ids w tally) (k : ℕ) : Tally ids { w with net := (w.take k).net } tally :=
  h.shrink (eraseIdx_sublist ..).subperm

theorem act_node_self (w : World) (v : ℕ) (a : Act) : (w.act v a).node v = a.node :=
  Function.update_self ..

theorem act_node_of_ne (hne : x ≠ v) (w : World) (a : Act) : (w.act v a).node x = w.node x :=
  Function.update_of_ne hne ..

theorem grows_act (hterm : (w.node v).term ≤ a.node.term) : Grows w (w.act v a) where
  term x := by
    by_cases hx : x = v
    · subst hx
      rwa [act_node_self]
    · rw [act_node_of_ne hx]
  hist := subset_append_left ..

theorem mem_act_net (hp : p ∈ (w.act v a).net) : p ∈ w.net ∨ p.src = v ∧ (p.dst, p.msg) ∈ a.sent := by
  obtain hp | hp := mem_append.mp hp
  · exact .inl hp
  · obtain ⟨x, hx, rfl⟩ := mem_map.mp hp
    exact .inr ⟨rfl, hx⟩

theorem mem_act_hist {m : Mark} (hm : (x, m) ∈ (w.act v a).hist) : (x, m) ∈ w.hist ∨ x = v ∧ m ∈ a.marks := by
  obtain hm | hm := mem_append.mp hm
  · exact .inl hm
  · obtain ⟨m', hm', heq⟩ := mem_map.mp hm
    cases heq
    exact .inr ⟨rfl, hm'⟩

theorem core_ids (n : Node) : n.core.matched.map Prod.fst = n.peers.map Peer.id := by
  simp [Node.core]

theorem Tally.reaches (h : Tally ids w tally) {dst : ℕ}
    (hv : v ∈ ids) (hhand : InHand w v hand) (hr : Reaches hand (w.node v) dst) :
    dst ∈ ids ∧ dst ≠ v := by
  obtain hp | ⟨m, hm⟩ := hr
  · rw [(h.known v hv).2, mem_filter] at hp
    exact ⟨hp.1, of_decide_eq_true hp.2⟩
  · obtain ⟨hsrc, _, hne⟩ := h.routed _ (hhand dst m hm)
    exact ⟨hsrc, hne.symm⟩

theorem Silent.counts {m : Msg} (hm : Silent hand m)
    (hhand : InHand w v hand) (hnet : ∀ p ∈ w.net, Counts w p) (dst : ℕ) (w' : World) :
    Counts w' ⟨v, dst, m⟩ := by
  cases m with
  | prevoteReq term cand i l => exact hm
  | prevoteResp granted term =>
    intro hyes
    obtain ⟨src, term', cand, i, l, hsome, hlt⟩ := hm hyes
    have hreq : term' < 2 ^ 32 := hnet _ (hhand src _ hsome)
    omega
  | voteReq U c i l => exact hm.elim
  | voteResp granted U => exact fun hyes => nomatch hyes.symm.trans hm
  | _ => trivial

theorem Silent.not_ballot {dst : ℕ} {m : Msg} (hm : Silent hand m) (x U c : ℕ) :
    ballotOf x U c ⟨v, dst, m⟩ = false := by
  cases m with
  | voteReq U' c' i l => exact hm.elim
  | voteResp granted U' =>
    have hno : granted = false := hm
    subst hno
    simp [ballotOf]
  | _ => rfl

def packets (v : ℕ) (sent : List (ℕ × Msg)) : List Packet := sent.map fun m => ⟨v, m.1, m.2⟩

theorem Tally.update {tally' : ℕ → ℕ → Finset ℕ} (h : Tally ids w tally) (hv : v ∈ ids)
    (hid : a.node.core.id = (w.node v).core.id)
    (hpeers : a.node.core.matched.map Prod.fst = (w.node v).core.matched.map Prod.fst)
    (hterm : (w.node v).term ≤ a.node.term)
    (hsent : ∀ x ∈ a.sent, x.1 ∈ ids ∧ x.1 ≠ v ∧ Counts (w.act v a) ⟨v, x.1, x.2⟩)
    (hvoted : ∀ U c, .voted U c ∈ a.marks → U ≤ a.node.term)
    (honce : ∀ x U c, w.net.countP (ballotOf x U c) + (packets v a.sent).countP (ballotOf x U c) +
      (if x ∈ tally' c U then 1 else 0) ≤ 1)
    (hsub : ∀ c U, tally c U ⊆ tally' c U)
    (hcounted : ∀ c U, ∀ x ∈ tally' c U, x ∈ tally c U ∨
      x ∈ ids ∧ x ≠ c ∧ (x, .voted U c) ∈ w.hist ∧ U ≤ (w.node c).term)
    (hstanding : a.node.role = .candidate → (v, .voted a.node.term v) ∈ (w.act v a).hist ∧
      a.node.votesGranted ≤ 1 + (tally' v a.node.term).card)
    (helected : ∀ U, .elected U ∈ a.marks →
      ∃ Q, Majority ids.toFinset Q ∧ ∀ x ∈ Q, (x, .voted U v) ∈ w.hist) :
    Tally ids (w.act v a) tally' := by
  have hg : Grows w (w.act v a) := grows_act hterm
  refine ⟨?_, ?_, ?_, ?_, ?_, ?_, ?_, ?_⟩
  · intro x hx
    by_cases hxv : x = v
    · subst hxv
      rw [act_node_self, ← core_ids]
      exact ⟨hid.trans (h.known x hx).1, (hpeers.trans (core_ids _)).trans (h.known x hx).2⟩
    · rw [act_node_of_ne hxv]
      exact h.known x hx
  · intro p hp
    obtain hp | ⟨hsrc, hp⟩ := mem_act_net hp
    · exact h.routed p hp
    · obtain ⟨hdst, hne, _⟩ := hsent _ hp
      exact ⟨hsrc ▸ hv, hdst, hsrc ▸ hne⟩
  · intro p hp
    obtain hp | ⟨hsrc, hnew⟩ := mem_act_net hp
    · exact (h.counts p hp).mono hg
    · obtain ⟨src, dst, msg⟩ := p
      obtain rfl : src = v := hsrc
      exact (hsent _ hnew).2.2
  · intro x U c hm
    obtain hm | ⟨rfl, hnew⟩ := mem_act_hist hm
    · exact (h.voted x U c hm).trans (hg.term x)
    · rw [act_node_self]
      exact hvoted U c hnew
  · intro x U c
    change (w.net ++ packets v a.sent).countP _ + _ ≤ 1
    rw [countP_append]
    exact honce x U c
  · intro c U x hx
    obtain hold | ⟨hmem, hne, hm, hle⟩ := hcounted c U x hx
    · obtain ⟨hmem, hne, hm, hle⟩ := h.counted c U x hold
      exact ⟨hmem, hne, hg.hist hm, hle.trans (hg.term c)⟩
    · exact ⟨hmem, hne, hg.hist hm, hle.trans (hg.term c)⟩
  · intro c hc hrole
    by_cases hcv : c = v
    · subst hcv
      rw [act_node_self] at hrole ⊢
      exact hstanding hrole
    · rw [act_node_of_ne hcv] at hrole ⊢
      obtain ⟨hown, hle⟩ := h.standing c hc hrole
      have hcard := Finset.card_le_card (hsub c (w.node c).term)
      exact ⟨hg.hist hown, by omega⟩
  · intro c U hm
    obtain hm | ⟨rfl, hnew⟩ := mem_act_hist hm
    · obtain ⟨Q, hQ, hvotes⟩ := h.elected c U hm
      exact ⟨Q, hQ, fun x hx => hg.hist (hvotes x hx)⟩
    · obtain ⟨Q, hQ, hvotes⟩ := helected U hnew
      exact ⟨Q, hQ, fun x hx => hg.hist (hvotes x hx)⟩

theorem Tally.move (h : Tally ids w tally) (hv : v ∈ ids) (hhand : InHand w v hand) (ha : Move hand (w.node v) a) :
    Tally ids (w.act v a) tally := by
  have hq := ha.quiet
  refine h.update hv hq.id hq.peers hq.term ?_ ?_ ?_ (fun _ _ => Finset.Subset.refl _)
    (fun _ _ _ hx => .inl hx) ?_ ?_
  · intro x hx
    obtain ⟨hdst, hne⟩ := h.reaches hv hhand (ha.sends x hx).1
    exact ⟨hdst, hne, (ha.sends x hx).2.counts hhand h.counts x.1 _⟩
  · exact fun U c hm => absurd rfl ((ha.marks _ hm).1 U c)
  · intro x U c
    have hnone : (packets v a.sent).countP (ballotOf x U c) = 0 := by
      rw [countP_eq_zero]
      refine forall_mem_map.mpr fun m hm => ?_
      rw [(ha.sends m hm).2.not_ballot]
      exact Bool.false_ne_true
    rw [hnone]
    exact h.once x U c
  · intro hrole
    obtain ⟨hrole', hterm, hvotes⟩ := hq.candidate hrole
    obtain ⟨hown, hle⟩ := h.standing v hv hrole'
    have hterm' : a.node.term = (w.node v).term := hterm
    have hvotes' : a.node.votesGranted = (w.node v).votesGranted := hvotes
    rw [hterm', hvotes']
    exact ⟨mem_append_left _ hown, hle⟩
  · exact fun U hm => absurd rfl ((ha.marks _ hm).2 U)

/-! ## Dealing with votes -/

theorem countP_take (hk : w.net[k]? = some p)
    (f : Packet → Bool) : w.net.countP f = (w.take k).net.countP f + if f p then 1 else 0 := by
  rw [(net_perm hk).countP_eq, countP_cons]

theorem ballotOf_fresh (h : Tally ids w tally) {c : ℕ} (hlt : (w.node c).term < U) (x : ℕ) :
    w.net.countP (ballotOf x U c) = 0 ∧ x ∉ tally c U := by
  constructor
  · rw [countP_eq_zero]
    rintro ⟨src, dst, msg⟩ hp hb
    have hc := h.counts _ hp
    cases msg with
    | voteReq U' c' i l =>
      simp only [ballotOf, decide_eq_true_eq] at hb
      obtain ⟨rfl, rfl, rfl⟩ := hb
      obtain ⟨rfl, hle⟩ := hc
      omega
    | voteResp granted U' =>
      simp only [ballotOf, decide_eq_true_eq] at hb
      obtain ⟨hyes, rfl, rfl, rfl⟩ := hb
      have hle := (hc hyes).2
      omega
    | _ => cases hb
  · intro hx
    have hle := (h.counted c U x hx).2.2.2
    omega

theorem countP_requests (n : Node) (hsent : sent.Sublist (requests n))
    (v x U c : ℕ) : (packets v sent).countP (ballotOf x U c) ≤ (n.peers.map Peer.id).count x := by
  refine (((hsent.map _).countP_le).trans ?_ : (packets v sent).countP (ballotOf x U c) ≤ _)
  rw [requests, map_map, countP_map, List.count, countP_map]
  refine countP_mono_left fun p _ hp => ?_
  simp only [Function.comp_apply, ballotOf, decide_eq_true_eq] at hp
  simp [hp.2.2]

theorem mem_requests {x : ℕ × Msg} (hx : x ∈ requests n) : x.1 ∈ n.peers.map Peer.id ∧
      x.2 = .voteReq (u32 (n.term + 1)) n.id n.logCount (raftLastTerm n) := by
  obtain ⟨p, hp, rfl⟩ := mem_map.mp hx
  exact ⟨mem_map_of_mem hp, rfl⟩

theorem Tally.stand (h : Tally ids w tally) (hnodup : ids.Nodup) (hv : v ∈ ids)
    (hroom : (w.node v).term + 1 < 2 ^ 32) (hsent : sent.Sublist (requests (w.node v)))
    (hcore : n'.core = { (w.node v).core with
      role := .candidate, term := u32 ((w.node v).term + 1), votedFor := (w.node v).id
      votesGranted := 1 }) :
    Tally ids (w.act v ⟨n', sent, [.voted (u32 ((w.node v).term + 1)) (w.node v).id]⟩) tally := by
  have hu : u32 ((w.node v).term + 1) = (w.node v).term + 1 := Nat.mod_eq_of_lt hroom
  have hid : (w.node v).id = v := (h.known v hv).1
  have hterm' : n'.term = u32 ((w.node v).term + 1) := congrArg Core.term hcore
  have hvotes : n'.votesGranted = 1 := congrArg Core.votesGranted hcore
  refine h.update hv (by rw [hcore]) (by rw [hcore]) ?_ ?_ ?_ ?_ (fun _ _ => Finset.Subset.refl _)
    (fun _ _ _ hx => .inl hx) ?_ ?_
  · dsimp only
    omega
  · intro x hx
    obtain ⟨hpeer, hmsg⟩ := mem_requests (hsent.subset hx)
    rw [(h.known v hv).2, mem_filter] at hpeer
    refine ⟨hpeer.1, of_decide_eq_true hpeer.2, ?_⟩
    rw [hmsg, hid]
    refine ⟨rfl, ?_⟩
    rw [act_node_self, hterm']
  · intro U c hm
    cases mem_singleton.mp hm
    exact hterm'.ge
  · intro x U c
    have hold := h.once x U c
    by_cases hfresh : U = (w.node v).term + 1 ∧ c = v
    · obtain ⟨rfl, rfl⟩ := hfresh
      obtain ⟨hnone, hnot⟩ := ballotOf_fresh h (Nat.lt_succ_self _) x
      have hle := countP_requests (w.node c) hsent c x ((w.node c).term + 1) c
      rw [(h.known c hv).2] at hle
      have hcount := nodup_iff_count_le_one.mp (hnodup.filter (· ≠ c)) x
      rw [hnone, if_neg hnot]
      dsimp only
      omega
    · -- the new requests are for another election
      have hnone : (packets v sent).countP (ballotOf x U c) = 0 := by
        rw [countP_eq_zero]
        intro p hp hb
        obtain ⟨m, hm, rfl⟩ := mem_map.mp hp
        rw [(mem_requests (hsent.subset hm)).2] at hb
        simp only [ballotOf, decide_eq_true_eq] at hb
        exact hfresh ⟨hb.1.symm.trans hu, hb.2.1.symm⟩
      rw [hnone]
      exact hold
  · intro _
    rw [hvotes, hterm', hid]
    exact ⟨mem_append_right _ (by simp), by omega⟩
  · simp

theorem takeTerm_core (n : Node) (term : ℕ) : (takeTerm n term).core.id = n.core.id ∧
    (takeTerm n term).core.matched = n.core.matched := by
  unfold takeTerm
  split <;> exact ⟨rfl, rfl⟩

theorem ballotOf_answer (x U c v src term cand i l : ℕ) : ballotOf x U c ⟨v, src, .voteResp true term⟩ =
      ballotOf x U c ⟨src, v, .voteReq term cand i l⟩ := by
  refine decide_eq_decide.mpr ?_
  tauto

theorem Tally.vote (h : Tally ids w tally)
    {term cand i l : ℕ} (hk : w.net[k]? = some ⟨src, v, .voteReq term cand i l⟩) (hv : v ∈ ids)
    (hle : (w.node v).term ≤ term)
    (hsent : sent.Sublist [(src, .voteResp true term)])
    (hcore : n'.core = { (takeTerm (w.node v) term).core with votedFor := cand }) :
    Tally ids ((w.take k).act v ⟨n', sent, [.voted term cand]⟩) tally := by
  have hp := mem_of_getElem? hk
  obtain ⟨hcand, hbound⟩ : cand = src ∧ term ≤ (w.node cand).term := h.counts _ hp
  obtain ⟨hsrc, _, hne⟩ : src ∈ ids ∧ v ∈ ids ∧ v ≠ src := h.routed _ hp
  obtain ⟨hid, hmatched⟩ := takeTerm_core (w.node v) term
  have hterm' : n'.term = term := by
    refine (congrArg Core.term hcore).trans ((takeTerm_term _ _).trans ?_)
    omega
  refine (h.take k).update hv (by rw [hcore]; exact hid) (by rw [hcore, ← hmatched])
    (hle.trans hterm'.ge) ?_ ?_ ?_ (fun _ _ => Finset.Subset.refl _)
    (fun _ _ _ hx => .inl hx) ?_ ?_
  · intro x hx
    rw [mem_singleton.mp (hsent.subset hx)]
    refine ⟨hsrc, hne.symm, fun _ => ⟨mem_append_right _ (by simp [hcand]), ?_⟩⟩
    rw [act_node_of_ne hne.symm]
    exact hcand ▸ hbound
  · intro U c hm
    cases mem_singleton.mp hm
    exact hterm'.ge
  · intro x U c
    have hold := h.once x U c
    rw [countP_take hk] at hold
    have hnew : (packets v sent).countP (ballotOf x U c) ≤
        if ballotOf x U c ⟨src, v, .voteReq term cand i l⟩ then 1 else 0 := by
      refine ((hsent.map _).countP_le).trans ?_
      rw [map_singleton, countP_singleton, ballotOf_answer]
    dsimp only at hold ⊢
    omega
  · intro hrole
    have hrole' : (takeTerm (w.node v) term).role = .candidate :=
      (congrArg Core.role hcore).symm.trans hrole
    have hsame : takeTerm (w.node v) term = w.node v := by
      unfold takeTerm at hrole' ⊢
      split at hrole'
      · cases hrole'
      rename_i hnot
      rw [if_neg hnot]
    rw [hsame] at hcore hrole'
    obtain ⟨hown, hcard⟩ := h.standing v hv hrole'
    have hsame' : n'.term = (w.node v).term := congrArg Core.term hcore
    have hvotes : n'.votesGranted = (w.node v).votesGranted := congrArg Core.votesGranted hcore
    rw [hsame', hvotes]
    exact ⟨mem_append_left _ hown, hcard⟩
  · simp

theorem Tally.uncounted (h : Tally ids w tally) (hk : w.net[k]? = some ⟨src, v, .voteResp true U⟩) :
    src ∉ tally v U ∧ src ∈ ids ∧ src ≠ v ∧ (src, .voted U v) ∈ w.hist ∧ U ≤ (w.node v).term := by
  have hp := mem_of_getElem? hk
  obtain ⟨hsrc, _, hne⟩ : src ∈ ids ∧ v ∈ ids ∧ v ≠ src := h.routed _ hp
  obtain ⟨hvoted, hle⟩ : (src, .voted U v) ∈ w.hist ∧ U ≤ (w.node v).term := h.counts _ hp rfl
  refine ⟨fun hmem => ?_, hsrc, hne.symm, hvoted, hle⟩
  have hold := h.once src U v
  have hone : 0 < w.net.countP (ballotOf src U v) := countP_pos_iff.mpr ⟨_, hp, by simp [ballotOf]⟩
  rw [if_pos hmem] at hold
  omega

def noted (tally : ℕ → ℕ → Finset ℕ) (v T src : ℕ) : ℕ → ℕ → Finset ℕ :=
  fun c U => if c = v ∧ U = T then insert src (tally c U) else tally c U

theorem mem_noted {T c : ℕ} : x ∈ noted tally v T src c U ↔ x ∈ tally c U ∨ (c = v ∧ U = T) ∧ x = src := by
  unfold noted
  split
  · rename_i hc
    rw [Finset.mem_insert]
    tauto
  · rename_i hc
    tauto

theorem noted_self (tally : ℕ → ℕ → Finset ℕ) (v T src : ℕ) :
    noted tally v T src v T = insert src (tally v T) := if_pos ⟨rfl, rfl⟩

theorem Tally.count (h : Tally ids w tally)
    (hk : w.net[k]? = some ⟨src, v, .voteResp true (w.node v).term⟩) (hv : v ∈ ids)
    (hrole : (w.node v).role = .candidate) (hcore : n'.core = { (w.node v).core with
      votesGranted := u32 ((w.node v).votesGranted + 1) }) :
    Tally ids ((w.take k).act v (Act.pure n')) (noted tally v (w.node v).term src) := by
  obtain ⟨hnot, hsrc, hne, hvoted, _⟩ := h.uncounted hk
  have hterm' : n'.term = (w.node v).term := congrArg Core.term hcore
  have hvotes : n'.votesGranted = u32 ((w.node v).votesGranted + 1) :=
    congrArg Core.votesGranted hcore
  refine (h.take k).update hv (by rw [pure_node, hcore]) (by rw [pure_node, hcore]) hterm'.ge
    (by simp) (by simp) ?_ ?_ ?_ ?_ (by simp)
  · intro x U c
    have hold := h.once x U c
    rw [countP_take hk] at hold
    change (w.take k).net.countP _ + 0 + _ ≤ 1
    by_cases hx : (c = v ∧ U = (w.node v).term) ∧ x = src
    · -- the ballot has left the network and is counted
      obtain ⟨⟨rfl, rfl⟩, rfl⟩ := hx
      rw [if_pos (by simp [ballotOf])] at hold
      rw [if_pos (mem_noted.mpr (.inr ⟨⟨rfl, rfl⟩, rfl⟩))]
      omega
    · simp only [mem_noted, hx, or_false]
      omega
  · exact fun c U x hx => mem_noted.mpr (.inl hx)
  · intro c U x hx
    obtain hx | ⟨⟨rfl, rfl⟩, rfl⟩ := mem_noted.mp hx
    · exact .inl hx
    · exact .inr ⟨hsrc, hne, hvoted, le_rfl⟩
  · intro _
    obtain ⟨hown, hle⟩ := h.standing v hv hrole
    have hmod : u32 ((w.node v).votesGranted + 1) ≤ (w.node v).votesGranted + 1 := Nat.mod_le _ _
    rw [pure_node, hterm', hvotes, noted_self, Finset.card_insert_of_notMem hnot]
    exact ⟨mem_append_left _ hown, by omega⟩

theorem Tally.peers_length (h : Tally ids w tally) (hnodup : ids.Nodup) (hv : v ∈ ids) :
    (w.node v).peers.length + 1 = ids.length := by
  have hlen := congrArg List.length (h.known v hv).2
  have hfilter : ids.filter (· ≠ v) = ids.erase v := by
    rw [hnodup.erase_eq_filter]
    exact filter_congr fun x _ => by by_cases hx : x = v <;> simp [hx]
  rw [length_map, hfilter, length_erase_of_mem hv] at hlen
  have hpos := length_pos_of_mem hv
  omega

theorem Tally.win (h : Tally ids w tally) (hnodup : ids.Nodup)
    (hk : w.net[k]? = some ⟨src, v, .voteResp true (w.node v).term⟩) (hv : v ∈ ids)
    (hrole : (w.node v).role = .candidate)
    (hmajority : raftMajority (w.node v) ≤ (w.node v).votesGranted + 1)
    (hcore : n'.core = { (w.node v).core with
      role := .leader, votesGranted := u32 ((w.node v).votesGranted + 1)
      matched := (w.node v).core.matched.map fun x => (x.1, 0) }) :
    Tally ids ((w.take k).act v ⟨n', [], [.elected (w.node v).term]⟩) tally := by
  obtain ⟨hnot, hsrc, hne, hvoted, _⟩ := h.uncounted hk
  obtain ⟨hown, hle⟩ := h.standing v hv hrole
  have hterm' : n'.term = (w.node v).term := congrArg Core.term hcore
  refine (h.take k).update hv (by rw [hcore]) ?_ hterm'.ge (by simp) (by simp) ?_
    (fun _ _ => Finset.Subset.refl _) (fun _ _ _ hx => .inl hx) ?_ ?_
  · rw [hcore]
    simp [Function.comp_def]
  · exact (h.take k).once
  · intro hcand
    have hlead : n'.role = .leader := congrArg Core.role hcore
    exact nomatch hlead.symm.trans hcand
  · intro U hm
    cases mem_singleton.mp hm
    set Q := insert v (insert src (tally v (w.node v).term)) with hQ
    have hmem : ∀ x ∈ Q, x ∈ ids ∧ (x, .voted (w.node v).term v) ∈ w.hist := by
      intro x hx
      rw [hQ, Finset.mem_insert, Finset.mem_insert] at hx
      obtain rfl | rfl | hx := hx
      · exact ⟨hv, hown⟩
      · exact ⟨hsrc, hvoted⟩
      · obtain ⟨hx, _, hm, _⟩ := h.counted v _ x hx
        exact ⟨hx, hm⟩
    refine ⟨Q, ⟨fun x hx => mem_toFinset.mpr (hmem x hx).1, ?_⟩, fun x hx => (hmem x hx).2⟩
    have hfresh : v ∉ insert src (tally v (w.node v).term) := by
      rw [Finset.mem_insert, not_or]
      exact ⟨hne.symm, fun hx => (h.counted v _ v hx).2.1 rfl⟩
    have hpeers := h.peers_length hnodup hv
    rw [toFinset_card_of_nodup hnodup, Finset.card_insert_of_notMem hfresh,
      Finset.card_insert_of_notMem hnot]
    unfold raftMajority at hmajority
    omega

theorem Tally.ballot (h : Tally ids w tally) (hnodup : ids.Nodup) (hk : w.net[k]? = some p) (hdst : p.dst ∈ ids)
    {env : Env} (ha : Ballot env (some (p.src, p.msg)) (w.node p.dst) a) :
    ∃ tally', Tally ids ((w.take k).act p.dst a) tally' := by
  obtain ⟨src, v, msg⟩ := p
  dsimp only at hdst ha ⊢
  cases ha with
  | stand hhand hsent hcore =>
    cases hhand
    have hroom : (w.node v).term + 1 < 2 ^ 32 := h.counts _ (mem_of_getElem? hk) rfl
    exact ⟨tally, (h.take k).stand hnodup hdst hroom hsent hcore⟩
  | vote hhand hterm _ _ _ hsent hcore =>
    cases hhand
    exact ⟨tally, h.vote hk hdst hterm hsent hcore⟩
  | count hhand hrole hcore =>
    cases hhand
    exact ⟨_, h.count hk hdst hrole hcore⟩
  | win hhand hrole hvotes hcore =>
    cases hhand
    exact ⟨tally, h.win hnodup hk hdst hrole hvotes hcore⟩

end Mohhdy.Raft
