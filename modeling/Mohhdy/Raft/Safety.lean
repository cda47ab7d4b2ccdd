import Mohhdy.Raft.Tally
import Mohhdy.Raft.Window

/-! The invariant behind committed entries. Beside the nodes and the network it keeps what no node
stores: the whole log of each node, the log each candidate stood with, and the history of the
leaders (`Consensus.History`). `Safe.update` says what a call has to do for it to stay true. -/
namespace Mohhdy.Raft
open Consensus History List
set_option autoImplicit false

structure Ghost where
  full : ℕ → List LogEntry
  cand : ℕ → ℕ → List LogEntry
  (init log : ℕ → List LogEntry)
  acked : ℕ → ℕ → ℕ → Prop

def Ghost.history (g : Ghost) (w : World) : History ℕ LogEntry where
  term := LogEntry.term
  led T := ∃ v, (v, Mark.elected T) ∈ w.hist
  init := g.init
  log := g.log
  acked := g.acked

variable {H H' : History ℕ LogEntry} {N : Finset ℕ} {v : ℕ} {n : Node} {l : List LogEntry}

/-! ## Parts -/

/-- The log is up to date with what the node acknowledged before `U` and no leader has lost. -/
def Backed (H : History ℕ LogEntry) (l : List LogEntry) (v U : ℕ) : Prop :=
  ∀ T i, T < U → H.acked v T i → (∀ T', T < T' → T' < U → H.led T' → H.Contains T' T i) →
    UpToDate H.term l T i

structure AckOk (H : History ℕ LogEntry) (l : List LogEntry) (B T i : ℕ) : Prop where
  led : H.led T
  pos : 0 < i
  len : i ≤ (H.log T).length
  own : termAt H.term (H.log T) i = T
  term : T ≤ B
  hold : (∀ T', T < T' → T' < B + 1 → H.led T' → H.Contains T' T i) → H.Holds l T i

structure LedOk (H : History ℕ LogEntry) (N : Finset ℕ) (term : ℕ → ℕ) (U : ℕ) : Prop where
  start : H.init U <+: H.log U
  own : ∀ i, (H.init U).length < i → i ≤ (H.log U).length → termAt H.term (H.log U) i = U
  old : ∀ e ∈ H.init U, H.term e < U
  shape : ∃ k, H.Settled N (H.init U) k U ∧ H.Shaped (H.init U) k
  voters : ∃ Q, Majority N Q ∧ ∀ v ∈ Q, U ≤ term v ∧ Backed H (H.init U) v U

/-- A leader's log is the log of its term, and the positions it takes a peer to have were
acknowledged, as far as they are not committed and could be. -/
structure Leads (H : History ℕ LogEntry) (v : ℕ) (n : Node) (l : List LogEntry) : Prop where
  led : H.led n.term
  log : H.log n.term = l
  own : ∀ i, 0 < i → i ≤ l.length → termAt H.term l i = n.term → H.acked v n.term i
  peer : ∀ x ∈ n.core.matched, x.2 ≤ l.length ∧
    ∀ i, n.commitIndex < i → i ≤ x.2 → termAt H.term l i = n.term → H.acked x.1 n.term i

structure NodeOk (H : History ℕ LogEntry) (N : Finset ℕ) (v : ℕ) (n : Node) (l : List LogEntry)
    (cand : ℕ → List LogEntry) : Prop where
  window : Window n l
  shaped : H.Shaped l n.snapshotIndex
  settled : H.Settled N l n.commitIndex (n.term + 1)
  applied : n.snapshotIndex ≤ n.lastApplied ∧ n.lastApplied ≤ n.commitIndex
  terms : ∀ e ∈ l, H.led e.term ∧ e.term ≤ n.term
  leader : n.role = .leader → Leads H v n l
  candidate : n.role = .candidate → cand n.term = l

def PacketOk (H : History ℕ LogEntry) (N : Finset ℕ) (cand : ℕ → ℕ → List LogEntry) : Packet → Prop
  | ⟨_, _, .voteReq U c i t⟩ => i = (cand U c).length ∧ t = lastTerm H.term (cand U c)
  | ⟨_, _, .append T _ prevI prevT lcommit eindex e⟩ =>
      H.led T ∧ prevI + 1 = eindex ∧ (H.log T)[prevI]? = some e ∧
        prevT = termAt H.term (H.log T) prevI ∧ H.Settled N (H.log T) lcommit (T + 1)
  | ⟨src, _, .appendResp T ok m⟩ => ok = true → H.led T ∧ m ≤ (H.log T).length ∧
      ∀ i, 0 < i → i ≤ m → termAt H.term (H.log T) i = T → H.acked src T i
  | ⟨_, _, .snapshot T _ snapI snapT _ _ _⟩ =>
      H.led T ∧ H.Settled N (H.log T) snapI (T + 1) ∧ snapT = termAt H.term (H.log T) snapI
  | _ => True

def Fixed (H : History ℕ LogEntry) (N : Finset ℕ) (T p : ℕ) (e : LogEntry) : Prop :=
  0 < p ∧ (H.log T)[p - 1]? = some e ∧ ∃ i, p ≤ i ∧ H.Chosen N T i

def MarkOk (H : History ℕ LogEntry) (N : Finset ℕ) : Mark → Prop
  | .committed T p e => Fixed H N T p e
  | .applied p key value => ∃ T e, Fixed H N T p e ∧ e.key = key ∧ e.value = value
  | _ => True

/-! ## Parts when the history grows -/

theorem AckOk.extend {T i B : ℕ} (h : AckOk H l B T i) (hx : H.Extends H') {B' : ℕ} (hB : B ≤ B') :
    AckOk H' l B' T i where
  led := hx.led T h.led
  pos := h.pos
  len := h.len.trans (hx.length_log h.led)
  own := by rw [hx.termAt_log h.led h.len, h.own]
  term := h.term.trans hB
  hold hcon := by
    have hold := h.hold (hx.contains_below h.led h.len fun T' hlt hlt' => hcon T' hlt (by omega))
    rwa [Holds, hx.term, hx.take_log h.led h.len]

theorem Backed.extend {U : ℕ} (h : Backed H l v U) (hx : H.Extends H')
    (hack : ∀ T i, H.acked v T i → H.led T ∧ i ≤ (H.log T).length)
    (hold : ∀ T i, T < U → H'.acked v T i → H.acked v T i) : Backed H' l v U := by
  intro T i hT hi hcon
  have hi' := hold T i hT hi
  obtain ⟨hled, hlen⟩ := hack T i hi'
  rw [hx.term]
  exact h T i hT hi' (hx.contains_below hled hlen hcon)

theorem LedOk.extend {term term' : ℕ → ℕ} {U : ℕ} (h : LedOk H N term U) (hU : H.led U)
    (hx : H.Extends H') (hterm : ∀ x, term x ≤ term' x)
    (hgrow : ∀ i, (H.log U).length < i → i ≤ (H'.log U).length → termAt H'.term (H'.log U) i = U)
    (hack : ∀ x T i, H.acked x T i → H.led T ∧ i ≤ (H.log T).length)
    (hold : ∀ x T i, H'.acked x T i → H.acked x T i ∨ T = term x) : LedOk H' N term' U where
  start := by
    rw [hx.init U hU]
    exact h.start.trans (hx.log U hU)
  own i hlo hhi := by
    rw [hx.init U hU] at hlo
    by_cases hlen : i ≤ (H.log U).length
    · rw [hx.termAt_log hU hlen, h.own i hlo hlen]
    · exact hgrow i (by omega) hhi
  old := by
    rw [hx.init U hU, hx.term]
    exact h.old
  shape := by
    obtain ⟨k, hk, hsh⟩ := h.shape
    rw [hx.init U hU]
    exact ⟨k, hx.settled hk, hx.shaped hsh⟩
  voters := by
    obtain ⟨Q, hQ, hv⟩ := h.voters
    refine ⟨Q, hQ, fun x hxQ => ⟨(hv x hxQ).1.trans (hterm x), ?_⟩⟩
    rw [hx.init U hU]
    refine (hv x hxQ).2.extend hx (hack x) fun T i hT hi => ?_
    have hle := (hv x hxQ).1
    exact (hold x T i hi).resolve_right (by omega)

theorem Leads.extend (h : Leads H v n l) (hx : H.Extends H') (hlog : H'.log n.term = l) :
    Leads H' v n l where
  led := hx.led _ h.led
  log := hlog
  own i hpos hlen ht := by
    rw [hx.term] at ht
    exact hx.acked _ _ _ (h.own i hpos hlen ht)
  peer x hmem := by
    refine ⟨(h.peer x hmem).1, fun i hlo hhi ht => ?_⟩
    rw [hx.term] at ht
    exact hx.acked _ _ _ ((h.peer x hmem).2 i hlo hhi ht)

theorem NodeOk.extend {cand cand' : ℕ → List LogEntry} (h : NodeOk H N v n l cand)
    (hx : H.Extends H') (hlog : n.role = .leader → H'.log n.term = H.log n.term)
    (hcand : cand' n.term = cand n.term) : NodeOk H' N v n l cand' where
  __ := h
  shaped := hx.shaped h.shaped
  settled := hx.settled h.settled
  terms e he := ⟨hx.led _ (h.terms e he).1, (h.terms e he).2⟩
  leader hrole := (h.leader hrole).extend hx ((hlog hrole).trans (h.leader hrole).log)
  candidate hrole := hcand.trans (h.candidate hrole)

theorem PacketOk.extend {cand cand' : ℕ → ℕ → List LogEntry} {p : Packet}
    (h : PacketOk H N cand p) (hx : H.Extends H')
    (hcand : ∀ U c i t, p.msg = .voteReq U c i t → cand' U c = cand U c) :
    PacketOk H' N cand' p := by
  obtain ⟨src, dst, msg⟩ := p
  have hsettled : ∀ {T k}, H.led T → H.Settled N (H.log T) k (T + 1) →
      H'.Settled N (H'.log T) k (T + 1) := fun {T k} hT hk =>
    (hx.settled hk).of_take_eq (hx.take_log hT hk.1) (hk.1.trans (hx.length_log hT))
  cases msg with
  | voteReq U c i t =>
    obtain ⟨hi, ht⟩ := h
    change i = (cand' U c).length ∧ t = lastTerm H'.term (cand' U c)
    rw [hcand U c i t rfl, hx.term]
    exact ⟨hi, ht⟩
  | append T leader prevI prevT lcommit eindex e =>
    obtain ⟨hT, hprev, he, hprevT, hcommit⟩ := h
    have hlt := (List.getElem?_eq_some_iff.mp he).1
    refine ⟨hx.led T hT, hprev, ?_, ?_, hsettled hT hcommit⟩
    · rw [getElem?_of_take_eq (hx.take_log hT hlt) (Nat.lt_succ_self _), he]
    · rw [hx.termAt_log hT hlt.le, hprevT]
  | appendResp T ok m =>
    intro hok
    obtain ⟨hT, hm, hack⟩ := h hok
    refine ⟨hx.led T hT, hm.trans (hx.length_log hT), fun i hpos hi ht => ?_⟩
    rw [hx.termAt_log hT (hi.trans hm)] at ht
    exact hx.acked _ _ _ (hack i hpos hi ht)
  | snapshot T leader snapI snapT last off items =>
    obtain ⟨hT, hsnap, hsnapT⟩ := h
    refine ⟨hx.led T hT, hsettled hT hsnap, ?_⟩
    rw [hx.termAt_log hT hsnap.1, hsnapT]
  | _ => trivial

theorem Fixed.extend {T p : ℕ} {e : LogEntry} (h : Fixed H N T p e) (hx : H.Extends H') :
    Fixed H' N T p e := by
  obtain ⟨hpos, he, i, hpi, hch⟩ := h
  refine ⟨hpos, ?_, i, hpi, hx.chosen hch⟩
  have hlt := (List.getElem?_eq_some_iff.mp he).1
  rw [getElem?_of_take_eq (hx.take_log hch.1 hlt) (Nat.lt_succ_self _), he]

theorem MarkOk.extend {m : Mark} (h : MarkOk H N m) (hx : H.Extends H') : MarkOk H' N m := by
  cases m with
  | committed T p e => exact Fixed.extend h hx
  | applied p key value =>
    obtain ⟨T, e, hfixed, hkey, hvalue⟩ := h
    exact ⟨T, e, hfixed.extend hx, hkey, hvalue⟩
  | _ => trivial

/-! ## The invariant -/

def OneLeader (w : World) : Prop :=
  ∀ T v v', (v, Mark.elected T) ∈ w.hist → (v', Mark.elected T) ∈ w.hist → v = v'

structure Safe (ids : List ℕ) (floor : ℕ → ℕ) (w : World) (g : Ghost) : Prop where
  tallied : ∃ tally, Tally ids w tally
  unique : OneLeader w
  asked : ∀ v U c, (v, .voted U c) ∈ w.hist → U ≤ (w.node c).term
  won : ∀ v U, (v, .elected U) ∈ w.hist →
    U < (w.node v).term ∨ (U = (w.node v).term ∧ (w.node v).role ≠ .candidate)
  leads : ∀ v, (w.node v).role = .leader → (v, .elected (w.node v).term) ∈ w.hist
  led : ∀ U, (g.history w).led U →
    LedOk (g.history w) ids.toFinset (fun v => (w.node v).term) U
  ballots : ∀ v U c, (v, .voted U c) ∈ w.hist → ¬ (g.history w).led U →
    Backed (g.history w) (g.cand U c) v U
  acks : ∀ v T i, g.acked v T i → AckOk (g.history w) (g.full v) (w.node v).term T i
  nodes : ∀ v, NodeOk (g.history w) ids.toFinset v (w.node v) (g.full v) (g.cand · v)
  packets : ∀ p ∈ w.net, PacketOk (g.history w) ids.toFinset g.cand p
  marks : ∀ v m, (v, m) ∈ w.hist → MarkOk (g.history w) ids.toFinset m
  floor : ∀ v, floor v ≤ (w.node v).commitIndex

variable {ids : List ℕ} {floor : ℕ → ℕ} {w : World} {g g' : Ghost} {a : Act}

theorem Safe.sound (h : Safe ids floor w g) : (g.history w).Sound ids.toFinset where
  start T hT := (h.led T hT).start
  own T hT := (h.led T hT).own
  old T hT := (h.led T hT).old
  shape T hT := (h.led T hT).shape
  voters T hT := by
    obtain ⟨Q, hQ, hv⟩ := (h.led T hT).voters
    exact ⟨Q, hQ, fun v hvQ => (hv v hvQ).2⟩

theorem Safe.shrink (h : Safe ids floor w g) {net : List Packet} (hsub : net.Subperm w.net) :
    Safe ids floor { w with net := net } g :=
  { h with
    tallied := h.tallied.imp fun _ ht => ht.shrink hsub
    packets := fun p hp => h.packets p (hsub.subset hp) }

def Ghost.empty : Ghost := ⟨fun _ => [], fun _ _ => [], fun _ => [], fun _ => [], fun _ _ _ => False⟩

theorem Safe.start (ids : List ℕ) : Safe ids (fun _ => 0) (World.init ids) Ghost.empty where
  tallied := ⟨_, Tally.init ids⟩
  unique T v v' hv := nomatch hv
  asked v U c hv := nomatch hv
  won v U hv := nomatch hv
  leads v hv := nomatch hv
  led U hU := nomatch hU.choose_spec
  ballots v U c hv := nomatch hv
  acks v T i hi := hi.elim
  nodes v := by
    refine ⟨⟨Nat.zero_le _, rfl, Nat.zero_le _, rfl⟩, ?_, ⟨Nat.zero_le _, .inl rfl⟩,
      ⟨le_rfl, le_rfl⟩, fun e he => (not_mem_nil he).elim, nofun, nofun⟩
    intro p hp hlen
    exact absurd (lt_of_lt_of_le hp hlen) (Nat.not_lt_zero _)
  packets p hp := (not_mem_nil hp).elim
  marks v m hm := (not_mem_nil hm).elim
  floor v := le_rfl

/-- A call by node `v` keeps the invariant if what it does to `v`, to the history and to the
network is right; all other nodes see only a history that has grown. -/
theorem Safe.update (h : Safe ids floor w g) (ht : ∃ tally, Tally ids (w.act v a) tally)
    (hu : OneLeader (w.act v a)) (hx : (g.history w).Extends (g'.history (w.act v a)))
    (hterm : (w.node v).term ≤ a.node.term)
    (hgrow : ∀ U, (g.history w).led U → ∀ i, (g.log U).length < i → i ≤ (g'.log U).length →
      termAt LogEntry.term (g'.log U) i = U)
    (hnew : ∀ U, (g'.history (w.act v a)).led U → ¬ (g.history w).led U →
      LedOk (g'.history (w.act v a)) ids.toFinset (fun x => ((w.act v a).node x).term) U)
    (hasked : ∀ U c, .voted U c ∈ a.marks → U ≤ ((w.act v a).node c).term)
    (hballot : ∀ U c, .voted U c ∈ a.marks → ¬ (g'.history (w.act v a)).led U →
      Backed (g'.history (w.act v a)) (g'.cand U c) v U)
    (hwon : ∀ U, (v, .elected U) ∈ (w.act v a).hist →
      U < a.node.term ∨ (U = a.node.term ∧ a.node.role ≠ .candidate))
    (hleads : a.node.role = .leader → (v, .elected a.node.term) ∈ (w.act v a).hist)
    (hcand : ∀ U c, U ≤ (w.node c).term → g'.cand U c = g.cand U c)
    (hacked : ∀ x T i, g'.acked x T i → g.acked x T i ∨ (x = v ∧ T = (w.node v).term))
    (hack : ∀ T i, g'.acked v T i → AckOk (g'.history (w.act v a)) (g'.full v) a.node.term T i)
    (hfull : ∀ x, x ≠ v → g'.full x = g.full x)
    (hlog : ∀ x, x ≠ v → (w.node x).role = .leader → g'.log (w.node x).term = g.log (w.node x).term)
    (hnode : NodeOk (g'.history (w.act v a)) ids.toFinset v a.node (g'.full v) (g'.cand · v))
    (hsent : ∀ x ∈ a.sent, PacketOk (g'.history (w.act v a)) ids.toFinset g'.cand ⟨v, x.1, x.2⟩)
    (hmarks : ∀ m ∈ a.marks, MarkOk (g'.history (w.act v a)) ids.toFinset m)
    (hcommit : (w.node v).commitIndex ≤ a.node.commitIndex) :
    Safe ids floor (w.act v a) g' := by
  obtain ⟨tally, htally⟩ := h.tallied
  have hg : Grows w (w.act v a) := grows_act hterm
  have hackLed : ∀ x T i, (g.history w).acked x T i →
      (g.history w).led T ∧ i ≤ ((g.history w).log T).length :=
    fun x T i hi => ⟨(h.acks x T i hi).led, (h.acks x T i hi).len⟩
  refine ⟨ht, hu, ?_, ?_, ?_, ?_, ?_, ?_, ?_, ?_, ?_, ?_⟩
  · intro x U c hm
    obtain hm | ⟨_, hm⟩ := mem_act_hist hm
    · exact (h.asked x U c hm).trans (hg.term c)
    · exact hasked U c hm
  · intro x U hm
    by_cases hxv : x = v
    · subst hxv
      rw [act_node_self]
      exact hwon U hm
    · rw [act_node_of_ne hxv]
      exact h.won x U ((mem_act_hist hm).resolve_right fun hnew => hxv hnew.1)
  · intro x hrole
    by_cases hxv : x = v
    · subst hxv
      rw [act_node_self] at hrole ⊢
      exact hleads hrole
    · rw [act_node_of_ne hxv] at hrole ⊢
      exact mem_append_left _ (h.leads x hrole)
  · intro U hU
    by_cases hold : (g.history w).led U
    · refine (h.led U hold).extend hold hx hg.term (hgrow U hold) hackLed fun x T i hi => ?_
      refine (hacked x T i hi).imp_right ?_
      rintro ⟨rfl, hT⟩
      exact hT
    · exact hnew U hU hold
  · intro x U c hm hled
    obtain hold | ⟨hxv, hmark⟩ := mem_act_hist hm
    · rw [hcand U c (h.asked x U c hold)]
      refine (h.ballots x U c hold fun hU => hled (hx.led U hU)).extend hx (hackLed x) ?_
      -- a node that voted in `U` acknowledges nothing below `U` any more
      intro T i hT hi
      have hle := htally.voted x U c hold
      refine (hacked x T i hi).resolve_right ?_
      rintro ⟨rfl, rfl⟩
      omega
    · rw [hxv]
      exact hballot U c hmark hled
  · intro x T i hi
    by_cases hxv : x = v
    · subst hxv
      rw [act_node_self]
      exact hack T i hi
    · rw [act_node_of_ne hxv, hfull x hxv]
      have hi' := (hacked x T i hi).resolve_right fun hnew => hxv hnew.1
      exact (h.acks x T i hi').extend hx le_rfl
  · intro x
    by_cases hxv : x = v
    · subst hxv
      rw [act_node_self]
      exact hnode
    · rw [act_node_of_ne hxv, hfull x hxv]
      exact (h.nodes x).extend hx (hlog x hxv) (hcand _ x le_rfl)
  · intro p hp
    obtain hp | ⟨hsrc, hsend⟩ := mem_act_net hp
    · refine (h.packets p hp).extend hx fun U c i t hmsg => hcand U c ?_
      obtain ⟨src, dst, msg⟩ := p
      obtain rfl : msg = .voteReq U c i t := hmsg
      exact (htally.counts _ hp).2
    · obtain ⟨src, dst, msg⟩ := p
      obtain rfl : src = v := hsrc
      exact hsent _ hsend
  · intro x m hm
    obtain hm | ⟨_, hm⟩ := mem_act_hist hm
    · exact (h.marks x m hm).extend hx
    · exact hmarks m hm
  · intro x
    by_cases hxv : x = v
    · subst hxv
      rw [act_node_self]
      exact (h.floor x).trans hcommit
    · rw [act_node_of_ne hxv]
      exact h.floor x

/-! ## Calls without votes -/

theorem led_act (hno : ∀ U, .elected U ∉ a.marks) {U : ℕ} :
    (g'.history (w.act v a)).led U ↔ (g.history w).led U := by
  constructor
  · rintro ⟨x, hx⟩
    exact ⟨x, (mem_act_hist hx).resolve_right fun hnew => hno U hnew.2⟩
  · rintro ⟨x, hx⟩
    exact ⟨x, mem_append_left _ hx⟩

theorem extends_act : (g.history w).Extends (g.history (w.act v a)) where
  term := rfl
  led := fun _ ⟨x, hx⟩ => ⟨x, mem_append_left _ hx⟩
  init := fun _ _ => rfl
  log := fun _ _ => prefix_refl _
  acked := fun _ _ _ hi => hi

def Ghost.set (g : Ghost) (v : ℕ) (l : List LogEntry) (acked : ℕ → ℕ → ℕ → Prop) : Ghost :=
  { g with full := Function.update g.full v l, acked := acked }

theorem set_full_self (g : Ghost) (v : ℕ) (l : List LogEntry) (acked : ℕ → ℕ → ℕ → Prop) :
    (g.set v l acked).full v = l :=
  Function.update_self ..

theorem set_full_of_ne {x : ℕ} (hx : x ≠ v) (g : Ghost) (l : List LogEntry)
    (acked : ℕ → ℕ → ℕ → Prop) : (g.set v l acked).full x = g.full x :=
  Function.update_of_ne hx ..

theorem extends_set {acked : ℕ → ℕ → ℕ → Prop} (hmono : ∀ x T i, g.acked x T i → acked x T i)
    (l : List LogEntry) : (g.history w).Extends ((g.set v l acked).history w) where
  term := rfl
  led := fun _ hT => hT
  init := fun _ _ => rfl
  log := fun _ _ => prefix_refl _
  acked := hmono

structure Steady (c c' : Core) : Prop where
  term : c.term ≤ c'.term
  candidate : c'.role = .candidate → c.role = .candidate
  leader : c'.role = .leader → c.role = .leader ∧ c'.term = c.term

theorem Quiet.steady {c c' : Core} (h : Quiet c c') : Steady c c' :=
  ⟨h.term, fun hc => (h.candidate hc).1, h.leader⟩

def Onward (ids : List ℕ) (floor : ℕ → ℕ) (w : World) (g : Ghost) (w' : World) : Prop :=
  ∃ g', Safe ids floor w' g' ∧ (g.history w).Extends (g'.history w')

section
variable (h : Safe ids floor w g) (ht : ∃ tally, Tally ids (w.act v a) tally)
  (hu : OneLeader (w.act v a)) (hq : Steady (w.node v).core a.node.core)
  (hno : ∀ m ∈ a.marks, (∀ U c, m ≠ .voted U c) ∧ ∀ U, m ≠ .elected U)
include h ht hu hq hno

/-- A call that casts no vote and wins no election; it may change the log of the node and
acknowledge positions in the node's term. -/
theorem Safe.quiet (l' : List LogEntry) (acked : ℕ → ℕ → ℕ → Prop)
    (hmono : ∀ x T i, g.acked x T i → acked x T i)
    (hacked : ∀ x T i, acked x T i → g.acked x T i ∨ (x = v ∧ T = (w.node v).term))
    (hack : ∀ T i, acked v T i → AckOk ((g.set v l' acked).history w) l' (w.node v).term T i)
    (hnode : NodeOk ((g.set v l' acked).history w) ids.toFinset v a.node l' (g.cand · v))
    (hsent : ∀ x ∈ a.sent, PacketOk ((g.set v l' acked).history w) ids.toFinset g.cand ⟨v, x.1, x.2⟩)
    (hmarks : ∀ m ∈ a.marks, MarkOk ((g.set v l' acked).history w) ids.toFinset m)
    (hcommit : (w.node v).commitIndex ≤ a.node.commitIndex) :
    Onward ids floor w g (w.act v a) := by
  have hx2 : ((g.set v l' acked).history w).Extends
      ((g.set v l' acked).history (w.act v a)) := extends_act
  have hx : (g.history w).Extends ((g.set v l' acked).history (w.act v a)) :=
    (extends_set hmono l').trans hx2
  have helected : ∀ U, .elected U ∉ a.marks := fun U hm => (hno _ hm).2 U rfl
  have hvoted : ∀ U c, .voted U c ∉ a.marks := fun U c hm => (hno _ hm).1 U c rfl
  refine ⟨g.set v l' acked, ?_, hx⟩
  refine h.update ht hu hx hq.term ?_ ?_ ?_ ?_ ?_ ?_ ?_ hacked ?_ ?_ ?_ ?_ ?_ ?_ hcommit
  · exact fun U _ i hlo hhi => absurd (lt_of_lt_of_le hlo hhi) (lt_irrefl _)
  · exact fun U hU hold => absurd ((led_act helected).mp hU) hold
  · exact fun U c hm => absurd hm (hvoted U c)
  · exact fun U c hm => absurd hm (hvoted U c)
  · intro U hm
    have hold := (mem_act_hist hm).resolve_right fun hnew => helected U hnew.2
    have hle : (w.node v).term ≤ a.node.term := hq.term
    obtain hlt | ⟨heq, hrole⟩ := h.won v U hold
    · exact .inl (by omega)
    · by_cases hlt : U < a.node.term
      · exact .inl hlt
      · exact .inr ⟨by omega, fun hcand => hrole (hq.candidate hcand)⟩
  · intro hrole
    obtain ⟨hrole', hterm⟩ := hq.leader hrole
    have hterm' : a.node.term = (w.node v).term := hterm
    rw [hterm']
    exact mem_append_left _ (h.leads v hrole')
  · exact fun _ _ _ => rfl
  · intro T i hi
    rw [set_full_self]
    exact (hack T i hi).extend hx2 hq.term
  · exact fun x hxv => set_full_of_ne hxv ..
  · exact fun _ _ _ => rfl
  · rw [set_full_self]
    exact hnode.extend hx2 (fun _ => rfl) rfl
  · exact fun x hx => (hsent x hx).extend hx2 fun _ _ _ _ _ => rfl
  · exact fun m hm => (hmarks m hm).extend hx2

theorem Safe.same (hnode : NodeOk (g.history w) ids.toFinset v a.node (g.full v) (g.cand · v))
    (hsent : ∀ x ∈ a.sent, PacketOk (g.history w) ids.toFinset g.cand ⟨v, x.1, x.2⟩)
    (hmarks : ∀ m ∈ a.marks, MarkOk (g.history w) ids.toFinset m)
    (hcommit : (w.node v).commitIndex ≤ a.node.commitIndex) : Onward ids floor w g (w.act v a) :=
  h.quiet ht hu hq hno (g.full v) g.acked (fun _ _ _ hi => hi) (fun _ _ _ hi => .inl hi)
    (h.acks v) hnode hsent hmarks hcommit

end

end Mohhdy.Raft
