import Mohhdy.Raft.Safety

/-! Every move keeps the invariant: sending, acknowledging, committing and applying, following a
leader's appends and snapshots. -/
namespace Mohhdy.Raft
open Consensus List
set_option autoImplicit false

variable {e : LogEntry} {ms : List (ℕ × ℕ)} {T i : ℕ}
  {H : History ℕ LogEntry} {N : Finset ℕ} {v : ℕ} {n n' : Node} {l : List LogEntry}
  {cand : ℕ → List LogEntry} {ids : List ℕ} {floor : ℕ → ℕ} {w : World} {g : Ghost} {a : Act}
  {hand : Hand}

/-! ## Nodes whose log stays -/

theorem NodeOk.keep {cand' : ℕ → List LogEntry} {role : Role} {term vote granted : ℕ} (h : NodeOk H N v n l cand)
    (hcore : n'.core = { n.core with role := role, term := term, votedFor := vote,
                                     votesGranted := granted, matched := ms })
    (hterm : n.term ≤ term) (hlead : role = .leader → Leads H v n' l)
    (hcand : role = .candidate → cand' term = l) : NodeOk H N v n' l cand' := by
  have hterm' : n'.term = term := congrArg Core.term hcore
  have hrole : n'.role = role := congrArg Core.role hcore
  have hcommit : n'.commitIndex = n.commitIndex := congrArg Core.commitIndex hcore
  have happlied : n'.lastApplied = n.lastApplied := congrArg Core.lastApplied hcore
  have hsnap : n'.snapshotIndex = n.snapshotIndex := congrArg Core.snapshotIndex hcore
  refine ⟨h.window.congr (congrArg Core.log hcore) hsnap (congrArg Core.snapshotTerm hcore),
    hsnap ▸ h.shaped, hcommit ▸ h.settled.mono (by omega), ?_, fun e he => ?_, hrole ▸ hlead, ?_⟩
  · rw [hsnap, happlied, hcommit]
    exact h.applied
  · exact ⟨(h.terms e he).1, (h.terms e he).2.trans (hterm.trans hterm'.ge)⟩
  · rw [hrole, hterm']
    exact hcand

theorem Leads.congr (h : Leads H v n l) (hterm : n'.term = n.term)
    (hcommit : n'.commitIndex = n.commitIndex) (hmatched : n'.core.matched = n.core.matched) :
    Leads H v n' l where
  led := hterm ▸ h.led
  log := hterm ▸ h.log
  own := hterm ▸ h.own
  peer := by
    rw [hmatched, hterm, hcommit]
    exact h.peer

theorem NodeOk.of_core (h : NodeOk H N v n l cand) (hcore : n'.core = n.core) : NodeOk H N v n' l cand :=
  h.keep hcore le_rfl (fun hlead => (h.leader hlead).congr (congrArg Core.term hcore)
    (congrArg Core.commitIndex hcore) (congrArg Core.matched hcore)) h.candidate

/-! ## Messages -/

theorem Idle.packetOk {m : Msg} (hm : Idle hand m) (cand : ℕ → ℕ → List LogEntry) (dst : ℕ) :
    PacketOk H N cand ⟨v, dst, m⟩ := by
  cases m with
  | appendResp T ok i =>
    have hno : ok = false := hm
    exact fun hok => nomatch hno.symm.trans hok
  | voteReq U c i t => exact hm.elim
  | append T leader prevI prevT lcommit eindex e => exact hm.elim
  | snapshot T leader snapI snapT last off items => exact hm.elim
  | _ => trivial

theorem FromLog.packetOk {m : Msg} (hm : FromLog n m) (h : NodeOk H N v n l cand)
    (hH : H.term = LogEntry.term) (hrole : n.role = .leader) (cands : ℕ → ℕ → List LogEntry)
    (dst : ℕ) : PacketOk H N cands ⟨v, dst, m⟩ := by
  have hlead := h.leader hrole
  cases m with
  | append T leader prevI prevT lcommit eindex e =>
    obtain ⟨rfl, rfl, rfl, rfl, he⟩ := hm
    obtain ⟨hlo, he⟩ := h.window.logAt.mp he
    have hlt := (List.getElem?_eq_some_iff.mp he).1
    refine ⟨hlead.led, rfl, ?_, ?_, ?_⟩
    · rw [hlead.log]
      exact he
    · rw [hlead.log, hH]
      exact h.window.prevTerm (by omega) (by omega)
    · rw [hlead.log]
      exact h.settled
  | snapshot T leader snapI snapT last off items =>
    obtain ⟨rfl, rfl, rfl⟩ := hm
    refine ⟨hlead.led, ?_, ?_⟩
    · rw [hlead.log]
      exact h.settled.le (h.applied.1.trans h.applied.2)
    · rw [hlead.log, hH]
      exact h.window.term
  | _ => exact hm.elim

/-! ## Leaders -/

section
variable (h : NodeOk H N v n l cand) (hrole : n.role = .leader)
include h hrole

theorem NodeOk.rematch (hcore : n'.core = { n.core with matched := ms })
    (hms : ∀ x ∈ ms, x.2 ≤ l.length ∧ ∀ i, n.commitIndex < i → i ≤ x.2 →
      termAt H.term l i = n.term → H.acked x.1 n.term i) :
    NodeOk H N v n' l cand := by
  have hlead := h.leader hrole
  have hterm : n'.term = n.term := congrArg Core.term hcore
  have hcommit : n'.commitIndex = n.commitIndex := congrArg Core.commitIndex hcore
  have hmatched : n'.core.matched = ms := congrArg Core.matched hcore
  refine h.keep hcore le_rfl (fun _ => ⟨hterm ▸ hlead.led, hterm ▸ hlead.log, hterm ▸ hlead.own, ?_⟩)
    h.candidate
  rw [hmatched, hterm, hcommit]
  exact hms

theorem NodeOk.ack {src mt : ℕ} {cands : ℕ → ℕ → List LogEntry}
    (hp : PacketOk H N cands ⟨src, v, .appendResp n.term true mt⟩)
    (hcore : n'.core = { n.core with
      matched := n.core.matched.map fun x => if x.1 = src then (x.1, max x.2 mt) else x }) :
    NodeOk H N v n' l cand := by
  have hlead := h.leader hrole
  obtain ⟨_, hmt, hack⟩ := hp rfl
  rw [hlead.log] at hmt hack
  refine h.rematch hrole hcore fun x hx => ?_
  obtain ⟨y, hy, rfl⟩ := mem_map.mp hx
  obtain ⟨hlen, hold⟩ := hlead.peer y hy
  split
  · rename_i hsrc
    refine ⟨max_le hlen hmt, fun i hlo hhi hi => ?_⟩
    by_cases hiy : i ≤ y.2
    · exact hold i hlo hiy hi
    · dsimp only at hhi ⊢
      rw [hsrc]
      exact hack i (by omega) (by omega) hi
  · exact ⟨hlen, hold⟩

theorem NodeOk.snapAck
    (hms : ∀ y ∈ ms, ∃ x ∈ n.core.matched, x.1 = y.1 ∧ y.2 ≤ max x.2 n.snapshotIndex)
    (hcore : n'.core = { n.core with matched := ms }) : NodeOk H N v n' l cand := by
  refine h.rematch hrole hcore fun y hy => ?_
  obtain ⟨x, hx, hid, hle⟩ := hms y hy
  obtain ⟨hlen, hold⟩ := (h.leader hrole).peer x hx
  have hsnap := h.window.snapped
  have happlied := h.applied
  refine ⟨by omega, fun i hlo hhi hi => ?_⟩
  rw [← hid]
  exact hold i hlo (by omega) hi

end

theorem NodeOk.chosen (h : NodeOk H ids.toFinset v n l cand) (hH : H.term = LogEntry.term)
    (hrole : n.role = .leader) {tally : ℕ → ℕ → Finset ℕ} (hw : Tally ids w tally)
    (hn : w.node v = n) (hnodup : ids.Nodup) (hv : v ∈ ids) (hlt : n.commitIndex < i)
    (hi : committable n i = true) : H.Chosen ids.toFinset n.term i := by
  subst hn
  have hlead := h.leader hrole
  unfold committable at hi
  split at hi
  · cases hi
  rename_i e he
  obtain ⟨heterm, hcount⟩ := of_decide_eq_true hi
  obtain ⟨hlo, he⟩ := h.window.logAt.mp he
  have hlen := (List.getElem?_eq_some_iff.mp he).1
  have hterm : termAt H.term l i = (w.node v).term := by
    have hi1 : i - 1 + 1 = i := by omega
    rw [← heterm, hH]
    exact hi1 ▸ termAt_of_getElem? LogEntry.term he
  have hids := (hw.known v hv).2
  have hpeers := hw.peers_length hnodup hv
  -- the node itself and the peers that it takes to have the index
  set holders := ((w.node v).peers.filter fun p => decide (p.matched ≥ i)).map Peer.id with hholders
  have hsub : holders.Sublist (ids.filter (· ≠ v)) := by
    rw [← hids]
    exact filter_sublist.map _
  have hnot : v ∉ holders := by
    intro hmem
    have hne := mem_filter.mp (hsub.subset hmem)
    exact absurd rfl (of_decide_eq_true hne.2)
  refine ⟨hlead.led, by omega, by rw [hlead.log]; omega, by rw [hlead.log, hterm],
    insert v holders.toFinset, ⟨?_, ?_⟩, ?_⟩
  · intro x hx
    rw [Finset.mem_insert, mem_toFinset] at hx
    obtain rfl | hx := hx
    · exact mem_toFinset.mpr hv
    · exact mem_toFinset.mpr (mem_filter.mp (hsub.subset hx)).1
  · have hcard : (insert v holders.toFinset).card = holders.length + 1 := by
      rw [Finset.card_insert_of_notMem (by rwa [mem_toFinset]),
        toFinset_card_of_nodup (hsub.nodup (hnodup.filter _))]
    have hle : (w.node v).peers.countP (fun p => decide (p.up ∧ p.matched ≥ i)) ≤
        holders.length := by
      rw [hholders, length_map, ← countP_eq_length_filter]
      refine countP_mono_left fun p _ hp => ?_
      exact decide_eq_true (of_decide_eq_true hp).2
    rw [hcard, toFinset_card_of_nodup hnodup]
    unfold raftMajority at hcount
    omega
  · intro x hx
    rw [Finset.mem_insert, mem_toFinset] at hx
    obtain rfl | hx := hx
    · exact hlead.own i (by omega) (by omega) hterm
    · obtain ⟨p, hp, rfl⟩ := mem_map.mp hx
      obtain ⟨hp, hm⟩ := mem_filter.mp hp
      have hmem : (p.id, p.matched) ∈ (w.node v).core.matched := mem_map_of_mem hp
      exact (hlead.peer _ hmem).2 i hlt (of_decide_eq_true hm) hterm

section
variable (h : NodeOk H N v n l cand)
include h

theorem NodeOk.commit (hrole : n.role = .leader) (hi : i = n.commitIndex ∨ (n.commitIndex < i ∧ H.Chosen N n.term i))
    (hcore : n'.core = { n.core with commitIndex := i }) : NodeOk H N v n' l cand := by
  have hlead := h.leader hrole
  have hle : n.commitIndex ≤ i := by
    obtain rfl | ⟨hlt, _⟩ := hi
    · exact le_rfl
    · exact hlt.le
  refine NodeOk.of_core (n := { n with commitIndex := i }) ⟨{ h.window with }, h.shaped, ?_,
    ⟨h.applied.1, h.applied.2.trans hle⟩, h.terms, fun _ => { hlead with peer := fun x hx => ?_ },
    fun hcand => nomatch hrole.symm.trans hcand⟩ hcore
  · obtain rfl | ⟨_, hch⟩ := hi
    · exact h.settled
    · refine ⟨hlead.log ▸ hch.2.2.1, .inr ⟨n.term, i, Nat.lt_succ_self _, le_rfl, hch, ?_⟩⟩
      rw [hlead.log]
  · exact ⟨(hlead.peer x hx).1, fun j hlo => (hlead.peer x hx).2 j (hle.trans_lt hlo)⟩

theorem NodeOk.commitMarks (hrole : n.role = .leader)
    (hi : i = n.commitIndex ∨ (n.commitIndex < i ∧ H.Chosen N n.term i)) :
    ∀ m ∈ commitMarks n n.commitIndex i, MarkOk H N m := by
  intro m hm
  obtain ⟨p, hp, hm⟩ := mem_filterMap.mp hm
  obtain ⟨e, he, rfl⟩ := Option.map_eq_some_iff.mp hm
  rw [mem_range'_1] at hp
  obtain rfl | ⟨_, hch⟩ := hi
  · omega
  · refine ⟨by omega, ?_, i, by omega, hch⟩
    rw [(h.leader hrole).log]
    exact (h.window.logAt.mp he).2

theorem NodeOk.apply (hlt : n.lastApplied < n.commitIndex)
    (hcore : n'.core = { n.core with lastApplied := n.lastApplied + 1 }) : NodeOk H N v n' l cand :=
  NodeOk.of_core (n := { n with lastApplied := n.lastApplied + 1 })
    { h with
      window := { h.window with }
      applied := ⟨Nat.le_succ_of_le h.applied.1, hlt⟩
      leader := fun hl => { h.leader hl with } } hcore

theorem NodeOk.fixed {p : ℕ} (hpos : 0 < p) (hp : p ≤ n.commitIndex) (he : l[p - 1]? = some e) :
    ∃ T, Fixed H N T p e := by
  obtain ⟨_, h0 | ⟨T, i, _, hki, hch, htake⟩⟩ := h.settled
  · omega
  · refine ⟨T, hpos, ?_, i, by omega, hch⟩
    rw [← getElem?_of_take_eq htake (by omega)]
    exact he

theorem NodeOk.applied_mark (hlt : n.lastApplied < n.commitIndex) (he : raftLogAt n (n.lastApplied + 1) = some e) :
    MarkOk H N (.applied (n.lastApplied + 1) e.key e.value) := by
  obtain ⟨T, hfixed⟩ := h.fixed (Nat.succ_pos _) hlt (h.window.logAt.mp he).2
  exact ⟨T, e, hfixed, rfl, rfl⟩

theorem NodeOk.compact (hlt : n.snapshotIndex < n.lastApplied) (he : raftLogAt n n.lastApplied = some e)
    (hcore : n'.core = { n.core with
      log := n.log.drop (n.lastApplied - n.snapshotIndex)
      snapshotIndex := n.lastApplied, snapshotTerm := e.term }) : NodeOk H N v n' l cand :=
  NodeOk.of_core
    { h with
      window := h.window.compact he
      shaped := h.shaped.mono hlt.le
      applied := ⟨le_rfl, h.applied.2⟩
      leader := fun hl => { h.leader hl with } } hcore

end

/-! ## A leader's new entry -/

def Ghost.propose (g : Ghost) (v T : ℕ) (e : LogEntry) : Ghost :=
  { g with
    full := Function.update g.full v (g.full v ++ [e])
    log := Function.update g.log T (g.full v ++ [e])
    acked := fun x T' i => g.acked x T' i ∨ (x = v ∧ T' = T ∧ i = (g.full v).length + 1) }

theorem propose_full_self (g : Ghost) (v T : ℕ) (e : LogEntry) : (g.propose v T e).full v = g.full v ++ [e] :=
  Function.update_self ..

theorem propose_log_self (g : Ghost) (v T : ℕ) (e : LogEntry) : (g.propose v T e).log T = g.full v ++ [e] :=
  Function.update_self ..

theorem propose_log_of_ne {T' : ℕ} (hne : T' ≠ T) (g : Ghost) (v : ℕ) (e : LogEntry) :
    (g.propose v T e).log T' = g.log T' :=
  Function.update_of_ne hne ..

theorem extends_propose (w' : World) (e : LogEntry) (hlog : g.log T = g.full v) (hhist : w.hist ⊆ w'.hist) :
    (g.history w).Extends ((g.propose v T e).history w') where
  term := rfl
  led := fun _ ⟨x, hx⟩ => ⟨x, hhist hx⟩
  init := fun _ _ => rfl
  log U _ := by
    change g.log U <+: (g.propose v T e).log U
    by_cases hU : U = T
    · subst hU
      rw [propose_log_self, hlog]
      exact prefix_append ..
    · rw [propose_log_of_ne hU]
  acked := fun _ _ _ hi => .inl hi

theorem AckOk.propose {H' : History ℕ LogEntry} (h : AckOk H l n.term T i)
    (hx : H.Extends H') (e : LogEntry) (hterm : H'.term e = n.term) :
    AckOk H' (l ++ [e]) n.term T i := by
  have hold := h.extend hx le_rfl
  refine { hold with hold := fun hcon => ?_ }
  obtain ⟨hlen, htake, _⟩ := hold.hold hcon
  refine ⟨?_, ?_, ?_⟩
  · rw [length_append]
    omega
  · rw [take_append_of_le_length hlen, htake]
  · rw [lastTerm_concat, hterm]
    exact hold.term

theorem NodeOk.propose {H' : History ℕ LogEntry} {cand' : ℕ → List LogEntry} (h : NodeOk H N v n l cand)
    (hx : H.Extends H') (hH : H'.term = LogEntry.term) (hrole : n.role = .leader)
    (hterm : e.term = n.term) (hroom : n.log.length < 16) (hlog : H'.log n.term = l ++ [e])
    (hack : H'.acked v n.term (l.length + 1))
    (hcore : n'.core = { n.core with log := n.log ++ [e] }) :
    NodeOk H' N v n' (l ++ [e]) cand' := by
  have hlead := h.leader hrole
  have hHe : H'.term e = n.term := by rw [hH, hterm]
  have hold : ∀ i, i ≤ l.length → termAt H'.term (l ++ [e]) i = termAt H.term l i := by
    intro i hi
    rw [termAt_append H'.term _ hi, hx.term]
  refine NodeOk.of_core (n := { n with log := n.log ++ [e] }) ⟨h.window.concat hroom, ?_, ?_,
    h.applied, ?_, fun _ => ⟨hx.led _ hlead.led, hlog, ?_, ?_⟩,
    fun hcand => nomatch hrole.symm.trans hcand⟩ hcore
  · refine (hx.shaped h.shaped).concat ?_ ?_
    · rw [hHe]
      exact hx.led _ hlead.led
    · intro q _ _
      rw [hHe, hlog]
  · have hle := h.settled.1
    refine (hx.settled h.settled).of_take_eq (take_append_of_le_length hle) ?_
    rw [length_append]
    exact Nat.le_add_right_of_le hle
  · intro x hx'
    obtain hx' | hx' := mem_append.mp hx'
    · exact ⟨hx.led _ (h.terms x hx').1, (h.terms x hx').2⟩
    · rw [mem_singleton.mp hx', hterm]
      exact ⟨hx.led _ hlead.led, le_rfl⟩
  · intro i hpos hlen ht
    rw [length_append, length_singleton] at hlen
    by_cases hi : i ≤ l.length
    · rw [hold i hi] at ht
      exact hx.acked _ _ _ (hlead.own i hpos hi ht)
    · obtain rfl : i = l.length + 1 := by omega
      exact hack
  · intro x hmem
    obtain ⟨hlen, hpeer⟩ := hlead.peer x hmem
    refine ⟨?_, fun i hlo hhi ht => ?_⟩
    · rw [length_append]
      omega
    · rw [hold i (hhi.trans hlen)] at ht
      exact hx.acked _ _ _ (hpeer i hlo hhi ht)

theorem Safe.propose (h : Safe ids floor w g) (ht : ∃ tally, Tally ids (w.act v (Act.pure n')) tally)
    (hu : OneLeader (w.act v (Act.pure n'))) (hrole : (w.node v).role = .leader)
    (hterm : e.term = (w.node v).term) (hroom : (w.node v).log.length < 16)
    (hcore : n'.core = { (w.node v).core with log := (w.node v).log ++ [e] }) :
    Onward ids floor w g (w.act v (Act.pure n')) := by
  have hlead := (h.nodes v).leader hrole
  have hlog : g.log (w.node v).term = g.full v := hlead.log
  have hx := extends_propose (w.act v (Act.pure n')) e hlog (subset_append_left ..)
  have hterm' : n'.term = (w.node v).term := congrArg Core.term hcore
  have hrole' : n'.role = .leader := (congrArg Core.role hcore).trans hrole
  have hled := hx.led _ hlead.led
  have hmine : (v, Mark.elected (w.node v).term) ∈ w.hist := h.leads v hrole
  refine ⟨g.propose v (w.node v).term e, ?_, hx⟩
  refine h.update ht hu hx hterm'.ge ?_ ?_ (by simp) (by simp) ?_ ?_
    (fun _ _ _ => rfl) ?_ ?_ ?_ ?_ ?_ (by simp) (by simp) ?_
  · intro U hU i hlo hhi
    by_cases hUT : U = (w.node v).term
    · subst hUT
      rw [propose_log_self] at hhi ⊢
      rw [length_append, length_singleton] at hhi
      rw [hlog] at hlo
      obtain rfl : i = (g.full v).length + 1 := by omega
      rw [termAt_concat, hterm]
    · rw [propose_log_of_ne hUT] at hhi
      omega
  · exact fun U hU hold => absurd ((led_act (by simp)).mp hU) hold
  · intro U hm
    have hold := (mem_act_hist hm).resolve_right (by simp)
    rw [pure_node, hterm', hrole']
    exact (h.won v U hold).imp_right fun hU => ⟨hU.1, by decide⟩
  · intro _
    rw [pure_node, hterm']
    exact mem_append_left _ hmine
  · exact fun x T i hi => hi.imp_right fun hnew => ⟨hnew.1, hnew.2.1⟩
  · intro T i hi
    rw [propose_full_self, pure_node, hterm']
    obtain hi | ⟨_, rfl, rfl⟩ := hi
    · exact (h.acks v T i hi).propose hx e hterm
    · have hlen : ((g.propose v (w.node v).term e).log (w.node v).term).length =
          (g.full v).length + 1 := by
        rw [propose_log_self, length_append, length_singleton]
      have hlog' : ((g.propose v (w.node v).term e).history (w.act v (Act.pure n'))).log
          (w.node v).term = g.full v ++ [e] := propose_log_self ..
      refine ⟨hled, Nat.succ_pos _, hlen.ge, ?_, le_rfl, fun _ => ⟨?_, ?_, ?_⟩⟩
      · rw [hlog', termAt_concat]
        exact hterm
      · rw [length_append, length_singleton]
      · rw [hlog']
      · rw [lastTerm_concat]
        exact hterm.ge
  · exact fun x hxv => Function.update_of_ne hxv ..
  · intro x hxv hxrole
    refine propose_log_of_ne (fun heq => hxv ?_) ..
    exact h.unique _ x v (heq ▸ h.leads x hxrole) hmine
  · rw [propose_full_self]
    exact (h.nodes v).propose hx rfl hrole hterm hroom (propose_log_self ..)
      (.inr ⟨rfl, rfl, rfl⟩) hcore
  · exact (congrArg Core.commitIndex hcore).ge

end Mohhdy.Raft
