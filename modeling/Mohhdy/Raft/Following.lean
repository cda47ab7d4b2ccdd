import Mohhdy.Raft.Replication

/-! Followers: what an append and a snapshot of the leader do to the log, and what the follower
acknowledges. With the other moves this gives that every move keeps the invariant. -/
namespace Mohhdy.Raft
open Consensus List
set_option autoImplicit false

variable {U eindex i k leader prevT snapI : ℕ} {e : LogEntry} {T lcommit m prevI src : ℕ}
  {H : History ℕ LogEntry} {N : Finset ℕ} {v : ℕ} {n n' : Node} {l l' : List LogEntry}
  {cand : ℕ → List LogEntry} {ids : List ℕ} {floor : ℕ → ℕ} {w : World} {g : Ghost} {a : Act}
  {hand : Hand}

/-! ## Appends -/

/-- The log after an append: it has the entry, and all that precedes it in the leader's log; if it
had not before, it ends there. -/
inductive Follows (H : History ℕ LogEntry) (T m : ℕ) (l : List LogEntry) : List LogEntry → Prop
  | held (hm : m ≤ l.length) (htake : l.take m = (H.log T).take m) : Follows H T m l l
  | cut (hnew : ¬ (m ≤ l.length ∧ l.take m = (H.log T).take m)) :
      Follows H T m l ((H.log T).take m)

theorem Follows.take (h : Follows H T m l l') (hm : m ≤ (H.log T).length) :
    m ≤ l'.length ∧ l'.take m = (H.log T).take m := by
  cases h with
  | held hlen htake => exact ⟨hlen, htake⟩
  | cut _ =>
    rw [length_take, take_take, min_self]
    exact ⟨by omega, rfl⟩

section
variable (h : Follows H T m l l') (hs : H.Sound N) (hT : H.led T)
include h hs hT

theorem Follows.shaped (hl : H.Shaped l k) : H.Shaped l' k := by
  cases h with
  | held _ _ => exact hl
  | cut _ => exact hs.shaped_take hT k

theorem Follows.settled (hm : m ≤ (H.log T).length) (hl : H.Settled N l k (T + 1)) :
    H.Settled N l' k (T + 1) := by
  cases h with
  | held _ _ => exact hl
  | cut hnew => exact (hs.settled_cut hT hl hm hnew).2

theorem Follows.mem (hl : ∀ e ∈ l, H.led (H.term e) ∧ H.term e ≤ T) :
    ∀ e ∈ l', H.led (H.term e) ∧ H.term e ≤ T := by
  cases h with
  | held _ _ => exact hl
  | cut _ => exact fun e he => hs.mem_log hT (mem_of_mem_take he)

theorem Follows.ack (hm : m ≤ (H.log T).length) (hack : AckOk H l T U i) : AckOk H l' T U i := by
  cases h with
  | held _ _ => exact hack
  | cut hnew =>
    refine { hack with hold := fun hcon => ?_ }
    have hlog := hs.contains_log hT hack.term hack.len fun hlt => hcon T hlt (by omega) hT
    exact hs.holds_cut hT hlog hack.own (hack.hold hcon) hm hnew

end

section
variable (h : NodeOk H N v n l cand) (hs : H.Sound N) (hH : H.term = LogEntry.term)
  (hT : H.led n.term) (he : (H.log n.term)[prevI]? = some e)
include h hs hH hT he

theorem NodeOk.prev (hok : raftPrevOk n prevI (termAt H.term (H.log n.term) prevI) = true) :
    n.snapshotIndex ≤ prevI ∧ prevI ≤ l.length ∧ l.take prevI = (H.log n.term).take prevI := by
  obtain ⟨hlo, hhi, hterm⟩ := h.window.prevOk hok
  have hlt := (List.getElem?_eq_some_iff.mp he).1
  refine ⟨hlo, hhi, ?_⟩
  refine hs.match_take hT (h.settled.le (h.applied.1.trans h.applied.2)) h.shaped hlo hhi hlt.le ?_
  intro _
  rw [hH] at hterm ⊢
  exact hterm

theorem NodeOk.held {old : LogEntry} (hlo : n.snapshotIndex ≤ prevI)
    (hold : l[prevI]? = some old) (hterm : old.term = e.term) :
    prevI + 1 ≤ l.length ∧ l.take (prevI + 1) = (H.log n.term).take (prevI + 1) := by
  have hlt := (List.getElem?_eq_some_iff.mp he).1
  have hlt' := (List.getElem?_eq_some_iff.mp hold).1
  refine ⟨hlt', ?_⟩
  refine hs.match_take hT (h.settled.le (h.applied.1.trans h.applied.2)) h.shaped (by omega) hlt'
    hlt fun _ => ?_
  rw [termAt_of_getElem? H.term hold, termAt_of_getElem? H.term he, hH, hterm]

theorem NodeOk.store (hok : raftPrevOk n prevI (termAt H.term (H.log n.term) prevI) = true)
    (hidx : prevI + 1 ≤ u32 (n.snapshotIndex + 16))
    (hstore : (storeEntry n (prevI + 1) e).2 = true) :
    ∃ l', Follows H n.term (prevI + 1) l l' ∧ Window (storeEntry n (prevI + 1) e).1 l' ∧
      (storeEntry n (prevI + 1) e).1.commitIndex = n.commitIndex ∧
      (storeEntry n (prevI + 1) e).1.lastApplied = n.lastApplied := by
  obtain ⟨hlo, hhi, htake⟩ := h.prev hs hH hT he hok
  have hlt := (List.getElem?_eq_some_iff.mp he).1
  obtain ⟨hsame, old, hold, hterm⟩ | ⟨hcase, hwin, hcommit, happlied⟩ :=
    h.window.store (by omega) hidx hstore
  · obtain ⟨hlen, htake'⟩ := h.held hs hH hT he hlo hold hterm
    rw [hsame]
    exact ⟨l, .held hlen htake', h.window, rfl, rfl⟩
  · have hnew : ¬ (prevI + 1 ≤ l.length ∧ l.take (prevI + 1) =
        (H.log n.term).take (prevI + 1)) := by
      rintro ⟨hlen, heq⟩
      obtain hnext | ⟨old, hold, hne⟩ := hcase
      · omega
      · have hget := getElem?_of_take_eq heq (Nat.lt_succ_self prevI)
        rw [he] at hget
        cases hold.symm.trans hget
        exact hne rfl
    have hl' : l.take prevI ++ [e] = (H.log n.term).take (prevI + 1) := by
      rw [take_add_one, he, htake]
      rfl
    have hcut := (hs.settled_cut hT h.settled hlt hnew).1
    refine ⟨_, .cut hnew, ?_, hcommit hcut, happlied (lt_of_le_of_lt h.applied.2 hcut)⟩
    rw [← hl']
    exact hwin

omit he in
theorem NodeOk.accept (hrole : n.role = .follower) {s : Node}
    (hlen : prevI + 1 ≤ (H.log n.term).length)
    (hlcommit : H.Settled N (H.log n.term) lcommit (n.term + 1))
    (hf : Follows H n.term (prevI + 1) l l') (hwin : Window s l')
    (hs_core : ∃ log commit applied, s.core =
      { n.core with log := log, commitIndex := commit, lastApplied := applied })
    (hcommit : s.commitIndex = n.commitIndex) (happlied : s.lastApplied = n.lastApplied)
    (hcore : n'.core = { s.core with
      commitIndex := max s.commitIndex (min (min (prevI + 1) s.logCount) lcommit) }) :
    NodeOk H N v n' l' cand := by
  obtain ⟨_, _, _, hscore⟩ := hs_core
  have hterm : s.term = n.term := congrArg Core.term hscore
  have hrole' : s.role = .follower := (congrArg Core.role hscore).trans hrole
  have hsnap : s.snapshotIndex = n.snapshotIndex := congrArg Core.snapshotIndex hscore
  obtain ⟨hlen', htake⟩ := hf.take hlen
  rw [hcommit] at hcore
  refine NodeOk.of_core (n := { s with
    commitIndex := max n.commitIndex (min (min (prevI + 1) s.logCount) lcommit) })
    ⟨{ hwin with }, ?_, ?_, ?_, ?_, (fun hl => absurd (hrole'.symm.trans hl) (by decide)),
      (fun hc => absurd (hrole'.symm.trans hc) (by decide))⟩ hcore
  · exact hsnap ▸ hf.shaped hs hT h.shaped
  · change H.Settled N l' (max _ _) (s.term + 1)
    rw [hterm]
    obtain hle | hle := le_total n.commitIndex (min (min (prevI + 1) s.logCount) lcommit)
    · -- the leader has committed this far, and up to the entry the logs agree
      rw [max_eq_right hle]
      refine (hlcommit.le (min_le_right _ _)).of_take_eq (take_eq_of_le htake ?_) ?_ <;> omega
    · rw [max_eq_left hle]
      exact hf.settled hs hT hlen h.settled
  · have hold := h.applied
    change s.snapshotIndex ≤ s.lastApplied ∧ s.lastApplied ≤ max _ _
    omega
  · change ∀ e ∈ l', H.led e.term ∧ e.term ≤ s.term
    rw [hterm]
    have hmem := hf.mem hs hT (by rw [hH]; exact h.terms)
    rw [hH] at hmem
    exact hmem

end

theorem Safe.accept (h : Safe ids floor w g) (ht : ∃ tally, Tally ids (w.act v (Act.pure n')) tally)
    (hu : OneLeader (w.act v (Act.pure n'))) (hq : Steady (w.node v).core n'.core)
    (hp : PacketOk (g.history w) ids.toFinset g.cand
      ⟨src, v, .append (w.node v).term leader prevI prevT lcommit eindex e⟩)
    (hrole : (w.node v).role = .follower) (hprev : raftPrevOk (w.node v) prevI prevT = true)
    (hidx : eindex ≤ u32 ((w.node v).snapshotIndex + 16))
    (hstore : (storeEntry (w.node v) eindex e).2 = true)
    (hcore : n'.core = { (storeEntry (w.node v) eindex e).1.core with
      commitIndex := max (storeEntry (w.node v) eindex e).1.commitIndex
        (min (min eindex (storeEntry (w.node v) eindex e).1.logCount) lcommit) }) :
    Onward ids floor w g (w.act v (Act.pure n')) := by
  obtain ⟨hT, rfl, he, rfl, hlcommit⟩ := hp
  have hlt := (List.getElem?_eq_some_iff.mp he).1
  obtain ⟨l', hf, hwin, hcommit, happlied⟩ := (h.nodes v).store h.sound rfl hT he hprev hidx hstore
  have hnode := (h.nodes v).accept h.sound rfl hT hrole hlt hlcommit hf hwin
    (storeEntry_core e hidx) hcommit happlied hcore
  refine h.quiet ht hu hq (by simp) l' g.acked (fun _ _ _ hi => hi)
    (fun _ _ _ hi => .inl hi) ?_ hnode (by simp) (by simp) ?_
  · exact fun T i hi => hf.ack h.sound hT hlt (h.acks v T i hi)
  · have hle : (w.node v).commitIndex ≤ n'.commitIndex := by
      have heq : n'.commitIndex = _ := congrArg Core.commitIndex hcore
      rw [heq, hcommit]
      exact le_max_left ..
    exact hle

theorem Safe.accepted (h : Safe ids floor w g) {sent : List (ℕ × Msg)}
    (ht : ∃ tally, Tally ids (w.act v ⟨w.node v, sent, []⟩) tally)
    (hu : OneLeader (w.act v ⟨w.node v, sent, []⟩)) (hp : PacketOk (g.history w) ids.toFinset g.cand
      ⟨src, v, .append (w.node v).term leader prevI prevT lcommit eindex e⟩)
    (hprev : (w.node v).snapshotIndex ≤ prevI)
    (hheld : eindex ≤ (w.node v).snapshotIndex ∨
      ∃ old, raftLogAt (w.node v) eindex = some old ∧ old.term = e.term)
    (hsent : ∀ x ∈ sent, x = (src, .appendResp (w.node v).term true eindex)) :
    Onward ids floor w g (w.act v ⟨w.node v, sent, []⟩) := by
  obtain ⟨hT, rfl, he, _, _⟩ := hp
  have hlt := (List.getElem?_eq_some_iff.mp he).1
  obtain hle | ⟨old, hold, hterm⟩ := hheld
  · omega
  obtain ⟨_, hold⟩ := (h.nodes v).window.logAt.mp hold
  obtain ⟨hlen, htake⟩ := (h.nodes v).held h.sound rfl hT he hprev hold hterm
  -- the positions of the leader's own term up to the entry are acknowledged now
  have hmono : ∀ x T i, g.acked x T i → g.acked x T i ∨ (x = v ∧ T = (w.node v).term ∧ 0 < i ∧
      i ≤ prevI + 1 ∧ termAt LogEntry.term (g.log (w.node v).term) i = (w.node v).term) :=
    fun _ _ _ hi => .inl hi
  refine h.quiet ht hu (Quiet.refl _).steady (by simp) (g.full v) _ hmono ?_ ?_ ?_ ?_ (by simp)
    le_rfl
  · exact fun x T i hi => hi.imp_right fun hnew => ⟨hnew.1, hnew.2.1⟩
  · intro T i hi
    obtain hi | ⟨_, rfl, hpos, hle, hown⟩ := hi
    · exact (h.acks v T i hi).extend (extends_set hmono _) le_rfl
    · refine ⟨hT, hpos, hle.trans hlt, hown, le_rfl, fun _ => ?_⟩
      exact h.sound.holds_of_take hT (h.nodes v).shaped (by omega) hlen htake hle hown
  · exact (h.nodes v).extend (extends_set hmono _) (fun _ => rfl) rfl
  · intro x hx
    rw [hsent x hx]
    exact fun _ => ⟨hT, hlt, fun i hpos hi hown => .inr ⟨rfl, rfl, hpos, hi, hown⟩⟩

/-! ## Snapshots -/

theorem AckOk.install (hack : AckOk H l T U i) (hs : H.Sound N) (hT : H.led T)
    (hm : m ≤ (H.log T).length) : AckOk H ((H.log T).take m ++ l.drop m) T U i := by
  refine { hack with hold := fun hcon => ?_ }
  have hlog := hs.contains_log hT hack.term hack.len fun hlt => hcon T hlt (by omega) hT
  exact hs.holds_splice hT hlog hack.own (hack.hold hcon) hm

theorem NodeOk.install (h : NodeOk H N v n l cand) (hs : H.Sound N) (hH : H.term = LogEntry.term)
    (hT : H.led n.term) (hrole : n.role = .follower)
    (hsnapI : H.Settled N (H.log n.term) snapI (n.term + 1))
    (hnew : ¬ (snapI ≤ n.snapshotIndex ∧ n.lastApplied ≥ snapI)) (hcore : n'.core =
      (raftInstallSnapshot n snapI (termAt H.term (H.log n.term) snapI)).core) :
    NodeOk H N v n' ((H.log n.term).take snapI ++ l.drop snapI) cand ∧
      n.commitIndex ≤ n'.commitIndex := by
  have hold := h.applied
  have hlt : n.snapshotIndex < snapI := by omega
  have hlenI := length_take_of_le hsnapI.1
  have hsettled := hs.settled_splice hT h.settled hsnapI
  have hwin : Window (raftInstallSnapshot n snapI (termAt H.term (H.log n.term) snapI))
      ((H.log n.term).take snapI ++ l.drop snapI) := by
    refine h.window.install hlt hlenI ?_
    rw [← hH, termAt_take H.term le_rfl]
  have hcount := hwin.logCount
  have hlen := hsettled.1
  -- the log reaches beyond the snapshot and what was committed before
  set m := raftInstallSnapshot n snapI (termAt H.term (H.log n.term) snapI)
  have hlog : m.logCount = snapI + m.log.length := rfl
  have hcommit : m.commitIndex = max n.commitIndex snapI := by
    have heq : m.commitIndex = min (max n.commitIndex snapI) (snapI + m.log.length) := rfl
    omega
  have happlied : m.lastApplied = max n.lastApplied snapI := by
    have heq : m.lastApplied = min (max n.lastApplied snapI) (snapI + m.log.length) := rfl
    omega
  have hsnap : m.snapshotIndex = snapI := rfl
  refine ⟨NodeOk.of_core ⟨hwin, h.shaped.splice hlt.le hlenI, hcommit ▸ hsettled, by omega, ?_,
    (fun hl => absurd (hrole.symm.trans hl) (by decide)),
    (fun hc => absurd (hrole.symm.trans hc) (by decide))⟩ hcore, ?_⟩
  · intro e he
    obtain he | he := mem_append.mp he
    · have hmem := hs.mem_log hT (mem_of_mem_take he)
      rwa [hH] at hmem
    · exact h.terms e (mem_of_mem_drop he)
  · have heq : n'.commitIndex = m.commitIndex := congrArg Core.commitIndex hcore
    omega

theorem Safe.install (h : Safe ids floor w g) (ht : ∃ tally, Tally ids (w.act v (Act.pure n')) tally)
    (hu : OneLeader (w.act v (Act.pure n'))) {snapT off : ℕ} {last : Bool}
    {items : List Item} (hq : Steady (w.node v).core n'.core)
    (hp : PacketOk (g.history w) ids.toFinset g.cand
      ⟨src, v, .snapshot (w.node v).term leader snapI snapT last off items⟩)
    (hrole : (w.node v).role = .follower)
    (hnew : ¬ (snapI ≤ (w.node v).snapshotIndex ∧ (w.node v).lastApplied ≥ snapI))
    (hcore : n'.core = (raftInstallSnapshot (w.node v) snapI snapT).core) :
    Onward ids floor w g (w.act v (Act.pure n')) := by
  obtain ⟨hT, hsnapI, rfl⟩ := hp
  obtain ⟨hnode, hcommit⟩ := (h.nodes v).install h.sound rfl hT hrole hsnapI hnew hcore
  refine h.quiet ht hu hq (by simp) _ g.acked (fun _ _ _ hi => hi)
    (fun _ _ _ hi => .inl hi) ?_ hnode (by simp) (by simp) hcommit
  exact fun T i hi => (h.acks v T i hi).install h.sound hT hsnapI.1

/-! ## Every move -/

theorem Safe.move (h : Safe ids floor w g) (hnodup : ids.Nodup) (hv : v ∈ ids)
    (hhand : InHand w v hand) (ha : Move hand (w.node v) a) (hu : OneLeader (w.act v a)) :
    Onward ids floor w g (w.act v a) := by
  obtain ⟨tally, htally⟩ := h.tallied
  have ht : ∃ tally, Tally ids (w.act v a) tally := ⟨tally, htally.move hv hhand ha⟩
  have hq := ha.quiet.steady
  have hmarks := ha.marks
  have hnode := h.nodes v
  cases ha with
  | idle hcore hsent =>
    exact h.same ht hu hq hmarks (hnode.of_core hcore)
      (fun x hx => (hsent x hx).2.packetOk g.cand x.1) (by simp)
      (congrArg Core.commitIndex hcore).ge
  | lead hcore hrole hsent =>
    exact h.same ht hu hq hmarks (hnode.of_core hcore)
      (fun x hx => (hsent x hx).2.packetOk hnode rfl hrole g.cand x.1) (by simp)
      (congrArg Core.commitIndex hcore).ge
  | stepDown hlt =>
    refine h.same ht hu hq hmarks ?_ (by simp) (by simp) le_rfl
    exact hnode.keep rfl hlt.le (by rintro ⟨⟩) (by rintro ⟨⟩)
  | follow hvote hcore =>
    refine h.same ht hu hq hmarks ?_ (by simp) (by simp)
      (congrArg Core.commitIndex hcore).ge
    exact hnode.keep hcore le_rfl (by rintro ⟨⟩) (by rintro ⟨⟩)
  | campaign hcore =>
    refine h.same ht hu hq hmarks ?_ (by simp) (by simp)
      (congrArg Core.commitIndex hcore).ge
    exact hnode.keep hcore le_rfl (by rintro ⟨⟩) (by rintro ⟨⟩)
  | propose hrole hterm hroom hcore =>
    exact h.propose ht hu hrole hterm hroom hcore
  | @commit n' i hrole hi hcore =>
    have hi' : i = (w.node v).commitIndex ∨ ((w.node v).commitIndex < i ∧
        (g.history w).Chosen ids.toFinset (w.node v).term i) :=
      hi.imp_right fun hlt => ⟨hlt.1, hnode.chosen rfl hrole htally rfl hnodup hv hlt.1 hlt.2⟩
    refine h.same ht hu hq hmarks (hnode.commit hrole hi' hcore) (by simp)
      (hnode.commitMarks hrole hi') ?_
    have hcommit : n'.commitIndex = i := congrArg Core.commitIndex hcore
    dsimp only
    omega
  | apply hlt hmark hcore =>
    refine h.same ht hu hq hmarks (hnode.apply hlt hcore) (by simp) ?_
      (congrArg Core.commitIndex hcore).ge
    obtain rfl | ⟨e, he, rfl⟩ := hmark
    · simp
    · intro m hm
      rw [mem_singleton.mp hm]
      exact hnode.applied_mark hlt he
  | ack hsome hrole hcore =>
    have hp := h.packets _ (hhand _ _ hsome)
    exact h.same ht hu hq hmarks (hnode.ack hrole hp hcore) (by simp)
      (by simp) (congrArg Core.commitIndex hcore).ge
  | snapAck hrole hids hms hcore =>
    exact h.same ht hu hq hmarks (hnode.snapAck hrole hms hcore) (by simp)
      (by simp) (congrArg Core.commitIndex hcore).ge
  | accept hsome hrole hprev _ hidx hstore hcore =>
    exact h.accept ht hu hq (h.packets _ (hhand _ _ hsome)) hrole hprev hidx hstore hcore
  | accepted hsome hprev hheld hsent =>
    exact h.accepted ht hu (h.packets _ (hhand _ _ hsome)) hprev hheld hsent
  | install hsome hrole hnew hcore =>
    exact h.install ht hu hq (h.packets _ (hhand _ _ hsome)) hrole hnew hcore
  | compact hlt he hcore =>
    exact h.same ht hu hq hmarks (hnode.compact hlt he hcore) (by simp)
      (by simp) (congrArg Core.commitIndex hcore).ge

end Mohhdy.Raft
