import Mohhdy.Raft.Following
import Mohhdy.Raft.Election

/-! Elections keep the invariant too, as long as each term has one leader; and from the invariant:
nodes apply the same entries, later leaders have what was committed, and commit indices never
decrease. -/
namespace Mohhdy.Raft
open Runs Consensus List
set_option autoImplicit false

variable {cand : ℕ → List LogEntry} {T U i term : ℕ}
  {H : History ℕ LogEntry} {N : Finset ℕ} {v : ℕ} {n n' : Node} {l : List LogEntry}
  {ids : List ℕ} {floor : ℕ → ℕ} {w : World} {g : Ghost} {a : Act} {sent : List (ℕ × Msg)}

/-! ## Standing -/

def Ghost.stand (g : Ghost) (v U : ℕ) : Ghost :=
  { g with cand := fun U' c => if U' = U ∧ c = v then g.full v else g.cand U' c }

theorem stand_cand_self (g : Ghost) (v U : ℕ) : (g.stand v U).cand U v = g.full v :=
  if_pos ⟨rfl, rfl⟩

theorem Holds.upToDate (h : H.Holds l T i) : UpToDate H.term l T i := by
  obtain ⟨hlen, _, hle⟩ := h
  obtain hlt | heq := Nat.lt_or_eq_of_le hle
  · exact .inl hlt
  · exact .inr ⟨heq.symm, hlen⟩

theorem Safe.stand (h : Safe ids floor w g) (hid : (w.node v).id = v) (ht : ∃ tally, Tally ids
      (w.act v ⟨n', sent, [.voted (u32 ((w.node v).term + 1)) (w.node v).id]⟩) tally)
    (hu : OneLeader (w.act v ⟨n', sent, [.voted (u32 ((w.node v).term + 1)) (w.node v).id]⟩))
    (hroom : (w.node v).term + 1 < 2 ^ 32) (hsent : sent.Sublist (requests (w.node v)))
    (hcore : n'.core = { (w.node v).core with
      role := .candidate, term := u32 ((w.node v).term + 1), votedFor := (w.node v).id
      votesGranted := 1 }) :
    Onward ids floor w g
      (w.act v ⟨n', sent, [.voted (u32 ((w.node v).term + 1)) (w.node v).id]⟩) := by
  have hU : u32 ((w.node v).term + 1) = (w.node v).term + 1 := Nat.mod_eq_of_lt hroom
  rw [hU] at hcore ht hu ⊢
  rw [hid] at ht hu ⊢
  have hterm : n'.term = (w.node v).term + 1 := congrArg Core.term hcore
  have hrole : n'.role = .candidate := congrArg Core.role hcore
  have hx : (g.history w).Extends ((g.stand v ((w.node v).term + 1)).history
      (w.act v ⟨n', sent, [.voted ((w.node v).term + 1) v]⟩)) := extends_act
  have hself : (g.stand v ((w.node v).term + 1)).cand ((w.node v).term + 1) v = g.full v :=
    stand_cand_self ..
  have hwin := (h.nodes v).window
  refine ⟨g.stand v ((w.node v).term + 1), ?_, hx⟩
  refine h.update ht hu hx (by dsimp only; omega) ?_ ?_ ?_ ?_ ?_ ?_ ?_ (fun _ _ _ hi => .inl hi)
    ?_ (fun _ _ => rfl) (fun _ _ _ => rfl) ?_ ?_ ?_ (congrArg Core.commitIndex hcore).ge
  · exact fun U _ i hlo hhi => absurd (lt_of_lt_of_le hlo hhi) (lt_irrefl _)
  · exact fun U hled hold => absurd ((led_act (by simp)).mp hled) hold
  · intro U c hm
    cases mem_singleton.mp hm
    rw [act_node_self]
    exact hterm.ge
  · intro U c hm _
    cases mem_singleton.mp hm
    rw [hself]
    -- what the candidate acknowledged is in the log it stands with
    intro T i hT hi hcon
    exact Holds.upToDate (((h.acks v T i hi).extend hx le_rfl).hold hcon)
  · intro U hm
    have hold := (mem_act_hist hm).resolve_right (by simp)
    have hle := h.won v U hold
    exact .inl (by dsimp only; omega)
  · exact fun hl => nomatch hrole.symm.trans hl
  · intro U c hle
    refine if_neg ?_
    rintro ⟨rfl, rfl⟩
    omega
  · exact fun T i hi => (h.acks v T i hi).extend hx (by dsimp only; omega)
  · have hnode : NodeOk (g.history w) ids.toFinset v n' (g.full v)
        ((g.stand v ((w.node v).term + 1)).cand · v) := by
      exact (h.nodes v).keep hcore (Nat.le_succ _) (fun hl => by cases hl) fun _ => hself
    exact hnode.extend hx (fun _ => rfl) rfl
  · intro x hx'
    rw [(mem_requests (hsent.subset hx')).2, hU, hid]
    refine ⟨?_, ?_⟩
    · rw [hself]
      exact hwin.logCount
    · rw [hself]
      exact hwin.lastTerm
  · intro m hm
    rw [mem_singleton.mp hm]
    trivial

/-! ## Voting -/

theorem takeTerm_cases (n : Node) (term : ℕ) : (n.term < term ∧ (takeTerm n term).core = { n.core with
      term := term, role := .follower, votedFor := 0 }) ∨
    (term ≤ n.term ∧ takeTerm n term = n) := by
  unfold takeTerm
  split
  · rename_i hlt
    exact .inl ⟨hlt, rfl⟩
  · rename_i hle
    exact .inr ⟨by omega, rfl⟩

theorem vote_cases {cand : ℕ} (hle : n.term ≤ term)
    (hcore : n'.core = { (takeTerm n term).core with votedFor := cand }) :
    (n.term < term ∧ n'.core = { n.core with
      term := term, role := .follower, votedFor := cand }) ∨
    (n.term = term ∧ n'.core = { n.core with votedFor := cand }) := by
  obtain ⟨hlt, htake⟩ | ⟨hge, htake⟩ := takeTerm_cases n term
  · rw [htake] at hcore
    exact .inl ⟨hlt, hcore⟩
  · rw [htake] at hcore
    exact .inr ⟨by omega, hcore⟩

theorem Steady.vote {cand : ℕ} (hle : n.term ≤ term)
    (hcore : n'.core = { (takeTerm n term).core with votedFor := cand }) :
    Steady n.core n'.core := by
  obtain ⟨hlt, hcore⟩ | ⟨_, hcore⟩ := vote_cases hle hcore
  · rw [hcore]
    exact ⟨hlt.le, nofun, nofun⟩
  · rw [hcore]
    exact ⟨le_rfl, fun hc => hc, fun hl => ⟨hl, rfl⟩⟩

theorem NodeOk.vote {c : ℕ} (h : NodeOk H N v n l cand)
    (hle : n.term ≤ term) (hcore : n'.core = { (takeTerm n term).core with votedFor := c }) :
    NodeOk H N v n' l cand := by
  obtain ⟨hlt, hcore⟩ | ⟨_, hcore⟩ := vote_cases hle hcore
  · exact h.keep hcore hlt.le (fun hl => by cases hl) (fun hc => by cases hc)
  · refine h.keep hcore le_rfl (fun hl => ?_) h.candidate
    exact (h.leader hl).congr (congrArg Core.term hcore) (congrArg Core.commitIndex hcore) (by rw [hcore])

theorem upToDate_of_logOk {r : List LogEntry} (hh : H.Holds l T i) (hok : lastTerm H.term l < lastTerm H.term r ∨
      (lastTerm H.term r = lastTerm H.term l ∧ l.length ≤ r.length)) : UpToDate H.term r T i := by
  obtain ⟨hlen, _, hle⟩ := hh
  unfold UpToDate
  omega

theorem Safe.vote (h : Safe ids floor w g) {src c t : ℕ}
    (ht : ∃ tally, Tally ids (w.act v ⟨n', sent, [.voted term c]⟩) tally)
    (hu : OneLeader (w.act v ⟨n', sent, [.voted term c]⟩))
    (hp : PacketOk (g.history w) ids.toFinset g.cand ⟨src, v, .voteReq term c i t⟩)
    (hasked : term ≤ (w.node c).term) (hle : (w.node v).term ≤ term)
    (hlog : logOk (w.node v) i t = true) (hsent : sent.Sublist [(src, .voteResp true term)])
    (hcore : n'.core = { (takeTerm (w.node v) term).core with votedFor := c }) :
    Onward ids floor w g (w.act v ⟨n', sent, [.voted term c]⟩) := by
  obtain ⟨rfl, rfl⟩ := hp
  have hq : Steady (w.node v).core n'.core := .vote hle hcore
  have hx : (g.history w).Extends (g.history (w.act v ⟨n', sent, [.voted term c]⟩)) := extends_act
  have hok := (h.nodes v).window.logOk hlog
  have hcommit : (w.node v).commitIndex ≤ n'.commitIndex := by
    obtain ⟨_, heq⟩ | ⟨_, heq⟩ := vote_cases hle hcore <;>
      exact (congrArg Core.commitIndex heq).ge
  refine ⟨g, ?_, hx⟩
  refine h.update ht hu hx hq.term ?_ ?_ ?_ ?_ ?_ ?_ (fun _ _ _ => rfl)
    (fun _ _ _ hi => .inl hi) ?_ (fun _ _ => rfl) (fun _ _ _ => rfl) ?_ ?_ ?_ hcommit
  · exact fun U _ i hlo hhi => absurd (lt_of_lt_of_le hlo hhi) (lt_irrefl _)
  · exact fun U hled hold => absurd ((led_act (by simp)).mp hled) hold
  · intro U c' hm
    cases mem_singleton.mp hm
    have hg : Grows w (w.act v ⟨n', sent, [.voted term c]⟩) := grows_act hq.term
    exact hasked.trans (hg.term c)
  · intro U c' hm hled
    cases mem_singleton.mp hm
    intro T i hT hi hcon
    -- no leader of the term itself has been elected, so the node still holds what it acknowledged
    refine upToDate_of_logOk (((h.acks v T i hi).extend hx le_rfl).hold fun T' hlt hlt' hled' => ?_)
      hok
    refine hcon T' hlt (lt_of_le_of_ne (by omega) ?_) hled'
    rintro rfl
    exact hled hled'
  · intro U hm
    have hold := (mem_act_hist hm).resolve_right (by simp)
    have hle' : (w.node v).term ≤ n'.term := hq.term
    obtain hlt | ⟨heq, hrole⟩ := h.won v U hold
    · exact .inl (by dsimp only; omega)
    · by_cases hlt : U < n'.term
      · exact .inl hlt
      · exact .inr ⟨by dsimp only; omega, fun hcand => hrole (hq.candidate hcand)⟩
  · intro hrole
    obtain ⟨hrole', hterm⟩ := hq.leader hrole
    have hterm' : n'.term = (w.node v).term := hterm
    rw [hterm']
    exact mem_append_left _ (h.leads v hrole')
  · exact fun T i hi => (h.acks v T i hi).extend hx hq.term
  · exact ((h.nodes v).vote hle hcore).extend hx (fun _ => rfl) rfl
  · intro x hx'
    rw [mem_singleton.mp (hsent.subset hx')]
    trivial
  · intro m hm
    rw [mem_singleton.mp hm]
    trivial

/-! ## Winning -/

abbrev World.wins (w : World) (v : ℕ) (n' : Node) : World :=
  w.act v ⟨n', [], [.elected (w.node v).term]⟩

def Ghost.win (g : Ghost) (v U : ℕ) : Ghost :=
  { g with init := Function.update g.init U (g.full v), log := Function.update g.log U (g.full v) }

theorem win_init_self (g : Ghost) (v U : ℕ) : (g.win v U).init U = g.full v :=
  Function.update_self ..

theorem win_log_self (g : Ghost) (v U : ℕ) : (g.win v U).log U = g.full v := Function.update_self ..

theorem win_log_of_ne (hne : T ≠ U) (g : Ghost) (v : ℕ) : (g.win v U).log T = g.log T :=
  Function.update_of_ne hne ..

theorem extends_win (v : ℕ) (w' : World) (hnot : ¬ (g.history w).led U)
    (hhist : w.hist ⊆ w'.hist) : (g.history w).Extends ((g.win v U).history w') where
  term := rfl
  led := fun _ ⟨x, hx⟩ => ⟨x, hhist hx⟩
  init T hT := Function.update_of_ne (fun heq : T = U => hnot (heq ▸ hT)) ..
  log T hT := by
    have hne : T ≠ U := fun heq => hnot (heq ▸ hT)
    change g.log T <+: (g.win v U).log T
    rw [win_log_of_ne hne]
  acked := fun _ _ _ hi => hi

/-- A candidate's term has no leader yet: another one would be a second, and the candidate itself
no longer one. -/
theorem Safe.not_led (h : Safe ids floor w g) (hU : (w.node v).term = U) (hrole : (w.node v).role = .candidate)
    (hu : ∀ x, (x, Mark.elected U) ∈ w.hist → x = v) : ¬ (g.history w).led U := by
  rintro ⟨x, hx⟩
  obtain rfl := hu x hx
  obtain hlt | ⟨_, hne⟩ := h.won x U hx
  · omega
  · exact hne hrole

theorem NodeOk.old (h : NodeOk H N v n l cand) (hnot : ¬ H.led n.term) : ∀ e ∈ l, e.term < n.term := by
  intro e he
  obtain ⟨hled, hle⟩ := h.terms e he
  refine lt_of_le_of_ne hle fun heq => hnot (heq ▸ hled)

theorem NodeOk.settled_below (h : NodeOk H N v n l cand)
    (hnot : ¬ H.led n.term) {k : ℕ} (hk : k ≤ n.commitIndex) : H.Settled N l k n.term := by
  obtain ⟨hlen, h0 | ⟨T, i, hT, hki, hch, htake⟩⟩ := h.settled.le hk
  · exact ⟨hlen, .inl h0⟩
  · have hne : T ≠ n.term := fun heq => hnot (heq ▸ hch.1)
    exact ⟨hlen, .inr ⟨T, i, by omega, hki, hch, htake⟩⟩

theorem Safe.won_led (h : Safe ids floor w g) {tally : ℕ → ℕ → Finset ℕ}
    (ht : Tally ids (w.wins v n') tally)
    (hrole : (w.node v).role = .candidate) (hterm : (w.node v).term ≤ n'.term)
    (hnot : ¬ (g.history w).led (w.node v).term)
    (hx : (g.history w).Extends ((g.win v (w.node v).term).history (w.wins v n'))) :
    LedOk ((g.win v (w.node v).term).history (w.wins v n')) ids.toFinset
      (fun x => ((w.wins v n').node x).term) (w.node v).term := by
  have hnode := h.nodes v
  have hinit : ((g.win v (w.node v).term).history (w.wins v n')).init (w.node v).term = g.full v :=
    win_init_self ..
  have hlog : ((g.win v (w.node v).term).history (w.wins v n')).log (w.node v).term = g.full v :=
    win_log_self ..
  obtain ⟨told, hold⟩ := h.tallied
  have hg : Grows w (w.wins v n') := grows_act hterm
  constructor
  · rw [hinit, hlog]
  · intro i hlo hhi
    rw [hinit] at hlo
    rw [hlog] at hhi
    omega
  · rw [hinit]
    exact hnode.old hnot
  · rw [hinit]
    exact ⟨_, hx.settled (hnode.settled_below hnot (hnode.applied.1.trans hnode.applied.2)),
      hx.shaped hnode.shaped⟩
  · -- the majority that elected the node voted before anybody led in the term
    obtain ⟨Q, hQ, hvotes⟩ := ht.elected v (w.node v).term (mem_append_right _ (by simp))
    refine ⟨Q, hQ, fun x hxQ => ?_⟩
    have hvoted := (mem_act_hist (hvotes x hxQ)).resolve_right (by simp)
    refine ⟨(hold.voted x _ v hvoted).trans (hg.term x), ?_⟩
    rw [hinit]
    have hback := h.ballots x _ v hvoted hnot
    rw [show g.cand (w.node v).term v = g.full v from hnode.candidate hrole] at hback
    exact hback.extend hx (fun T i hi => ⟨(h.acks x T i hi).led, (h.acks x T i hi).len⟩)
      fun _ _ _ hi => hi

theorem Safe.win (h : Safe ids floor w g) (ht : ∃ tally, Tally ids (w.wins v n') tally)
    (hu : OneLeader (w.wins v n'))
    (hrole : (w.node v).role = .candidate) {votes : ℕ} (hcore : n'.core = { (w.node v).core with
      role := .leader, votesGranted := votes
      matched := (w.node v).core.matched.map fun x => (x.1, 0) }) :
    Onward ids floor w g (w.wins v n') := by
  have hterm : n'.term = (w.node v).term := congrArg Core.term hcore
  have hrole' : n'.role = .leader := congrArg Core.role hcore
  have hcommit : n'.commitIndex = (w.node v).commitIndex := congrArg Core.commitIndex hcore
  have hmine : (v, Mark.elected (w.node v).term) ∈ (w.wins v n').hist :=
    mem_append_right _ (by simp)
  have hnot := h.not_led rfl hrole fun x hx => hu _ x v (mem_append_left _ hx) hmine
  have hx := extends_win v (w.wins v n') hnot (subset_append_left ..)
  have hlog : (g.win v (w.node v).term).log (w.node v).term = g.full v := win_log_self ..
  refine ⟨g.win v (w.node v).term, ?_, hx⟩
  refine h.update ht hu hx hterm.ge ?_ ?_ (by simp) (by simp) ?_ ?_ (fun _ _ _ => rfl)
    (fun _ _ _ hi => .inl hi) ?_ (fun _ _ => rfl) ?_ ?_ (by simp) ?_ hcommit.ge
  · intro U hU i hlo hhi
    have hne : U ≠ (w.node v).term := fun heq => hnot (heq ▸ hU)
    rw [win_log_of_ne hne] at hhi
    omega
  · intro U hU hold
    obtain ⟨x, hx'⟩ := hU
    obtain hx' | ⟨_, hnew⟩ := mem_act_hist hx'
    · exact absurd ⟨x, hx'⟩ hold
    · cases mem_singleton.mp hnew
      obtain ⟨tally, ht⟩ := ht
      exact h.won_led ht hrole hterm.ge hnot hx
  · intro U hm
    obtain hm | ⟨_, hnew⟩ := mem_act_hist hm
    · obtain hlt | ⟨_, hne⟩ := h.won v U hm
      · exact .inl (by dsimp only; omega)
      · exact absurd hrole hne
    · cases mem_singleton.mp hnew
      exact .inr ⟨hterm.symm, fun hc => nomatch hrole'.symm.trans hc⟩
  · intro _
    rw [hterm]
    exact hmine
  · exact fun T i hi => (h.acks v T i hi).extend hx hterm.ge
  · intro x hxv hxrole
    refine win_log_of_ne (fun heq => hnot ?_) ..
    exact ⟨x, heq ▸ h.leads x hxrole⟩
  · have hnode : NodeOk ((g.win v (w.node v).term).history (w.wins v n')) ids.toFinset v (w.node v)
        (g.full v) (g.cand · v) := (h.nodes v).extend hx (fun hl => nomatch hrole.symm.trans hl) rfl
    refine hnode.keep hcore le_rfl (fun _ => ⟨?_, ?_, ?_, ?_⟩) (fun hc => by cases hc)
    · exact ⟨v, hterm.symm ▸ hmine⟩
    · dsimp only
      rw [hterm]
      exact hlog
    · intro i hpos hlen ht'
      -- the log has no entry of the new term
      obtain ⟨e, he, _, heq⟩ := exists_entry LogEntry.term hpos hlen
      have hlt := (h.nodes v).old hnot e he
      have hsame : termAt LogEntry.term (g.full v) i = n'.term := ht'
      omega
    · have hmatched : n'.core.matched = (w.node v).core.matched.map fun x => (x.1, 0) := by
        rw [hcore]
      rw [hmatched]
      intro x hx'
      obtain ⟨y, _, rfl⟩ := mem_map.mp hx'
      exact ⟨Nat.zero_le _, fun i hlo hhi => absurd hhi (by dsimp only; omega)⟩
  · simp [MarkOk]

/-! ## Runs -/

theorem Safe.ballot (h : Safe ids floor w g) (hnodup : ids.Nodup) {k : ℕ} {p : Packet}
    (hk : w.net[k]? = some p) (hdst : p.dst ∈ ids) {env : Env}
    (ha : Ballot env (some (p.src, p.msg)) (w.node p.dst) a)
    (hu : OneLeader ((w.take k).act p.dst a)) :
    Onward ids floor (w.take k) g ((w.take k).act p.dst a) := by
  obtain ⟨told, hold⟩ := h.tallied
  have ht := hold.ballot hnodup hk hdst ha
  have hp := mem_of_getElem? hk
  have hbase : Safe ids floor (w.take k) g := h.shrink (eraseIdx_sublist ..).subperm
  have hpacket := h.packets p hp
  have hcounts := hold.counts p hp
  obtain ⟨src, v, msg⟩ := p
  dsimp only at hdst ha ht hu ⊢
  cases ha with
  | stand hhand hsent hcore =>
    cases hhand
    exact hbase.stand (hold.known v hdst).1 ht hu (hcounts rfl) hsent hcore
  | vote hhand hle _ hlog _ hsent hcore =>
    cases hhand
    exact hbase.vote ht hu hpacket hcounts.2 hle hlog hsent hcore
  | @count n' src' hhand hrole hcore =>
    have hsteady : Steady (w.node v).core n'.core := by
      rw [hcore]
      exact ⟨le_rfl, fun hc => hc, fun hl => ⟨hl, rfl⟩⟩
    refine hbase.same ht hu hsteady (by simp) ?_ (by simp)
      (by simp) (congrArg Core.commitIndex hcore).ge
    exact (h.nodes v).keep hcore le_rfl (fun hl => absurd (hrole.symm.trans hl) (by decide))
      (h.nodes v).candidate
  | win hhand hrole _ hcore => exact hbase.win ht hu hrole hcore

theorem OneLeader.of_act {v : ℕ} (h : OneLeader (w.act v a)) : OneLeader w :=
  fun T x y hx hy => h T x y (mem_append_left _ hx) (mem_append_left _ hy)

/-- From a world that has the invariant on: as long as terms have one leader each, it holds, and
the history grows. -/
theorem Safe.preserved (hnodup : ids.Nodup) (K : History ℕ LogEntry) : Preserved ids (fun _ _ => True) fun w =>
      OneLeader w → ∃ g, Safe ids floor w g ∧ K.Extends (g.history w) where
  shrink w net h hsub hu := by
    obtain ⟨g, hg, hx⟩ := h hu
    exact ⟨g, hg.shrink hsub, hx⟩
  move w v hand a hv hhand ha h hu := by
    obtain ⟨g, hg, hx⟩ := h hu.of_act
    obtain ⟨g', hg', hx'⟩ := hg.move hnodup hv hhand ha hu
    exact ⟨g', hg', hx.trans hx'⟩
  ballot w k env p a _ hk hdst ha h hu := by
    obtain ⟨g, hg, hx⟩ := h hu.of_act
    obtain ⟨g', hg', hx'⟩ := hg.ballot hnodup hk hdst ha hu
    exact ⟨g', hg', hx.trans hx'⟩

theorem Safe.run (hnodup : ids.Nodup) (h : Safe ids floor w g) (evs : List Event)
    (hu : OneLeader (run (World.step ids) w evs)) :
    ∃ g', Safe ids floor (run (World.step ids) w evs) g' ∧
      (g.history w).Extends (g'.history (run (World.step ids) w evs)) :=
  run_invariant_all (fun w' e hw => (Safe.preserved hnodup (g.history w)).step w' e hw trivial)
    (fun _ => ⟨g, h, .refl _⟩) hu

theorem hist_preserved (hist : List (ℕ × Mark)) : Preserved ids (fun _ _ => True) fun w => hist ⊆ w.hist where
  shrink _ _ h _ := h
  move _ _ _ _ _ _ _ h := List.Subset.trans h (subset_append_left ..)
  ballot _ _ _ _ _ _ _ _ _ h := List.Subset.trans h (subset_append_left ..)

/-- A term that had two leaders keeps them, so what holds of the end of a run held before. -/
theorem OneLeader.of_run {evs : List Event} (h : OneLeader (run (World.step ids) w evs)) : OneLeader w := by
  have hgrow : w.hist ⊆ (run (World.step ids) w evs).hist :=
    run_invariant_all (fun w' e hw => (hist_preserved w.hist).step w' e hw trivial)
      (List.Subset.refl _)
  exact fun T x y hx hy => h T x y (hgrow hx) (hgrow hy)

/-! ## What is fixed stays fixed -/

theorem Fixed.agree (hs : H.Sound N) {T' p : ℕ} {e e' : LogEntry} (h : Fixed H N T p e)
    (h' : Fixed H N T' p e') : e = e' := by
  obtain ⟨hpos, he, i, hpi, hch⟩ := h
  obtain ⟨_, he', i', hpi', hch'⟩ := h'
  have htake : (H.log T).take p = (H.log T').take p := by
    obtain hle | hle := Nat.le_total T T'
    · exact (take_eq_of_le (hs.chosen_take hch hle hch'.1).2 hpi).symm
    · exact take_eq_of_le (hs.chosen_take hch' hle hch.1).2 hpi'
  have hentry := getElem?_of_take_eq htake (Nat.sub_lt hpos Nat.one_pos)
  exact Option.some.inj (he.symm.trans (hentry.trans he'))

/-- A leader has in its log what was ever fixed in an earlier term, be it before or after it was
elected. -/
theorem Safe.leader_has (h : Safe ids floor w g) (hx : (g.history w).Extends H) (hs : H.Sound N)
    {p : ℕ} {e : LogEntry} (he : Fixed H N T p e) (hrole : (w.node v).role = .leader)
    (hT : T < (w.node v).term) :
    p ≤ (w.node v).snapshotIndex ∨ raftLogAt (w.node v) p = some e := by
  have hl := (h.nodes v).leader hrole
  obtain ⟨hpos, he, i, hpi, hch⟩ := he
  obtain ⟨hlen, htake⟩ := hs.contains hch hT (hx.led _ hl.led)
  rw [hx.init _ hl.led] at hlen htake
  obtain ⟨rest, hrest⟩ := hl.log ▸ (h.led _ hl.led).start
  have hfull : (g.full v)[p - 1]? = some e := by
    rw [← he, ← getElem?_of_take_eq htake (by omega : p - 1 < i), ← hrest]
    exact List.getElem?_append_left (by omega)
  obtain hle | hlt := Nat.lt_or_ge (w.node v).snapshotIndex p |>.symm
  · exact .inl hle
  · exact .inr ((h.nodes v).window.logAt.mpr ⟨hlt, hfull⟩)

/-! ## What a snapshot holds -/

def Item.shows (it : Item) (p : ℕ) (e : LogEntry) : Prop :=
  it.key = e.key ∧ (p < it.version ∨ it.version = p ∧ it.value = e.value)

instance (it : Item) (p : ℕ) (e : LogEntry) : Decidable (it.shows p e) :=
  inferInstanceAs (Decidable (_ ∧ _))

/-- What `p2p_raft_compact` copies of the table shows the entries that the node applied since its last
snapshot, and has the items of that snapshot or later ones of their keys. -/
def Node.Saves (n : Node) : Prop :=
  (∀ p ≤ n.lastApplied, ∀ e ∈ raftLogAt n p, ∃ it ∈ n.kv.take 16, it.shows p e) ∧
  ∀ old ∈ n.snapKv, ∃ it ∈ n.kv.take 16, it.key = old.key ∧ (old.version < it.version ∨ it = old)

instance (n : Node) : Decidable n.Saves := inferInstanceAs (Decidable (_ ∧ _))

def Node.snap (n : Node) : ℕ × List Item := (n.snapshotIndex, n.snapKv)

def Event.compacts (u : ℕ) : Event → Bool
  | .compact v => v = u
  | _ => false

/-- The snapshot of `u` is changed only when `u` compacts, and then by a table that saves it:
`raft_install_snapshot` would move the index and leave `snap_kv` as it is. -/
def SnapshotKept (ids : List ℕ) (u : ℕ) (w : World) (ev : Event) : Prop :=
  ((w.step ids ev).node u).snap = (w.node u).snap ∨ ev.compacts u = true ∧ (w.node u).Saves

instance (u : ℕ) (w : World) (ev : Event) : Decidable (SnapshotKept ids u w ev) :=
  inferInstanceAs (Decidable (_ ∨ _))

def Told (H : History ℕ LogEntry) (N : Finset ℕ) (n : Node) : Prop :=
  ∀ T p e, Fixed H N T p e → p ≤ n.snapshotIndex → ∃ it ∈ n.snapKv, it.shows p e

section
variable {H' : History ℕ LogEntry} (h : NodeOk H N v n l cand) (hx : H.Extends H') (hs : H'.Sound N)
include h hx hs

theorem NodeOk.fixed_at {p : ℕ} {e : LogEntry} (he : Fixed H' N T p e) (hp : p ≤ n.commitIndex) :
    l[p - 1]? = some e ∧ ∃ T, Fixed H N T p e := by
  obtain ⟨e', he'⟩ : ∃ e', l[p - 1]? = some e' := by
    have hpos := he.1
    have hlen := h.settled.1
    exact ⟨_, List.getElem?_eq_getElem (by omega)⟩
  obtain ⟨T', hfixed⟩ := h.fixed he.1 hp he'
  obtain rfl := he.agree hs (hfixed.extend hx)
  exact ⟨he', T', hfixed⟩

theorem Told.keep (ht : Told H N n) (hsnap : n'.snap = n.snap) : Told H' N n' := by
  obtain ⟨hindex, hkv⟩ := Prod.mk.inj hsnap
  intro T p e he hp
  rw [hindex] at hp
  obtain ⟨-, T', hfixed⟩ := h.fixed_at hx hs he (hp.trans (h.applied.1.trans h.applied.2))
  rw [hkv]
  exact ht T' p e hfixed hp

theorem Told.compact (ht : Told H N n) (hsaves : n.Saves) : Told H' N (p2pRaftCompact n) := by
  unfold p2pRaftCompact
  split
  · exact ht.keep h hx hs rfl
  split
  · exact ht.keep h hx hs rfl
  dsimp only
  split
  · exact ht.keep h hx hs rfl
  intro T p e he hp
  obtain ⟨hlog, T', hfixed⟩ := h.fixed_at hx hs he (hp.trans h.applied.2)
  obtain hle | hlt := Nat.lt_or_ge n.snapshotIndex p |>.symm
  · obtain ⟨old, hold, hkey, hshow⟩ := ht T' p e hfixed hle
    obtain ⟨it, hit, hsame, hlater⟩ := hsaves.2 old hold
    refine ⟨it, hit, hsame.trans hkey, ?_⟩
    obtain hlater | rfl := hlater
    · exact .inl (by omega)
    · exact hshow
  · exact hsaves.1 p hp e (h.window.logAt.mpr ⟨hlt, hlog⟩)

end

theorem step_compact_node {ev : Event} {u : ℕ} (hev : ev.compacts u = true) (w : World) :
    (w.step ids ev).node u = p2pRaftCompact (w.node u) ∨ (w.step ids ev).node u = w.node u := by
  cases ev with
  | compact v' =>
    obtain rfl : v' = u := of_decide_eq_true hev
    simp only [World.step, World.call]
    split
    · exact .inl (act_node_self ..)
    · exact .inr rfl
  | _ => cases hev

theorem told_run (hnodup : ids.Nodup) {u : ℕ} {evs : List Event} (hone : OneLeader (World.after ids evs))
    (hkept : Along (World.step ids) (SnapshotKept ids u) (World.init ids) evs) :
    ∃ g, Safe ids (fun _ => 0) (World.after ids evs) g ∧
      Told (g.history (World.after ids evs)) ids.toFinset ((World.after ids evs).node u) := by
  have hstep : ∀ w ev, (OneLeader w → ∃ g, Safe ids (fun _ => 0) w g ∧
      Told (g.history w) ids.toFinset (w.node u)) → SnapshotKept ids u w ev →
      OneLeader (w.step ids ev) → ∃ g, Safe ids (fun _ => 0) (w.step ids ev) g ∧
        Told (g.history (w.step ids ev)) ids.toFinset ((w.step ids ev).node u) := by
    intro w ev hw hc hu
    have hrun : OneLeader (run (World.step ids) w [ev]) := hu
    obtain ⟨g, hg, ht⟩ := hw hrun.of_run
    obtain ⟨g', hg', hx⟩ := hg.run hnodup [ev] hrun
    refine ⟨g', hg', ?_⟩
    obtain hsame | ⟨hev, hsaves⟩ := hc
    · exact ht.keep (hg.nodes u) hx hg'.sound hsame
    obtain heq | heq := step_compact_node hev w
    · exact heq ▸ ht.compact (hg.nodes u) hx hg'.sound hsaves
    · exact ht.keep (hg.nodes u) hx hg'.sound (congrArg Node.snap heq)
  refine run_invariant hstep (fun _ => ⟨_, Safe.start ids, fun T p e he hp => ?_⟩) hkept hone
  have hzero : p ≤ 0 := hp
  exact absurd he.1 (by omega)

def oneCommit (early : List Event) : List Event :=
  firstElection.take 8 ++ early ++
    [.append 1 [97] [98] (calm 200), .deliver 5 (calm 210), .deliver 6 (calm 220),
      .deliver 6 (calm 230)]

def succession (early : List Event) : List Event :=
  oneCommit early ++
    [.compact 3, .elect 3 (calm 5000), .deliver 8 (calm 5010), .deliver 8 (calm 5020),
      .deliver 9 (calm 5030), .deliver 9 (calm 5040)]

theorem oneLeader_of_votes {evs : List Event}
    (h : Along (World.step [1, 3, 5]) VoteRemembered (World.init [1, 3, 5]) evs) :
    OneLeader (World.after [1, 3, 5] evs) :=
  fun _ _ _ => (OneVote.after (by decide) h).leader

/-- Node 5 gets the entry with the snapshot of node 1 and leads the next term. -/
def installation : List Event :=
  oneCommit [] ++
    [.compact 1, .tick 1 (calm 240), .deliver 7 (calm 250), .elect 5 (calm 5000), .deliver 10 (calm 5010),
      .deliver 10 (calm 5020), .deliver 11 (calm 5030), .deliver 11 (calm 5040), .deliver 12 (calm 5050)]

def otherKeys : List Item := (range 16).map fun i => ⟨[UInt8.ofNat i], [], 1, 3⟩

def Lost (evs : List Event) (u : ℕ) : Prop :=
  let w := World.after [1, 3, 5] evs
  OneLeader w ∧ (1, Mark.committed 2 1 ⟨2, [97], [98]⟩) ∈ w.hist ∧ ((w.node u).role = .leader ∧ (w.node u).term = 3) ∧
    raftLogAt (w.node u) 1 = none ∧ ∀ it ∈ (w.node u).snapKv, it.key ≠ [97]

/-- Two nodes that have entries of the same term at a position have the same entries up to there. -/
theorem logs_match (hnodup : ids.Nodup) {evs : List Event} (hone : OneLeader (World.after ids evs))
    {u p q : ℕ} (hq : q ≤ p) : let log x := raftLogAt ((World.after ids evs).node x)
    ∀ e ∈ log u p, ∀ e' ∈ log v p, e.term = e'.term → ∀ d ∈ log u q, ∀ d' ∈ log v q, d = d' := by
  intro log e hp e' hp' hterm d hd d' hd'
  obtain ⟨g, hg, -⟩ := (Safe.start ids).run hnodup evs hone
  -- what a node has up to an entry is what the leader of the entry's term had
  have hlead : ∀ {x e d}, log x p = some e → log x q = some d → (g.log e.term)[q - 1]? = some d := by
    intro x e d hp hd
    obtain ⟨hlt, hp⟩ := (hg.nodes x).window.logAt.mp hp
    obtain ⟨hltq, hd⟩ := (hg.nodes x).window.logAt.mp hd
    have hlen := (List.getElem?_eq_some_iff.mp hp).1
    have hterm := termAt_of_getElem? LogEntry.term hp
    rw [Nat.sub_add_cancel (by omega)] at hterm
    rw [← hterm, ← hd]
    exact (((hg.nodes x).shaped p hlt (by omega)).2 (q - 1) (by omega) (by omega)).symm
  have hu := hlead hp hd
  rw [hterm, hlead hp' hd'] at hu
  exact (Option.some.inj hu).symm

theorem logs_match_succession : let w := World.after [1, 3, 5] (oneCommit [] ++
      [.append 1 [99] [100] (calm 300), .deliver 7 (calm 310), .deliver 7 (calm 320), .deliver 7 (calm 330)])
    raftLogAt (w.node 1) 2 ≠ none ∧ raftLogAt (w.node 1) 1 = raftLogAt (w.node 3) 1 := by
  intro w
  have hone : OneLeader w := oneLeader_of_votes (by decide +kernel)
  have hu : raftLogAt (w.node 1) 2 = some ⟨2, [99], [100]⟩ := by decide +kernel
  have hv : raftLogAt (w.node 3) 2 = some ⟨2, [99], [100]⟩ := by decide +kernel
  obtain ⟨d, hd⟩ : ∃ d, raftLogAt (w.node 1) 1 = some d := ⟨⟨2, [97], [98]⟩, by decide +kernel⟩
  obtain ⟨d', hd'⟩ : ∃ d, raftLogAt (w.node 3) 1 = some d := ⟨⟨2, [97], [98]⟩, by decide +kernel⟩
  rw [hu, hd, hd', logs_match (by decide) hone (by decide : 1 ≤ 2) _ hu _ hv rfl _ hd _ hd']
  exact ⟨by simp, rfl⟩

end Mohhdy.Raft
