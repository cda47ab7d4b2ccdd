import Mohhdy.Raft.Tally

/-! Election safety. A heartbeat of the current term clears the vote that a node has given in that
term, so a vote request that was held back until the lease has run out can be granted a second
vote. That is the only way in which two nodes come to lead in one term. -/
namespace Mohhdy.Raft
open Runs
set_option autoImplicit false

variable {U c v : ℕ} {tally : ℕ → ℕ → Finset ℕ} {w : World} {ids : List ℕ}

def votedOther (v U c : ℕ) : ℕ × Mark → Bool
  | (x, .voted U' c') => x = v ∧ U' = U ∧ c' ≠ c
  | _ => false

/-- The packet asks a node for its vote that would give it, as far as lease and log go, has given
it to another candidate in that term, and has forgotten so. -/
def ForgottenVote (env : Env) (w : World) : Packet → Prop
  | ⟨_, v, .voteReq U c lastIdx lastTerm⟩ =>
      leaseRefuses env (w.node v) c = false ∧ logOk (w.node v) lastIdx lastTerm = true ∧
        U = (w.node v).term ∧ (w.node v).votedFor = 0 ∧ ∃ x ∈ w.hist, votedOther v U c x = true
  | _ => False

instance (env : Env) (w : World) (p : Packet) : Decidable (ForgottenVote env w p) := by
  unfold ForgottenVote
  split <;> infer_instance

def VoteRemembered (w : World) : Event → Prop
  | .deliver k env => ∀ p ∈ w.net[k]?, ¬ ForgottenVote env w p
  | _ => True

instance (w : World) (e : Event) : Decidable (VoteRemembered w e) := by
  unfold VoteRemembered
  split <;> infer_instance

structure OneVote (ids : List ℕ) (w : World) : Prop where
  tallied : ∃ tally, Tally ids w tally
  current : ∀ v c, (v, .voted (w.node v).term c) ∈ w.hist →
    (w.node v).votedFor = c ∨ (w.node v).votedFor = 0
  unique : ∀ v U c c', (v, .voted U c) ∈ w.hist → (v, .voted U c') ∈ w.hist → c = c'

theorem OneVote.init (ids : List ℕ) : OneVote ids (World.init ids) where
  tallied := ⟨_, Tally.init ids⟩
  current := by simp [World.init]
  unique := by simp [World.init]

section
variable (h : OneVote ids w)
include h

theorem OneVote.keep {a : Act}
    (ht : Tally ids (w.act v a) tally) (hmarks : ∀ U c, .voted U c ∉ a.marks)
    (hterm : (w.node v).term ≤ a.node.term) (hvote : a.node.term = (w.node v).term →
      a.node.votedFor = (w.node v).votedFor ∨ a.node.votedFor = 0) :
    OneVote ids (w.act v a) := by
  obtain ⟨told, hold⟩ := h.tallied
  have hvoted : ∀ x U c, (x, .voted U c) ∈ (w.act v a).hist → (x, .voted U c) ∈ w.hist :=
    fun x U c hm => (mem_act_hist hm).resolve_right fun hnew => hmarks U c hnew.2
  refine ⟨⟨tally, ht⟩, ?_, fun x U c c' hc hc' => h.unique x U c c' (hvoted x U c hc)
    (hvoted x U c' hc')⟩
  intro x c hm
  have hm' := hvoted x _ c hm
  by_cases hxv : x = v
  · subst hxv
    rw [act_node_self] at hm' ⊢
    -- a vote of the node's term was given in this very term
    have hsame : a.node.term = (w.node x).term := by
      have hle := hold.voted x _ c hm'
      omega
    rw [hsame] at hm'
    obtain heq | hzero := hvote hsame
    · rw [heq]
      exact h.current x c hm'
    · exact .inr hzero
  · rw [act_node_of_ne hxv] at hm' ⊢
    exact h.current x c hm'

theorem OneVote.cast {n' : Node} {sent : List (ℕ × Msg)}
    (ht : Tally ids (w.act v ⟨n', sent, [.voted U c]⟩) tally) (hterm : n'.term = U)
    (hvote : n'.votedFor = c) (hfirst : ∀ c', (v, .voted U c') ∈ w.hist → c' = c) :
    OneVote ids (w.act v ⟨n', sent, [.voted U c]⟩) := by
  have hall : ∀ c', (v, .voted U c') ∈ (w.act v ⟨n', sent, [.voted U c]⟩).hist → c' = c := by
    intro c' hm
    obtain hm | ⟨_, hnew⟩ := mem_act_hist hm
    · exact hfirst c' hm
    · cases List.mem_singleton.mp hnew
      rfl
  have hvoted : ∀ x U' c', (x, .voted U' c') ∈ (w.act v ⟨n', sent, [.voted U c]⟩).hist →
      ¬ (x = v ∧ U' = U) → (x, .voted U' c') ∈ w.hist := by
    intro x U' c' hm hne
    refine (mem_act_hist hm).resolve_right fun ⟨hx, hnew⟩ => ?_
    cases List.mem_singleton.mp hnew
    exact hne ⟨hx, rfl⟩
  refine ⟨⟨tally, ht⟩, ?_, ?_⟩
  · intro x c' hm
    by_cases hxv : x = v
    · subst hxv
      rw [act_node_self] at hm ⊢
      rw [hterm] at hm
      exact .inl (hvote.trans (hall c' hm).symm)
    · rw [act_node_of_ne hxv] at hm ⊢
      exact h.current x c' (hvoted x _ c' hm fun hx => hxv hx.1)
  · intro x U' c₁ c₂ h₁ h₂
    by_cases hx : x = v ∧ U' = U
    · obtain ⟨rfl, rfl⟩ := hx
      exact (hall c₁ h₁).trans (hall c₂ h₂).symm
    · exact h.unique x U' c₁ c₂ (hvoted x U' c₁ h₁ hx) (hvoted x U' c₂ h₂ hx)

theorem OneVote.shrink {net : List Packet}
    (hsub : net.Subperm w.net) : OneVote ids { w with net := net } where
  tallied := by
    obtain ⟨tally, ht⟩ := h.tallied
    exact ⟨tally, ht.shrink hsub⟩
  __ := h

/-- A request that is granted, and does not ask for a forgotten vote, is for the first vote of the
node in the term or for the vote it has given. -/
theorem OneVote.first {env : Env} {src lastIdx lastTerm : ℕ}
    (hrem : ¬ ForgottenVote env w ⟨src, v, .voteReq U c lastIdx lastTerm⟩)
    (hle : (w.node v).term ≤ U) (hlease : leaseRefuses env (w.node v) c = false)
    (hlog : logOk (w.node v) lastIdx lastTerm = true)
    (hfree : (w.node v).term = U → (w.node v).votedFor = 0 ∨ (w.node v).votedFor = c) :
    ∀ c', (v, .voted U c') ∈ w.hist → c' = c := by
  intro c' hm
  obtain ⟨tally, ht⟩ := h.tallied
  have hterm : (w.node v).term = U := le_antisymm hle (ht.voted v U c' hm)
  have hcleared : (w.node v).votedFor = 0 → c' = c := by
    intro hzero
    by_contra hne
    exact hrem ⟨hlease, hlog, hterm.symm, hzero, _, hm, by simp [votedOther, hne]⟩
  obtain hzero | hgiven := hfree hterm
  · exact hcleared hzero
  · obtain heq | hzero := h.current v c' (hterm ▸ hm)
    · exact heq.symm.trans hgiven
    · exact hcleared hzero

theorem OneVote.ballot (hnodup : ids.Nodup) {k : ℕ} {p : Packet}
    (hk : w.net[k]? = some p) (hdst : p.dst ∈ ids) {env : Env} (hrem : ¬ ForgottenVote env w p)
    {a : Act} (ha : Ballot env (some (p.src, p.msg)) (w.node p.dst) a) :
    OneVote ids ((w.take k).act p.dst a) := by
  obtain ⟨told, hold⟩ := h.tallied
  obtain ⟨tally, ht⟩ := hold.ballot hnodup hk hdst ha
  have hbase : OneVote ids (w.take k) := h.shrink (List.eraseIdx_sublist ..).subperm
  obtain ⟨src, v, msg⟩ := p
  dsimp only at hdst ha ht ⊢
  cases ha with
  | stand hhand hsent hcore =>
    cases hhand
    have hroom : (w.node v).term + 1 < 2 ^ 32 := hold.counts _ (List.mem_of_getElem? hk) rfl
    have hu : u32 ((w.node v).term + 1) = (w.node v).term + 1 := Nat.mod_eq_of_lt hroom
    refine hbase.cast ht (congrArg Core.term hcore) (congrArg Core.votedFor hcore) ?_
    intro c' hm
    have hle := hold.voted v _ c' hm
    omega
  | vote hhand hle hlease hlog hfree hsent hcore =>
    cases hhand
    refine hbase.cast ht ?_ (congrArg Core.votedFor hcore) (h.first hrem hle hlease hlog hfree)
    refine (congrArg Core.term hcore).trans ((takeTerm_term _ _).trans ?_)
    omega
  | count hhand hrole hcore =>
    have hterm := congrArg Core.term hcore
    exact hbase.keep ht (by simp) hterm.ge fun _ => .inl (congrArg Core.votedFor hcore)
  | win hhand hrole hvotes hcore =>
    have hterm := congrArg Core.term hcore
    exact hbase.keep ht (by simp) hterm.ge fun _ => .inl (congrArg Core.votedFor hcore)

end

theorem OneVote.preserved (hnodup : ids.Nodup) : Preserved ids VoteRemembered (OneVote ids) where
  shrink w net h hsub := h.shrink hsub
  move w v hand a hv hhand ha h := by
    obtain ⟨tally, ht⟩ := h.tallied
    exact h.keep (ht.move hv hhand ha) (fun U c hm => (ha.marks _ hm).1 U c rfl) ha.quiet.term
      ha.quiet.vote
  ballot w k env p a hcond hk hdst ha h := h.ballot hnodup hk hdst (hcond p hk) ha

theorem OneVote.after (hnodup : ids.Nodup) {evs : List Event}
    (h : Along (World.step ids) VoteRemembered (World.init ids) evs) :
    OneVote ids (World.after ids evs) :=
  run_invariant (fun w e hw hc => (OneVote.preserved hnodup).step w e hw hc) (OneVote.init ids) h

/-- Two majorities share a voter, so one vote a node makes one leader a term. -/
theorem OneVote.leader (h : OneVote ids w) {v' T : ℕ}
    (hv : (v, .elected T) ∈ w.hist) (hv' : (v', .elected T) ∈ w.hist) : v = v' := by
  obtain ⟨tally, ht⟩ := h.tallied
  obtain ⟨Q, hQ, hvotes⟩ := ht.elected v T hv
  obtain ⟨Q', hQ', hvotes'⟩ := ht.elected v' T hv'
  obtain ⟨x, hx, hx'⟩ := hQ.meet hQ'
  exact h.unique x T v v' (hvotes x hx) (hvotes' x hx')

/-- Election safety, for every run in which no forgotten vote is given again. -/
theorem elected_unique (hnodup : ids.Nodup) (evs : List Event)
    (h : Along (World.step ids) VoteRemembered (World.init ids) evs) (v v' T : ℕ)
    (hv : (v, .elected T) ∈ (World.after ids evs).hist)
    (hv' : (v', .elected T) ∈ (World.after ids evs).hist) : v = v' :=
  (OneVote.after hnodup h).leader hv hv'

def calm (now : ℕ) : Env := ⟨now, fun _ _ => true⟩

def firstElection : List Event :=
  [.elect 1 (calm 100), .elect 5 (calm 100), .deliver 0 (calm 110), .deliver 2 (calm 110),
    .deliver 2 (calm 120), .deliver 2 (calm 120), .deliver 2 (calm 130), .deliver 5 (calm 140),
    .tick 1 (calm 200)]

def lateRequest : List Event :=
  firstElection ++ [.deliver 5 (calm 300), .deliver 4 (calm 2000), .deliver 5 (calm 2010)]

theorem elected_unique_firstElection :
    Along (World.step [1, 3, 5]) VoteRemembered (World.init [1, 3, 5]) firstElection ∧
      (1, Mark.elected 2) ∈ (World.after [1, 3, 5] firstElection).hist ∧
      ∀ v, (v, Mark.elected 2) ∈ (World.after [1, 3, 5] firstElection).hist → v = 1 := by
  have hrun : Along (World.step [1, 3, 5]) VoteRemembered (World.init [1, 3, 5]) firstElection := by
    decide +kernel
  have hone : (1, Mark.elected 2) ∈ (World.after [1, 3, 5] firstElection).hist := by
    decide +kernel
  exact ⟨hrun, hone, fun v hv => elected_unique (by decide) firstElection hrun v 1 2 hv hone⟩

theorem lateRequest_two_leaders : (1, Mark.elected 2) ∈ (World.after [1, 3, 5] lateRequest).hist ∧
      (5, Mark.elected 2) ∈ (World.after [1, 3, 5] lateRequest).hist := by
  decide +kernel

end Mohhdy.Raft
