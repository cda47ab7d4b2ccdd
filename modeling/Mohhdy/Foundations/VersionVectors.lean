import Mohhdy.Foundations.LastWriter

/-! Replicas of a last-writer-wins map that send each other only what the other has not seen.

A replica remembers for each device the latest time it has seen of it. That is enough to leave entries out
of a message when every write up to that time is covered: the replica holds it, or a later write to its key.
Merging a message keeps this, because its sender covers what the message makes the receiver pass over. -/
namespace Mohhdy.VersionVectors
set_option autoImplicit false

open LastWriter List

variable {κ ε δ τ : Type*} [LinearOrder τ] [LinearOrder δ] (key : ε → κ) (time : ε → τ) (dev : ε → δ)

def stamp (e : ε) : τ ×ₗ δ := toLex (time e, dev e)

def Covers (W : Set ε) (held : κ → Option ε) (seen : δ → τ) : Prop :=
  ∀ w ∈ W, time w ≤ seen (dev w) → (stamp time dev w : WithBot (τ ×ₗ δ)) ≤ rank (stamp time dev) (held (key w))

def Sees (W : Set ε) (held : κ → Option ε) (seen : δ → τ) : Prop :=
  ∀ k e, held k = some e → e ∈ W ∧ key e = k ∧ time e ≤ seen (dev e)

def IsDelta (held : κ → Option ε) (old : δ → τ) (D : List ε) : Prop :=
  ∀ e, e ∈ D ↔ held (key e) = some e ∧ old (dev e) < time e

structure Merges (held : κ → Option ε) (seen : δ → τ) (D : List ε) (held' : κ → Option ε) (seen' : δ → τ) :
    Prop where
  grows : ∀ k, rank (stamp time dev) (held k) ≤ rank (stamp time dev) (held' k)
  takes : ∀ e ∈ D, (stamp time dev e : WithBot (τ ×ₗ δ)) ≤ rank (stamp time dev) (held' (key e))
  choice : ∀ k e, held' k = some e → held k = some e ∨ (e ∈ D ∧ key e = k)
  sees : ∀ d, seen d ≤ seen' d
  passes : ∀ d, seen' d = seen d ∨ ∃ e ∈ D, dev e = d ∧ seen' d = time e
  follows : ∀ e ∈ D, time e ≤ seen' (dev e)

variable {key time dev}

theorem Merges.refl (held : κ → Option ε) (seen : δ → τ) : Merges key time dev held seen [] held seen where
  grows _ := le_rfl
  takes e he := by cases he
  choice _ _ h := .inl h
  sees _ := le_rfl
  passes _ := .inl rfl
  follows e he := by cases he

theorem Merges.trans {held held' held'' : κ → Option ε} {seen seen' seen'' : δ → τ} {D D' : List ε}
    (h : Merges key time dev held seen D held' seen') (h' : Merges key time dev held' seen' D' held'' seen'') :
    Merges key time dev held seen (D ++ D') held'' seen'' where
  grows k := (h.grows k).trans (h'.grows k)
  takes := forall_mem_append.mpr
    ⟨fun e he => (h.takes e he).trans (h'.grows _), h'.takes⟩
  choice k e he := by
    rcases h'.choice k e he with he | ⟨he, hk⟩
    · rcases h.choice k e he with he | ⟨he, hk⟩
      · exact .inl he
      · exact .inr ⟨mem_append_left _ he, hk⟩
    · exact .inr ⟨mem_append_right _ he, hk⟩
  sees d := (h.sees d).trans (h'.sees d)
  passes d := by
    rcases h'.passes d with heq | ⟨e, he, hd, heq⟩
    · rcases h.passes d with heq' | ⟨e, he, hd, heq'⟩
      · exact .inl (heq.trans heq')
      · exact .inr ⟨e, mem_append_left _ he, hd, heq.trans heq'⟩
    · exact .inr ⟨e, mem_append_right _ he, hd, heq⟩
  follows := forall_mem_append.mpr
    ⟨fun e he => (h.follows e he).trans (h'.sees _), h'.follows⟩

section Delta

variable {W : Set ε} {heldS heldR held' : κ → Option ε} {seenS seenR seen' old : δ → τ} {D : List ε}

theorem Merges.dominates (hS : Sees key time dev W heldS seenS) (hR : Covers key time dev W heldR seenR)
    (hD : IsDelta key time dev heldS old D) (hold : ∀ d, old d ≤ seenR d)
    (hm : Merges key time dev heldR seenR D held' seen') (k : κ) :
    rank (stamp time dev) (heldS k) ≤ rank (stamp time dev) (held' k) := by
  cases hk : heldS k with
  | none => exact bot_le
  | some x =>
    obtain ⟨hW, hkey, -⟩ := hS k x hk
    subst hkey
    rw [rank_some]
    rcases lt_or_ge (old (dev x)) (time x) with hnew | hseen
    · exact hm.takes x ((hD x).mpr ⟨hk, hnew⟩)
    · exact (hR x hW (hseen.trans (hold _))).trans (hm.grows _)

theorem Sees.merge (hS : Sees key time dev W heldS seenS) (hR : Sees key time dev W heldR seenR)
    (hD : IsDelta key time dev heldS old D) (hm : Merges key time dev heldR seenR D held' seen') :
    Sees key time dev W held' seen' := by
  intro k e he
  rcases hm.choice k e he with he | ⟨he, hk⟩
  · obtain ⟨hW, hk, ht⟩ := hR k e he
    exact ⟨hW, hk, ht.trans (hm.sees _)⟩
  · exact ⟨(hS _ e ((hD e).mp he).1).1, hk, hm.follows e he⟩

theorem Covers.merge (hS : Covers key time dev W heldS seenS) (hsees : Sees key time dev W heldS seenS)
    (hR : Covers key time dev W heldR seenR) (hD : IsDelta key time dev heldS old D)
    (hold : ∀ d, old d ≤ seenR d) (hm : Merges key time dev heldR seenR D held' seen') :
    Covers key time dev W held' seen' := by
  intro w hw ht
  rcases hm.passes (dev w) with heq | ⟨e, he, hd, heq⟩
  · exact (hR w hw (heq ▸ ht)).trans (hm.grows _)
  · -- the vector moved to the time of an entry that the sender holds, so the sender covers the write
    have hsender : time w ≤ seenS (dev w) := by
      rw [← hd]
      rw [heq] at ht
      exact ht.trans (hsees _ e ((hD e).mp he).1).2.2
    exact (hS w hw hsender).trans (hm.dominates hsees hR hD hold (key w))

end Delta

theorem Merges.rank_le {held held' heldS : κ → Option ε} {seen seen' old : δ → τ} {D : List ε}
    (hD : IsDelta key time dev heldS old D) (hm : Merges key time dev held seen D held' seen') (k : κ) :
    rank (stamp time dev) (held' k) ≤ max (rank (stamp time dev) (held k)) (rank (stamp time dev) (heldS k)) := by
  cases hk : held' k with
  | none => exact bot_le
  | some e =>
    rcases hm.choice k e hk with he | ⟨he, rfl⟩
    · rw [he]
      exact le_max_left _ _
    · rw [((hD e).mp he).1]
      exact le_max_right _ _

theorem agree {W : Set ε} {heldA heldB heldB' heldA' : κ → Option ε} {seenA seenB seenA' seenB' oldA oldB : δ → τ}
    {DA DB : List ε} (hA : Covers key time dev W heldA seenA) (hsA : Sees key time dev W heldA seenA)
    (hB : Covers key time dev W heldB seenB) (hsB : Sees key time dev W heldB' seenB')
    (hDA : IsDelta key time dev heldA oldB DA) (hDB : IsDelta key time dev heldB' oldA DB)
    (holdA : ∀ d, oldA d ≤ seenA d) (holdB : ∀ d, oldB d ≤ seenB d)
    (hmB : Merges key time dev heldB seenB DA heldB' seenB') (hmA : Merges key time dev heldA seenA DB heldA' seenA')
    (k : κ) : rank (stamp time dev) (heldA' k) = rank (stamp time dev) (heldB' k) := by
  apply le_antisymm
  · exact (hmA.rank_le hDB k).trans (max_le (hmB.dominates hsA hB hDA holdB k) le_rfl)
  · exact hmA.dominates hsB hA hDB holdA k

end Mohhdy.VersionVectors
