import Mohhdy.Collab.Persist
import Mohhdy.Devsync.Exchange
import Mohhdy.Devsync.RoundTrip

/-! What a failed import leaves behind, for the two importers that apply what they read record by
record: `ds_import` (devsync.c) and `collab_load` (collab.c).

`ds_import` parses the whole text first, but `ds_apply` refuses records that the parser takes, and
what was applied before such a record stays. `collab_load` empties the node before it reads the
first record. -/
namespace Mohhdy.Devsync
open Words Collab LastWriter
set_option autoImplicit false

def Known (r : Replica) (e : Entry) : Prop :=
  e.clock ≤ r.vv e.dev ∧ ∃ cur, r.find e.key = some cur ∧ ¬ wins e cur

def Refused (r : Replica) (e : Entry) : Prop :=
  ¬ e.valid ∨ e.clock ≤ r.vv e.dev ∧ r.find e.key = none ∧ dsKeys ≤ r.entries.length

def KnownUpTo (r : Replica) (batch : List Entry) : Prop :=
  ∃ known e rest, batch = known ++ e :: rest ∧ (∀ x ∈ known, Known r x) ∧ Refused r e

def HeadRefused (b : List UInt8) : Prop :=
  (b.length < 32 + 148 ∨ readLe32 b ≠ saveMagic) ∨
    (readLe32 (b.drop 16)).toNat > 96 ∨ (readLe32 (b.drop 20)).toNat > 8

/-- What `collab_load` has put in place of the node when a record behind the header is refused. -/
def loadedPart (c : Ledger) (b : List UInt8) : Ledger :=
  match loadKeys (readLe32 (b.drop 20)).toNat (b.drop 180) with
  | none => loadHead c b
  | some (keys, _) => { loadHead c b with keys := keys }

def Replica.Same (r r' : Replica) : Prop := r'.entries = r.entries ∧ r'.vv = r.vv

variable {r r' : Replica} {e : Entry}

theorem Replica.Same.advance (h : r.Same r') (he : e.clock ≤ r.vv e.dev) : r.Same (r'.advance e) :=
  ⟨h.1, (if_neg (by rw [h.2]; exact UInt32.not_lt.mpr he)).trans h.2⟩

theorem Replica.Same.find (h : r.Same r') (key : List UInt8) : r'.find key = r.find key := by
  rw [Replica.find, h.1, Replica.find]

theorem Known.apply (hk : Known r e) (h : r.Same r') :
    dsApply r' e = (r', .invalid) ∨ r.Same (dsApply r' e).1 ∧ (dsApply r' e).2 = .ignored := by
  obtain ⟨hvv, cur, hcur, hlost⟩ := hk
  unfold dsApply
  rw [h.find, hcur]
  dsimp only
  rw [if_neg hlost]
  split
  · exact .inl rfl
  · exact .inr ⟨h.advance hvv, rfl⟩

theorem Refused.apply (hr : Refused r e) (h : r.Same r') :
    r.Same (dsApply r' e).1 ∧ (dsApply r' e).2 = .invalid := by
  unfold dsApply
  split
  · exact ⟨h, rfl⟩
  · obtain ⟨hvv, hnone, hfull⟩ := hr.resolve_left (by assumption)
    rw [h.find, hnone]
    rw [if_pos (h.1 ▸ hfull)]
    exact ⟨h.advance hvv, rfl⟩

theorem KnownUpTo.apply {batch : List Entry} (hb : KnownUpTo r batch) :
    ∀ n, r.Same (applyBatch r batch n).1 := by
  obtain ⟨known, e, rest, rfl, hknown, he⟩ := hb
  have main : ∀ r', r.Same r' → ∀ n, r.Same (applyBatch r' (known ++ e :: rest) n).1 := by
    induction known with
    | nil =>
      intro r' h n
      have hr := he.apply h
      rw [List.nil_append, applyBatch]
      split <;> simp_all
    | cons x known ih =>
      intro r' h n
      obtain ⟨hx, hknown⟩ := List.forall_mem_cons.mp hknown
      rw [List.cons_append, applyBatch]
      obtain heq | ⟨hsame, hign⟩ := hx.apply h
      · rw [heq]
        exact h
      · split <;> simp_all
  exact main r ⟨rfl, rfl⟩

/-! ## What a replica cannot take back -/

structure Grown (r r' : Replica) : Prop where
  seen : ∀ d, r.seen d ≤ r'.seen d
  held : ∀ k, rank stampOf (r.find k) ≤ rank stampOf (r'.find k)
  length : r.entries.length ≤ r'.entries.length

theorem Grown.refl (r : Replica) : Grown r r := ⟨fun _ => le_rfl, fun _ => le_rfl, le_rfl⟩

theorem Grown.trans {r₁ r₂ r₃ : Replica} (h : Grown r₁ r₂) (h' : Grown r₂ r₃) : Grown r₁ r₃ :=
  ⟨fun d => (h.seen d).trans (h'.seen d), fun k => (h.held k).trans (h'.held k), h.length.trans h'.length⟩

theorem Grown.advance (r : Replica) (e : Entry) : Grown r (r.advance e) := by
  refine ⟨fun d => ?_, fun _ => le_rfl, le_rfl⟩
  rw [advance_seen]
  split_ifs
  · exact le_max_left _ _
  · exact le_rfl

theorem Replica.Same.grown (h : r.Same r') : Grown r' r :=
  ⟨fun d => by rw [Replica.seen, h.2, Replica.seen], fun k => by rw [h.find], by rw [h.1]⟩

theorem dsApply_length (r : Replica) (e : Entry) : r.entries.length ≤ (dsApply r e).1.entries.length := by
  rcases dsApply_cases r e with ⟨-, heq⟩ | ⟨-, -, -, heq⟩ | ⟨-, -, -, heq⟩ | ⟨-, -, -, -, heq⟩ | ⟨-, -, -, -, heq⟩
  · rw [heq]
  · rw [heq]
    rfl
  · rw [heq]
    simp [Replica.setEntries]
  · rw [heq]
    simp [Replica.setEntries, Tables.update]
  · rw [heq]
    rfl

theorem dsApply_grown (r : Replica) (e : Entry) : Grown r (dsApply r e).1 := by
  by_cases hok : (dsApply r e).2 = .invalid
  · rcases dsApply_cases r e with ⟨-, heq⟩ | ⟨-, -, -, heq⟩ | ⟨-, -, -, heq⟩ | ⟨-, -, -, -, heq⟩ | ⟨-, -, -, -, heq⟩
    · rw [heq]
      exact .refl r
    · rw [heq]
      exact .advance r e
    all_goals simp [heq] at hok
  · refine ⟨fun d => ?_, fun k => ?_, dsApply_length r e⟩
    · rw [dsApply_seen hok, ← advance_seen]
      exact (Grown.advance r e).seen d
    · rw [dsApply_find hok]
      split_ifs
      · rw [rank_newest]
        exact le_max_left _ _
      · exact le_rfl

theorem applyBatch_grown (r : Replica) (batch : List Entry) (n : ℕ) : Grown r (applyBatch r batch n).1 := by
  induction batch generalizing r n with
  | nil => exact .refl r
  | cons e batch ih =>
    have hstep := dsApply_grown r e
    rw [applyBatch]
    split <;> rename_i heq <;> rw [heq] at hstep
    · exact hstep
    · exact hstep.trans (ih _ _)
    · exact hstep.trans (ih _ _)

theorem dsApply_still (h : Grown r r') (hstill : Grown (dsApply r' e).1 r) :
    if (dsApply r' e).2 = .invalid then Refused r e else Known r e := by
  have hback := (dsApply_grown r' e).trans hstill
  have hrank : ∀ k, rank stampOf (r'.find k) = rank stampOf (r.find k) := fun k =>
    le_antisymm (hback.held k) (h.held k)
  have hclock : (dsApply r' e).1.vv = (r'.advance e).vv → e.clock ≤ r.vv e.dev := by
    intro hvv
    have hle := hstill.seen e.dev
    rw [Replica.seen, hvv, ← Replica.seen, advance_seen, if_pos rfl] at hle
    exact UInt32.le_iff_toNat_le.mpr ((le_max_right _ _).trans hle)
  -- an applied entry has a larger stamp than what was there
  have hnew (ha : (dsApply r' e).2 ≠ .invalid) : stampOf e.kept ≤ rank stampOf (r'.find e.key) := by
    have hle := (hstill.held e.key).trans (h.held e.key)
    rw [dsApply_find ha, if_pos rfl, rank_newest] at hle
    exact (le_max_right _ _).trans hle
  rcases dsApply_cases r' e with ⟨hbad, heq⟩ | ⟨-, hnone, hfull, heq⟩ | ⟨-, hnone, -, heq⟩ | ⟨-, cur, hcur, hw, heq⟩ |
    ⟨-, cur, hcur, hw, heq⟩
  · rw [heq, if_pos rfl]
    exact .inl hbad
  · rw [heq] at hclock
    rw [heq, if_pos rfl]
    have hr := hrank e.key
    rw [hnone] at hr
    refine .inr ⟨hclock rfl, ?_, hfull.trans hback.length⟩
    cases hfind : r.find e.key with
    | none => rfl
    | some x => simp [hfind] at hr
  · have hbot := hnew (by simp [heq])
    simp [hnone] at hbot
  · have hle := hnew (by simp [heq])
    rw [hcur, rank_some, WithBot.coe_le_coe] at hle
    exact absurd ((wins_iff e cur).mp hw) (not_lt.mpr hle)
  · rw [heq] at hclock
    rw [heq, if_neg (by simp)]
    have hr := hrank e.key
    rw [hcur] at hr
    refine ⟨hclock rfl, ?_⟩
    cases hfind : r.find e.key with
    | none => simp [hfind] at hr
    | some x =>
      rw [hfind, rank_some, rank_some, WithBot.coe_inj] at hr
      exact ⟨x, rfl, by rwa [wins_iff, ← hr, ← wins_iff]⟩

theorem knownUpTo_of_still {batch : List Entry} {n : ℕ} {err : ImportErr} (h : Grown r r')
    (herr : (applyBatch r' batch n).2 = .error err) (hstill : Grown (applyBatch r' batch n).1 r) :
    KnownUpTo r batch := by
  induction batch generalizing r' n with
  | nil => cases herr
  | cons e batch ih =>
    have hstep := h.trans (dsApply_grown r' e)
    have hentry := fun hs => dsApply_still (e := e) h hs
    rw [applyBatch] at herr hstill
    split at herr <;> rename_i heq <;> simp only [heq] at hstep hstill hentry
    · exact ⟨[], e, batch, rfl, by simp, hentry hstill⟩
    all_goals
      -- the rest of the batch only grows the replica further
      have hknown := hentry ((applyBatch_grown _ _ _).trans hstill)
      obtain ⟨known, x, rest, rfl, hall, hx⟩ := ih hstep herr hstill
      exact ⟨e :: known, x, rest, rfl, List.forall_mem_cons.mpr ⟨hknown, hall⟩, hx⟩

theorem collabLoad_failed {P : Prim} {c : Ledger} {b : List UInt8} (h : (collabLoad P c b).1 = none)
    (hhead : ¬HeadRefused b) : (collabLoad P c b).2 = loadedPart c b := by
  rw [HeadRefused, not_or] at hhead
  unfold collabLoad at h ⊢
  unfold loadedPart
  simp only [hhead.1, hhead.2, if_false] at h ⊢
  cases hkeys : loadKeys (readLe32 (b.drop 20)).toNat (b.drop 180) with
  | none => rfl
  | some kr =>
    rw [hkeys] at h
    dsimp only at h ⊢
    cases hslots : loadSlots P (readLe32 (b.drop 16)).toNat kr.2 with
    | none => rfl
    | some slots =>
      rw [hslots] at h
      cases h

def badRecord : Entry := ⟨[1], [50], 2, deviceB, false⟩

def shortImage : List UInt8 := le32 saveMagic ++ (List.replicate 12 0 ++ (le32 1 ++ List.replicate 160 0))

end Mohhdy.Devsync
