import Mohhdy.P2p.Naming

/-! A digest exchange leaves two tables equal.

One node sends its digest; the other answers with what the digest lacks and with its own digest,
which the first answers in turn. The messages in flight are delivered one by one, in any order and
possibly more than once; the exchange is over when none is left. -/
namespace Mohhdy.Store
set_option autoImplicit false

open Raft (Item kvApply u32 sub32)
open LastWriter Runs List

variable {items : List Item} {r : WithBot (ℕ ×ₗ ℕ)} {rest : List Msg} {T kv : List Item}

structure Exchange where
  (x y : Replica)
  (toX toY : List Msg)

def Exchange.start (a b : Replica) : Exchange := ⟨a, b, [], [.syncReq false (digest a.kv)]⟩

/-- Message `i` arrives at `y` or at `x`; a copy of it may stay in flight. -/
structure Arrival where
  atY : Bool
  i : ℕ
  again : Bool

def pick (ms : List Msg) (d : Arrival) : Option (Msg × List Msg) :=
  (ms[d.i]?).map fun m => (m, if d.again then ms else ms.eraseIdx d.i)

def Exchange.step (s : Exchange) (d : Arrival) : Exchange :=
  if d.atY then
    (pick s.toY d).elim s fun p =>
      let out := onMsg s.y s.x.id p.1
      ⟨s.x, out.1, s.toX ++ out.2.map Prod.snd, p.2⟩
  else
    (pick s.toX d).elim s fun p =>
      let out := onMsg s.x s.y.id p.1
      ⟨out.1, s.y, p.2, s.toY ++ out.2.map Prod.snd⟩

theorem pick_spec {ms : List Msg} {d : Arrival} {m : Msg} (h : pick ms d = some (m, rest)) :
    m ∈ ms ∧ (∀ x ∈ rest, x ∈ ms) ∧ ∀ x ∈ ms, x = m ∨ x ∈ rest := by
  obtain ⟨m', hget, heq⟩ := Option.map_eq_some_iff.mp h
  cases heq
  refine ⟨mem_of_getElem? hget, ?_, ?_⟩
  · intro x hx
    split at hx
    · exact hx
    · exact mem_of_mem_eraseIdx hx
  · intro x hx
    split
    · exact .inr hx
    obtain ⟨j, hj, rfl⟩ := mem_iff_getElem.mp hx
    by_cases hij : j = d.i
    · subst hij
      rw [List.getElem?_eq_getElem hj] at hget
      exact .inl (Option.some.inj hget)
    · exact .inr (mem_eraseIdx_iff_getElem.mpr ⟨j, hj, hij, rfl⟩)

/-! ## Digests against tables -/

abbrev rankOf (kv : List Item) (k : Bytes) : WithBot (ℕ ×ₗ ℕ) := rank stamp (p2pGetLocal kv k)

variable {keys : Finset Bytes}

theorem Keyed.get (h : Keyed keys kv) {it : Item}
    (hit : it ∈ kv) : p2pGetLocal kv it.key = some it := by
  cases hget : p2pGetLocal kv it.key with
  | none => exact absurd rfl (p2pGetLocal_eq_none.mp hget it hit)
  | some x =>
    obtain ⟨hx, hkey⟩ := p2pGetLocal_mem hget
    rw [inj_on_of_nodup_map h.nodup hx hit hkey]

theorem Keyed.rankOf_eq (h : Keyed keys kv) {it : Item}
    (hit : it ∈ kv) : rankOf kv it.key = stamp it := by
  rw [rankOf, h.get hit, rank_some]

theorem le_rankOf_of_not_newer (hT : Keyed keys T)
    {it : Item} (h : newer (digest T) it = false) : (stamp it : WithBot (ℕ ×ₗ ℕ)) ≤
      rankOf T it.key := by
  obtain ⟨t, ht, hkey, hle⟩ : ∃ t ∈ digest T, t.1 = it.key ∧
      (it.version < t.2.1 ∨ (t.2.1 = it.version ∧ it.origin ≤ t.2.2)) := by
    simpa [newer] using h
  obtain ⟨old, hold, rfl⟩ := mem_map.mp ht
  rw [← hkey, hT.rankOf_eq hold, WithBot.coe_le_coe]
  exact stamp_le.mpr (hle.imp_right fun h => ⟨h.1.symm, h.2⟩)

theorem Keyed.length_le (h : Keyed keys kv) (hkeys : keys.card ≤ 16) : kv.length ≤ 16 := by
  have hsub : (kv.map (·.key)).toFinset ⊆ keys := by
    intro k hk
    obtain ⟨it, hit, rfl⟩ := mem_map.mp (mem_toFinset.mp hk)
    exact h.mem it hit
  have hcard := Finset.card_le_card hsub
  rw [toFinset_card_of_nodup h.nodup, length_map] at hcard
  exact hcard.trans hkeys

def Carried (ms : List Msg) (k : Bytes) (r : WithBot (ℕ ×ₗ ℕ)) : Prop :=
  ∃ m ∈ ms, ∃ it ∈ m.items, it.key = k ∧ r ≤ stamp it

theorem Carried.mono {ms ms' : List Msg} {k : Bytes}
    (h : Carried ms k r) (hsub : ∀ m ∈ ms, m ∈ ms') : Carried ms' k r := by
  obtain ⟨m, hm, hit⟩ := h
  exact ⟨m, hsub m hm, hit⟩

theorem Carried.cover {ms : List Msg} {m : Msg} {k : Bytes} (h : Carried ms k r) (hcov : ∀ x ∈ ms, x = m ∨ x ∈ rest) :
    (∃ it ∈ m.items, it.key = k ∧ r ≤ stamp it) ∨ Carried rest k r := by
  obtain ⟨x, hx, hit⟩ := h
  rcases hcov x hx with rfl | hrest
  · exact .inl hit
  · exact .inr ⟨x, hrest, hit⟩

/-- What a table at least `r` answers to the digest of `T`: an item that ranks at least `r`, or
`T` had one. -/
theorem carried_reply (hT : Keyed keys T) (hkeys : keys.card ≤ 16) (reply : Bool) {k : Bytes}
    (hr : r ≤ rankOf kv k) : Carried (syncReply kv reply (digest T)) k r ∨ r ≤ rankOf T k := by
  cases hget : p2pGetLocal kv k with
  | none =>
    rw [rankOf, hget, rank_none] at hr
    exact .inr (hr.trans bot_le)
  | some it =>
    obtain ⟨hit, rfl⟩ := p2pGetLocal_mem hget
    rw [rankOf, hget, rank_some] at hr
    cases hnew : newer (digest T) it with
    | false => exact .inr (hr.trans (le_rankOf_of_not_newer hT hnew))
    | true =>
      obtain ⟨m, hm, hmem⟩ := mem_sendItemsNewer.mpr ⟨hit, hnew⟩
      have hlen : ¬ 16 < (digest T).length := by
        rw [digest, length_map]
        exact not_lt.mpr (hT.length_le hkeys)
      refine .inl ⟨m, ?_, it, hmem, rfl, hr⟩
      rw [syncReply, if_neg hlen]
      exact mem_append_left _ hm

/-! ## The invariant of an exchange -/

/-- `a` and `b` are the tables the exchange starts with. Every part of the invariant speaks of
ranks: tables only grow, and what one side still lacks is on its way or will be asked for. -/
structure ExInv (keys : Finset Bytes) (a b : List Item) (s : Exchange) : Prop where
  keyedX : Keyed keys s.x.kv
  keyedY : Keyed keys s.y.kv
  itemX : ∀ it ∈ s.x.kv, it ∈ a ∨ it ∈ b
  itemY : ∀ it ∈ s.y.kv, it ∈ a ∨ it ∈ b
  itemMsg : ∀ m ∈ s.toX ++ s.toY, ∀ it ∈ m.items, it ∈ a ∨ it ∈ b
  growX : ∀ k, rankOf a k ≤ rankOf s.x.kv k
  growY : ∀ k, rankOf b k ≤ rankOf s.y.kv k
  shapeX : ∀ m ∈ s.toX, (∃ items, m = .syncItems items) ∨
    ∃ T, m = .syncReq true (digest T) ∧ Keyed keys T ∧ ∀ k, rankOf T k ≤ rankOf s.y.kv k
  shapeY : ∀ m ∈ s.toY, (∃ items, m = .syncItems items) ∨ m = .syncReq false (digest a)
  getX : ∀ k, rankOf b k ≤ rankOf s.x.kv k ∨ Carried s.toX k (rankOf b k) ∨
    .syncReq false (digest a) ∈ s.toY
  getY : ∀ k, rankOf a k ≤ rankOf s.y.kv k ∨ Carried s.toY k (rankOf a k) ∨
    (∃ d, .syncReq true d ∈ s.toX) ∨ .syncReq false (digest a) ∈ s.toY

theorem ExInv.start {a b : Replica} (ha : Keyed keys a.kv)
    (hb : Keyed keys b.kv) : ExInv keys a.kv b.kv (Exchange.start a b) where
  keyedX := ha
  keyedY := hb
  itemX it hit := .inl hit
  itemY it hit := .inr hit
  itemMsg := by simp [Exchange.start, Msg.items]
  growX k := le_rfl
  growY k := le_rfl
  shapeX := by simp [Exchange.start]
  shapeY := by simp [Exchange.start]
  getX k := .inr (.inr (by simp [Exchange.start]))
  getY k := .inr (.inr (.inr (by simp [Exchange.start])))

section Arrivals
variable {keys : Finset Bytes} {a b : List Item} {s : Exchange}

theorem absorb (hkeys : keys.card ≤ 16) (ha : Keyed keys a)
    (hb : Keyed keys b) (hkv : Keyed keys kv) (hin : ∀ it ∈ kv, it ∈ a ∨ it ∈ b)
    (hit : ∀ it ∈ items, it ∈ a ∨ it ∈ b) :
    Keyed keys (items.foldl kvApply kv) ∧ (∀ it ∈ items.foldl kvApply kv, it ∈ a ∨ it ∈ b) ∧
      (∀ k, rankOf kv k ≤ rankOf (items.foldl kvApply kv) k) ∧
      ∀ it ∈ items, (stamp it : WithBot (ℕ ×ₗ ℕ)) ≤ rankOf (items.foldl kvApply kv) it.key := by
  have hmem : ∀ it ∈ items, it.key ∈ keys := fun it h => (hit it h).elim (ha.mem it) (hb.mem it)
  refine ⟨hkv.foldl hmem, ?_, rank_le_foldl hkv hkeys hmem, ?_⟩
  · intro it h
    exact (foldl_kvApply_mem h).elim (hit it) (hin it)
  · exact fun it h => stamp_le_foldl hkv hkeys hmem h

theorem ExInv.itemsAtX (hkeys : keys.card ≤ 16) (ha : Keyed keys a) (hb : Keyed keys b) (h : ExInv keys a b s)
    (hm : Msg.syncItems items ∈ s.toX) (hsub : ∀ m ∈ rest, m ∈ s.toX)
    (hcov : ∀ m ∈ s.toX, m = .syncItems items ∨ m ∈ rest) :
    ExInv keys a b ⟨{ s.x with kv := items.foldl kvApply s.x.kv }, s.y, rest, s.toY⟩ := by
  obtain ⟨hkeyed, hitem, hgrow, hgot⟩ := absorb hkeys ha hb h.keyedX h.itemX
    (h.itemMsg _ (mem_append_left _ hm))
  refine { h with
    keyedX := hkeyed, itemX := hitem, growX := fun k => (h.growX k).trans (hgrow k),
    itemMsg := fun m hm' => h.itemMsg m (mem_append.mpr ((mem_append.mp hm').imp_left (hsub m))),
    shapeX := fun m hm' => h.shapeX m (hsub m hm'), getX := fun k => ?_, getY := fun k => ?_ }
  · rcases h.getX k with hle | hcar | hreq
    · exact .inl (hle.trans (hgrow k))
    · exact (hcar.cover hcov).imp (fun ⟨it, hit, hk, hle⟩ => hk ▸ hle.trans (hgot it hit)) .inl
    · exact .inr (.inr hreq)
  · rcases h.getY k with hle | hcar | ⟨d, hd⟩ | hreq
    · exact .inl hle
    · exact .inr (.inl hcar)
    · exact .inr (.inr (.inl ⟨d, (hcov _ hd).resolve_left (by simp)⟩))
    · exact .inr (.inr (.inr hreq))

theorem ExInv.itemsAtY (hkeys : keys.card ≤ 16) (ha : Keyed keys a) (hb : Keyed keys b) (h : ExInv keys a b s)
    (hm : Msg.syncItems items ∈ s.toY) (hsub : ∀ m ∈ rest, m ∈ s.toY)
    (hcov : ∀ m ∈ s.toY, m = .syncItems items ∨ m ∈ rest) :
    ExInv keys a b ⟨s.x, { s.y with kv := items.foldl kvApply s.y.kv }, s.toX, rest⟩ := by
  obtain ⟨hkeyed, hitem, hgrow, hgot⟩ := absorb hkeys ha hb h.keyedY h.itemY
    (h.itemMsg _ (mem_append_right _ hm))
  have hreq : .syncReq false (digest a) ∈ s.toY → .syncReq false (digest a) ∈ rest :=
    fun hreq => (hcov _ hreq).resolve_left (by simp)
  refine { h with
    keyedY := hkeyed, itemY := hitem, growY := fun k => (h.growY k).trans (hgrow k),
    itemMsg := fun m hm' => h.itemMsg m (mem_append.mpr ((mem_append.mp hm').imp_right (hsub m))),
    shapeX := fun m hm' => (h.shapeX m hm').imp_right ?_,
    shapeY := fun m hm' => h.shapeY m (hsub m hm'),
    getX := fun k => (h.getX k).imp_right (Or.imp_right hreq), getY := fun k => ?_ }
  · rintro ⟨T, rfl, hT, hle⟩
    exact ⟨T, rfl, hT, fun k => (hle k).trans (hgrow k)⟩
  · rcases h.getY k with hle | hcar | hd | hr
    · exact .inl (hle.trans (hgrow k))
    · exact (hcar.cover hcov).imp (fun ⟨it, hit, hk, hle⟩ => hk ▸ hle.trans (hgot it hit)) .inl
    · exact .inr (.inr (.inl hd))
    · exact .inr (.inr (.inr (hreq hr)))

theorem syncReply_shape {reply : Bool} {theirs : List Mark} {m : Msg} (hm : m ∈ syncReply kv reply theirs) :
    (∃ items, m = .syncItems items) ∨ (reply = false ∧ m = .syncReq true (digest kv)) := by
  unfold syncReply at hm
  split at hm
  · simp at hm
  rcases mem_append.mp hm with hm | hm
  · obtain ⟨items, -, rfl⟩ := mem_map.mp hm
    exact .inl ⟨items, rfl⟩
  · cases reply
    · exact .inr ⟨rfl, by simpa using hm⟩
    · simp at hm

theorem ExInv.digestAtY (hkeys : keys.card ≤ 16) (ha : Keyed keys a) (h : ExInv keys a b s)
    (hsub : ∀ m ∈ rest, m ∈ s.toY) :
    ExInv keys a b ⟨s.x, s.y, s.toX ++ syncReply s.y.kv false (digest a), rest⟩ := by
  refine { h with
    itemMsg := ?_, shapeX := forall_mem_append.mpr ⟨h.shapeX, fun m hm => ?_⟩,
    shapeY := fun m hm => h.shapeY m (hsub m hm), getX := fun k => ?_, getY := fun k => ?_ }
  · obtain ⟨hX, hY⟩ := forall_mem_append.mp h.itemMsg
    exact forall_mem_append.mpr ⟨forall_mem_append.mpr
      ⟨hX, fun m hm it hit => h.itemY it (mem_syncReply hm hit)⟩, fun m hm => hY m (hsub m hm)⟩
  · rcases syncReply_shape hm with hi | ⟨-, rfl⟩
    · exact .inl hi
    · exact .inr ⟨s.y.kv, rfl, h.keyedY, fun k => le_rfl⟩
  · rcases carried_reply ha hkeys false (h.growY k) with hcar | hle
    · exact .inr (.inl (hcar.mono fun m hm => mem_append_right _ hm))
    · exact .inl (hle.trans (h.growX k))
  · refine .inr (.inr (.inl ⟨digest s.y.kv, mem_append_right _ ?_⟩))
    have hlen : ¬ 16 < (digest a).length := by
      rw [digest, length_map]
      exact not_lt.mpr (ha.length_le hkeys)
    rw [syncReply, if_neg hlen]
    simp

theorem ExInv.digestAtX (hkeys : keys.card ≤ 16) (h : ExInv keys a b s)
    (hT : Keyed keys T) (hTle : ∀ k, rankOf T k ≤ rankOf s.y.kv k) (hsub : ∀ m ∈ rest, m ∈ s.toX)
    (hcov : ∀ m ∈ s.toX, m = .syncReq true (digest T) ∨ m ∈ rest) :
    ExInv keys a b ⟨s.x, s.y, rest, s.toY ++ syncReply s.x.kv true (digest T)⟩ := by
  refine { h with
    itemMsg := ?_, shapeX := fun m hm => h.shapeX m (hsub m hm),
    shapeY := forall_mem_append.mpr ⟨h.shapeY, fun m hm => ?_⟩,
    getX := fun k => ?_, getY := fun k => ?_ }
  · obtain ⟨hX, hY⟩ := forall_mem_append.mp h.itemMsg
    exact forall_mem_append.mpr ⟨fun m hm => hX m (hsub m hm), forall_mem_append.mpr
      ⟨hY, fun m hm it hit => h.itemX it (mem_syncReply hm hit)⟩⟩
  · rcases syncReply_shape hm with hi | ⟨hf, -⟩
    · exact .inl hi
    · simp at hf
  · rcases h.getX k with hle | hcar | hreq
    · exact .inl hle
    · exact .inr (.inl ((hcar.cover hcov).resolve_left (by simp [Msg.items])))
    · exact .inr (.inr (mem_append_left _ hreq))
  · rcases carried_reply hT hkeys true (h.growX k) with hcar | hle
    · exact .inr (.inl (hcar.mono fun m hm => mem_append_right _ hm))
    · exact .inl (hle.trans (hTle k))

theorem ExInv.step (hkeys : keys.card ≤ 16) (ha : Keyed keys a) (hb : Keyed keys b)
    (h : ExInv keys a b s) (d : Arrival) : ExInv keys a b (s.step d) := by
  unfold Exchange.step
  split
  · cases hp : pick s.toY d with
    | none => exact h
    | some p =>
      obtain ⟨m, rest⟩ := p
      obtain ⟨hm, hsub, hcov⟩ := pick_spec hp
      rcases h.shapeY m hm with ⟨items, rfl⟩ | rfl
      · simpa [onMsg] using h.itemsAtY hkeys ha hb hm hsub hcov
      · simpa [onMsg, Function.comp_def] using h.digestAtY hkeys ha hsub
  · cases hp : pick s.toX d with
    | none => exact h
    | some p =>
      obtain ⟨m, rest⟩ := p
      obtain ⟨hm, hsub, hcov⟩ := pick_spec hp
      rcases h.shapeX m hm with ⟨items, rfl⟩ | ⟨T, rfl, hT, hle⟩
      · simpa [onMsg] using h.itemsAtX hkeys ha hb hm hsub hcov
      · simpa [onMsg, Function.comp_def] using h.digestAtX hkeys hT hle hsub hcov

theorem ExInv.rank_eq (ha : Keyed keys a) (hb : Keyed keys b) (h : ExInv keys a b s)
    (hx : s.toX = []) (hy : s.toY = []) (k : Bytes) : rankOf s.x.kv k = rankOf s.y.kv k := by
  have hbound : ∀ kv : List Item, (∀ it ∈ kv, it ∈ a ∨ it ∈ b) →
      rankOf kv k ≤ max (rankOf a k) (rankOf b k) := by
    intro kv hkv
    cases hget : p2pGetLocal kv k with
    | none => simp [rankOf, hget]
    | some it =>
      obtain ⟨hit, rfl⟩ := p2pGetLocal_mem hget
      rw [rankOf, hget, rank_some]
      rcases hkv it hit with hit | hit
      · exact le_max_of_le_left (ha.rankOf_eq hit).ge
      · exact le_max_of_le_right (hb.rankOf_eq hit).ge
  have hbx : rankOf b k ≤ rankOf s.x.kv k := by
    simpa [hx, hy, Carried] using h.getX k
  have hay : rankOf a k ≤ rankOf s.y.kv k := by
    simpa [hx, hy, Carried] using h.getY k
  exact le_antisymm ((hbound _ h.itemX).trans (max_le hay (h.growY k)))
    ((hbound _ h.itemY).trans (max_le (h.growX k) hbx))

end Arrivals

/-! ## Convergence -/

theorem Named.eq {val : Names} {it it' : Item} (h : Named keys val it)
    (h' : Named keys val it') (hk : it.key = it'.key) (hs : stamp it = stamp it') : it = it' := by
  obtain ⟨hv, ho⟩ := Prod.mk.inj (toLex.injective hs)
  have hval := h.1
  rw [hk, hv, ho, h'.1] at hval
  cases it
  cases it'
  simp_all

/-- In every run that keeps versions apart, on at most `P2P_KV` keys, a finished exchange between
any two nodes leaves them with the same value, version and origin for every key. -/
theorem exchange_converges {keys : Finset Bytes} (hkeys : keys.card ≤ 16) {evs : List Event}
    (h : Along step (fun w e => VersionKept w e ∧ ∀ k ∈ e.key?, k ∈ keys) World.init evs)
    {a b : ℕ} {arrivals : List Arrival} {s : Exchange}
    (hs : s = run Exchange.step (.start ((run step World.init evs).node a)
      ((run step World.init evs).node b)) arrivals)
    (hx : s.toX = []) (hy : s.toY = []) (k : Bytes) :
    p2pGetLocal s.x.kv k = p2pGetLocal s.y.kv k := by
  obtain ⟨val, hnode, -⟩ := inv_run hkeys h
  have ha := (hnode a).keyed
  have hb := (hnode b).keyed
  have hstep := fun s d hs => ExInv.step (s := s) hkeys ha hb hs d
  have hinv : ExInv keys ((run step World.init evs).node a).kv
      ((run step World.init evs).node b).kv s := by
    rw [hs]
    exact run_invariant_all hstep (ExInv.start ha hb)
  -- both sides hold items of the run, whose stamps name one value each
  have hnamed : ∀ kv : List Item, (∀ it ∈ kv, it ∈ ((run step World.init evs).node a).kv ∨
      it ∈ ((run step World.init evs).node b).kv) →
      ∀ it ∈ p2pGetLocal kv k, Named keys val it ∧ it.key = k := by
    intro kv hkv it hit
    obtain ⟨hmem, hkey⟩ := p2pGetLocal_mem hit
    exact ⟨(hkv it hmem).elim ((hnode a).named it) ((hnode b).named it), hkey⟩
  refine eq_of_rank_eq stamp ?_ (hnamed _ hinv.itemX) (hnamed _ hinv.itemY)
    (hinv.rank_eq ha hb hx hy k)
  rintro it it' ⟨hit, hk⟩ ⟨hit', hk'⟩ heq
  exact hit.eq hit' (hk.trans hk'.symm) heq

instance (w : World) : ∀ e, Decidable (VersionKept w e)
  | .put _ _ _ _ => inferInstanceAs (Decidable (_ → _))
  | .propose _ _ _ _ => inferInstanceAs (Decidable (_ → _))
  | .tick _ _ _ | .sync _ _ => inferInstanceAs (Decidable True)

def pairEnv (other now : ℕ) : Env := ⟨true, now, 10, [other], [], 1⟩

/-- Node 1 proposes `k = a` and node 2 votes for it, node 1 commits, and the commit is lost; node 2
meanwhile puts `k = b`. -/
def lostCommit : List Event :=
  [.propose 1 (pairEnv 2 0) [107] [97], .tick 2 (pairEnv 1 2) [0], .put 2 (pairEnv 1 5) [107] [98],
    .tick 1 (pairEnv 2 10) [1]]

def inTurn : List Arrival :=
  [⟨true, 0, false⟩, ⟨false, 0, false⟩, ⟨false, 0, false⟩, ⟨true, 0, false⟩]

theorem exchange_converges_lostCommit :
    p2pGetLocal (run Exchange.step (.start ((run step World.init lostCommit).node 1)
        ((run step World.init lostCommit).node 2)) inTurn).x.kv [107] =
      p2pGetLocal (run Exchange.step (.start ((run step World.init lostCommit).node 1)
        ((run step World.init lostCommit).node 2)) inTurn).y.kv [107] ∧
    p2pGetLocal ((run step World.init lostCommit).node 1).kv [107] ≠
      p2pGetLocal ((run step World.init lostCommit).node 2).kv [107] :=
  ⟨exchange_converges (by decide : ({[107]} : Finset Bytes).card ≤ 16) (by decide) rfl (by decide) (by decide) [107],
    by decide⟩

/-- Node 1 proposes `k = a` and puts `k = b` before the tick in which the vote arrives. -/
def putWhileProposing : List Event :=
  [.propose 1 (pairEnv 2 0) [107] [97], .put 1 (pairEnv 2 1) [107] [98], .tick 2 (pairEnv 1 2) [0],
    .tick 1 (pairEnv 2 10) [2], .tick 2 (pairEnv 1 12) [3]]

/-- Both writes are version 1 of node 1; a finished exchange finds the digests equal and leaves the
nodes with different values. -/
theorem putWhileProposing_diverges : (∀ e ∈ putWhileProposing, ∀ k ∈ e.key?, k ∈ ({[107]} : Finset Bytes)) ∧
    (run Exchange.step (.start ((run step World.init putWhileProposing).node 1)
      ((run step World.init putWhileProposing).node 2)) inTurn).toX = [] ∧
    (run Exchange.step (.start ((run step World.init putWhileProposing).node 1)
      ((run step World.init putWhileProposing).node 2)) inTurn).toY = [] ∧
    p2pGetLocal (run Exchange.step (.start ((run step World.init putWhileProposing).node 1)
      ((run step World.init putWhileProposing).node 2)) inTurn).x.kv [107] =
        some ⟨[107], [98], 1, 1⟩ ∧
    p2pGetLocal (run Exchange.step (.start ((run step World.init putWhileProposing).node 1)
      ((run step World.init putWhileProposing).node 2)) inTurn).y.kv [107] =
        some ⟨[107], [97], 1, 1⟩ := by
  decide

end Mohhdy.Store
