import Mohhdy.Collab.Convergence

/-! Anti-entropy: a summary, its answer, and what the asking node stores afterwards.

A summary has room for eight origins and gives one number for each, the largest one held. The
answer leaves out every entry at or below that number, whether the asking node holds it or not. -/
namespace Mohhdy.Collab
open Words Runs List
set_option autoImplicit false

variable {a b c : Ledger}

/-! ## The summary -/

def syncOrigins (es : List Entry) : List UInt32 := (es.map Entry.origin).eraseDups.take 8

theorem eraseDups_concat (l : List UInt32) (a : UInt32) :
    (l ++ [a]).eraseDups = if a ∈ l then l.eraseDups else l.eraseDups ++ [a] := by
  rw [eraseDups_append]
  split
  · rename_i h
    simp [List.removeAll, h]
  · rename_i h
    simp [List.removeAll, h, eraseDups_cons]

theorem syncOrigins_concat (es : List Entry) (e : Entry) :
    syncOrigins (es ++ [e]) = if e.origin ∈ es.map Entry.origin then syncOrigins es
      else ((es.map Entry.origin).eraseDups ++ [e.origin]).take 8 := by
  unfold syncOrigins
  rw [map_append, map_singleton, eraseDups_concat]
  split <;> rfl

theorem any_origin_iff (acc : List (UInt32 × UInt32)) (o : UInt32) :
    acc.any (fun m => m.1 = o) = true ↔ o ∈ acc.map Prod.fst := by
  simp

theorem summaryAdd_origins (acc : List (UInt32 × UInt32)) (e : Entry) : (summaryAdd acc e).map Prod.fst =
      if e.origin ∈ acc.map Prod.fst ∨ acc.length = 8 then acc.map Prod.fst
      else acc.map Prod.fst ++ [e.origin] := by
  have hfst : ∀ l : List (UInt32 × UInt32), (l.map fun m =>
      if m.1 = e.origin ∧ e.seq > m.2 then (m.1, e.seq) else m).map Prod.fst = l.map Prod.fst := by
    intro l
    rw [map_map]
    refine map_congr_left fun m _ => ?_
    rw [Function.comp_apply]
    split <;> rfl
  rw [summaryAdd, hfst]
  simp only [any_origin_iff]
  split
  · rfl
  · simp

structure SummaryOf (es : List Entry) (acc : List (UInt32 × UInt32)) : Prop where
  origins : acc.map Prod.fst = syncOrigins es
  held : ∀ m ∈ acc, ∃ e ∈ es, e.origin = m.1 ∧ e.seq = m.2
  largest : ∀ m ∈ acc, ∀ e ∈ es, e.origin = m.1 → e.seq ≤ m.2

theorem SummaryOf.add {es : List Entry} {acc : List (UInt32 × UInt32)} (h : SummaryOf es acc)
    (e : Entry) : SummaryOf (es ++ [e]) (summaryAdd acc e) := by
  have hlen : acc.length = min 8 (es.map Entry.origin).eraseDups.length := by
    have := congrArg List.length h.origins
    simpa [syncOrigins] using this
  have hmem : ∀ o, o ∈ acc.map Prod.fst → o ∈ es.map Entry.origin := by
    intro o ho
    rw [h.origins] at ho
    exact mem_eraseDups.mp (mem_of_mem_take ho)
  have hfull : acc.length ≠ 8 → ∀ o, o ∈ es.map Entry.origin → o ∈ acc.map Prod.fst := by
    intro hn o ho
    rw [h.origins, syncOrigins, take_of_length_le (by omega)]
    exact mem_eraseDups.mpr ho
  constructor
  · rw [summaryAdd_origins, syncOrigins_concat, h.origins]
    by_cases hin : e.origin ∈ es.map Entry.origin
    · rw [if_pos hin, if_pos]
      by_cases h8 : acc.length = 8
      · exact .inr h8
      · left
        rw [← h.origins]
        exact hfull h8 _ hin
    · have hout : e.origin ∉ syncOrigins es := fun hx => hin (hmem _ (h.origins ▸ hx))
      rw [if_neg hin]
      by_cases h8 : acc.length = 8
      · rw [if_pos (.inr h8), syncOrigins, take_append_of_le_length (by omega)]
      · rw [if_neg (by simp [hout, h8]), syncOrigins, take_of_length_le (by omega),
          take_of_length_le (by rw [length_append, length_singleton]; omega)]
  · refine forall_mem_map.mpr fun m0 hm0 => ?_
    split
    · rename_i hraise
      exact ⟨e, mem_append_right _ (mem_singleton_self e), hraise.1.symm, rfl⟩
    · rename_i hkeep
      split at hm0
      · obtain ⟨x, hx, hxo, hxs⟩ := h.held m0 hm0
        exact ⟨x, mem_append_left _ hx, hxo, hxs⟩
      · rcases mem_append.mp hm0 with hm0 | hm0
        · obtain ⟨x, hx, hxo, hxs⟩ := h.held m0 hm0
          exact ⟨x, mem_append_left _ hx, hxo, hxs⟩
        · rw [mem_singleton.mp hm0] at hkeep ⊢
          refine ⟨e, mem_append_right _ (mem_singleton_self e), rfl, ?_⟩
          have hle : ¬ e.seq > 0 := fun hpos => hkeep ⟨rfl, hpos⟩
          exact UInt32.le_antisymm (UInt32.not_lt.mp hle) (UInt32.zero_le)
  · intro m hm x hx hxo
    obtain ⟨m0, hm0, rfl⟩ := mem_map.mp hm
    have hfst : (if m0.1 = e.origin ∧ e.seq > m0.2 then (m0.1, e.seq) else m0).1 = m0.1 := by
      split <;> rfl
    rw [hfst] at hxo
    have hraised : m0.2 ≤ (if m0.1 = e.origin ∧ e.seq > m0.2 then (m0.1, e.seq) else m0).2 ∧
        (m0.1 = e.origin →
          e.seq ≤ (if m0.1 = e.origin ∧ e.seq > m0.2 then (m0.1, e.seq) else m0).2) := by
      split
      · rename_i hr
        exact ⟨UInt32.le_of_lt hr.2, fun _ => UInt32.le_refl _⟩
      · rename_i hr
        exact ⟨UInt32.le_refl _, fun ho => UInt32.not_lt.mp fun hgt => hr ⟨ho, hgt⟩⟩
    rcases mem_append.mp hx with hx | hx
    · split at hm0
      · exact UInt32.le_trans (h.largest m0 hm0 x hx hxo) hraised.1
      · rename_i hnew
        rcases mem_append.mp hm0 with hm0 | hm0
        · exact UInt32.le_trans (h.largest m0 hm0 x hx hxo) hraised.1
        · -- a new origin has no earlier entry
          rw [mem_singleton.mp hm0] at hxo
          rw [not_or, any_origin_iff] at hnew
          have hxmem : x.origin ∈ es.map Entry.origin := mem_map_of_mem hx
          rw [hxo] at hxmem
          exact absurd (hfull hnew.2 _ hxmem) hnew.1
    · rw [mem_singleton.mp hx] at hxo ⊢
      exact hraised.2 hxo.symm

theorem summary_spec (c : Ledger) : SummaryOf c.entries (summary c) := by
  have hfold : ∀ es : List Entry, SummaryOf es (es.foldl summaryAdd []) := by
    intro es
    induction es using List.reverseRecOn with
    | nil =>
      exact ⟨rfl, fun _ hm => (by cases hm), fun _ hm => (by cases hm)⟩
    | append_singleton es e ih =>
      rw [foldl_append]
      exact ih.add e
  exact hfold c.entries

def Passed (c : Ledger) (k : UInt32 × UInt32) : Prop :=
  k.1 ∈ syncOrigins c.entries ∧ ∃ x ∈ c.entries, x.origin = k.1 ∧ k.2 ≤ x.seq

theorem newer_summary (c : Ledger) (e : Entry) : newer (summary c) e = true ↔ ¬ Passed c e.key := by
  have hs := summary_spec c
  rw [newer, Bool.not_eq_true', ← Bool.not_eq_true, not_iff_not, any_eq_true]
  constructor
  · rintro ⟨m, hm, hcov⟩
    simp only [Bool.and_eq_true, decide_eq_true_eq] at hcov
    obtain ⟨x, hx, hxo, hxs⟩ := hs.held m hm
    refine ⟨?_, x, hx, hxo.trans hcov.1, ?_⟩
    · rw [← hs.origins]
      change e.origin ∈ _
      rw [← hcov.1]
      exact mem_map_of_mem hm
    · rw [hxs]
      exact hcov.2
  · rintro ⟨horigin, x, hx, hxo, hxs⟩
    rw [← hs.origins] at horigin
    obtain ⟨m, hm, hmo⟩ := mem_map.mp horigin
    refine ⟨m, hm, ?_⟩
    simp only [Bool.and_eq_true, decide_eq_true_eq]
    exact ⟨hmo, UInt32.le_trans hxs (hs.largest m hm x hx (hxo.trans hmo.symm))⟩

/-! ## The exchange -/

variable (P : Prim) (h : Host)

def recvFrom (src : UInt32) (c : Ledger) (d : List UInt8) : Ledger := (collabReceive P h c src d).1

def syncAnswers (a b : Ledger) : List (List UInt8) :=
  (sends (collabSync a)).flatMap fun m => sends (collabReceive P h b a.self m).2

def afterSync (a b : Ledger) : Ledger := run (recvFrom P h b.self) a (syncAnswers P h a b)

def Admits (c : Ledger) : List UInt8 → Prop
  | [] => True
  | type :: b => ∀ e ∈ carried (type :: b), e.key ∉ c.keySet →
      c.slots.length < 96 ∧ checksPass P c type b e = true

instance (c : Ledger) (d : List UInt8) : Decidable (Admits P c d) :=
  match d with
  | [] => .isTrue trivial
  | _ :: _ => inferInstanceAs (Decidable (∀ e ∈ _, _))

theorem recvFrom_keySet {d : List UInt8} (src : UInt32) (hd : Admits P c d) (k : UInt32 × UInt32) :
    k ∈ (recvFrom P h src c d).keySet ↔ k ∈ c.keySet ∨ ∃ e ∈ carried d, e.key = k := by
  rcases collabReceive_cases P h c src d with
    hq | ⟨type, b, e, signed, rfl, hdec, hk, hacc, ⟨hn, _⟩ | ⟨_, hst⟩⟩
  · have hsame : (recvFrom P h src c d).keySet = c.keySet := by
      rw [Ledger.keySet, recvFrom, hq.slots_eq]
      rfl
    rw [hsame]
    refine ⟨.inl, ?_⟩
    rintro (hmem | ⟨e, he, rfl⟩)
    · exact hmem
    · by_contra hk
      cases d with
      | nil => cases he
      | cons type b =>
        obtain ⟨hroom, hpass⟩ := hd e he hk
        obtain ⟨signed, hacc⟩ := checksPass_iff.mp hpass
        have hdec : collabDecode b = some e := by
          rw [Option.mem_def, carried] at he
          split at he
          · exact he
          · cases he
        have heq := collabReceive_eq P h src hdec hk hacc hroom
        have hlen : (recvFrom P h src c (type :: b)).keySet.length = c.keySet.length := by
          rw [hsame]
        rw [recvFrom, heq, storeSlot_keySet, length_append] at hlen
        simp [Ledger.keySet] at hlen
  · have hroom := (hd e (hacc.carried hdec) hk).1
    omega
  · have hkeys : (recvFrom P h src c (type :: b)).keySet = c.keySet ++ [e.key] := by
      have hb : (boundLedger c e signed).keySet = c.keySet := by
        rw [Ledger.keySet, boundLedger_slots]
        rfl
      rw [recvFrom, hst, storeSlot_keySet, recvSlot_e, hb]
    rw [hkeys, mem_append, mem_singleton]
    refine or_congr Iff.rfl ⟨?_, ?_⟩
    · rintro rfl
      exact ⟨e, hacc.carried hdec, rfl⟩
    · rintro ⟨e', he', rfl⟩
      rw [Option.mem_def, hacc.carried hdec] at he'
      cases he'
      rfl

theorem run_recvFrom_keySet {src : UInt32} {ds : List (List UInt8)}
    (hadm : Along (recvFrom P h src) (Admits P) c ds) (k : UInt32 × UInt32) :
    k ∈ (run (recvFrom P h src) c ds).keySet ↔
      k ∈ c.keySet ∨ ∃ d ∈ ds, ∃ e ∈ carried d, e.key = k := by
  induction ds generalizing c with
  | nil => simp
  | cons d ds ih =>
    rw [run_cons, ih hadm.2, recvFrom_keySet P h src hadm.1]
    simp only [mem_cons, exists_eq_or_imp, or_assoc]

/-! ## The answer -/

theorem summaryPairs_encode (s : List (UInt32 × UInt32)) :
    summaryPairs s.length (s.flatMap fun m => le32 m.1 ++ le32 m.2) = s := by
  induction s with
  | nil => rfl
  | cons m s ih =>
    have hdrop : (le32 m.1 ++ (le32 m.2 ++ s.flatMap fun m => le32 m.1 ++ le32 m.2)).drop 8 =
        s.flatMap fun m => le32 m.1 ++ le32 m.2 := by
      rw [← append_assoc]
      exact drop_left' rfl
    have hseq : readLe32 ((le32 m.1 ++ (le32 m.2 ++
        s.flatMap fun m => le32 m.1 ++ le32 m.2)).drop 4) = m.2 := by
      rw [drop_left' (le32_length m.1), readLe32_le32]
    rw [flatMap_cons, append_assoc, length_cons, summaryPairs, readLe32_le32, hseq, hdrop, ih]

theorem summary_length (c : Ledger) : (summary c).length ≤ 8 := by
  have h := congrArg List.length (summary_spec c).origins
  rw [length_map, syncOrigins, length_take] at h
  omega

theorem encoded_length (s : List (UInt32 × UInt32)) :
    (s.flatMap fun m => le32 m.1 ++ le32 m.2).length = s.length * 8 := by
  induction s with
  | nil => rfl
  | cons m s ih =>
    rw [flatMap_cons, length_append, length_cons]
    simp only [length_append, le32_length]
    omega

theorem syncAnswers_eq (a b : Ledger) : syncAnswers P h a b =
      (b.slots.filter fun sl => newer (summary a) sl.e).map (entryMessage b) := by
  have hlen := summary_length a
  have hk : (UInt8.ofNat (summary a).length).toNat = (summary a).length := by
    rw [UInt8.toNat_ofNat']
    exact Nat.mod_eq_of_lt (by omega)
  have hans : (collabReceive P h b a.self (2 :: UInt8.ofNat (summary a).length ::
      (summary a).flatMap fun m => le32 m.1 ++ le32 m.2)).2 = answerSync h b a.self
        (UInt8.ofNat (summary a).length :: (summary a).flatMap fun m => le32 m.1 ++ le32 m.2) := rfl
  have hroom : ¬ ((summary a).flatMap fun m => le32 m.1 ++ le32 m.2).length <
      (summary a).length * 8 := by
    rw [encoded_length]
    omega
  have hsends : ∀ (l : List Slot) (text : List UInt8),
      sends (l.map (fun sl => Out.send a.self (entryMessage b sl)) ++ [.line text]) =
        l.map (entryMessage b) := by
    intro l text
    induction l with
    | nil => rfl
    | cons sl l ih => exact congrArg (entryMessage b sl :: ·) ih
  change (sends (collabReceive P h b a.self _).2 ++ []) = _
  rw [append_nil, hans, answerSync, hk, if_neg hroom, summaryPairs_encode]
  exact hsends _ _

theorem syncAnswers_carried (hb : b.Ok) (k : UInt32 × UInt32) :
    (∃ d ∈ syncAnswers P h a b, ∃ e ∈ carried d, e.key = k) ↔ k ∈ b.keySet ∧ ¬ Passed a k := by
  have hnz : ∀ sl ∈ b.slots, sl.e.origin ≠ 0 ∧ sl.e.seq ≠ 0 := fun sl hsl =>
    hb.nonzero sl.e (mem_map_of_mem hsl)
  rw [syncAnswers_eq]
  constructor
  · rintro ⟨d, hd, e, he, rfl⟩
    obtain ⟨sl, hsl, rfl⟩ := mem_map.mp hd
    obtain ⟨hsl, hnew⟩ := mem_filter.mp hsl
    rw [Option.mem_def, carried_entryMessage b (hnz sl hsl), Option.some.injEq] at he
    subst he
    exact ⟨mem_map_of_mem hsl, (newer_summary a sl.e).mp hnew⟩
  · rintro ⟨hk, hpass⟩
    obtain ⟨sl, hsl, rfl⟩ := mem_map.mp hk
    refine ⟨_, mem_map_of_mem (mem_filter.mpr ⟨hsl, ?_⟩), _,
      carried_entryMessage b (hnz sl hsl), rfl⟩
    exact (newer_summary a sl.e).mpr hpass

theorem afterSync_keySet (hb : b.Ok) (hadm : Along (recvFrom P h b.self) (Admits P) a (syncAnswers P h a b))
    (k : UInt32 × UInt32) :
    k ∈ (afterSync P h a b).keySet ↔ k ∈ a.keySet ∨ (k ∈ b.keySet ∧ ¬ Passed a k) := by
  rw [afterSync, run_recvFrom_keySet P h hadm, syncAnswers_carried P h hb]

/-! ## Every node of a network -/

theorem netStep_ok (net : Net) (ev : Event) (hok : ∀ n, (net.node n).Ok) : ∀ n, ((netStep P h net ev).node n).Ok := by
  have hset : ∀ (m : UInt32) (c : Ledger), c.Ok → ∀ n, (Function.update net.node m c n).Ok := fun m c hc =>
    (Function.forall_update_iff net.node fun _ x => x.Ok).mpr ⟨hc, fun n _ => hok n⟩
  cases ev with
  | emit m type peer ref amount aux text => exact hset m _ ((hok m).emit P type peer ref amount aux text)
  | receive m src k =>
    intro n
    rw [netStep]
    split
    · exact hok n
    · exact hset m _ ((hok m).receive P h src _) n
  | sync m => exact hok
  | keysSet m seed =>
    obtain ⟨_, _, _, _, heq⟩ := collabKeysSet_eq P (net.node m) seed
    exact hset m _ ((hok m).congr (by rw [heq]) (by rw [heq]) (by rw [heq]) (by rw [heq]))

theorem netRun_ok (evs : List Event) (n : UInt32) : ((run (netStep P h) Net.init evs).node n).Ok := by
  have hall : ∀ i, ((run (netStep P h) Net.init evs).node i).Ok :=
    run_invariant_all (netStep_ok P h) ok_init
  exact hall n

/-- In every state of a network, an exchange that is admitted gives the asking node everything
the answering node stores exactly when its summary passes over none of the keys it lacks. -/
theorem afterSync_complete_iff (evs : List Event) (net : Net)
    (hnet : run (netStep P h) Net.init evs = net) (n m : UInt32)
    (hadm : Along (recvFrom P h (net.node m).self) (Admits P) (net.node n)
      (syncAnswers P h (net.node n) (net.node m))) :
    (∀ k ∈ (net.node m).keySet, k ∈ (afterSync P h (net.node n) (net.node m)).keySet) ↔
      ∀ k ∈ (net.node m).keySet, k ∉ (net.node n).keySet → ¬ Passed (net.node n) k := by
  have hok : (net.node m).Ok := hnet ▸ netRun_ok P h evs m
  have hkeys := afterSync_keySet P h hok hadm
  constructor
  · intro hall k hk hka
    exact (((hkeys k).mp (hall k hk)).resolve_left hka).2
  · intro hpass k hk
    by_cases hka : k ∈ (net.node n).keySet
    · exact (hkeys k).mpr (.inl hka)
    · exact (hkeys k).mpr (.inr ⟨hk, hpass k hk hka⟩)

def lossyRun (got : List ℕ) : List Event :=
  [.emit 9 1 0 0 0 0 [], .emit 9 2 0 0 5 0 [], .emit 9 2 0 0 6 0 [],
    .receive 2 9 0, .receive 2 9 1, .receive 2 9 2] ++ got.map (.receive 1 9 ·)

theorem afterSync_complete_iff_suffix : (9, 3) ∈ ((netAfter (lossyRun [0])).node 2).keySet ∧
      (9, 3) ∉ ((netAfter (lossyRun [0])).node 1).keySet ∧
      ∀ k ∈ ((netAfter (lossyRun [0])).node 2).keySet,
        k ∈ (afterSync Prim.permissive Host.nameless ((netAfter (lossyRun [0])).node 1)
          ((netAfter (lossyRun [0])).node 2)).keySet := by
  refine ⟨by decide +kernel, by decide +kernel, ?_⟩
  refine (afterSync_complete_iff Prim.permissive Host.nameless (lossyRun [0])
    (netAfter (lossyRun [0])) rfl 1 2 ?_).mpr ?_
  · decide +kernel
  · intro k hk hka hpass
    -- As Boolean folds over the lists: deciding the quantifiers would run through all words.
    have hkeys : (((netAfter (lossyRun [0])).node 2).keySet.all fun k =>
        decide (k ∈ ((netAfter (lossyRun [0])).node 1).keySet) ||
          ((netAfter (lossyRun [0])).node 1).entries.all fun x =>
            !decide (x.origin = k.1 ∧ k.2 ≤ x.seq)) = true := by
      decide +kernel
    obtain ⟨x, hx, hxk⟩ := hpass.2
    have hkey := all_eq_true.mp hkeys k hk
    rw [decide_eq_false hka, Bool.false_or] at hkey
    have hentry := all_eq_true.mp hkey x hx
    rw [decide_eq_true hxk] at hentry
    exact Bool.noConfusion hentry

/-- Node 1 holds the first and the third entry of node 9. Its summary passes over the second,
and nothing is sent. -/
theorem afterSync_leaves_gap :
    Along (recvFrom Prim.permissive Host.nameless ((netAfter (lossyRun [0, 2])).node 2).self)
        (Admits Prim.permissive) ((netAfter (lossyRun [0, 2])).node 1)
        (syncAnswers Prim.permissive Host.nameless ((netAfter (lossyRun [0, 2])).node 1)
          ((netAfter (lossyRun [0, 2])).node 2)) ∧
      ((netAfter (lossyRun [0, 2])).node 1).slots.length = 2 ∧
      (9, 2) ∈ ((netAfter (lossyRun [0, 2])).node 2).keySet ∧
      (9, 2) ∉ (afterSync Prim.permissive Host.nameless ((netAfter (lossyRun [0, 2])).node 1)
        ((netAfter (lossyRun [0, 2])).node 2)).keySet := by
  refine ⟨?_, ?_, ?_, ?_⟩ <;> decide +kernel

end Mohhdy.Collab
