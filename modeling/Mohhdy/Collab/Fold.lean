import Mohhdy.Foundations.InsertionSort
import Mohhdy.Collab.Apply
import Mohhdy.Collab.Ledger

/-! The canonical fold (`collab_fold`): the entries in the order of `before`, each applied and
followed by the contract programs, with the status codes and the digest of the whole. -/
namespace Mohhdy.Collab
open InsertionSort List
set_option autoImplicit false

/-! ## The order -/

theorem before_asymm (a b : Entry) (h : before a b = true) : before b a = false := by
  by_contra hb
  have hba : before b a = true := by simpa using hb
  have := before_trans h hba
  rw [before_irrefl] at this
  cases this

theorem before_neg_trans (a b c : Entry) (hab : before a b = false) (hbc : before b c = false) :
    before a c = false := by
  simp only [before, ne_eq, ite_not, UInt32.lt_iff_toNat_lt, ← UInt32.toNat_inj] at *
  grind

def canonical (es : List Entry) : List Entry := sortBack before es

theorem canonical_perm (es : List Entry) : (canonical es).Perm es := sortBack_perm before es

theorem canonical_congr {es fs : List Entry} (hp : es.Perm fs) (hn : (es.map Entry.key).Nodup) :
    canonical es = canonical fs := by
  refine sortBack_congr before_asymm before_neg_trans hp ?_
  intro a ha b hb hab hba
  by_contra hne
  have hk : a.key ≠ b.key := fun h => hne (inj_on_of_nodup_map hn ha hb h)
  rw [before_total hk hab] at hba
  cases hba

/-! ## The loop -/

def countStatus (r : Reason) (s : State) : State :=
  if r = .ok then { s with applied := s.applied + 1 } else { s with rejected := s.rejected + 1 }

def foldEntry (stale : Stale) (s : State) (e : Entry) : Reason × State :=
  let (r, s) := apply stale s e
  (r, contractsTick (countStatus r s) e.lamport)

def foldLoop : (ℕ → Stale) → State → List Entry → List Reason × State
  | _, s, [] => ([], s)
  | stale, s, e :: es =>
    let (r, s) := foldEntry (stale 0) s e
    let (rs, s) := foldLoop (fun k => stale (k + 1)) s es
    (r :: rs, s)

@[simp] theorem foldLoop_length (stale : ℕ → Stale) (s : State) (es : List Entry) :
    (foldLoop stale s es).1.length = es.length := by
  induction es generalizing stale s with
  | nil => rfl
  | cons e es ih => simp [foldLoop, ih]

structure Folded where
  state : State
  digest : Words.Block 32

def writeStatus (status : List (ℕ × Reason)) (i : ℕ) (sl : Slot) : Slot :=
  { sl with status := ((status.lookup i).map Reason.code).getD sl.status }

/-- `collab_fold`. The order is kept as entries with their indices, so that each status is
written back at the index of its entry. -/
def collabFold (P : Prim) (stale : ℕ → Stale) (c : Ledger) : Ledger × Folded :=
  let order := sortBack (fun a b => before a.1 b.1) ((c.slots.map Slot.e).zipIdx)
  let es := order.map Prod.fst
  let (codes, s) := foldLoop stale State.init es
  let status := (order.map Prod.snd).zip codes
  let hashed := (es.zip codes).flatMap fun x => collabEncode x.1 ++ [x.2.code]
  ({ c with slots := c.slots.mapIdx (writeStatus status) }, ⟨s, P.sha256 hashed⟩)

theorem collabFold_order (c : Ledger) :
    (sortBack (fun a b => before a.1 b.1) ((c.slots.map Slot.e).zipIdx)).map Prod.fst =
      canonical (c.slots.map Slot.e) := by
  rw [canonical, sortBack_map Prod.fst before, zipIdx_map_fst]

theorem collabFold_state (P : Prim) (stale : ℕ → Stale) (c : Ledger) : (collabFold P stale c).2.state =
      (foldLoop stale State.init (canonical (c.slots.map Slot.e))).2 := by
  rw [← collabFold_order]
  rfl

theorem collabFold_congr (P : Prim) {st st' : ℕ → Stale} {c d : Ledger}
    (h : canonical (c.slots.map Slot.e) = canonical (d.slots.map Slot.e))
    (hloop : foldLoop st State.init (canonical (c.slots.map Slot.e)) =
      foldLoop st' State.init (canonical (c.slots.map Slot.e))) :
    (collabFold P st c).2 = (collabFold P st' d).2 := by
  rw [← collabFold_order, ← collabFold_order] at h
  rw [← collabFold_order] at hloop
  simp only [collabFold, ← h, hloop]

theorem collabFold_status (P : Prim) (stale : ℕ → Stale) (c : Ledger) {sl : Slot}
    (hsl : sl ∈ (collabFold P stale c).1.slots) : ∃ r, (sl.e, r) ∈ (canonical (c.slots.map Slot.e)).zip
      (foldLoop stale State.init (canonical (c.slots.map Slot.e))).1 ∧ sl.status = r.code := by
  have horder := collabFold_order c
  set order := sortBack (fun a b => before a.1 b.1) ((c.slots.map Slot.e).zipIdx) with hord
  set codes := (foldLoop stale State.init (order.map Prod.fst)).1 with hcodes
  rw [← horder]
  have hlen : codes.length = order.length := by simp [hcodes]
  obtain ⟨i, hi, hget⟩ := getElem_of_mem hsl
  have hslots : (collabFold P stale c).1.slots =
      c.slots.mapIdx (writeStatus ((order.map Prod.snd).zip codes)) := rfl
  simp only [hslots, length_mapIdx] at hi
  simp only [hslots, getElem_mapIdx] at hget
  have hmem : (c.slots[i].e, i) ∈ order := by
    refine (sortBack_perm _ _).mem_iff.mpr ?_
    rw [mem_zipIdx_iff_getElem?]
    simp [hi]
  -- the index is looked up, and what is found belongs to the entry at that index
  obtain ⟨j, hj, hjget⟩ := getElem_of_mem hmem
  cases hlook : ((order.map Prod.snd).zip codes).lookup i with
  | none =>
    exfalso
    have := lookup_eq_none_iff.mp hlook (i, codes[j]) (by
      refine mem_iff_getElem.mpr ⟨j, by simp [hlen, hj], ?_⟩
      simp [hjget])
    simp at this
  | some r =>
    obtain ⟨l₁, l₂, hsplit, -⟩ := lookup_eq_some_iff.mp hlook
    obtain ⟨m, hm, hmget⟩ := getElem_of_mem (hsplit ▸ by simp : (i, r) ∈ (order.map Prod.snd).zip codes)
    simp only [length_zip, length_map, hlen, min_self] at hm
    simp only [getElem_zip, getElem_map, Prod.mk.injEq] at hmget
    have hentry : order[m].1 = c.slots[i].e := by
      have hz := (sortBack_perm _ _).mem_iff.mp (getElem_mem hm : order[m] ∈ order)
      rw [mem_zipIdx_iff_getElem?, hmget.1] at hz
      simpa [hi] using hz.symm
    refine ⟨r, ?_, ?_⟩
    · refine mem_iff_getElem.mpr ⟨m, by simp [hm], ?_⟩
      rw [← hget]
      simp [writeStatus, hentry, ← hmget.2, ← hcodes]
    · rw [← hget, writeStatus, hlook]
      rfl

def foldTrace : (ℕ → Stale) → State → List Entry → List State
  | _, _, [] => []
  | stale, s, e :: es => (apply (stale 0) s e).2 :: (foldEntry (stale 0) s e).2 ::
    foldTrace (fun k => stale (k + 1)) (foldEntry (stale 0) s e).2 es

/-! ## Stale bytes -/

/-- The copy loop reads nothing from the stack: each segment has its `=`, or is the key itself. -/
def legible (key : List UInt8) : (shared cur : List UInt8) → Bool
  | [], cur => cur = [] || cur.contains 61 || cur == key
  | c :: shared, cur =>
    if c = 59 then (cur.contains 61 || cur == key) && legible key shared []
    else legible key shared (cur ++ [c])

def putLegible (s : State) (e : Entry) : Bool :=
  !(e.type == .profile) || (acct s e.origin).all fun a =>
    legible (e.text.str.takeWhile (· != 61)) a.shared []

def foldLegible : State → List Entry → Bool
  | _, [] => true
  | s, e :: es => putLegible s e && foldLegible (foldEntry (fun _ => []) s e).2 es

theorem copySegment_legible {key cur : List UInt8} (h : (cur.contains 61 || cur == key) = true)
    (stale stale' out : List UInt8) : copySegment key cur stale out = copySegment key cur stale' out := by
  unfold copySegment
  dsimp only
  by_cases hin : 61 ∈ cur
  · have hpre : cur.takeWhile (· != 61) <+: cur := takeWhile_prefix _
    have hlt : (cur.takeWhile (· != 61)).length < cur.length := by
      refine lt_of_le_of_ne hpre.length_le fun hlen => ?_
      have hall := takeWhile_eq_self_iff.mp (hpre.eq_of_length hlen) 61 hin
      simp at hall
    -- the NUL stays where it was, so the copy ends there
    have hset : cStr ((cur ++ 0 :: stale).set (cur.takeWhile (· != 61)).length 61) =
        cStr ((cur ++ 0 :: stale').set (cur.takeWhile (· != 61)).length 61) := by
      simp [set_append_left _ _ hlt, cStr, takeWhile_append]
    simp only [sCat, hset]
  · have hkey : cur = key := by simpa [hin] using h
    have hall : cur.takeWhile (· != 61) = cur := by
      refine takeWhile_eq_self_iff.mpr fun b hb => ?_
      simpa using fun h61 : b = 61 => hin (h61 ▸ hb)
    rw [hall, take_length, if_pos hkey, if_pos hkey]

theorem copySegments_legible {key shared cur : List UInt8} (h : legible key shared cur = true)
    (stale stale' : Stale) (i i' : ℕ) (out : List UInt8) :
    copySegments key stale i shared cur out = copySegments key stale' i' shared cur out := by
  induction shared generalizing cur i i' out with
  | nil =>
    simp only [copySegments]
    split
    · rfl
    rename_i hne
    exact copySegment_legible (by simpa [legible, hne] using h) _ _ out
  | cons c shared ih =>
    simp only [copySegments]
    unfold legible at h
    split
    · rename_i hc
      rw [if_pos hc, Bool.and_eq_true] at h
      rw [copySegment_legible h.1 (stale i) (stale' i')]
      exact ih h.2 _ _ _
    · rename_i hc
      rw [if_neg hc] at h
      exact ih h _ _ _

theorem apply_legible {s : State} {e : Entry} (h : putLegible s e = true) (stale stale' : Stale) :
    apply stale s e = apply stale' s e := by
  unfold apply
  split
  · rfl
  cases hacct : acct s e.origin with
  | none => rfl
  | some o =>
    dsimp only
    split
    · rfl
    split
    case h_13 htype =>
      have hread : legible (e.text.str.takeWhile (· != 61)) o.shared [] = true := by
        simpa [putLegible, htype, hacct] using h
      have hput : ∀ a, acct s e.origin = some a →
          profilePut stale a.shared e.text.str = profilePut stale' a.shared e.text.str := by
        rintro a ha
        cases hacct.symm.trans ha
        unfold profilePut
        dsimp only
        rw [copySegments_legible hread stale stale' 0 0]
      rw [setAcct, setAcct, Tables.update, Tables.update, Tables.modifyFirst_congr fun a ha => by rw [hput a ha]]
    all_goals rfl

theorem foldLoop_legible {s : State} {es : List Entry} (h : foldLegible s es = true)
    (stale stale' : ℕ → Stale) : foldLoop stale s es = foldLoop stale' s es := by
  induction es generalizing s stale stale' with
  | nil => rfl
  | cons e es ih =>
    rw [foldLegible, Bool.and_eq_true] at h
    have hentry : ∀ st : Stale, foldEntry st s e = foldEntry (fun _ => []) s e := fun st => by
      rw [foldEntry, foldEntry, apply_legible h.1 st fun _ => []]
    simp only [foldLoop, hentry]
    rw [ih h.2 (fun k => stale (k + 1)) fun k => stale' (k + 1)]

end Mohhdy.Collab
