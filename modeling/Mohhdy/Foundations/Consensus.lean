import Mathlib.Data.Finset.Card
import Mathlib.Data.List.TakeDrop
import Mathlib.Tactic.Ring

/-! Logs replicated by the leaders of numbered terms.

A history records, for each term that had a leader, the log its leader started with and the log
it has now, and which nodes acknowledged which positions in which term. Nodes that are behind may
have replaced the beginning of their log by a prefix that was settled meanwhile, without looking
at what they kept behind it (`Shaped`). The results: an elected leader's log is made of the logs
of earlier leaders (`Sound.clean`), and it has everything a majority acknowledged in an earlier
term (`Sound.contains`). -/
namespace Mohhdy.Consensus
set_option autoImplicit false
open List

variable {B T U i j k : ℕ} {ν ε : Type*} {l r : List ε}

/-! ## Terms of a log -/

section terms

variable (term : ε → ℕ)

def termAt (l : List ε) : ℕ → ℕ
  | 0 => 0
  | i + 1 => (l[i]?.map term).getD 0

def lastTerm (l : List ε) : ℕ := termAt term l l.length

@[simp] theorem termAt_zero (l : List ε) : termAt term l 0 = 0 := rfl

theorem termAt_take (h : i ≤ k) : termAt term (l.take k) i = termAt term l i := by
  cases i with
  | zero => rfl
  | succ i => rw [termAt, termAt, List.getElem?_take_of_lt (by omega)]

theorem termAt_of_take_eq (h : l.take k = r.take k) (hi : i ≤ k) :
    termAt term l i = termAt term r i := by
  rw [← termAt_take term hi, h, termAt_take term hi]

theorem termAt_append (r : List ε) (h : i ≤ l.length) : termAt term (l ++ r) i = termAt term l i :=
  termAt_of_take_eq term (take_left.trans take_length.symm) h

@[simp] theorem termAt_concat (l : List ε) (e : ε) :
    termAt term (l ++ [e]) (l.length + 1) = term e := by
  simp [termAt]

theorem termAt_of_getElem? {e : ε} (h : l[i]? = some e) : termAt term l (i + 1) = term e := by
  rw [termAt, h]
  rfl

theorem exists_entry (hi : 0 < i) (hl : i ≤ l.length) :
    ∃ e ∈ l, l[i - 1]? = some e ∧ termAt term l i = term e := by
  obtain ⟨j, rfl⟩ : ∃ j, i = j + 1 := ⟨i - 1, by omega⟩
  have hj : j < l.length := by omega
  have hget : l[j]? = some l[j] := List.getElem?_eq_getElem hj
  exact ⟨l[j], getElem_mem hj, hget, termAt_of_getElem? term hget⟩

theorem exists_position {e : ε} (he : e ∈ l) :
    ∃ i, 0 < i ∧ i ≤ l.length ∧ l[i - 1]? = some e ∧ termAt term l i = term e := by
  obtain ⟨j, hj, hget⟩ := getElem_of_mem he
  have hget' : l[j]? = some e := by rw [List.getElem?_eq_getElem hj, hget]
  exact ⟨j + 1, by omega, hj, hget', termAt_of_getElem? term hget'⟩

@[simp] theorem lastTerm_concat (l : List ε) (e : ε) : lastTerm term (l ++ [e]) = term e := by
  rw [lastTerm, length_append, length_singleton, termAt_concat]

theorem termAt_splice {m p : ℕ} (hr : r.length = m) (hp : m < p) :
    termAt term (r ++ l.drop m) p = termAt term l p := by
  cases p with
  | zero => omega
  | succ p =>
    rw [termAt, termAt, List.getElem?_append_right (by omega), List.getElem?_drop]
    congr 3
    omega

theorem lastTerm_splice {m : ℕ} (hr : r.length = m) (hm : m < l.length) :
    lastTerm term (r ++ l.drop m) = lastTerm term l := by
  have hlen : (r ++ l.drop m).length = l.length := by
    rw [length_append, length_drop]
    omega
  rw [lastTerm, hlen, termAt_splice term hr hm, lastTerm]

/-- The log is at least as far as position `i` of term `T`, in the order votes are given by. -/
def UpToDate (l : List ε) (T i : ℕ) : Prop :=
  T < lastTerm term l ∨ (lastTerm term l = T ∧ i ≤ l.length)

end terms

section
variable (h : l.take k = r.take k)
include h

theorem take_eq_of_le {i : ℕ} (hi : i ≤ k) : l.take i = r.take i := by
  have hmin : min i k = i := by omega
  rw [← hmin, ← take_take, h, take_take]

theorem le_length_of_take_eq (hk : k ≤ l.length) : k ≤ r.length := by
  have hlen := congrArg List.length h
  rw [length_take, length_take] at hlen
  omega

theorem getElem?_of_take_eq {q : ℕ} (hq : q < k) : l[q]? = r[q]? := by
  rw [← List.getElem?_take_of_lt hq, h, List.getElem?_take_of_lt hq]

theorem take_eq_of_split {n : ℕ}
    (hq : ∀ q, k ≤ q → q < n → l[q]? = r[q]?) : l.take n = r.take n := by
  apply ext_getElem?
  intro q
  by_cases hn : q < n
  · rw [List.getElem?_take_of_lt hn, List.getElem?_take_of_lt hn]
    by_cases hk : q < k
    · exact getElem?_of_take_eq h hk
    · exact hq q (by omega) hn
  · rw [List.getElem?_eq_none (by rw [length_take]; omega),
      List.getElem?_eq_none (by rw [length_take]; omega)]

end

theorem prefix_take_eq {i : ℕ} (h : l <+: r) (hi : i ≤ l.length) : r.take i = l.take i := by
  obtain ⟨s, rfl⟩ := h
  exact take_append_of_le_length hi

/-! ## Majorities -/

def Majority (N Q : Finset ν) : Prop := Q ⊆ N ∧ N.card < 2 * Q.card

theorem Majority.meet [DecidableEq ν] {N Q R : Finset ν} (hQ : Majority N Q)
    (hR : Majority N R) : ∃ v, v ∈ Q ∧ v ∈ R := by
  have hcard : N.card < Q.card + R.card := by
    have h1 := hQ.2
    have h2 := hR.2
    omega
  obtain ⟨v, hv⟩ := Finset.inter_nonempty_of_card_lt_card_add_card hQ.1 hR.1 hcard
  exact ⟨v, Finset.mem_inter.mp hv⟩

/-! ## Histories -/

structure History (ν ε : Type*) where
  term : ε → ℕ
  /-- The term had a leader. -/
  led : ℕ → Prop
  /-- The log that leader was elected with. -/
  init : ℕ → List ε
  /-- The log it has, or had when it last was leader. -/
  log : ℕ → List ε
  /-- The node held the position, an entry of the term itself, when it answered that leader. -/
  acked : ν → ℕ → ℕ → Prop

variable (H : History ν ε) (N : Finset ν)

namespace History

def Contains (U T i : ℕ) : Prop := i ≤ (H.init U).length ∧ (H.init U).take i = (H.log T).take i

def Chosen (T i : ℕ) : Prop :=
  H.led T ∧ 0 < i ∧ i ≤ (H.log T).length ∧ termAt H.term (H.log T) i = T ∧
    ∃ Q, Majority N Q ∧ ∀ v ∈ Q, H.acked v T i

/-- The log has the first `i` entries of the leader of `T`, and its last entry is not older. -/
def Holds (l : List ε) (T i : ℕ) : Prop :=
  i ≤ l.length ∧ l.take i = (H.log T).take i ∧ T ≤ lastTerm H.term l

/-- The first `k` entries are ones a majority acknowledged in a term below `B`. -/
def Settled (l : List ε) (k B : ℕ) : Prop :=
  k ≤ l.length ∧
    (k = 0 ∨ ∃ T i, T < B ∧ k ≤ i ∧ H.Chosen N T i ∧ l.take k = (H.log T).take k)

/-- After position `k`, what precedes an entry is what precedes it in the log of its leader. -/
def Shaped (l : List ε) (k : ℕ) : Prop :=
  ∀ p, k < p → p ≤ l.length → H.led (termAt H.term l p) ∧
    ∀ q, k ≤ q → q < p → l[q]? = (H.log (termAt H.term l p))[q]?

/-- What elections and acknowledgements guarantee. -/
structure Sound : Prop where
  start : ∀ T, H.led T → H.init T <+: H.log T
  own : ∀ T, H.led T → ∀ i, (H.init T).length < i → i ≤ (H.log T).length →
    termAt H.term (H.log T) i = T
  old : ∀ T, H.led T → ∀ e ∈ H.init T, H.term e < T
  shape : ∀ U, H.led U → ∃ k, H.Settled N (H.init U) k U ∧ H.Shaped (H.init U) k
  voters : ∀ U, H.led U → ∃ Q, Majority N Q ∧ ∀ v ∈ Q, ∀ T i, T < U → H.acked v T i →
    (∀ T', T < T' → T' < U → H.led T' → H.Contains T' T i) → UpToDate H.term (H.init U) T i

def Origin (U : ℕ) : Prop :=
  H.init U ≠ [] → H.led (lastTerm H.term (H.init U)) ∧ lastTerm H.term (H.init U) < U ∧
    H.init U = (H.log (lastTerm H.term (H.init U))).take (H.init U).length

/-- What precedes an entry of a leader's log is what precedes it in the log of its leader. -/
def Clean (U : ℕ) : Prop :=
  ∀ i, 0 < i → i ≤ (H.log U).length → H.led (termAt H.term (H.log U) i) ∧
    termAt H.term (H.log U) i ≤ U ∧
    (H.log U).take i = (H.log (termAt H.term (H.log U) i)).take i

variable {H N}

theorem Settled.mono {B' : ℕ} (h : H.Settled N l k B) (hB : B ≤ B') : H.Settled N l k B' := by
  obtain ⟨hk, rfl | ⟨T, i, hT, hki, hch, heq⟩⟩ := h
  · exact ⟨hk, .inl rfl⟩
  · exact ⟨hk, .inr ⟨T, i, by omega, hki, hch, heq⟩⟩

theorem Settled.le (h : H.Settled N l k B) (hj : j ≤ k) : H.Settled N l j B := by
  obtain ⟨hk, rfl | ⟨T, i, hT, hki, hch, heq⟩⟩ := h
  · exact ⟨by omega, .inl (by omega)⟩
  · exact ⟨by omega, .inr ⟨T, i, hT, by omega, hch, take_eq_of_le heq hj⟩⟩

theorem Shaped.mono (h : H.Shaped l j) (hk : j ≤ k) : H.Shaped l k := by
  intro p hp hl
  obtain ⟨hled, hq⟩ := h p (by omega) hl
  exact ⟨hled, fun q hkq hqp => hq q (by omega) hqp⟩

theorem Settled.of_take_eq (h : H.Settled N r k B)
    (heq : l.take k = r.take k) (hk : k ≤ l.length) : H.Settled N l k B := by
  obtain ⟨_, rfl | ⟨T, i, hT, hki, hch, htake⟩⟩ := h
  · exact ⟨hk, .inl rfl⟩
  · exact ⟨hk, .inr ⟨T, i, hT, hki, hch, heq.trans htake⟩⟩

theorem Shaped.concat {e : ε} (h : H.Shaped l k) (hled : H.led (H.term e))
    (hlog : ∀ q, k ≤ q → q ≤ l.length → (l ++ [e])[q]? = (H.log (H.term e))[q]?) :
    H.Shaped (l ++ [e]) k := by
  intro p hp hlen
  rw [length_append, length_singleton] at hlen
  by_cases hold : p ≤ l.length
  · obtain ⟨hled', hq⟩ := h p hp hold
    rw [termAt_append H.term _ hold]
    refine ⟨hled', fun q hkq hqp => ?_⟩
    rw [List.getElem?_append_left (by omega), hq q hkq hqp]
  · obtain rfl : p = l.length + 1 := by omega
    rw [termAt_concat]
    exact ⟨hled, fun q hkq hqp => hlog q hkq (by omega)⟩

theorem Shaped.splice {m : ℕ} (h : H.Shaped l k) (hkm : k ≤ m)
    (hr : r.length = m) : H.Shaped (r ++ l.drop m) m := by
  intro p hp hlen
  rw [length_append, length_drop] at hlen
  obtain ⟨hled, hq⟩ := h p (by omega) (by omega)
  rw [termAt_splice H.term hr hp]
  refine ⟨hled, fun q hmq hqp => ?_⟩
  rw [List.getElem?_append_right (by omega), List.getElem?_drop, ← hq q (by omega) hqp]
  congr 1
  omega

/-! ## Histories that grow -/

structure Extends (H H' : History ν ε) : Prop where
  term : H'.term = H.term
  led : ∀ T, H.led T → H'.led T
  init : ∀ T, H.led T → H'.init T = H.init T
  log : ∀ T, H.led T → H.log T <+: H'.log T
  acked : ∀ v T i, H.acked v T i → H'.acked v T i

namespace Extends

protected theorem refl (H : History ν ε) : H.Extends H :=
  ⟨rfl, fun _ h => h, fun _ _ => rfl, fun _ _ => prefix_refl _, fun _ _ _ h => h⟩

variable {H' : History ν ε} (hx : H.Extends H')

include hx

theorem trans {K : History ν ε} (hy : H'.Extends K) : H.Extends K where
  term := hy.term.trans hx.term
  led T hT := hy.led T (hx.led T hT)
  init T hT := (hy.init T (hx.led T hT)).trans (hx.init T hT)
  log T hT := (hx.log T hT).trans (hy.log T (hx.led T hT))
  acked v T i hi := hy.acked v T i (hx.acked v T i hi)

theorem take_log (hT : H.led T) (hi : i ≤ (H.log T).length) :
    (H'.log T).take i = (H.log T).take i :=
  prefix_take_eq (hx.log T hT) hi

theorem length_log {T : ℕ} (hT : H.led T) : (H.log T).length ≤ (H'.log T).length :=
  (hx.log T hT).length_le

theorem termAt_log (hT : H.led T) (hi : i ≤ (H.log T).length) :
    termAt H'.term (H'.log T) i = termAt H.term (H.log T) i := by
  rw [hx.term]
  exact termAt_of_take_eq H.term (hx.take_log hT hi) le_rfl

theorem contains_iff {U T i : ℕ} (hU : H.led U) (hT : H.led T) (hi : i ≤ (H.log T).length) :
    H'.Contains U T i ↔ H.Contains U T i := by
  rw [Contains, Contains, hx.init U hU, hx.take_log hT hi]

theorem chosen (h : H.Chosen N T i) : H'.Chosen N T i := by
  obtain ⟨hT, hpos, hlen, hterm, Q, hQ, hack⟩ := h
  refine ⟨hx.led T hT, hpos, hlen.trans (hx.length_log hT), ?_, Q, hQ, ?_⟩
  · rw [hx.termAt_log hT hlen, hterm]
  · exact fun v hv => hx.acked v T i (hack v hv)

theorem settled {l : List ε} (h : H.Settled N l k B) : H'.Settled N l k B := by
  obtain ⟨hk, rfl | ⟨T, i, hT, hki, hch, heq⟩⟩ := h
  · exact ⟨hk, .inl rfl⟩
  · refine ⟨hk, .inr ⟨T, i, hT, hki, hx.chosen hch, ?_⟩⟩
    rw [heq, hx.take_log hch.1 (hki.trans hch.2.2.1)]

theorem shaped {l : List ε} (h : H.Shaped l k) : H'.Shaped l k := by
  intro p hp hl
  obtain ⟨hled, hq⟩ := h p hp hl
  rw [hx.term]
  refine ⟨hx.led _ hled, fun q hkq hqp => ?_⟩
  have hlt : q < l.length := by omega
  have hget : l[q]? = some l[q] := List.getElem?_eq_getElem hlt
  -- the position is held, so the leader's log had it before it grew
  have hold : (H.log (termAt H.term l p))[q]? = some l[q] := (hq q hkq hqp).symm.trans hget
  obtain ⟨r, hr⟩ := hx.log _ hled
  rw [hget, ← hr, List.getElem?_append_left, hold]
  exact (List.getElem?_eq_some_iff.mp hold).1

theorem contains_below (hT : H.led T) (hi : i ≤ (H.log T).length)
    (h : ∀ T', T < T' → T' < B → H'.led T' → H'.Contains T' T i) :
    ∀ T', T < T' → T' < B → H.led T' → H.Contains T' T i :=
  fun T' hlt hB hled => (hx.contains_iff hled hT hi).mp (h T' hlt hB (hx.led T' hled))

end Extends

namespace Sound

variable (hs : H.Sound N)

include hs

theorem init_term_lt (hT : H.led T) (hi : 0 < i) (hinit : i ≤ (H.init T).length) :
    termAt H.term (H.init T) i < T := by
  obtain ⟨e, he, _, heq⟩ := exists_entry H.term hi hinit
  exact heq ▸ hs.old T hT e he

theorem term_lt (hT : H.led T) (hi : 0 < i) (hinit : i ≤ (H.init T).length) :
    termAt H.term (H.log T) i < T := by
  rw [termAt_of_take_eq H.term (prefix_take_eq (hs.start T hT) hinit) le_rfl]
  exact hs.init_term_lt hT hi hinit

theorem term_le (hT : H.led T) (hi : i ≤ (H.log T).length) : termAt H.term (H.log T) i ≤ T := by
  cases i with
  | zero => exact Nat.zero_le T
  | succ i =>
    by_cases hinit : i + 1 ≤ (H.init T).length
    · exact (hs.term_lt hT (Nat.succ_pos i) hinit).le
    · exact (hs.own T hT (i + 1) (by omega) hi).le

theorem own_position (hT : H.led T) (hi : 0 < i) (hterm : termAt H.term (H.log T) i = T) :
    (H.init T).length < i := by
  by_contra hlen
  exact (hs.term_lt hT hi (not_lt.mp hlen)).ne hterm

theorem clean_of_origin {U : ℕ} (ho : ∀ T, T ≤ U → H.led T → H.Origin T) (hU : H.led U) :
    H.Clean U := by
  induction U using Nat.strong_induction_on with
  | _ U ih =>
    intro i hi hlen
    by_cases hinit : i ≤ (H.init U).length
    · -- the position comes from the leader of the last term of `init U`
      have hne : H.init U ≠ [] := by
        intro hnil
        rw [hnil] at hinit
        simp at hinit
        omega
      obtain ⟨hled, hlt, heq⟩ := ho U le_rfl hU hne
      set t := lastTerm H.term (H.init U) with ht
      have htake : (H.log U).take i = (H.log t).take i :=
        (prefix_take_eq (hs.start U hU) hinit).trans (take_eq_of_le (take_length.trans heq) hinit)
      obtain ⟨hled', hle, htake'⟩ := ih t hlt (fun T hT => ho T (by omega)) hled i hi
        (le_length_of_take_eq htake hlen)
      rw [termAt_of_take_eq H.term htake le_rfl, htake]
      exact ⟨hled', by omega, htake'⟩
    · rw [hs.own U hU i (by omega) hlen]
      exact ⟨hU, le_rfl, rfl⟩

/-- A prefix that is settled below `U` is one of every leader from then to `U`, given what is
known of the leaders below. -/
theorem settled_take {U t : ℕ}
    (hcon : ∀ T i T', H.Chosen N T i → T < T' → T' ≤ t → H.led T' → H.Contains T' T i)
    (hl : H.Settled N l k U) (ht : H.led t) (hle : ∀ T i, H.Chosen N T i → T < U → k ≤ i →
      l.take k = (H.log T).take k → T ≤ t) : l.take k = (H.log t).take k := by
  obtain ⟨_, rfl | ⟨T, i, hT, hki, hch, heq⟩⟩ := hl
  · simp
  · rw [heq]
    have hTt := hle T i hch hT hki heq
    rcases Nat.lt_or_eq_of_le hTt with hlt | rfl
    · obtain ⟨hlen, htake⟩ := hcon T i t hch hlt le_rfl ht
      have h1 := prefix_take_eq (hs.start t ht) hlen
      exact (take_eq_of_le (h1.trans htake) hki).symm
    · rfl

/-- The step of the induction on `U`: where the log of an elected leader comes from, given that
it is up to date with everything chosen before. -/
theorem origin_step {U : ℕ} (hU : H.led U) (ho : ∀ T, T < U → H.led T → H.Origin T)
    (hcon : ∀ T i T', H.Chosen N T i → T < T' → T' < U → H.led T' → H.Contains T' T i)
    (hup : ∀ T i, H.Chosen N T i → T < U → UpToDate H.term (H.init U) T i) : H.Origin U := by
  intro hne
  have hpos : 0 < (H.init U).length := length_pos_iff.mpr hne
  obtain ⟨k, hsettled, hshaped⟩ := hs.shape U hU
  rcases Nat.lt_or_eq_of_le hsettled.1 with hk | hk
  · obtain ⟨hled, hq⟩ := hshaped _ hk le_rfl
    have hlt := hs.init_term_lt hU hpos le_rfl
    refine ⟨hled, hlt, ?_⟩
    have htake : (H.init U).take k = (H.log (lastTerm H.term (H.init U))).take k := by
      refine hs.settled_take (fun T i T' hch hT hT' => hcon T i T' hch hT (lt_of_le_of_lt hT' hlt))
        hsettled hled fun T i hch hT _ _ => ?_
      rcases hup T i hch hT with h | h
      · exact h.le
      · exact h.1.ge
    have hall := take_eq_of_split htake hq
    rwa [take_length] at hall
  · -- nothing was kept behind the settled prefix
    obtain ⟨_, h0 | ⟨T, i, hT, hki, hch, heq⟩⟩ := hsettled
    · omega
    · rw [hk, take_length] at heq
      have hclean := hs.clean_of_origin (fun T' hT' => ho T' (lt_of_le_of_lt hT' hT)) hch.1
      have hterm : lastTerm H.term (H.init U) = termAt H.term (H.log T) (H.init U).length := by
        rw [lastTerm]
        exact termAt_of_take_eq H.term (take_length.trans heq) le_rfl
      obtain ⟨hled, hle, htake⟩ := hclean (H.init U).length hpos (by have := hch.2.2.1; omega)
      rw [hterm]
      exact ⟨hled, by omega, heq.trans htake⟩

theorem contains_step {U T i : ℕ} (ho : H.Origin U)
    (hcon : ∀ T', T < T' → T' < U → H.led T' → H.Contains T' T i) (hi : 0 < i)
    (hup : UpToDate H.term (H.init U) T i) : H.Contains U T i := by
  have hne : H.init U ≠ [] := by
    intro hnil
    rw [hnil, UpToDate] at hup
    simp [lastTerm] at hup
    omega
  have hpos : 0 < (H.init U).length := length_pos_iff.mpr hne
  obtain ⟨hled, hlt, heq⟩ := ho hne
  set t := lastTerm H.term (H.init U) with ht
  have htake : ∀ j, j ≤ (H.init U).length → (H.init U).take j = (H.log t).take j :=
    fun j => take_eq_of_le (take_length.trans heq)
  rcases hup with hgt | ⟨rfl, hlen⟩
  · obtain ⟨hlen, hinit⟩ := hcon t hgt hlt hled
    -- the last entry of `init U` is one that the leader of `t` added
    have hown : (H.init t).length < (H.init U).length := by
      refine hs.own_position hled hpos ?_
      rw [← termAt_of_take_eq H.term (htake _ le_rfl) le_rfl]
      rfl
    refine ⟨by omega, ?_⟩
    rw [htake i (by omega), prefix_take_eq (hs.start t hled) hlen, hinit]
  · exact ⟨hlen, htake i hlen⟩

theorem leader (U : ℕ) (hU : H.led U) :
    H.Origin U ∧ ∀ T i, H.Chosen N T i → T < U → H.Contains U T i := by
  classical
  induction U using Nat.strong_induction_on with
  | _ U ih =>
    have hcon : ∀ T i T', H.Chosen N T i → T < T' → T' < U → H.led T' → H.Contains T' T i :=
      fun T i T' hch hT hT' hled => (ih T' hT' hled).2 T i hch hT
    have hup : ∀ T i, H.Chosen N T i → T < U → UpToDate H.term (H.init U) T i := by
      intro T i hch hT
      obtain ⟨Q, hQ, hvote⟩ := hs.voters U hU
      obtain ⟨_, _, _, _, R, hR, hack⟩ := id hch
      obtain ⟨v, hvQ, hvR⟩ := hQ.meet hR
      exact hvote v hvQ T i hT (hack v hvR) fun T' hT' hlt hled => hcon T i T' hch hT' hlt hled
    have ho := hs.origin_step hU (fun T hT hled => (ih T hT hled).1) hcon hup
    refine ⟨ho, fun T i hch hT => hs.contains_step ho ?_ hch.2.1 (hup T i hch hT)⟩
    exact fun T' hT' hlt hled => hcon T i T' hch hT' hlt hled

theorem clean {U : ℕ} (hU : H.led U) : H.Clean U :=
  hs.clean_of_origin (fun T _ hT => (hs.leader T hT).1) hU

/-- What a majority acknowledged in a term is in the log of every later leader. -/
theorem contains (hch : H.Chosen N T i) (hT : T < U) (hU : H.led U) : H.Contains U T i :=
  (hs.leader U hU).2 T i hch hT

theorem contains_log (hU : H.led U) (hT : T ≤ U) (hi : i ≤ (H.log T).length)
    (hcon : T < U → H.Contains U T i) :
    i ≤ (H.log U).length ∧ (H.log U).take i = (H.log T).take i := by
  rcases Nat.lt_or_eq_of_le hT with hlt | rfl
  · obtain ⟨hlen, htake⟩ := hcon hlt
    have hpre := hs.start U hU
    exact ⟨hlen.trans hpre.length_le, (prefix_take_eq hpre hlen).trans htake⟩
  · exact ⟨hi, rfl⟩

theorem chosen_take (hch : H.Chosen N T i) (hT : T ≤ U) (hU : H.led U) :
    i ≤ (H.log U).length ∧ (H.log U).take i = (H.log T).take i :=
  hs.contains_log hU hT hch.2.2.1 fun hlt => hs.contains hch hlt hU

theorem mem_log {T : ℕ} {e : ε} (hT : H.led T) (he : e ∈ H.log T) :
    H.led (H.term e) ∧ H.term e ≤ T := by
  obtain ⟨i, hpos, hlen, _, hterm⟩ := exists_position H.term he
  obtain ⟨hled, hle, _⟩ := hs.clean hT i hpos hlen
  rw [hterm] at hled hle
  exact ⟨hled, hle⟩

theorem sorted (hT : H.led T) (hij : i ≤ j) (hj : j ≤ (H.log T).length) :
    termAt H.term (H.log T) i ≤ termAt H.term (H.log T) j := by
  cases j with
  | zero =>
    obtain rfl : i = 0 := by omega
    exact le_rfl
  | succ j =>
    obtain ⟨hled, _, htake⟩ := hs.clean hT (j + 1) (Nat.succ_pos j) hj
    rw [termAt_of_take_eq H.term htake hij]
    exact hs.term_le hled (hij.trans (le_length_of_take_eq htake hj))

theorem settled_log {T : ℕ} (hT : H.led T) (hl : H.Settled N l k (T + 1)) :
    k ≤ (H.log T).length ∧ l.take k = (H.log T).take k := by
  obtain ⟨_, rfl | ⟨U, i, hU, hki, hch, heq⟩⟩ := hl
  · exact ⟨Nat.zero_le _, by rw [take_zero, take_zero]⟩
  · obtain ⟨hlen, htake⟩ := hs.chosen_take hch (by omega) hT
    exact ⟨hki.trans hlen, heq.trans (take_eq_of_le htake hki).symm⟩

/-- A log with a settled beginning that has the leader's term at a position behind it agrees
with the leader up to there. -/
theorem match_take {T m : ℕ} (hT : H.led T) (hl : H.Settled N l k (T + 1))
    (hsh : H.Shaped l k) (hkm : k ≤ m) (hm : m ≤ l.length) (hmT : m ≤ (H.log T).length)
    (hterm : k < m → termAt H.term l m = termAt H.term (H.log T) m) :
    l.take m = (H.log T).take m := by
  refine take_eq_of_split (hs.settled_log hT hl).2 fun q hkq hqm => ?_
  obtain ⟨hled, hq⟩ := hsh m (by omega) hm
  obtain ⟨_, _, htake⟩ := hs.clean hT m (by omega) hmT
  rw [hq q hkq hqm, hterm (by omega)]
  exact (getElem?_of_take_eq htake hqm).symm

/-! ### Logs that follow a leader -/

theorem shaped_take {T m : ℕ} (hT : H.led T) (k : ℕ) : H.Shaped ((H.log T).take m) k := by
  intro p hp hlen
  rw [length_take] at hlen
  obtain ⟨hled, _, htake⟩ := hs.clean hT p (by omega) (by omega)
  rw [termAt_take H.term (by omega)]
  refine ⟨hled, fun q _ hq => ?_⟩
  rw [List.getElem?_take_of_lt (by omega)]
  exact getElem?_of_take_eq htake hq

theorem holds_of_take {T m i : ℕ} (hT : H.led T) (hsh : H.Shaped l k) (hkm : k < m)
    (hm : m ≤ l.length) (htake : l.take m = (H.log T).take m) (hi : i ≤ m)
    (hterm : termAt H.term (H.log T) i = T) : H.Holds l T i := by
  refine ⟨hi.trans hm, take_eq_of_le htake hi, ?_⟩
  have hmT := le_length_of_take_eq htake hm
  -- the terms of the leader's log rise to its own, which the position `m` thus has
  have hmterm : T ≤ termAt H.term l m := by
    rw [termAt_of_take_eq H.term htake le_rfl]
    exact hterm.ge.trans (hs.sorted hT hi hmT)
  obtain ⟨hled, hq⟩ := hsh l.length (by omega) le_rfl
  have hget := hq (m - 1) (by omega) (by omega)
  obtain ⟨e, _, he, hterm'⟩ := exists_entry H.term (by omega : 0 < m) hm
  rw [he] at hget
  have hlast : termAt H.term (H.log (lastTerm H.term l)) m = termAt H.term l m := by
    rw [hterm']
    have hm1 : m - 1 + 1 = m := by omega
    exact hm1 ▸ termAt_of_getElem? H.term hget.symm
  have hlen : m ≤ (H.log (lastTerm H.term l)).length := by
    have hlt := (List.getElem?_eq_some_iff.mp hget.symm).1
    have hlt' : m - 1 < (H.log (lastTerm H.term l)).length := hlt
    omega
  calc T ≤ termAt H.term l m := hmterm
    _ = termAt H.term (H.log (lastTerm H.term l)) m := hlast.symm
    _ ≤ lastTerm H.term l := hs.term_le hled hlen

theorem settled_cut {U m : ℕ} (hU : H.led U) (hl : H.Settled N l k (U + 1))
    (hm : m ≤ (H.log U).length) (hnew : ¬ (m ≤ l.length ∧ l.take m = (H.log U).take m)) :
    k < m ∧ H.Settled N ((H.log U).take m) k (U + 1) := by
  have hlog := hs.settled_log hU hl
  have hkm : k < m := by
    by_contra hle
    have hk := hl.1
    exact hnew ⟨by omega, take_eq_of_le hlog.2 (by omega)⟩
  refine ⟨hkm, hl.of_take_eq ?_ ?_⟩
  · rw [take_take, min_eq_left hkm.le, hlog.2]
  · rw [length_take]
    omega

theorem settled_splice {U m : ℕ} (hU : H.led U) (hl : H.Settled N l k (U + 1))
    (hm : H.Settled N (H.log U) m (U + 1)) :
    H.Settled N ((H.log U).take m ++ l.drop m) (max k m) (U + 1) := by
  have hlenm := length_take_of_le hm.1
  by_cases hkm : k ≤ m
  · rw [max_eq_right hkm]
    refine hm.of_take_eq ?_ ?_
    · rw [take_append_of_le_length (by omega), take_take, min_self]
    · rw [length_append]
      omega
  · have hsame : (H.log U).take m = l.take m :=
      (take_eq_of_le (hs.settled_log hU hl).2 (by omega)).symm
    rw [hsame, take_append_drop, max_eq_left (by omega)]
    exact hl

section follow

variable {m : ℕ} (hU : H.led U)
  (hcon : i ≤ (H.log U).length ∧ (H.log U).take i = (H.log T).take i)
  (hterm : termAt H.term (H.log T) i = T) (hh : H.Holds l T i)

include hU hcon hterm hh

omit hh in
theorem term_le_termAt (him : i ≤ m) (hm : m ≤ (H.log U).length) : T ≤ termAt H.term (H.log U) m := by
  have hi : termAt H.term (H.log U) i = T := by
    rw [termAt_of_take_eq H.term hcon.2 le_rfl, hterm]
  exact hi.ge.trans (hs.sorted hU him hm)

theorem holds_cut (hm : m ≤ (H.log U).length)
    (hnew : ¬ (m ≤ l.length ∧ l.take m = (H.log U).take m)) : H.Holds ((H.log U).take m) T i := by
  obtain ⟨hlen, htake, _⟩ := hh
  have him : i ≤ m := by
    by_contra hlt
    refine hnew ⟨by omega, ?_⟩
    exact take_eq_of_le (htake.trans hcon.2.symm) (by omega)
  refine ⟨?_, ?_, ?_⟩
  · rwa [length_take_of_le hm]
  · rw [take_take, min_eq_left him, hcon.2]
  · rw [lastTerm, length_take_of_le hm, termAt_take H.term le_rfl]
    exact hs.term_le_termAt hU hcon hterm him hm

theorem holds_splice (hm : m ≤ (H.log U).length) : H.Holds ((H.log U).take m ++ l.drop m) T i := by
  obtain ⟨hlen, htake, hlast⟩ := id hh
  by_cases him : m < i
  · -- the beginning was the leader's already
    have hsame : (H.log U).take m = l.take m :=
      (take_eq_of_le (htake.trans hcon.2.symm) him.le).symm
    rw [hsame, take_append_drop]
    exact hh
  · have hlenm := length_take_of_le hm
    refine ⟨?_, ?_, ?_⟩
    · rw [length_append, hlenm]
      omega
    · rw [take_append_of_le_length (by omega), take_take, min_eq_left (by omega), hcon.2]
    · by_cases hshort : l.length ≤ m
      · rw [drop_eq_nil_of_le hshort, append_nil, lastTerm, hlenm, termAt_take H.term le_rfl]
        exact hs.term_le_termAt hU hcon hterm (by omega) hm
      · rwa [lastTerm_splice H.term hlenm (by omega)]

end follow

end Sound

end History

end Mohhdy.Consensus
