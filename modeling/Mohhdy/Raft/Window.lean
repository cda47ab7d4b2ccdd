import Mohhdy.Foundations.Consensus
import Mohhdy.Raft.Calls

/-! A node keeps a window of its log: the entries behind its snapshot, at most 16 of them. `Window`
relates it to the whole log, as it would be had nothing been compacted, and the operations on the
window are operations on the log. -/
namespace Mohhdy.Raft
open Consensus List
set_option autoImplicit false

variable {i prevI : ℕ} {e : LogEntry}

structure Window (n : Node) (l : List LogEntry) : Prop where
  snapped : n.snapshotIndex ≤ l.length
  kept : n.log = l.drop n.snapshotIndex
  small : n.log.length ≤ 16
  term : n.snapshotTerm = termAt LogEntry.term l n.snapshotIndex

variable {n n' : Node} {l : List LogEntry}

section
variable (h : Window n l)
include h

theorem Window.congr (hlog : n'.log = n.log)
    (hsnap : n'.snapshotIndex = n.snapshotIndex) (hterm : n'.snapshotTerm = n.snapshotTerm) :
    Window n' l := by
  obtain ⟨h1, h2, h3, h4⟩ := h
  constructor
  · rwa [hsnap]
  · rw [hlog, hsnap, h2]
  · rwa [hlog]
  · rw [hterm, hsnap, h4]

/-! ## Reading -/

theorem Window.length : n.log.length = l.length - n.snapshotIndex := by
  rw [h.kept, length_drop]

theorem Window.logCount : n.logCount = l.length := by
  have hlen := h.length
  have hsnap := h.snapped
  unfold Node.logCount
  omega

theorem Window.getElem? (hi : n.snapshotIndex < i) :
    n.log[i - n.snapshotIndex - 1]? = l[i - 1]? := by
  rw [h.kept, List.getElem?_drop]
  congr 1
  omega

theorem Window.logAt : raftLogAt n i = some e ↔ n.snapshotIndex < i ∧ l[i - 1]? = some e := by
  rw [raftLogAt_eq_some]
  constructor
  · rintro ⟨hlt, _, he⟩
    rw [h.getElem? hlt] at he
    exact ⟨hlt, he⟩
  · rintro ⟨hlt, he⟩
    have hlen := h.length
    have hsmall := h.small
    have hi := (List.getElem?_eq_some_iff.mp he).1
    refine ⟨hlt, by omega, ?_⟩
    rw [h.getElem? hlt, he]

theorem Window.termAt_eq (hi : n.snapshotIndex < i) :
    (n.log[i - n.snapshotIndex - 1]?.map LogEntry.term).getD 0 = termAt LogEntry.term l i := by
  obtain ⟨j, rfl⟩ : ∃ j, i = j + 1 := ⟨i - 1, by omega⟩
  rw [h.getElem? hi]
  rfl

theorem Window.lastTerm : raftLastTerm n = Consensus.lastTerm LogEntry.term l := by
  have hlen := h.length
  have hsmall := h.small
  have hsnap := h.snapped
  unfold raftLastTerm Consensus.lastTerm
  rw [h.logCount]
  split
  · rename_i h0
    rw [h0, termAt_zero]
  split
  · rw [h.term]
    congr 1
    omega
  · rw [if_neg (by omega), h.termAt_eq (by omega)]

theorem Window.prevTerm (hlo : n.snapshotIndex ≤ prevI)
    (hhi : prevI ≤ l.length) : prevTerm n prevI = termAt LogEntry.term l prevI := by
  unfold Raft.prevTerm
  split
  · rename_i h0
    rw [h0, termAt_zero]
  split
  · rename_i heq
    rw [heq, h.term]
  · obtain ⟨e, _, he, hterm⟩ := exists_entry LogEntry.term (by omega) hhi
    rw [h.logAt.mpr ⟨by omega, he⟩, hterm]
    rfl

theorem Window.prevOk {prevT : ℕ} (hok : raftPrevOk n prevI prevT = true) :
    n.snapshotIndex ≤ prevI ∧ prevI ≤ l.length ∧ termAt LogEntry.term l prevI = prevT := by
  obtain ⟨hlo, hhi⟩ := raftPrevOk_le hok
  rw [h.logCount] at hhi
  refine ⟨hlo, hhi, ?_⟩
  unfold raftPrevOk at hok
  rw [h.logCount, if_neg (by omega)] at hok
  split at hok
  · rename_i h0
    rw [h0, termAt_zero]
    exact (of_decide_eq_true hok).symm
  split at hok
  · rename_i heq
    rw [heq, ← h.term]
    exact (of_decide_eq_true hok).symm
  · have hlen := h.length
    have hsmall := h.small
    rw [if_neg (by omega)] at hok
    rw [← h.termAt_eq (by omega)]
    exact of_decide_eq_true hok

theorem Window.logOk {lastIdx lastTerm : ℕ} (hok : logOk n lastIdx lastTerm = true) :
    Consensus.lastTerm LogEntry.term l < lastTerm ∨
      (lastTerm = Consensus.lastTerm LogEntry.term l ∧ l.length ≤ lastIdx) := by
  unfold Raft.logOk at hok
  rw [h.lastTerm, h.logCount] at hok
  simp only [Bool.not_eq_true', Bool.or_eq_false_iff, decide_eq_false_iff_not,
    Bool.and_eq_false_imp, decide_eq_true_eq] at hok
  omega

/-! ## Writing -/

theorem Window.concat (hroom : n.log.length < 16) :
    Window { n with log := n.log ++ [e] } (l ++ [e]) := by
  have hle := h.snapped
  constructor
  · rw [length_append]
    exact Nat.le_add_right_of_le hle
  · rw [drop_append_of_le_length hle, h.kept]
  · rw [length_append]
    exact hroom
  · rw [termAt_append LogEntry.term _ hle, h.term]

theorem Window.compact (hi : raftLogAt n i = some e) :
    Window { n with log := n.log.drop (i - n.snapshotIndex), snapshotIndex := i, snapshotTerm := e.term } l := by
  obtain ⟨hlt, he⟩ := h.logAt.mp hi
  have hlen := (List.getElem?_eq_some_iff.mp he).1
  have hi1 : i - 1 + 1 = i := by omega
  constructor
  · change i ≤ l.length
    omega
  · rw [h.kept, drop_drop, Nat.add_sub_cancel' hlt.le]
  · rw [length_drop]
    exact (Nat.sub_le _ _).trans h.small
  · exact hi1 ▸ (termAt_of_getElem? LogEntry.term he).symm

theorem Window.install {r : List LogEntry} {snapI snapT : ℕ}
    (hlt : n.snapshotIndex < snapI) (hr : r.length = snapI)
    (hT : snapT = termAt LogEntry.term r snapI) :
    Window (raftInstallSnapshot n snapI snapT) (r ++ l.drop snapI) := by
  have hlen := h.length
  have hsmall := h.small
  -- what is kept is the log behind the snapshot, in either case
  have hkept : (raftInstallSnapshot n snapI snapT).log = l.drop snapI := by
    change (if n.logCount > snapI ∧ n.snapshotIndex ≤ snapI then
      n.log.drop (snapI - n.snapshotIndex) else []) = _
    rw [h.logCount]
    split
    · rw [h.kept, drop_drop]
      congr 1
      omega
    · rw [drop_eq_nil_of_le (by omega)]
  have hsnap : (raftInstallSnapshot n snapI snapT).snapshotIndex = snapI := rfl
  constructor
  · rw [hsnap, length_append]
    omega
  · rw [hkept, hsnap, drop_append_of_le_length hr.ge, ← hr, drop_length, nil_append]
  · rw [hkept, length_drop]
    omega
  · rw [hsnap, termAt_append LogEntry.term _ hr.ge, ← hT]
    rfl

/-- What the entry of an append does to the log: it is there already, or what precedes it is kept
and it comes last. -/
theorem Window.store {eindex : ℕ} (hlt : n.snapshotIndex < eindex)
    (hidx : eindex ≤ u32 (n.snapshotIndex + 16)) (hstore : (storeEntry n eindex e).2 = true) :
    ((storeEntry n eindex e).1 = n ∧ ∃ old, l[eindex - 1]? = some old ∧ old.term = e.term) ∨
    (eindex = l.length + 1 ∨ ∃ old, l[eindex - 1]? = some old ∧ old.term ≠ e.term) ∧
      Window (storeEntry n eindex e).1 (l.take (eindex - 1) ++ [e]) ∧
      (n.commitIndex < eindex → (storeEntry n eindex e).1.commitIndex = n.commitIndex) ∧
      (n.lastApplied < eindex → (storeEntry n eindex e).1.lastApplied = n.lastApplied) := by
  have hlen := h.length
  have hsmall := h.small
  have hsnap := h.snapped
  obtain hr | ⟨hr, hheld⟩ | ⟨hr, _, h16, hnext, _⟩ | ⟨old, hold, hne, hr⟩ :=
    storeEntry_cases n e hidx
  · rw [hr] at hstore
    cases hstore
  · obtain hle | ⟨old, hold, hterm⟩ := hheld
    · omega
    · rw [hr]
      exact .inl ⟨rfl, old, (h.logAt.mp hold).2, hterm⟩
  · -- the number of the next entry cannot have wrapped, for it lies behind the snapshot
    have hmod : u32 (n.logCount + 1) = n.logCount + 1 := by
      rw [h.logCount] at hnext ⊢
      unfold u32 at hnext ⊢
      omega
    rw [hmod, h.logCount] at hnext
    have htake : l.take (eindex - 1) = l := by
      rw [take_of_length_le]
      omega
    rw [hr, htake]
    exact .inr ⟨.inl hnext, h.concat (by omega), fun _ => rfl, fun _ => rfl⟩
  · obtain ⟨_, he⟩ := h.logAt.mp hold
    have hi := (List.getElem?_eq_some_iff.mp he).1
    rw [hr]
    refine .inr ⟨.inr ⟨old, he, hne⟩, ⟨?_, ?_, ?_, ?_⟩, fun hc => ?_, fun hc => ?_⟩
    · rw [length_append, length_take]
      change n.snapshotIndex ≤ _
      omega
    · change n.log.take (eindex - 1 - n.snapshotIndex) ++ [e] = List.drop n.snapshotIndex _
      rw [drop_append_of_le_length (by rw [length_take]; omega), h.kept, drop_take]
    · change (n.log.take (eindex - 1 - n.snapshotIndex) ++ [e]).length ≤ 16
      rw [length_append, length_take, length_singleton]
      omega
    · change n.snapshotTerm = termAt LogEntry.term _ n.snapshotIndex
      rw [termAt_append LogEntry.term _ (by rw [length_take]; omega),
        termAt_take LogEntry.term (by omega), h.term]
    · exact min_eq_left (by omega)
    · exact min_eq_left (by omega)

end

end Mohhdy.Raft
