import Mohhdy.Devsync.Replica
import Mohhdy.Foundations.Runs

/-! What replicas hold, whatever is written to them and whatever texts they are given: entries with good
fields, one for a key, and no more than there is room for. -/
namespace Mohhdy.Devsync
set_option autoImplicit false

open Tables Runs

variable {r : Replica}

structure Entry.Stored (e : Entry) : Prop where
  valid : e.valid
  empty : e.dead = true → e.val = []

structure Replica.Wf (r : Replica) : Prop where
  stored : ∀ e ∈ r.entries, e.Stored
  distinct : (r.entries.map Entry.key).Nodup
  bounded : r.entries.length ≤ dsKeys

theorem Wf.init (id : Device) : (dsInit id).Wf := by
  refine ⟨?_, List.nodup_nil, Nat.zero_le _⟩
  intro e he
  cases he

@[simp] theorem Entry.kept_key (e : Entry) : e.kept.key = e.key := rfl

theorem Entry.valid.kept {e : Entry} (h : e.valid) : e.kept.Stored := by
  refine ⟨⟨h.1, h.2.1, ?_⟩, ?_⟩
  · intro hd
    simp only [Entry.kept] at hd ⊢
    rw [hd]
    exact h.2.2 hd
  · intro hd
    simp only [Entry.kept] at hd ⊢
    rw [hd]
    rfl

theorem Entry.Stored.kept {e : Entry} (h : e.Stored) : e.kept = e := by
  obtain ⟨key, val, clock, dev, dead⟩ := e
  cases dead with
  | false => rfl
  | true =>
    have hval : val = [] := h.empty rfl
    rw [hval]
    rfl

theorem dsApply_cases (r : Replica) (e : Entry) : (¬e.valid ∧ dsApply r e = (r, .invalid)) ∨
    (e.valid ∧ r.find e.key = none ∧ dsKeys ≤ r.entries.length ∧ dsApply r e = (r.advance e, .invalid)) ∨
    (e.valid ∧ r.find e.key = none ∧ r.entries.length < dsKeys ∧
      dsApply r e = ((r.advance e).setEntries (r.entries ++ [e.kept]), .applied)) ∨
    (e.valid ∧ ∃ cur, r.find e.key = some cur ∧ wins e cur ∧
      dsApply r e = ((r.advance e).setEntries (update Entry.key e.key (fun _ => e.kept) r.entries), .applied)) ∨
    (e.valid ∧ ∃ cur, r.find e.key = some cur ∧ ¬wins e cur ∧ dsApply r e = (r.advance e, .ignored)) := by
  by_cases hv : e.valid
  · cases hf : r.find e.key with
    | none =>
      by_cases hlen : dsKeys ≤ r.entries.length
      · refine .inr (.inl ⟨hv, rfl, hlen, ?_⟩)
        simp [dsApply, hv, hf, hlen]
      · refine .inr (.inr (.inl ⟨hv, rfl, not_le.mp hlen, ?_⟩))
        simp [dsApply, hv, hf, hlen]
    | some cur =>
      by_cases hw : wins e cur
      · refine .inr (.inr (.inr (.inl ⟨hv, cur, rfl, hw, ?_⟩)))
        simp [dsApply, hv, hf, hw]
      · refine .inr (.inr (.inr (.inr ⟨hv, cur, rfl, hw, ?_⟩)))
        simp [dsApply, hv, hf, hw]
  · refine .inl ⟨hv, ?_⟩
    simp [dsApply, hv]

theorem Replica.Wf.apply (h : r.Wf) (e : Entry) : (dsApply r e).1.Wf := by
  rcases dsApply_cases r e with ⟨-, heq⟩ | ⟨-, -, -, heq⟩ | ⟨hv, hf, hlen, heq⟩ | ⟨hv, cur, hf, -, heq⟩ |
    ⟨-, -, -, -, heq⟩
  · rw [heq]
    exact h
  · rw [heq]
    exact { h with }
  · rw [heq]
    refine ⟨?_, ?_, ?_⟩
    · exact List.forall_mem_append.mpr ⟨h.stored, List.forall_mem_singleton.mpr hv.kept⟩
    · have hnew : e.key ∉ r.entries.map Entry.key := by
        rw [← lookup_isSome_iff, ← Replica.find, hf]
        simp
      simp only [Replica.setEntries, List.map_append, List.map_singleton]
      exact List.nodup_append.mpr ⟨h.distinct, List.nodup_singleton _, fun a ha b hb hab =>
        hnew (by rwa [hab, List.mem_singleton.mp hb] at ha)⟩
    · simpa [Replica.setEntries] using hlen
  · have hkeys := replace_map e.kept_key r.entries
    have hlen := congrArg List.length hkeys
    rw [List.length_map, List.length_map] at hlen
    rw [heq]
    refine ⟨modifyFirst_forall h.stored fun _ _ _ => hv.kept, ?_, ?_⟩
    · simp only [Replica.setEntries, hkeys]
      exact h.distinct
    · simp only [Replica.setEntries, hlen]
      exact h.bounded
  · rw [heq]
    exact { h with }

theorem Replica.Wf.batch (h : r.Wf) (l : List Entry) (n : ℕ) : (applyBatch r l n).1.Wf := by
  induction l generalizing r n with
  | nil => exact h
  | cons e l ih =>
    have hr := h.apply e
    rw [applyBatch]
    split <;> rename_i heq <;> rw [heq] at hr
    · exact hr
    · exact ih hr _
    · exact ih hr _

theorem Replica.Wf.receive (h : r.Wf) (text : List UInt8) : (dsImport r text).1.Wf := by
  unfold dsImport
  split
  · exact h
  · exact h.batch _ _

theorem Replica.Wf.write (h : r.Wf) (key val : List UInt8) (dead : Bool) : (localWrite r key val dead).1.Wf := by
  unfold localWrite
  split_ifs
  · exact h
  · exact h
  · exact h
  · exact h.apply _

/-! ## Steps of one replica -/

inductive ReplicaOp where
  | set (key val : List UInt8)
  | del (key : List UInt8)
  | receive (text : List UInt8)

def replicaStep (r : Replica) : ReplicaOp → Replica
  | .set key val => (dsSet r key val).1
  | .del key => (dsDel r key).1
  | .receive text => (dsImport r text).1

theorem Wf.reachable (id : Device) (ops : List ReplicaOp) : (run replicaStep (dsInit id) ops).Wf := by
  refine run_invariant_all (fun r op h => ?_) (Wf.init id)
  cases op with
  | set key val => exact h.write key val false
  | del key => exact h.write key [] true
  | receive text => exact h.receive text

end Mohhdy.Devsync
