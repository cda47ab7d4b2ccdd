import Mohhdy.Devsync.Text

/-! A replica that is exported whole comes back from its text in a new replica, unless one of its clocks is
a number that the reader refuses. -/
namespace Mohhdy.Devsync
set_option autoImplicit false

open Tables Runs

theorem applyBatch_new {l : List Entry} (hl : ∀ e ∈ l, e.Stored) (hd : (l.map Entry.key).Nodup) (r : Replica)
    (hnew : ∀ e ∈ l, r.find e.key = none) (hroom : r.entries.length + l.length ≤ dsKeys) (n : ℕ) :
    (applyBatch r l n).2 = .ok (n + l.length) ∧ (applyBatch r l n).1.entries = r.entries ++ l := by
  induction l generalizing r n with
  | nil => simp [applyBatch]
  | cons e l ih =>
    obtain ⟨he, hl⟩ := List.forall_mem_cons.mp hl
    obtain ⟨hne, hnew⟩ := List.forall_mem_cons.mp hnew
    obtain ⟨hkey, hd⟩ := List.nodup_cons.mp hd
    rw [List.length_cons] at hroom
    have happly : dsApply r e = ((r.advance e).setEntries (r.entries ++ [e]), .applied) := by
      have hlen : ¬dsKeys ≤ r.entries.length := by omega
      simp [dsApply, he.valid, hne, hlen, he.kept]
    have hnext : ∀ x ∈ l, ((r.advance e).setEntries (r.entries ++ [e])).find x.key = none := by
      intro x hx
      have hother : e.key ≠ x.key := fun h => hkey (h ▸ List.mem_map_of_mem hx)
      have hold := hnew x hx
      simp only [Replica.find, lookup, Replica.setEntries, List.find?_append] at hold ⊢
      simp [hold, hother]
    have hroom' : ((r.advance e).setEntries (r.entries ++ [e])).entries.length + l.length ≤ dsKeys := by
      simp only [Replica.setEntries, List.length_append, List.length_singleton]
      omega
    obtain ⟨hok, hentries⟩ := ih hl hd _ hnext hroom' (n + 1)
    rw [applyBatch, happly]
    refine ⟨?_, ?_⟩
    · rw [hok, List.length_cons]
      congr 1
      omega
    · rw [hentries]
      simp [Replica.setEntries]

theorem delta_none (r : Replica) : r.delta none = r.entries := by
  simp [Replica.delta]

/-- A text of the whole replica is imported with all its entries exactly if the reader takes all clocks. -/
theorem dsImport_export_iff (id id' : Device) (ops : List ReplicaOp) (cap : ℕ) (text : List UInt8)
    (h : dsExport (run replicaStep (dsInit id) ops) none cap = some text) :
    ((∃ n, (dsImport (dsInit id') text).2 = .ok n) ∧
      (dsImport (dsInit id') text).1.entries = (run replicaStep (dsInit id) ops).entries) ↔
    ∀ e ∈ (run replicaStep (dsInit id) ops).entries, e.clock.toNat < numLimit := by
  have hwf := Wf.reachable id ops
  generalize run replicaStep (dsInit id) ops = r at h hwf ⊢
  have htext := dsExport_text h
  rw [delta_none] at htext
  have himport : dsImport (dsInit id') text = if ∀ e ∈ r.entries, e.clock.toNat < numLimit then
      applyBatch (dsInit id') r.entries 0 else (dsInit id', .error .format) := by
    rw [dsImport, htext, fullText_nonzero r.id hwf.stored, dsParse_fullText r.id hwf.stored hwf.bounded]
    split_ifs <;> rfl
  rw [himport]
  split_ifs with hclocks
  · refine iff_of_true ?_ hclocks
    have hnew := applyBatch_new hwf.stored hwf.distinct (dsInit id') (fun _ _ => by rfl)
      (by simpa [dsInit] using hwf.bounded) 0
    exact ⟨⟨_, hnew.1⟩, hnew.2⟩
  · refine iff_of_false ?_ hclocks
    rintro ⟨⟨n, hn⟩, -⟩
    cases hn

/-- a -/
def keyA : List UInt8 := [97]

def twoKeys : List ReplicaOp := [.set keyA [49], .set [98] [50], .del keyA]

theorem dsImport_export_twoKeys : let r := run replicaStep (dsInit 0) twoKeys
    r.entries.map Entry.dead = [true, false] ∧ (∃ text, dsExport r none 100 = some text) ∧
    ∀ text, dsExport r none 100 = some text → (dsImport (dsInit 1) text).1.entries = r.entries := by
  refine ⟨by decide +kernel, Option.isSome_iff_exists.mp (by decide +kernel), fun text h => ?_⟩
  exact ((dsImport_export_iff 0 1 _ 100 text h).mpr (by decide +kernel)).2

def lastClock : List UInt8 :=
  fullText deviceB [⟨keyA, [49], 4000000009, deviceB, false⟩]

/-- The write after it has a clock that no reader takes. -/
theorem export_refused : let r := run replicaStep (dsInit 0) [.receive lastClock, .set [98] [50]]
    (dsExport r none 100).map (fun text => (dsImport (dsInit 1) text).2) = some (.error .format) := by
  decide +kernel

end Mohhdy.Devsync
