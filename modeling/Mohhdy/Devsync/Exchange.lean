import Mohhdy.Devsync.Text
import Mohhdy.Foundations.VersionVectors

/-! Devices that write and exchange deltas. A text that was exported for a device is imported there at any
later time, any number of times or never. -/
namespace Mohhdy.Devsync
set_option autoImplicit false

open Tables LastWriter VersionVectors

variable {r : Replica}

/-! ## Merging -/

def timeOf (e : Entry) : ℕ := e.clock.toNat

abbrev stampOf (e : Entry) : ℕ ×ₗ Device := stamp timeOf Entry.dev e

def Replica.seen (r : Replica) (d : Device) : ℕ := (r.vv d).toNat

theorem wins_iff (a b : Entry) : wins a b ↔ stampOf b < stampOf a := by
  simp only [wins, stamp, timeOf, Prod.Lex.toLex_lt_toLex, UInt32.lt_iff_toNat_lt, ← UInt32.toNat_inj,
    eq_comm]

theorem advance_seen (r : Replica) (e : Entry) (d : Device) :
    (r.advance e).seen d = if d = e.dev then max (r.seen d) (timeOf e) else r.seen d := by
  simp only [Replica.seen, Replica.advance, timeOf]
  by_cases hlt : r.vv e.dev < e.clock
  · rw [if_pos hlt]
    by_cases hd : d = e.dev
    · subst hd
      rw [Function.update_self, if_pos rfl, max_eq_right (UInt32.lt_iff_toNat_lt.mp hlt).le]
    · rw [Function.update_of_ne hd, if_neg hd]
  · rw [if_neg hlt]
    split_ifs with hd
    · subst hd
      rw [max_eq_left (UInt32.le_iff_toNat_le.mp (UInt32.not_lt.mp hlt))]
    · rfl

theorem dsApply_find {e : Entry} (h : (dsApply r e).2 ≠ .invalid) (k : List UInt8) :
    (dsApply r e).1.find k = if k = e.key then some (newest stampOf (r.find k) e.kept) else r.find k := by
  rcases dsApply_cases r e with ⟨-, heq⟩ | ⟨-, -, -, heq⟩ | ⟨-, hf, -, heq⟩ | ⟨-, cur, hf, hw, heq⟩ |
    ⟨-, cur, hf, hw, heq⟩
  · rw [heq] at h
    exact absurd rfl h
  · rw [heq] at h
    exact absurd rfl h
  · rw [heq]
    simp only [Replica.find, Replica.setEntries, lookup, List.find?_append] at hf ⊢
    by_cases hk : k = e.key
    · simp [hk, hf, newest]
    · simp [hk, Ne.symm hk]
  · rw [heq]
    simp only [Replica.find, Replica.setEntries] at hf ⊢
    rw [lookup_replace e.kept_key]
    split_ifs with hk
    · rw [hk, hf]
      have hlt : stampOf cur < stampOf e.kept := (wins_iff e cur).mp hw
      simp [newest, hlt]
    · rfl
  · rw [heq]
    split_ifs with hk
    · rw [hk, hf]
      have hsame : (r.advance e).find e.key = some cur := hf
      have hle : ¬ stampOf cur < stampOf e.kept := mt (wins_iff e cur).mpr hw
      simp [newest, hsame, hle]
    · rfl

theorem dsApply_seen {e : Entry} (h : (dsApply r e).2 ≠ .invalid) (d : Device) :
    (dsApply r e).1.seen d = if d = e.dev then max (r.seen d) (timeOf e) else r.seen d := by
  rw [← advance_seen]
  rcases dsApply_cases r e with ⟨-, heq⟩ | ⟨-, -, -, heq⟩ | ⟨-, -, -, heq⟩ | ⟨-, -, -, -, heq⟩ | ⟨-, -, -, -, heq⟩
  · rw [heq] at h
    exact absurd rfl h
  · rw [heq]
  · rw [heq]
    rfl
  · rw [heq]
    rfl
  · rw [heq]

theorem dsApply_merges {e : Entry} (he : e.Stored) (h : (dsApply r e).2 ≠ .invalid) :
    Merges Entry.key timeOf Entry.dev r.find r.seen [e] (dsApply r e).1.find (dsApply r e).1.seen where
  grows k := by
    rw [dsApply_find h, he.kept]
    split_ifs with hk
    · rw [rank_newest]
      exact le_max_left _ _
    · exact le_rfl
  takes x hx := by
    rw [List.mem_singleton.mp hx, dsApply_find h, he.kept, if_pos rfl, rank_newest]
    exact le_max_right _ _
  choice k x hx := by
    rw [dsApply_find h, he.kept] at hx
    split_ifs at hx with hk
    · rcases newest_choice stampOf (r.find k) e with hnew | hold
      · rw [hnew, Option.some.injEq] at hx
        exact .inr ⟨List.mem_singleton.mpr hx.symm, by rw [← hx, hk]⟩
      · rw [← hold] at hx
        exact .inl hx
    · exact .inl hx
  sees d := by
    rw [dsApply_seen h]
    split_ifs
    · exact le_max_left _ _
    · exact le_rfl
  passes d := by
    rw [dsApply_seen h]
    split_ifs with hd
    · rcases max_choice (r.seen d) (timeOf e) with hmax | hmax
      · exact .inl hmax
      · exact .inr ⟨e, List.mem_singleton_self e, hd.symm, hmax⟩
    · exact .inl rfl
  follows x hx := by
    rw [List.mem_singleton.mp hx, dsApply_seen h, if_pos rfl]
    exact le_max_right _ _

/-! ## Room -/

def Replica.keysIn (r : Replica) (K : List (List UInt8)) : Prop := ∀ k e, r.find k = some e → k ∈ K

theorem dsApply_room {K : List (List UInt8)} (hK : K.length ≤ dsKeys) (hwf : r.Wf) (hr : r.keysIn K)
    {e : Entry} (hv : e.valid) (hkey : e.key ∈ K) : (dsApply r e).2 ≠ .invalid := by
  rcases dsApply_cases r e with ⟨hno, -⟩ | ⟨-, hf, hfull, -⟩ | ⟨-, -, -, heq⟩ | ⟨-, -, -, -, heq⟩ | ⟨-, -, -, -, heq⟩
  · exact absurd hv hno
  · exfalso
    have hnew : e.key ∉ r.entries.map Entry.key := by
      rw [← lookup_isSome_iff, ← Replica.find, hf]
      simp
    have hsub : (e.key :: r.entries.map Entry.key) ⊆ K := by
      intro k hk
      rcases List.mem_cons.mp hk with rfl | hk
      · exact hkey
      · obtain ⟨x, hx⟩ := Option.isSome_iff_exists.mp (lookup_isSome_iff.mpr hk)
        exact hr k x hx
    have hlen := (List.subperm_of_subset (List.nodup_cons.mpr ⟨hnew, hwf.distinct⟩) hsub).length_le
    rw [List.length_cons, List.length_map] at hlen
    omega
  all_goals simp [heq]

def Replica.ahead (r : Replica) : Prop := ∀ d, r.seen d ≤ r.clock.toNat

theorem advance_ahead (h : r.ahead) (e : Entry) :
    (r.advance e).ahead ∧ r.clock.toNat ≤ (r.advance e).clock.toNat := by
  have hclock : (r.advance e).clock.toNat = max r.clock.toNat (timeOf e) := by
    simp only [Replica.advance, timeOf]
    split_ifs with hlt
    · rw [max_eq_right (UInt32.lt_iff_toNat_lt.mp hlt).le]
    · rw [max_eq_left (UInt32.le_iff_toNat_le.mp (UInt32.not_lt.mp hlt))]
  refine ⟨fun d => ?_, ?_⟩
  · rw [advance_seen, hclock]
    split_ifs
    · exact max_le_max (h d) le_rfl
    · exact (h d).trans (le_max_left _ _)
  · rw [hclock]
    exact le_max_left _ _

theorem dsApply_ahead (h : r.ahead) (e : Entry) :
    (dsApply r e).1.ahead ∧ r.clock.toNat ≤ (dsApply r e).1.clock.toNat ∧ (dsApply r e).1.id = r.id := by
  have hadv := advance_ahead h e
  rcases dsApply_cases r e with ⟨-, heq⟩ | ⟨-, -, -, heq⟩ | ⟨-, -, -, heq⟩ | ⟨-, -, -, -, heq⟩ | ⟨-, -, -, -, heq⟩
  · rw [heq]
    exact ⟨h, le_rfl, rfl⟩
  all_goals
    rw [heq]
    exact ⟨hadv.1, hadv.2, rfl⟩

theorem applyBatch_merges {K : List (List UInt8)} (hK : K.length ≤ dsKeys) {l : List Entry}
    (hl : ∀ e ∈ l, e.Stored ∧ e.key ∈ K) (hwf : r.Wf) (hr : r.keysIn K) (ha : r.ahead) (n : ℕ) :
    Merges Entry.key timeOf Entry.dev r.find r.seen l (applyBatch r l n).1.find (applyBatch r l n).1.seen ∧
      (applyBatch r l n).1.ahead ∧ r.clock.toNat ≤ (applyBatch r l n).1.clock.toNat ∧
      (applyBatch r l n).1.id = r.id := by
  induction l generalizing r n with
  | nil => exact ⟨Merges.refl _ _, ha, le_rfl, rfl⟩
  | cons e l ih =>
    obtain ⟨⟨he, hkey⟩, hl⟩ := List.forall_mem_cons.mp hl
    have hok := dsApply_room hK hwf hr he.valid hkey
    have hm := dsApply_merges he hok
    obtain ⟨ha', hclock, hid⟩ := dsApply_ahead ha e
    have hr' : (dsApply r e).1.keysIn K := by
      intro k x hx
      rcases hm.choice k x hx with hold | ⟨hnew, hk⟩
      · exact hr k x hold
      · rw [← hk, List.mem_singleton.mp hnew]
        exact hkey
    have hrest : ∃ m, applyBatch r (e :: l) n = applyBatch (dsApply r e).1 l m := by
      rw [applyBatch]
      split <;> rename_i heq
      · exact absurd (by rw [heq]) hok
      · exact ⟨n, by rw [heq]⟩
      · exact ⟨n + 1, by rw [heq]⟩
    obtain ⟨m, hrest⟩ := hrest
    obtain ⟨hm', ha'', hclock', hid'⟩ := ih hl (hwf.apply e) hr' ha' m
    rw [hrest]
    exact ⟨hm.trans hm', ha'', hclock.trans hclock', hid'.trans hid⟩

/-! ## The devices -/

structure Packet where
  dest : Device
  text : List UInt8

/-- All replicas, the texts that were sent so far, and for each device the writes it has received: its own
and those of the texts it imported. -/
structure World where
  replica : Device → Replica
  sent : List Packet
  received : Device → List Entry

def World.init : World := ⟨dsInit, [], fun _ => []⟩

inductive WorldOp where
  | set (i : Device) (key val : List UInt8)
  | del (i : Device) (key : List UInt8)
  | send (src dest : Device) (cap : ℕ)
  | deliver (n : ℕ)

variable (w : World)

def World.put (i : Device) (r : Replica) (more : List Entry) : World :=
  { w with
    replica := Function.update w.replica i r
    received := Function.update w.received i (w.received i ++ more) }

def World.write (i : Device) (key val : List UInt8) (dead : Bool) : World :=
  w.put i (localWrite (w.replica i) key val dead).1
    (if (localWrite (w.replica i) key val dead).2 then [(w.replica i).stamped key val dead] else [])

def World.take (p : Packet) : World :=
  w.put p.dest (dsImport (w.replica p.dest) p.text).1 ((dsParse (p.text.takeWhile (· ≠ 0))).toOption.getD [])

def World.outgoing (src dest : Device) (cap : ℕ) : Option Packet :=
  (dsExport (w.replica src) (some (w.replica dest).vv) cap).map fun text => ⟨dest, text⟩

def World.step : WorldOp → World
  | .set i key val => w.write i key val false
  | .del i key => w.write i key [] true
  | .send src dest cap => { w with sent := w.sent ++ (w.outgoing src dest cap).toList }
  | .deliver n => (w.sent[n]?).elim w w.take

def World.exchange (src dest : Device) (cap : ℕ) : Option World := (w.outgoing src dest cap).map w.take

def World.round (a b : Device) (capA capB : ℕ) : Option World :=
  (w.exchange a b capA).bind fun w => w.exchange b a capB

end Mohhdy.Devsync
