import Mohhdy.Foundations.Buffers
import Mohhdy.Foundations.Desk
import Mohhdy.Foundations.Runs

/-! The network relay (net_relay.c): one slot through which processes hand socket calls to the worker that
owns the network card, with a small reply and a bulk buffer each way. -/
namespace Mohhdy.Relay
set_option autoImplicit false

open Buffers Desk

abbrev Pid := ℤ

/-! ## The slot -/

def netRelayMaxOut : ℕ := 256
def netRelayBulkMax : ℕ := 2304

inductive NetState where
  | free | sent | done
deriving DecidableEq

structure NetRelay where
  state : NetState
  (owner worker : Pid)
  (op jobId nextJob started polls : UInt32)
  result : ℤ
  out : Filled UInt8 netRelayMaxOut
  (bulkIn bulkOut : Filled UInt8 netRelayBulkMax)

def netRelayInit : NetRelay :=
  ⟨.free, 0, 0, 0, 0, 1, 0, 0, 0, .blank 0 _, .blank 0 _, .blank 0 _⟩

def netRelayPeerSupported (n : UInt32) : Bool := (128 ≤ n && n ≤ 130) || n == 156

def netRelaySupported (n : UInt32) : Bool := (99 ≤ n && n ≤ 108) || n == 144 || netRelayPeerSupported n

def netRelayLlmSupported (n : UInt32) : Bool := 91 ≤ n && n ≤ 98

def jobNumber (nextJob : UInt32) : UInt32 := if nextJob = 0 then 1 else nextJob

def netNextJob (id : UInt32) : UInt32 := if id + 1 = 0 ∨ 0x7FFFFFFF < id + 1 then 1 else id + 1

variable (s : NetRelay)

def NetRelay.begun (pid worker : Pid) (op now : UInt32) : NetRelay :=
  { s with
    state := .sent
    owner := pid
    worker := worker
    op := op
    jobId := jobNumber s.nextJob
    nextJob := netNextJob (jobNumber s.nextJob)
    started := now
    polls := 0
    result := 0
    out := s.out.clear
    bulkIn := s.bulkIn.clear
    bulkOut := s.bulkOut.clear }

def netRelayBegin (pid worker : Pid) (op now : UInt32) : Option NetRelay :=
  if s.state ≠ .free ∨ pid ≤ 0 ∨ worker ≤ 0 ∨ pid = worker ∨ (!netRelaySupported op && !netRelayLlmSupported op) then
    none
  else some (s.begun pid worker op now)

def netRelayCancel : NetRelay := { s with state := .free, owner := 0 }

structure NetCall where
  worker : Pid
  jobId : UInt32
  result : ℤ
  out : List UInt8

def NetRelay.completed (result : ℤ) (out : Filled UInt8 netRelayMaxOut) : NetRelay :=
  { s with out := out, result := result, state := .done }

def netRelayComplete (c : NetCall) : Option NetRelay :=
  if h : s.state ≠ .sent ∨ c.worker ≠ s.worker ∨ c.jobId ≠ s.jobId ∨ netRelayMaxOut < c.out.length then none
  else some (s.completed c.result (s.out.store c.out (by omega)))

def netRelayNotePoll : NetRelay :=
  if s.state = .sent ∧ s.polls < 0xFFFFFFFF then { s with polls := s.polls + 1 } else s

structure Taken where
  op : UInt32
  result : ℤ
  out : List UInt8

def netRelayTake (pid : Pid) (capacity : ℕ) : Option (Taken × NetRelay) :=
  if s.state ≠ .done ∨ pid ≠ s.owner then none
  else some (⟨s.op, s.result, s.out.read capacity⟩, { s with state := .free, owner := 0 })

def netRelayFail (error : ℤ) : NetRelay :=
  if s.state ≠ .sent then s
  else { s with jobId := 0, result := error, out := s.out.clear, bulkOut := s.bulkOut.clear, state := .done }

def netRelayDropOwner : NetRelay := { s with state := .free, owner := 0, jobId := 0 }

/-! ## Bulk transfers -/

def NetRelay.staged (data : Filled UInt8 netRelayBulkMax) : NetRelay := { s with bulkIn := data }

def netRelayBulkStage (caller : Pid) (data : List UInt8) : Option NetRelay :=
  if h : s.state ≠ .sent ∨ caller ≤ 0 ∨ caller ≠ s.owner ∨ netRelayBulkMax < data.length then none
  else some (s.staged (s.bulkIn.store data (by omega)))

def netRelayBulkFetch (worker : Pid) (jobId : UInt32) (capacity : ℕ) : Option (List UInt8) :=
  if s.state ≠ .sent ∨ worker ≤ 0 ∨ worker ≠ s.worker ∨ jobId = 0 ∨ jobId ≠ s.jobId ∨ capacity < s.bulkIn.length then
    none
  else some s.bulkIn.contents

structure NetPut where
  worker : Pid
  jobId : UInt32
  data : List UInt8

def NetRelay.filled (data : Filled UInt8 netRelayBulkMax) : NetRelay := { s with bulkOut := data }

def netRelayBulkPut (p : NetPut) : Option NetRelay :=
  if h : s.state ≠ .sent ∨ p.worker ≤ 0 ∨ p.worker ≠ s.worker ∨ p.jobId = 0 ∨ p.jobId ≠ s.jobId ∨
      netRelayBulkMax < p.data.length then none
  else some (s.filled (s.bulkOut.store p.data (by omega)))

def netRelayBulkResult (caller : Pid) (capacity : ℕ) : List UInt8 :=
  if s.state ≠ .done ∨ caller ≤ 0 ∨ caller ≠ s.owner ∨ s.jobId = 0 then [] else s.bulkOut.read capacity

/-! ## Runs -/

/-- The relay, the log of all jobs that were begun, and the last bulk output that was accepted for the
newest of them. -/
structure NetWorld where
  relay : NetRelay
  log : List (Job Pid NetCall ℤ)
  put : Option NetPut

def NetWorld.init : NetWorld := ⟨netRelayInit, [], none⟩

inductive NetOp where
  | begin (pid worker : Pid) (op now : UInt32)
  | cancel
  | complete (c : NetCall)
  | notePoll
  | take (pid : Pid) (capacity : ℕ)
  | fail (error : ℤ)
  | dropOwner
  | bulkStage (caller : Pid) (data : List UInt8)
  | bulkFetch (worker : Pid) (jobId : UInt32) (capacity : ℕ)
  | bulkPut (p : NetPut)
  | bulkResult (caller : Pid) (capacity : ℕ)

def NetWorld.step (w : NetWorld) : NetOp → NetWorld
  | .begin pid worker op now =>
    (netRelayBegin w.relay pid worker op now).elim w fun s =>
      ⟨s, ⟨s.jobId.toNat, pid, worker, .outstanding⟩ :: w.log, none⟩
  | .cancel => ⟨netRelayCancel w.relay, close .cancelled w.log, w.put⟩
  | .complete c => (netRelayComplete w.relay c).elim w fun s => ⟨s, settle (.completed c) w.log, w.put⟩
  | .notePoll => ⟨netRelayNotePoll w.relay, w.log, w.put⟩
  | .take pid capacity =>
    (netRelayTake w.relay pid capacity).elim w fun t => ⟨t.2, close .taken w.log, w.put⟩
  | .fail error => ⟨netRelayFail w.relay error, withdraw (.failed error) w.log, w.put⟩
  | .dropOwner => ⟨netRelayDropOwner w.relay, close .dropped w.log, w.put⟩
  | .bulkStage caller data => (netRelayBulkStage w.relay caller data).elim w fun s => ⟨s, w.log, w.put⟩
  | .bulkFetch _ _ _ => w
  | .bulkPut p => (netRelayBulkPut w.relay p).elim w fun s => ⟨s, w.log, some p⟩
  | .bulkResult _ _ => w

/-! ## The slot and the log -/

def jobNumbers : ℕ := 0x7FFFFFFF

theorem jobNumber_eq {nextJob : UInt32} {n : ℕ} (h : nextJob.toNat = n % jobNumbers + 1) :
    (jobNumber nextJob).toNat = n % jobNumbers + 1 := by
  rw [jobNumber, if_neg, h]
  intro h0
  rw [h0] at h
  exact absurd h (Nat.succ_ne_zero _).symm

theorem netNextJob_eq {id : UInt32} {n : ℕ} (h : id.toNat = n % jobNumbers + 1) :
    (netNextJob id).toNat = (n + 1) % jobNumbers + 1 := by
  have hlt : n % jobNumbers < jobNumbers := Nat.mod_lt _ (by decide)
  have hnum : jobNumbers = 2147483647 := rfl
  have hsucc : (id + 1).toNat = id.toNat + 1 := by
    rw [UInt32.toNat_add]
    exact Nat.mod_eq_of_lt (by have : (1 : UInt32).toNat = 1 := rfl; omega)
  rw [← next_number jobNumbers n (by decide), ← h, ← hsucc, netNextJob]
  by_cases hle : (id + 1).toNat ≤ jobNumbers
  · rw [if_pos hle, if_neg]
    rintro (h0 | hgt)
    · rw [h0] at hsucc
      exact absurd hsucc (Nat.succ_ne_zero _).symm
    · have := UInt32.lt_iff_toNat_lt.mp hgt
      have hmax : (0x7FFFFFFF : UInt32).toNat = 2147483647 := rfl
      omega
  · rw [if_neg hle, if_pos]
    · rfl
    · right
      rw [UInt32.lt_iff_toNat_lt]
      have hmax : (0x7FFFFFFF : UInt32).toNat = 2147483647 := rfl
      omega

structure Serves (owner worker : Pid) (jobId : UInt32) (bulk : List UInt8) (put : Option NetPut)
    (job : Job Pid NetCall ℤ) : Prop where
  owner : job.owner = owner
  worker : job.worker = worker
  id : job.id = jobId.toNat
  bulk : bulk = put.elim [] NetPut.data
  put : ∀ p ∈ put, p.worker = job.worker ∧ p.jobId.toNat = job.id

def NetRelay.Serves (s : NetRelay) (put : Option NetPut) (job : Job Pid NetCall ℤ) : Prop :=
  Relay.Serves s.owner s.worker s.jobId s.bulkOut.contents put job

def NetRelay.Shows (put : Option NetPut) (log : List (Job Pid NetCall ℤ)) : Prop :=
  match s.state with
  | .free => Idle log
  | .sent => ∃ job rest, log = job :: rest ∧ s.Serves put job ∧ job.fate = .outstanding
  | .done => ∃ job rest, log = job :: rest ∧
      ((s.Serves put job ∧ ∃ c : NetCall, job.fate = .completed c ∧ c.worker = job.worker ∧
          c.jobId.toNat = job.id ∧ s.result = c.result ∧ s.out.contents = c.out) ∨
        (job.owner = s.owner ∧ s.jobId = 0 ∧ job.fate = .failed s.result ∧ s.out.contents = []))

structure NetInv (w : NetWorld) : Prop where
  numbered : Numbered jobNumbers w.log
  next : w.relay.nextJob.toNat = w.log.length % jobNumbers + 1
  single : Single w.log
  shows : w.relay.Shows w.put w.log

theorem NetInv.init : NetInv NetWorld.init where
  numbered := trivial
  next := rfl
  single := by
    intro job hjob
    cases hjob
  shows := by
    intro job hjob
    cases hjob

variable {w : NetWorld}

section
variable (h : NetInv w)
include h

theorem NetInv.begin (pid worker : Pid) (op now : UInt32) :
    NetInv (w.step (.begin pid worker op now)) := by
  simp only [NetWorld.step, netRelayBegin]
  split_ifs with hno
  · exact h
  · have hfree : w.relay.state = .free := by
      by_contra hne
      exact hno (.inl hne)
    have hidle : Idle w.log := by
      have hshows := h.shows
      rwa [NetRelay.Shows, hfree] at hshows
    have hid := jobNumber_eq h.next
    refine ⟨⟨hid, h.numbered⟩, netNextJob_eq hid, hidle, ?_⟩
    refine ⟨_, _, rfl, ⟨rfl, rfl, rfl, ?_, ?_⟩, rfl⟩
    · exact Filled.contents_clear _
    · intro p hp
      cases hp

theorem NetInv.refated {s : NetRelay} {put : Option NetPut}
    {log : List (Job Pid NetCall ℤ)} (hlog : Refated w.log log)
    (hnext : s.nextJob = w.relay.nextJob) (hshows : s.Shows put log) : NetInv ⟨s, log, put⟩ := by
  obtain ⟨hlength, hnumbered, hsingle⟩ := hlog.keeps
  refine ⟨hnumbered h.numbered, ?_, hsingle h.single, hshows⟩
  rw [hnext, hlength]
  exact h.next

theorem NetInv.sent (hsent : w.relay.state = .sent) : ∃ job rest,
    w.log = job :: rest ∧ w.relay.Serves w.put job ∧ job.fate = .outstanding := by
  have hshows := h.shows
  rwa [NetRelay.Shows, hsent] at hshows

theorem NetInv.complete (c : NetCall) : NetInv (w.step (.complete c)) := by
  simp only [NetWorld.step, netRelayComplete]
  split_ifs with hno
  · exact h
  · push Not at hno
    obtain ⟨hsent, hworker, hjob, hlen⟩ := hno
    obtain ⟨job, rest, hlog, hserves, -⟩ := h.sent hsent
    refine h.refated (settle_refated _ _) rfl ?_
    rw [hlog]
    refine ⟨_, _, rfl, .inl ⟨{ hserves with }, c, rfl, hworker.trans hserves.worker.symm, ?_, rfl,
      Filled.contents_store _ _ _⟩⟩
    rw [hjob, hserves.id]

theorem NetInv.free (s : NetRelay) (hs : s.state = .free)
    (hnext : s.nextJob = w.relay.nextJob) (fate : Fate NetCall ℤ) (hf : fate.held = false) :
    NetInv ⟨s, close fate w.log, w.put⟩ := by
  refine h.refated (close_refated _ _) hnext ?_
  rw [NetRelay.Shows, hs]
  exact h.single.close hf

theorem NetInv.fail (error : ℤ) : NetInv (w.step (.fail error)) := by
  refine h.refated (withdraw_refated _ _) ?_ ?_
  · simp only [netRelayFail]
    split_ifs <;> rfl
  · simp only [netRelayFail]
    split_ifs with hs
    · rw [withdraw_other]
      · exact h.shows
      · have hshows := h.shows
        unfold NetRelay.Shows at hshows
        intro job hjob hout
        split at hshows
        · have hheld := hshows job (List.mem_of_mem_head? hjob)
          rw [hout] at hheld
          cases hheld
        · exact hs ‹_›
        · obtain ⟨job', rest, hlog, hfate⟩ := hshows
          rw [hlog] at hjob
          cases hjob
          simp [hout] at hfate
    · obtain ⟨job, rest, hlog, hserves, hout⟩ := h.sent (not_not.mp hs)
      rw [hlog, withdraw_outstanding hout]
      exact ⟨_, _, rfl, .inr ⟨hserves.owner, rfl, rfl, Filled.contents_clear _⟩⟩

theorem NetInv.bulkPut (p : NetPut) : NetInv (w.step (.bulkPut p)) := by
  simp only [NetWorld.step, netRelayBulkPut]
  split_ifs with hno
  · exact h
  · push Not at hno
    obtain ⟨hsent, -, hworker, -, hjob, hlen⟩ := hno
    obtain ⟨job, rest, hlog, hserves, hout⟩ := h.sent hsent
    refine ⟨h.numbered, h.next, h.single, ?_⟩
    simp only [Option.elim_some, NetRelay.Shows, NetRelay.filled, hsent]
    refine ⟨job, rest, hlog, { hserves with bulk := Filled.contents_store _ _ _, put := ?_ }, hout⟩
    intro q hq
    rw [← Option.some.inj hq, hworker, hjob]
    exact ⟨hserves.worker.symm, hserves.id.symm⟩

end

theorem NetInv.step (w : NetWorld) (op : NetOp) (h : NetInv w) : NetInv (w.step op) := by
  cases op with
  | begin pid worker op now => exact h.begin pid worker op now
  | cancel => exact h.free (netRelayCancel w.relay) rfl rfl .cancelled rfl
  | complete c => exact h.complete c
  | notePoll =>
    simp only [NetWorld.step, netRelayNotePoll]
    split_ifs
    · exact { h with }
    · exact h
  | take pid capacity =>
    simp only [NetWorld.step, netRelayTake]
    split_ifs
    · exact h
    · exact h.free { w.relay with state := .free, owner := 0 } rfl rfl .taken rfl
  | fail error => exact h.fail error
  | dropOwner => exact h.free (netRelayDropOwner w.relay) rfl rfl .dropped rfl
  | bulkStage caller data =>
    simp only [NetWorld.step, netRelayBulkStage]
    split_ifs
    · exact h
    · exact { h with }
  | bulkFetch worker jobId capacity => exact h
  | bulkPut p => exact h.bulkPut p
  | bulkResult caller capacity => exact h

end Mohhdy.Relay
