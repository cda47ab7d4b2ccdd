import Mohhdy.Relay.AiRelay

/-! What a process takes from a relay was made by a worker for the job that this process began last. Replies
name their job by its number, so a reply for an older job is refused as long as no number has come twice. -/
namespace Mohhdy.Relay
set_option autoImplicit false

open Buffers Desk Runs List

/-- The worker asks for the newest job, which is its own and waits for an answer. -/
def Fetches {ρ ε : Type} (worker : Pid) (jobId : UInt32) (log : List (Job Pid ρ ε)) : Prop :=
  ∃ job rest, log = job :: rest ∧ job.worker = worker ∧ job.id = jobId.toNat ∧ job.fate = .outstanding

/-- Whatever is taken belongs to the newest job and to its owner: a reply that was completed under the
number of this job and of no other, or the failure of the job. All other jobs are over. -/
structure NetIsolated (w : NetWorld) : Prop where
  take : ∀ pid capacity t s, netRelayTake w.relay pid capacity = some (t, s) →
    ∃ job rest, w.log = job :: rest ∧ job.owner = pid ∧
      ((∃ c, job.fate = .completed c ∧ c.worker = job.worker ∧ c.jobId.toNat = job.id ∧
          (∀ x ∈ rest, x.id ≠ c.jobId.toNat) ∧ t.result = c.result ∧ t.out = c.out.take capacity) ∨
        (job.fate = .failed t.result ∧ t.out = []))
  bulk : ∀ pid capacity, netRelayBulkResult w.relay pid capacity = [] ∨
    ∃ job rest c p, w.log = job :: rest ∧ job.owner = pid ∧ job.fate = .completed c ∧ w.put = some p ∧
      p.worker = job.worker ∧ p.jobId.toNat = job.id ∧ (∀ x ∈ rest, x.id ≠ p.jobId.toNat) ∧
      netRelayBulkResult w.relay pid capacity = p.data.take capacity
  fetch : ∀ worker jobId capacity data, netRelayBulkFetch w.relay worker jobId capacity = some data →
    Fetches worker jobId w.log
  one : ∀ job ∈ w.log.tail, job.fate ≠ .outstanding

structure AiIsolated (w : AiWorld) : Prop where
  take : ∀ caller r s, aiRelayTake w.slot caller = some (some r, s) →
    ∃ job rest c, w.log = job :: rest ∧ job.owner = caller ∧ job.fate = .completed c ∧ c.sender = job.worker ∧
      c.reply.jobId.toNat = job.id ∧ (∀ x ∈ rest, x.id ≠ c.reply.jobId.toNat) ∧
      r = c.reply.stored w.slot.job.kind
  fetch : ∀ sender live jobId job, aiRelayFetch w.slot sender live jobId = .ok job → Fetches sender jobId w.log
  one : ∀ job ∈ w.log.tail, job.fate ≠ .outstanding

theorem not_outstanding {ρ ε : Type} {log : List (Job Pid ρ ε)} (h : Single log) :
    ∀ job ∈ log.tail, job.fate ≠ .outstanding := by
  intro job hjob hout
  have hover := h job hjob
  rw [hout] at hover
  cases hover

theorem NetInv.isolated {w : NetWorld} (h : NetInv w) (hjobs : w.log.length ≤ jobNumbers) : NetIsolated w := by
  have hfresh : ∀ job rest, w.log = job :: rest → ∀ x ∈ rest, x.id ≠ job.id := by
    intro job rest hlog
    have hnum := h.numbered
    rw [hlog] at hnum hjobs
    exact hnum.fresh hjobs
  have hshows := h.shows
  refine ⟨?_, ?_, ?_, not_outstanding h.single⟩
  · intro pid capacity t s ht
    unfold netRelayTake at ht
    split_ifs at ht with hno
    push Not at hno
    obtain ⟨hdone, howner⟩ := hno
    cases ht
    rw [NetRelay.Shows, hdone] at hshows
    obtain ⟨job, rest, hlog, hfate⟩ := hshows
    rcases hfate with ⟨hserves, c, hc, hworker, hid, hresult, hout⟩ | ⟨hown, -, hc, hout⟩
    · refine ⟨job, rest, hlog, hserves.owner.trans howner.symm, .inl ⟨c, hc, hworker, hid, ?_, hresult, ?_⟩⟩
      · rw [hid]
        exact hfresh job rest hlog
      · rw [Filled.read_eq, hout]
    · refine ⟨job, rest, hlog, hown.trans howner.symm, .inr ⟨hc, ?_⟩⟩
      rw [Filled.read_eq, hout, take_nil]
  · intro pid capacity
    unfold netRelayBulkResult
    split_ifs with hno
    · exact .inl rfl
    push Not at hno
    obtain ⟨hdone, -, howner, hjob⟩ := hno
    rw [NetRelay.Shows, hdone] at hshows
    obtain ⟨job, rest, hlog, hfate⟩ := hshows
    rcases hfate with ⟨hserves, c, hc, -⟩ | ⟨-, hzero, -⟩
    · have hbulk := hserves.bulk
      cases hput : w.put with
      | none =>
        left
        rw [Filled.read_eq, hbulk, hput]
        exact take_nil
      | some p =>
        obtain ⟨hw, hid⟩ := hserves.put p hput
        refine .inr ⟨job, rest, c, p, hlog, hserves.owner.trans howner.symm, hc, rfl, hw, hid, ?_, ?_⟩
        · rw [hid]
          exact hfresh job rest hlog
        · rw [Filled.read_eq, hbulk, hput]
          rfl
    · exact absurd hzero hjob
  · intro worker jobId capacity data hf
    unfold netRelayBulkFetch at hf
    split_ifs at hf with hno
    push Not at hno
    obtain ⟨hsent, -, hworker, -, hid, -⟩ := hno
    obtain ⟨job, rest, hlog, hserves, hout⟩ := h.sent hsent
    exact ⟨job, rest, hlog, hserves.worker.trans hworker.symm, by rw [hserves.id, hid], hout⟩

theorem AiInv.isolated {w : AiWorld} (h : AiInv w) (hjobs : w.log.length ≤ jobNumbers) : AiIsolated w := by
  refine ⟨?_, ?_, not_outstanding h.single⟩
  · intro caller r s ht
    unfold aiRelayTake at ht
    split_ifs at ht with hno hdone
    · push Not at hno
      cases ht
      have hshows := h.shows
      rw [AiSlot.Shows, hdone] at hshows
      obtain ⟨job, rest, hlog, hserves, c, hc, hworker, hid, hreply⟩ := hshows
      refine ⟨job, rest, c, hlog, hserves.1.trans hno.2, hc, hworker, hid, ?_, hreply⟩
      have hnum := h.numbered
      rw [hlog] at hnum hjobs
      rw [hid]
      exact hnum.fresh hjobs
    · cases ht
  · intro sender live jobId job hf
    unfold aiRelayFetch at hf
    cases hcheck : w.slot.workerCheck sender live jobId with
    | error e =>
      rw [hcheck] at hf
      cases hf
    | ok u =>
      obtain ⟨hsent, hworker, hid⟩ := workerCheck_ok hcheck
      obtain ⟨job, rest, hlog, hserves, hout⟩ := h.sent hsent
      exact ⟨job, rest, hlog, hserves.2.1.trans hworker, by rw [hserves.2.2, hid], hout⟩

/-- In every run of the two relays with fewer than `2 ^ 31` jobs each. -/
theorem relays_isolated (ops : List NetOp) (ops' : List AiOp)
    (hnet : (run NetWorld.step NetWorld.init ops).log.length ≤ jobNumbers)
    (hai : (run AiWorld.step AiWorld.init ops').log.length ≤ jobNumbers) :
    NetIsolated (run NetWorld.step NetWorld.init ops) ∧ AiIsolated (run AiWorld.step AiWorld.init ops') := by
  refine ⟨NetInv.isolated (run_invariant_all NetInv.step NetInv.init) hnet, ?_⟩
  exact AiInv.isolated (run_invariant_all AiInv.step AiInv.init) hai

def netExample : List NetOp := [.begin 3 9 99 0, .complete ⟨9, 1, 1, [7]⟩]

def aiExample : List AiOp := [.begin 3 9 [104, 105] 8 0, .complete ⟨9, 9, { AiReply.zero with jobId := 1 }⟩]

theorem relays_isolated_example :
    (∃ s, netRelayTake (run NetWorld.step NetWorld.init netExample).relay 3 16 = some (⟨99, 1, [7]⟩, s)) ∧
    (aiRelayTake (run AiWorld.step AiWorld.init aiExample).slot 3).isSome ∧
    NetIsolated (run NetWorld.step NetWorld.init netExample) ∧
      AiIsolated (run AiWorld.step AiWorld.init aiExample) := by
  refine ⟨⟨_, rfl⟩, rfl, ?_⟩
  exact relays_isolated netExample aiExample (by decide) (by decide)

/-! ## A number that comes again -/

section
variable {σ ε : Type}

def Spent (n : ℕ) (log : List (Job Pid σ ε)) : Prop :=
  log.length = n ∧ ∀ job ∈ log, job.owner = 2 ∧ job.fate = .cancelled

theorem Spent.number {n m : ℕ} {log : List (Job Pid σ ε)} (h : Spent n log) (hpos : 0 < n) (hnum : Numbered m log) :
    ∃ x ∈ log, x.id = 1 ∧ x.owner = 2 ∧ x.fate = .cancelled := by
  obtain ⟨x, hx, hx1⟩ := hnum.one (length_pos_iff.mp (h.1 ▸ hpos))
  exact ⟨x, hx, hx1, h.2 x hx⟩

end

theorem begin_free {s : NetRelay} (h : s.state = .free) {pid : Pid} (hpid : 0 < pid) (hne : pid ≠ 9) :
    netRelayBegin s pid 9 99 0 = some (s.begun pid 9 99 0) := by
  have hop : (!netRelaySupported 99 && !netRelayLlmSupported 99) = false := rfl
  rw [netRelayBegin, if_neg]
  rintro (hs | hp | hw | heq | hno)
  · exact hs h
  · exact absurd hp (not_le.mpr hpid)
  · exact absurd hw (by norm_num)
  · exact hne heq
  · rw [hop] at hno
    cases hno

def netLap : List NetOp := [.begin 2 9 99 0, .cancel]

def netLate (n : ℕ) : List NetOp := laps netLap n ++ [.begin 3 9 99 0, .complete ⟨9, 1, 0, [7]⟩]

theorem netLaps_free (n : ℕ) : let w := run NetWorld.step NetWorld.init (laps netLap n)
    w.relay.state = .free ∧ Spent n w.log := by
  refine run_laps (p := fun n (w : NetWorld) => w.relay.state = .free ∧ Spent n w.log) ⟨rfl, rfl, ?_⟩ ?_ n
  · intro job hjob
    cases hjob
  · rintro n w ⟨hfree, hlen, hall⟩
    simp only [netLap, run_cons, run_nil, NetWorld.step, begin_free hfree (by norm_num : (0 : Pid) < 2) (by norm_num),
      Option.elim_some]
    exact ⟨rfl, congrArg Nat.succ hlen, forall_mem_cons.mpr ⟨⟨rfl, rfl⟩, hall⟩⟩

theorem netLate_returned {n : ℕ} (hpos : 0 < n) (hn : n % jobNumbers = 0) :
    let w := run NetWorld.step NetWorld.init (netLate n)
    ∃ t s job rest c, netRelayTake w.relay 3 16 = some (t, s) ∧
      t.out = [7] ∧ w.log = job :: rest ∧ job.fate = .completed c ∧
      ∃ x ∈ rest, x.id = c.jobId.toNat ∧ x.owner = 2 ∧ x.fate = .cancelled := by
  have hinv : NetInv (run NetWorld.step NetWorld.init (laps netLap n)) :=
    run_invariant_all NetInv.step NetInv.init
  obtain ⟨hfree, hspent⟩ := netLaps_free n
  rw [netLate, run_append]
  generalize run NetWorld.step NetWorld.init (laps netLap n) = w at hinv hfree hspent ⊢
  obtain ⟨x, hx, hcancelled⟩ := hspent.number hpos hinv.numbered
  have hid : jobNumber w.relay.nextJob = 1 := by
    have hnext := jobNumber_eq hinv.next
    rw [hspent.1, hn] at hnext
    exact UInt32.toNat_inj.mp hnext
  simp only [run_cons, run_nil, NetWorld.step, begin_free hfree (by norm_num : (0 : Pid) < 3) (by norm_num),
    Option.elim_some]
  have haccept : netRelayComplete (w.relay.begun 3 9 99 0) ⟨9, 1, 0, [7]⟩ =
      some ((w.relay.begun 3 9 99 0).completed 0 ((w.relay.begun 3 9 99 0).out.store [7] (by decide))) := by
    rw [netRelayComplete, dif_neg]
    rintro (hs | hw | hj | hl)
    · exact hs rfl
    · exact hw rfl
    · exact hj hid.symm
    · exact absurd hl (by decide)
  rw [haccept]
  refine ⟨⟨99, 0, _⟩, _, _, w.log, _, rfl, ?_, rfl, rfl, x, hx, hcancelled⟩
  change (((w.relay.begun 3 9 99 0).out.store [7] (by decide)).read 16) = [7]
  rw [Filled.read_eq, Filled.contents_store]
  rfl

def aiLap : List AiOp := [.begin 2 9 [104, 105] 8 0, .cancel]

def lateReply : AiReply := { AiReply.zero with jobId := 1, result := -7 }

def aiLate (n : ℕ) : List AiOp := laps aiLap n ++ [.begin 3 9 [104, 105] 8 0, .complete ⟨9, 9, lateReply⟩]

def hiJob : AiJob := { AiJob.zero with prompt := [104, 105], max := 8 }

theorem aiBegin_free {s : AiSlot} (h : s.state = .free) {pid : Pid} (hpid : 0 < pid) (hne : pid ≠ 9) :
    aiRelayBegin s pid 9 [104, 105] 8 0 = some (s.begun pid 9 hiJob 0) := by
  rw [aiRelayBegin, if_pos]
  · rfl
  · simp [AiSlot.accepts, h, hpid, hne]

theorem aiLaps_free (n : ℕ) : let w := run AiWorld.step AiWorld.init (laps aiLap n)
    w.slot.state = .free ∧ Spent n w.log := by
  refine run_laps (p := fun n (w : AiWorld) => w.slot.state = .free ∧ Spent n w.log) ⟨rfl, rfl, ?_⟩ ?_ n
  · intro job hjob
    cases hjob
  · rintro n w ⟨hfree, hlen, hall⟩
    simp only [aiLap, run_cons, run_nil, AiWorld.step, aiBegin_free hfree (by norm_num : (0 : Pid) < 2) (by norm_num)]
    exact ⟨rfl, congrArg Nat.succ hlen, forall_mem_cons.mpr ⟨⟨rfl, rfl⟩, hall⟩⟩

theorem aiLate_returned {n : ℕ} (hpos : 0 < n) (hn : n % jobNumbers = 0) :
    let w := run AiWorld.step AiWorld.init (aiLate n)
    ∃ r s job rest c, aiRelayTake w.slot 3 = some (some r, s) ∧
      r.result = -7 ∧ w.log = job :: rest ∧ job.fate = .completed c ∧
      ∃ x ∈ rest, x.id = c.reply.jobId.toNat ∧ x.owner = 2 ∧ x.fate = .cancelled := by
  have hinv : AiInv (run AiWorld.step AiWorld.init (laps aiLap n)) :=
    run_invariant_all AiInv.step AiInv.init
  obtain ⟨hfree, hspent⟩ := aiLaps_free n
  rw [aiLate, run_append]
  generalize run AiWorld.step AiWorld.init (laps aiLap n) = w at hinv hfree hspent ⊢
  obtain ⟨x, hx, hcancelled⟩ := hspent.number hpos hinv.numbered
  have hid : aiJobNumber w.slot.nextJob = 1 := by
    have hnext := hinv.next
    rw [hspent.1, hn] at hnext
    exact UInt32.toNat_inj.mp hnext
  simp only [run_cons, run_nil, AiWorld.step, aiBegin_free hfree (by norm_num : (0 : Pid) < 3) (by norm_num)]
  have hcheck : (w.slot.begun 3 9 hiJob 0).workerCheck 9 9 1 = .ok () := by
    simp [AiSlot.workerCheck, AiSlot.begun, hid]
  have haccept : aiRelayComplete (w.slot.begun 3 9 hiJob 0) ⟨9, 9, lateReply⟩ =
      .ok { w.slot.begun 3 9 hiJob 0 with reply := lateReply.stored .fp32Generate, state := .done } := by
    unfold aiRelayComplete
    rw [show lateReply.jobId = 1 from rfl, hcheck]
    rfl
  simp only [AiWorld.begin, Option.elim_some, haccept]
  exact ⟨_, _, _, w.log, _, rfl, rfl, rfl, rfl, x, hx, hcancelled⟩

/-- When all numbers have been given out, a reply to a cancelled job of one process is what another one
gets, from either relay. -/
theorem number_comes_again :
    (∃ t s job rest c, netRelayTake (run NetWorld.step NetWorld.init (netLate jobNumbers)).relay 3 16 = some (t, s) ∧
      t.out = [7] ∧ (run NetWorld.step NetWorld.init (netLate jobNumbers)).log = job :: rest ∧ job.fate = .completed c ∧
      ∃ x ∈ rest, x.id = c.jobId.toNat ∧ x.owner = 2 ∧ x.fate = .cancelled) ∧
    ∃ r s job rest c, aiRelayTake (run AiWorld.step AiWorld.init (aiLate jobNumbers)).slot 3 = some (some r, s) ∧
      r.result = -7 ∧ (run AiWorld.step AiWorld.init (aiLate jobNumbers)).log = job :: rest ∧ job.fate = .completed c ∧
      ∃ x ∈ rest, x.id = c.reply.jobId.toNat ∧ x.owner = 2 ∧ x.fate = .cancelled := by
  have hpos : 0 < jobNumbers := by
    unfold jobNumbers
    omega
  exact ⟨netLate_returned hpos (Nat.mod_self _), aiLate_returned hpos (Nat.mod_self _)⟩

end Mohhdy.Relay
