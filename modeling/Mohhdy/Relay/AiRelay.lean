import Mohhdy.Relay.NetRelay

/-! The AI relay (ai_relay.c): one slot through which processes hand generations to the inference worker.
The worker fetches the job, shows that it is alive, and completes it with a reply that is checked against
the kind of the job. -/
namespace Mohhdy.Relay
set_option autoImplicit false

open Desk

/-! ## Jobs and replies -/

def aiPromptMax : ℕ := 128
def aiTextMax : ℕ := 512
def aiTokensMax : ℕ := 64

inductive AiKind where
  | fp32Generate | ggufStep | ggufSession
deriving DecidableEq

def AiKind.code : AiKind → UInt32
  | .fp32Generate => 0
  | .ggufStep => 1
  | .ggufSession => 2

inductive SessionOp where
  | start | step
deriving DecidableEq

structure AiJob where
  (jobId max : UInt32)
  prompt : List UInt8
  kind : AiKind
  (rngState generated : UInt32)
  tokens : List UInt32
  sessionOp : Option SessionOp
  (sessionId promptTokens : UInt32)

def AiJob.zero : AiJob := ⟨0, 0, [], .fp32Generate, 0, 0, [], none, 0, 0⟩

structure AiReply where
  jobId : UInt32
  result : ℤ
  (textLength promptTokens tokenCount : UInt32)
  tokens : Fin aiTokensMax → UInt32
  text : Fin aiTextMax → UInt8
  (kind rngState nextToken sessionActive sessionResumed : UInt32)

def AiReply.zero : AiReply := ⟨0, 0, 0, 0, 0, fun _ => 0, fun _ => 0, 0, 0, 0, 0, 0⟩

def copiedPrompt (prompt : List UInt8) : List UInt8 := (prompt.takeWhile (· ≠ 0)).take (aiPromptMax - 1)

def clampedMax (max : UInt32) : UInt32 := if UInt32.ofNat aiTextMax < max then UInt32.ofNat aiTextMax else max

/-! ## The slot -/

inductive AiState where
  | free | sent | done | failed
deriving DecidableEq

structure AiSlot where
  state : AiState
  (callerPid workerPid : Pid)
  (jobId nextJob started progress abort : UInt32)
  job : AiJob
  reply : AiReply

def aiRelayInit : AiSlot := ⟨.free, 0, 0, 0, 1, 0, 0, 0, .zero, .zero⟩

def aiJobNumber (nextJob : UInt32) : UInt32 := if nextJob = 0 ∨ 0x7FFFFFFF < nextJob then 1 else nextJob

variable (s : AiSlot) (caller worker : Pid)

def AiSlot.begun (job : AiJob) (now : UInt32) : AiSlot :=
  { state := .sent
    callerPid := caller
    workerPid := worker
    jobId := aiJobNumber s.nextJob
    nextJob := aiJobNumber s.nextJob + 1
    started := now
    progress := now
    abort := 0
    job := { job with jobId := aiJobNumber s.nextJob }
    reply := .zero }

def AiSlot.accepts : Bool :=
  s.state = .free ∧ 0 < caller ∧ 0 < worker ∧ caller ≠ worker

def aiRelayBegin (prompt : List UInt8) (max now : UInt32) : Option AiSlot :=
  if s.accepts caller worker && 2 ≤ max then
    some (s.begun caller worker { AiJob.zero with prompt := copiedPrompt prompt, max := clampedMax max } now)
  else none

def aiRelayBeginGguf (tokens : List UInt32) (generated rngState now : UInt32) : Option AiSlot :=
  if s.accepts caller worker && tokens ≠ [] && tokens.length ≤ aiTokensMax && generated.toNat ≤ tokens.length then
    some (s.begun caller worker
      { AiJob.zero with kind := .ggufStep, rngState := rngState, generated := generated, tokens := tokens } now)
  else none

inductive SessionArgs where
  | start (prompt : List UInt8)
  | step (tokens : List UInt32) (promptTokens rngState : UInt32)

def SessionArgs.ok : SessionArgs → Bool
  | .start _ => true
  | .step tokens promptTokens _ => tokens ≠ [] ∧ tokens.length ≤ aiTokensMax ∧ promptTokens.toNat ≤ tokens.length

def sessionJob (sessionId max : UInt32) : SessionArgs → AiJob
  | .start prompt =>
    { AiJob.zero with
      kind := .ggufSession, sessionOp := some .start, sessionId := sessionId, max := clampedMax max
      prompt := copiedPrompt prompt }
  | .step tokens promptTokens rngState =>
    { AiJob.zero with
      kind := .ggufSession, sessionOp := some .step, sessionId := sessionId, max := clampedMax max
      rngState := rngState, tokens := tokens, promptTokens := promptTokens
      generated := UInt32.ofNat tokens.length - promptTokens }

def aiRelayBeginGgufSession (sessionId max : UInt32) (args : SessionArgs)
    (now : UInt32) : Option AiSlot :=
  if s.accepts caller worker && 2 ≤ max && args.ok then
    some (s.begun caller worker (sessionJob sessionId max args) now)
  else none

def aiRelayCancel : AiSlot := if s.state ≠ .sent then s else { s with state := .free }

inductive AiRefusal where
  | required | badArgument | stale
deriving DecidableEq

def AiSlot.workerCheck (sender live : Pid) (jobId : UInt32) : Except AiRefusal Unit :=
  if sender ≤ 0 ∨ live ≤ 0 ∨ sender ≠ live then .error .required
  else if s.state ≠ .sent ∨ s.workerPid ≠ sender ∨ s.jobId ≠ jobId then .error .stale
  else .ok ()

def aiRelayFetch (sender live : Pid) (jobId : UInt32) : Except AiRefusal AiJob := do
  s.workerCheck sender live jobId
  return s.job

structure AiCall where
  (sender live : Pid)
  reply : AiReply

def AiReply.stepOk (r : AiReply) : Bool := r.result ≤ 0 ∧ r.textLength = 0 ∧ r.tokenCount = 0

def AiReply.textOk (r : AiReply) (max : UInt32) : Bool :=
  r.textLength.toNat < aiTextMax ∧ r.textLength < max ∧ r.tokenCount.toNat ≤ aiTokensMax ∧
    r.promptTokens ≤ r.tokenCount ∧ (0 ≤ r.result → r.result = r.textLength.toNat)

def AiReply.ok (r : AiReply) (job : AiJob) : Bool :=
  r.kind == job.kind.code &&
    match job.kind with
    | .ggufStep => r.stepOk
    | .ggufSession => r.textOk job.max && r.sessionActive ≤ 1
    | .fp32Generate => r.textOk job.max

def AiReply.stored (r : AiReply) (kind : AiKind) : AiReply :=
  match kind with
  | .ggufStep => r
  | _ => { r with text := fun i => if i.val < r.textLength.toNat then r.text i else 0 }

def aiRelayComplete (c : AiCall) : Except AiRefusal AiSlot := do
  s.workerCheck c.sender c.live c.reply.jobId
  if c.reply.ok s.job then
    return { s with reply := c.reply.stored s.job.kind, state := .done }
  else throw .badArgument

def aiRelayHeartbeat (sender live : Pid) (jobId now : UInt32) : Except AiRefusal AiSlot := do
  s.workerCheck sender live jobId
  return { s with progress := now }

def aiRelayFail (reason : UInt32) : AiSlot :=
  if s.state ≠ .sent then s else { s with state := .failed, abort := reason }

/-- A reply, or `none` for a failed job; a take that is refused changes nothing. -/
def aiRelayTake (caller : Pid) : Option (Option AiReply × AiSlot) :=
  if (s.state ≠ .done ∧ s.state ≠ .failed) ∨ s.callerPid ≠ caller then none
  else some (if s.state = .done then some s.reply else none, { s with state := .free })

def aiRelayDropCaller : AiSlot := { s with state := .free }

/-! ## Runs -/

structure AiWorld where
  slot : AiSlot
  log : List (Job Pid AiCall UInt32)

def AiWorld.init : AiWorld := ⟨aiRelayInit, []⟩

inductive AiOp where
  | begin (caller worker : Pid) (prompt : List UInt8) (max now : UInt32)
  | beginGguf (caller worker : Pid) (tokens : List UInt32) (generated rngState now : UInt32)
  | beginGgufSession (caller worker : Pid) (sessionId max : UInt32) (args : SessionArgs) (now : UInt32)
  | cancel
  | fetch (sender live : Pid) (jobId : UInt32)
  | complete (c : AiCall)
  | heartbeat (sender live : Pid) (jobId now : UInt32)
  | fail (reason : UInt32)
  | take (caller : Pid)
  | dropCaller

def AiWorld.begin (w : AiWorld) (caller worker : Pid) (answer : Option AiSlot) : AiWorld :=
  answer.elim w fun s => ⟨s, ⟨s.jobId.toNat, caller, worker, .outstanding⟩ :: w.log⟩

def AiWorld.step (w : AiWorld) : AiOp → AiWorld
  | .begin caller worker prompt max now =>
    w.begin caller worker (aiRelayBegin w.slot caller worker prompt max now)
  | .beginGguf caller worker tokens generated rngState now =>
    w.begin caller worker (aiRelayBeginGguf w.slot caller worker tokens generated rngState now)
  | .beginGgufSession caller worker sessionId max args now =>
    w.begin caller worker (aiRelayBeginGgufSession w.slot caller worker sessionId max args now)
  | .cancel => ⟨aiRelayCancel w.slot, withdraw .cancelled w.log⟩
  | .fetch _ _ _ => w
  | .complete c =>
    match aiRelayComplete w.slot c with
    | .ok s => ⟨s, settle (.completed c) w.log⟩
    | .error _ => w
  | .heartbeat sender live jobId now =>
    match aiRelayHeartbeat w.slot sender live jobId now with
    | .ok s => ⟨s, w.log⟩
    | .error _ => w
  | .fail reason => ⟨aiRelayFail w.slot reason, withdraw (.failed reason) w.log⟩
  | .take caller => (aiRelayTake w.slot caller).elim w fun t => ⟨t.2, close .taken w.log⟩
  | .dropCaller => ⟨aiRelayDropCaller w.slot, close .dropped w.log⟩

/-! ## The slot and the log -/

theorem aiJobNumber_next {id : UInt32} {n : ℕ} (h : id.toNat = n % jobNumbers + 1) :
    (aiJobNumber (id + 1)).toNat = (n + 1) % jobNumbers + 1 :=
  netNextJob_eq h

def AiSlot.Serves (job : Job Pid AiCall UInt32) : Prop :=
  job.owner = s.callerPid ∧ job.worker = s.workerPid ∧ job.id = s.jobId.toNat

def AiSlot.Shows (log : List (Job Pid AiCall UInt32)) : Prop :=
  match s.state with
  | .free => Idle log
  | .sent => ∃ job rest, log = job :: rest ∧ s.Serves job ∧ job.fate = .outstanding
  | .done => ∃ job rest, log = job :: rest ∧ s.Serves job ∧ ∃ c : AiCall, job.fate = .completed c ∧
      c.sender = job.worker ∧ c.reply.jobId.toNat = job.id ∧ s.reply = c.reply.stored s.job.kind
  | .failed => ∃ job rest, log = job :: rest ∧ s.Serves job ∧ job.fate = .failed s.abort

structure AiInv (w : AiWorld) : Prop where
  numbered : Numbered jobNumbers w.log
  next : (aiJobNumber w.slot.nextJob).toNat = w.log.length % jobNumbers + 1
  single : Single w.log
  shows : w.slot.Shows w.log

theorem AiInv.init : AiInv AiWorld.init where
  numbered := trivial
  next := rfl
  single := by
    intro job hjob
    cases hjob
  shows := by
    intro job hjob
    cases hjob

variable {w : AiWorld}

theorem AiInv.begun (h : AiInv w) {caller worker : Pid} (haccepts : w.slot.accepts caller worker = true)
    (job : AiJob) (now : UInt32) : AiInv (w.begin caller worker (some (w.slot.begun caller worker job now))) := by
  have hfree : w.slot.state = .free := by
    simp only [AiSlot.accepts, decide_eq_true_eq] at haccepts
    exact haccepts.1
  have hidle : Idle w.log := by
    have hshows := h.shows
    rwa [AiSlot.Shows, hfree] at hshows
  exact ⟨⟨h.next, h.numbered⟩, aiJobNumber_next h.next, hidle, _, _, rfl, ⟨rfl, rfl, rfl⟩, rfl⟩

theorem workerCheck_ok {s : AiSlot} {sender live : Pid} {jobId : UInt32}
    (h : s.workerCheck sender live jobId = .ok ()) : s.state = .sent ∧ s.workerPid = sender ∧ s.jobId = jobId := by
  unfold AiSlot.workerCheck at h
  split_ifs at h with hreq hstale
  push Not at hstale
  exact hstale

section
variable (h : AiInv w)
include h

theorem AiInv.refated {s : AiSlot} {log : List (Job Pid AiCall UInt32)}
    (hlog : Refated w.log log) (hnext : s.nextJob = w.slot.nextJob) (hshows : s.Shows log) :
    AiInv ⟨s, log⟩ := by
  obtain ⟨hlength, hnumbered, hsingle⟩ := hlog.keeps
  refine ⟨hnumbered h.numbered, ?_, hsingle h.single, hshows⟩
  rw [hnext, hlength]
  exact h.next

theorem AiInv.sent (hsent : w.slot.state = .sent) : ∃ job rest,
    w.log = job :: rest ∧ w.slot.Serves job ∧ job.fate = .outstanding := by
  have hshows := h.shows
  rwa [AiSlot.Shows, hsent] at hshows

theorem AiInv.complete (c : AiCall) : AiInv (w.step (.complete c)) := by
  simp only [AiWorld.step]
  split
  next s hs =>
    unfold aiRelayComplete at hs
    cases hcheck : w.slot.workerCheck c.sender c.live c.reply.jobId with
    | error e =>
      rw [hcheck] at hs
      cases hs
    | ok u =>
      rw [hcheck] at hs
      obtain ⟨hsent, hworker, hjob⟩ := workerCheck_ok hcheck
      obtain ⟨job, rest, hlog, hserves, -⟩ := h.sent hsent
      by_cases hok : c.reply.ok w.slot.job = true
      · have hs' : { w.slot with reply := c.reply.stored w.slot.job.kind, state := AiState.done } = s := by
          simpa [hok, bind, Except.bind, pure, Except.pure] using hs
        subst hs'
        refine h.refated (settle_refated _ _) rfl ?_
        rw [hlog]
        refine ⟨_, _, rfl, hserves, c, rfl, hworker.symm.trans hserves.2.1.symm, ?_, rfl⟩
        rw [← hjob, hserves.2.2]
      · simp [hok, bind, Except.bind, throw, throwThe, MonadExceptOf.throw] at hs
  next e he => exact h

theorem AiInv.free (fate : Fate AiCall UInt32) (hf : fate.held = false) :
    AiInv ⟨{ w.slot with state := .free }, close fate w.log⟩ :=
  h.refated (close_refated _ _) rfl (h.single.close hf)

theorem AiInv.withdraw_other (hs : w.slot.state ≠ .sent) (fate : Fate AiCall UInt32) :
    withdraw fate w.log = w.log := by
  refine Desk.withdraw_other (fun job hjob hout => ?_) fate
  have hshows := h.shows
  unfold AiSlot.Shows at hshows
  split at hshows
  · have hheld := hshows job (List.mem_of_mem_head? hjob)
    rw [hout] at hheld
    cases hheld
  · exact hs ‹_›
  all_goals
    obtain ⟨job', rest, hlog, hfate⟩ := hshows
    rw [hlog] at hjob
    cases hjob
    simp [hout] at hfate

theorem AiInv.cancel : AiInv (w.step .cancel) := by
  simp only [AiWorld.step, aiRelayCancel]
  split_ifs with hs
  · rw [h.withdraw_other hs]
    exact h
  · obtain ⟨job, rest, hlog, -, hout⟩ := h.sent (not_not.mp hs)
    have hclose : withdraw .cancelled w.log = close .cancelled w.log := by
      rw [hlog, withdraw_outstanding hout, close, hout]
      rfl
    rw [hclose]
    exact h.free .cancelled rfl

theorem AiInv.fail (reason : UInt32) : AiInv (w.step (.fail reason)) := by
  simp only [AiWorld.step, aiRelayFail]
  split_ifs with hs
  · rw [h.withdraw_other hs]
    exact h
  · obtain ⟨job, rest, hlog, hserves, hout⟩ := h.sent (not_not.mp hs)
    refine h.refated (withdraw_refated _ _) rfl ?_
    rw [hlog, withdraw_outstanding hout]
    exact ⟨_, _, rfl, hserves, rfl⟩

end

theorem AiInv.step (w : AiWorld) (op : AiOp) (h : AiInv w) : AiInv (w.step op) := by
  cases op with
  | begin caller worker prompt max now =>
    simp only [AiWorld.step, aiRelayBegin]
    split_ifs with hok
    · exact h.begun (by simp_all) _ _
    · exact h
  | beginGguf caller worker tokens generated rngState now =>
    simp only [AiWorld.step, aiRelayBeginGguf]
    split_ifs with hok
    · exact h.begun (by simp_all) _ _
    · exact h
  | beginGgufSession caller worker sessionId max args now =>
    simp only [AiWorld.step, aiRelayBeginGgufSession]
    split_ifs with hok
    · exact h.begun (by simp_all) _ _
    · exact h
  | cancel => exact h.cancel
  | fetch sender live jobId => exact h
  | complete c => exact h.complete c
  | heartbeat sender live jobId now =>
    simp only [AiWorld.step]
    split
    next s hs =>
      unfold aiRelayHeartbeat at hs
      cases hcheck : w.slot.workerCheck sender live jobId with
      | error e =>
        rw [hcheck] at hs
        cases hs
      | ok u =>
        rw [hcheck] at hs
        cases hs
        exact { h with }
    next e he => exact h
  | fail reason => exact h.fail reason
  | take caller =>
    simp only [AiWorld.step, aiRelayTake]
    split_ifs
    · exact h
    · exact h.free .taken rfl
    · exact h.free .taken rfl
  | dropCaller => exact h.free .dropped rfl

end Mohhdy.Relay
