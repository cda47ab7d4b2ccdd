import Mohhdy.Kernel.Tasks

/-! The changes that a step of the kernel is made of. An invariant of the tasks is shown for each
change; that a step does nothing else is shown here, once. -/
namespace Mohhdy.Kernel
set_option autoImplicit false

open Tables

variable {s s' s₀ : Tasking} {op : TaskOp} {t : Task} {pid q caller requester : ℤ} {k : ℕ} {N : ℤ → Prop}

def NoRows (sp : Spill) (pid : ℤ) : Prop := ∀ x ∈ sp.slots, x.isFor pid = false

def Stuck (s : Tasking) : Prop := ∀ t ∈ s.tasks, t.yields.state ≠ .ready

def TaskOp.ends (s : Tasking) : TaskOp → List ℤ
  | .exit caller _ => if (getTaskById s caller).any fun t => t.type == .user then [caller] else []
  | .kill caller pid =>
    match (taskKill s caller pid).2 with
    | .ok _ => [pid]
    | .error _ => []
  | .killChildren caller => if (getTaskById s caller).isSome then directChildren s caller else []
  | _ => []

def TaskOp.notified (s : Tasking) : TaskOp → List ℤ
  | .suspend caller _ | .resume caller _ | .killChildren caller | .replay caller _ => [caller]
  | .delegate caller _ supervisor => [caller, supervisor]
  | .exit pid _ | .kill _ pid => (getTaskById s pid).toList.map Task.parentPid
  | .serviceEvent pid _ | .relay pid _ => [pid]
  | _ => []

def TaskOp.target : TaskOp → Option ℤ
  | .kill _ pid => some pid
  | _ => none

/-! ## Messages of the kernel -/

/-- The kernel writes to the logs of tasks and sends messages to tasks in `N`, at most `k` of them
through the spill. -/
inductive Signals (N : ℤ → Prop) (s : Tasking) : ℕ → Tasking → Prop
  | refl : Signals N s 0 s
  | more {k : ℕ} {s' : Tasking} (h : Signals N s k s') : Signals N s (k + 1) s'
  | noted {k : ℕ} {s' : Tasking} (h : Signals N s k s') (pid : ℤ) (es : Task → List SupervisionEvent)
    (q : Task → UInt32) (n : Task → Notify) :
    Signals N s k (s'.modify pid fun t => { t with events := es t, eventSequence := q t, notify := n t })
  | posted {k : ℕ} {s' : Tasking} {pid : ℤ} {t : Task} (h : Signals N s k s') (hN : N pid)
    (ht : getTaskById s' pid = some t) (p : Payload) (hroom : t.mailbox.length < 4) :
    Signals N s k ((s'.modify pid fun u =>
      messageQueued { u with mailbox := t.mailbox ++ [⟨0, p⟩] }).queued pid p)
  | spilled {k : ℕ} {s' : Tasking} {pid : ℤ} {t : Task} {sp : Spill} {p : Payload} (h : Signals N s k s') (hN : N pid)
    (ht : getTaskById s' pid = some t) (hfull : 4 ≤ t.mailbox.length) (hpush : spillPush s'.spill pid p = .ok sp) :
    Signals N s (k + 1) (((s'.modify pid messageQueued).setSpill sp).queued pid p)

theorem ipcEndpointSend_ok {box box' : List Message} {sender : ℤ} {e : Payload}
    (h : ipcEndpointSend box sender e = .ok box') : box.length < 4 ∧ box' = box ++ [⟨sender, e⟩] := by
  unfold ipcEndpointSend at h
  split at h
  · cases h
  split at h
  · cases h
  cases h
  exact ⟨by omega, rfl⟩

theorem spillPush_ok {sp sp' : Spill} {e : Payload} (h : spillPush sp pid e = .ok sp') :
    e.data.length ≤ 96 ∧ (sp.slots.any fun x => !x.used) = true ∧ sp' =
      ⟨modifyFirst (fun x => !x.used) (fun _ => ⟨pid, bump sp.order, e, true⟩) sp.slots, bump sp.order⟩ := by
  unfold spillPush at h
  split at h
  · cases h
  rename_i hsize
  split at h
  · rename_i hany
    cases h
    exact ⟨by omega, hany, rfl⟩
  · cases h

section
variable (h : Signals N s k s') (hN : ∀ t, getTaskById s' pid = some t → N pid)
include h hN

theorem Signals.post (p : Payload) : Signals N s k (post s' pid p).1 := by
  unfold Kernel.post
  split
  · exact h
  rename_i t ht
  split
  · rename_i box hbox
    obtain ⟨hroom, rfl⟩ := ipcEndpointSend_ok hbox
    exact h.posted (hN t ht) ht p hroom
  · exact h

theorem Signals.deliver (p : Payload) : Signals N s (k + 1) (deliver s' pid p).1 := by
  have hpost := h.post hN p
  unfold Kernel.deliver
  split
  · rename_i w hok
    rw [hok] at hpost
    exact hpost.more
  rename_i w err hfail
  split
  · exact h.more
  rename_i t ht
  split
  · rename_i sp hpush
    refine h.spilled (hN t ht) ht ?_ hpush
    -- the mailbox refused an event that is not too long
    have hsize := (spillPush_ok hpush).1
    by_contra hroom
    simp only [Kernel.post, ht, ipcEndpointSend, if_neg (show ¬96 < p.data.length by omega), if_neg hroom] at hfail
    cases hfail
  · exact h.more

theorem Signals.recordSupervisionEvent (action : SupervisionAction) (child related : ℤ)
    (detail : UInt32) :
    Signals N s (k + 1) (recordSupervisionEvent s' pid action child related detail) := by
  have hnotify : ∀ {w : Tasking}, Signals N s k w → N pid → ∀ e,
      Signals N s (k + 1) (notifySupervisionEvent w pid e) := by
    intro w hw hpid e
    unfold notifySupervisionEvent
    split
    · exact hw.more
    split
    · exact hw.more
    split
    · exact hw.more
    · exact (hw.noted pid Task.events Task.eventSequence _).deliver (fun _ _ => hpid) _
  unfold Kernel.recordSupervisionEvent
  split
  · exact h.more
  rename_i t ht
  exact hnotify (h.noted pid _ _ Task.notify) (hN t ht) _

end

theorem Signals.reportParentExit (h : Signals N s k s')
    (hN : ∀ u, getTaskById s' t.parentPid = some u → N t.parentPid) (reason : ExitReason) :
    Signals N s (k + 1) (reportParentExit s' t reason) := by
  unfold Kernel.reportParentExit
  split
  · exact h.more
  split
  · exact h.more
  rename_i u hu
  split
  · exact h.more
  have hforgot := (h.recordSupervisionEvent hN .exit t.id 0 reason.code).noted t.parentPid Task.events
    Task.eventSequence fun u => (u.forgetChild t.id).notify
  split
  · exact hforgot
  · exact hforgot.post (fun _ _ => hN u hu) _

/-! ## Changes -/

def TaskOp.clears (s : Tasking) : TaskOp → Tasking
  | .exit caller _ =>
    if (getTaskById s caller).any fun t => t.type == .user then s.setSpill (spillClearPid s.spill caller) else s
  | .kill _ pid => if pid ≤ 0 then s else s.setSpill (spillClearPid s.spill pid)
  | _ => s

def Told (s₀ : Tasking) (op : TaskOp) (pid : ℤ) : Prop := pid ∈ op.notified s₀ ∧ ∃ t, getTaskById s₀ pid = some t

/-- What a step has changed so far, with at most `k` messages through the spill. -/
inductive Steps (s₀ : Tasking) (op : TaskOp) : ℕ → Tasking → Prop
  | start : Steps s₀ op 0 (op.clears s₀)
  | more {k : ℕ} {s : Tasking} (h : Steps s₀ op k s) : Steps s₀ op (k + 1) s
  | told {k j : ℕ} {s s' : Tasking} (h : Steps s₀ op k s) (hs : Signals (Told s₀ op) s j s') : Steps s₀ op (k + j) s'
  | sent {k : ℕ} {s : Tasking} {target caller : ℤ} {t : Task} (h : Steps s₀ op k s) (hquiet : op.notified s₀ = [])
    (hc : op.caller = some caller) (ht : getTaskById s target = some t) (p : Payload) :
    Steps s₀ op k (s.modify target fun u => messageQueued { u with mailbox := t.mailbox ++ [⟨caller, p⟩] })
  | took {k : ℕ} {s : Tasking} {pid : ℤ} {t : Task} {m : Message} {box : List Message} (h : Steps s₀ op k s)
    (hquiet : op.notified s₀ = []) (ht : getTaskById s pid = some t) (hbox : t.mailbox = m :: box) :
    Steps s₀ op k ((s.modify pid fun u => { u with mailbox := box }).received pid m)
  | popped {k : ℕ} {s : Tasking} {pid : ℤ} {t : Task} {p : Payload} {sp : Spill} (h : Steps s₀ op k s)
    (hquiet : op.notified s₀ = []) (ht : getTaskById s pid = some t) (hbox : t.mailbox = [])
    (hpop : spillPop s.spill pid = .ok (p, sp)) : Steps s₀ op k ((s.setSpill sp).received pid ⟨0, p⟩)
  | slept {k : ℕ} {s : Tasking} {pid : ℤ} {t : Task} (h : Steps s₀ op k s) (hc : op.caller = some pid)
    (ht : getTaskById s pid = some t) (huser : t.type = .user) (hbox : t.mailbox = [])
    (hrows : 0 < pid → NoRows s.spill pid) (timeout : UInt32) :
    Steps s₀ op k (s.modify pid fun u => { u with ipcWait := ipcWaitBegin s.ticks timeout, state := .blockedIpc,
                                                  inReceive := true })
  | again {k : ℕ} {s : Tasking} {pid : ℤ} {t : Task} (h : Steps s₀ op k s) (ht : getTaskById s pid = some t)
    (hin : t.inReceive = true) (hrun : t.state = .running) (huser : t.type = .user) (hbox : t.mailbox = [])
    (hrows : 0 < pid → NoRows s.spill pid) :
    Steps s₀ op k ((s.modify pid fun u => { u with inReceive := false }).modify pid fun u => { u with
      ipcWait := { u.ipcWait with blocked := true, woken := false }, state := .blockedIpc, inReceive := true })
  | left {k : ℕ} {s : Tasking} (h : Steps s₀ op k s) (pid : ℤ) :
    Steps s₀ op k (s.modify pid fun u => { u with inReceive := false })
  | settled {k : ℕ} {s : Tasking} {pid : ℤ} (h : Steps s₀ op k s)
    (hrun : ∀ t, getTaskById s pid = some t → t.state = .running ∧ t.inReceive = false) (w : Task → IpcWait) :
    Steps s₀ op k (s.modify pid fun u => { u with ipcWait := w u })
  | yielded {k : ℕ} {s : Tasking} (h : Steps s₀ op k s) : Steps s₀ op k (s.mapTasks Task.yields)
  | ran {k : ℕ} {s : Tasking} {pid : ℤ} (h : Steps s₀ op k s)
    (hready : Stuck s₀ ∨ ∀ t, getTaskById s pid = some t → t.state = .ready) :
    Steps s₀ op k (s.modify pid fun u => { u with state := .running })
  | ticked {k : ℕ} {s : Tasking} (h : Steps s₀ op k s) : Steps s₀ op k (tick s)
  | paused {k : ℕ} {s : Tasking} {pid : ℤ} {state : TaskState} (h : Steps s₀ op k s) (hc : op.caller = some pid)
    (hstate : state ≠ .blockedIpc)
    (huser : called s₀ op = true → ∀ t, getTaskById s pid = some t → t.type = .user) :
    Steps s₀ op k (s.modify pid fun u => { u with state := state })
  | unblocked {k : ℕ} {s : Tasking} (h : Steps s₀ op k s) (pid : ℤ) :
    Steps s₀ op k (s.modify pid fun u => if u.state = .blockedKernel then { u with state := .ready } else u)
  | controlled {k : ℕ} {s : Tasking} {pid : ℤ} {t : Task} {new : TaskState} (h : Steps s₀ op k s)
    (ht : getTaskById s pid = some t) (huser : t.type = .user) (hold : t.state ≠ .waiting)
    (hnew : new ≠ .waiting ∧ new ≠ .blockedIpc) : Steps s₀ op k (s.modify pid fun u => { u with state := new })
  | marked {k : ℕ} {s : Tasking} {caller child : ℤ} {t c : Task} (h : Steps s₀ op k s) (hends : op.ends s₀ = [])
    (hc : op.caller = some caller) (ht : getTaskById s caller = some t) (hchild : getTaskById s child = some c)
    (hparent : c.parentPid = caller) : Steps s₀ op k (s.modify child fun u => { u with waiterPid := caller })
  | markedAll {k : ℕ} {s : Tasking} {caller : ℤ} {t : Task} (h : Steps s₀ op k s) (hends : op.ends s₀ = [])
    (hc : op.caller = some caller) (ht : getTaskById s caller = some t) :
    Steps s₀ op k (s.setTasks (markChildren caller s.tasks false).1)
  | adopted {k j : ℕ} {s s' : Tasking} {caller child supervisor : ℤ} {t c v : Task} (h : Steps s₀ op k s)
    (hs : Signals (Told s₀ op) s j s') (hc : op.caller = some caller)
    (ht : getTaskById s caller = some t) (hchild : getTaskById s child = some c) (hparent : c.parentPid = caller)
    (hfree : c.waiterPid = 0) (hv : getTaskById s supervisor = some v)
    (hwalk : delegateWalk s.tasks child 16 (some v) = false) :
    Steps s₀ op (k + j) (s'.modify child fun u => { u with parentPid := supervisor })
  | ended {k j : ℕ} {s s' : Tasking} {t : Task} (h : Steps s₀ op k s) (hs : Signals (Told s₀ op) s j s')
    (hend : t.id ∈ op.ends s₀) (ht : getTaskById s t.id = some t)
    (huser : t.type = .user ∨ t.id ≠ 0 ∨ ∃ u, getTaskById s₀ t.parentPid = some u) :
    Steps s₀ op (k + j) (unlinkTask (reparentChildren (wakeWaiter s' t.id) t) t.id)
  | created {k : ℕ} {s : Tasking} {parent waiter : ℤ} (h : Steps s₀ op k s) (hends : op.ends s₀ = [])
    (hp : parent = -1 ∧ waiter = 0 ∨ op.caller = some parent ∧ (∃ t, getTaskById s parent = some t) ∧
      (waiter = 0 ∨ waiter = parent)) (boot : Bool) (generation : UInt32) :
    Steps s₀ op k (createTask s parent waiter boot generation)
  | rooted {k : ℕ} {s : Tasking} (h : Steps s₀ op k s) (pid : ℤ) : Steps s₀ op k { s with rootShellPid := pid }

/-! ## Receiving -/

theorem ipcEndpointReceive_ok {box rest : List Message} {m : Message}
    (h : ipcEndpointReceive box = .ok (m, rest)) : box = m :: rest := by
  cases box with
  | nil => cases h
  | cons a l =>
    cases h
    rfl

theorem ipcEndpointReceive_error {box : List Message} {e : IpcErr}
    (h : ipcEndpointReceive box = .error e) : box = [] := by
  cases box with
  | nil => rfl
  | cons a l => cases h

theorem Steps.sysIpcReceive (h : Steps s₀ op k s) (hquiet : op.notified s₀ = []) (pid : ℤ) :
    Steps s₀ op k (sysIpcReceive s pid).1 := by
  unfold Kernel.sysIpcReceive
  split
  · exact h
  rename_i t ht
  split
  · exact h
  split
  · rename_i m box hbox
    exact h.took hquiet ht (ipcEndpointReceive_ok hbox)
  rename_i hbox
  split
  · rename_i hpop
    exact h.popped hquiet ht (ipcEndpointReceive_error hbox) hpop
  · exact h

theorem sysIpcReceive_empty (h : sysIpcReceive s pid = (s', .error .empty)) :
    s' = s ∧ ∃ t, getTaskById s pid = some t ∧ t.type = .user ∧ t.mailbox = [] ∧
      (0 < pid → NoRows s.spill pid) := by
  unfold sysIpcReceive at h
  split at h
  · cases h
  rename_i t ht
  split at h
  · cases h
  rename_i huser
  split at h
  · cases h
  rename_i e hbox
  split at h
  · cases h
  rename_i e' hpop
  cases h
  refine ⟨rfl, t, ht, by simpa using huser, ipcEndpointReceive_error hbox, fun hpos => ?_⟩
  unfold spillPop at hpop
  rw [if_neg (by omega)] at hpop
  split at hpop
  · rename_i hnone
    exact least_none hnone
  · cases hpop

theorem sysIpcReceive_lookup {a : Task} (h : getTaskById (sysIpcReceive s pid).1 q = some a) :
    ∃ t box, getTaskById s q = some t ∧ a = { t with mailbox := box } := by
  have hsame : getTaskById s q = some a → ∃ t box, getTaskById s q = some t ∧
      a = { t with mailbox := box } := fun h => ⟨a, a.mailbox, h, rfl⟩
  unfold sysIpcReceive at h
  split at h
  · exact hsame h
  split at h
  · exact hsame h
  split at h
  · rename_i m box _
    change getTaskById (s.modify pid fun t => { t with mailbox := box }) q = some a at h
    rw [getTaskById_modify s pid q (fun _ => by rfl)] at h
    split at h
    · obtain ⟨t, ht, rfl⟩ := Option.map_eq_some_iff.mp h
      exact ⟨t, box, ht, rfl⟩
    · exact hsame h
  · split at h
    · exact hsame h
    · exact hsame h

theorem Steps.resumeReceive (h : Steps s₀ op k s) (hquiet : op.notified s₀ = [])
    (ht : getTaskById s pid = some t) (hrun : t.state = .running) (hin : t.inReceive = true) :
    Steps s₀ op k (resumeReceive s pid).1 := by
  have hfound : ∀ a, getTaskById (s.modify pid fun t => { t with inReceive := false }) pid = some a →
      a = { t with inReceive := false } := by
    intro a ha
    rw [getTaskById_modify_self (fun _ => by rfl) ht] at ha
    exact (Option.some.inj ha).symm
  simp only [Kernel.resumeReceive, ht]
  split
  · rename_i w hrecv
    obtain ⟨rfl, a, ha, huser, hbox, hrows⟩ := sysIpcReceive_empty hrecv
    have hat := hfound a ha
    subst hat
    split
    · refine (h.left pid).settled (fun b hb => ?_) _
      rw [hfound b hb]
      exact ⟨hrun, rfl⟩
    · exact h.again ht hin hrun huser hbox hrows
  · rename_i w r _ hrecv
    have hsteps := (h.left pid).sysIpcReceive hquiet pid
    rw [hrecv] at hsteps
    refine hsteps.settled (fun b hb => ?_) _
    obtain ⟨a, box, ha, rfl⟩ : ∃ a box, getTaskById (s.modify pid fun t => { t with inReceive := false }) pid =
        some a ∧ b = { a with mailbox := box } := sysIpcReceive_lookup (hrecv ▸ hb)
    rw [hfound a ha]
    exact ⟨hrun, rfl⟩

theorem Steps.schedule (s : Tasking) (next : ℤ) : Steps s (.schedule next) 0 (schedule s next).1 := by
  have hstart : Steps s (.schedule next) 0 s := .start
  simp only [Kernel.schedule]
  split
  · exact hstart
  rename_i t ht
  split
  · rename_i hready
    have htaken : Steps s (.schedule next) 0 ((s.mapTasks Task.yields).modify next fun t =>
        { t with state := .running }) := by
      refine hstart.yielded.ran ?_
      rcases hready with hready | hnone
      · right
        intro a ha
        cases ha.symm.trans ht
        exact hready
      · left
        intro a ha
        have := List.all_eq_true.mp hnone a.yields (List.mem_map_of_mem ha)
        simpa using this
    split
    · rename_i hin
      exact htaken.resumeReceive rfl (t := { t with state := .running })
        (getTaskById_modify_self (fun _ => by rfl) ht) rfl hin
    · exact htaken
  · exact hstart

theorem Steps.sysIpcReceiveWait (s : Tasking) (caller : ℤ) (timeout : UInt32) (mayBlock : Bool) :
    Steps s (.receiveWait caller timeout mayBlock) 0 (sysIpcReceiveWait s caller timeout mayBlock).1 := by
  have hstart : Steps s (.receiveWait caller timeout mayBlock) 0 s := .start
  have hsteps := hstart.sysIpcReceive rfl caller
  unfold Kernel.sysIpcReceiveWait
  split
  · rename_i w hrecv
    obtain ⟨rfl, t, ht, huser, hbox, hrows⟩ := sysIpcReceive_empty hrecv
    split
    · exact hstart
    · exact hstart.slept rfl ht huser hbox hrows timeout
  · rename_i r _ hrecv
    rwa [hrecv] at hsteps

/-! ## The supervision tree -/

theorem called_user (h : called s op = true) (hop : op.caller = some caller) :
    ∃ t, getTaskById s caller = some t ∧ t.type = .user ∧ t.state = .running := by
  rw [called, hop, Option.all_some] at h
  cases ht : getTaskById s caller with
  | none =>
    rw [ht] at h
    cases h
  | some t =>
    rw [ht, Option.any_some, Bool.and_eq_true, beq_iff_eq, beq_iff_eq] at h
    exact ⟨t, rfl, h.1, h.2⟩

theorem called_type (hop : op.caller = some caller) (ht : getTaskById s caller = some t)
    (h : called s op = true) : t.type = .user := by
  obtain ⟨a, ha, huser, -⟩ := called_user h hop
  cases ha.symm.trans ht
  exact huser

theorem canCreate_found (h : canCreate s caller = none) : ∃ t, getTaskById s caller = some t := by
  unfold canCreate at h
  split at h
  · cases h
  rename_i t ht
  exact ⟨t, ht⟩

theorem Steps.sysExec (s : Tasking) (caller : ℤ) (generation : UInt32) :
    Steps s (.exec caller generation) 0 (sysExec s caller generation).1 := by
  have hstart : Steps s (.exec caller generation) 0 s := .start
  unfold Kernel.sysExec
  split
  · exact hstart
  rename_i hcan
  obtain ⟨a, ha⟩ := canCreate_found hcan
  refine (hstart.created rfl (.inr ⟨rfl, ⟨a, ha⟩, .inr rfl⟩) false generation).paused rfl (by decide)
    fun hcalled t ht => ?_
  have hta : t = a := by
    rw [getTaskById, createTask, lookup, List.find?_append] at ht
    rw [getTaskById, lookup] at ha
    rw [ha] at ht
    exact (Option.some.inj ht).symm
  exact hta ▸ called_type rfl ha hcalled

theorem Steps.waitForChild (s : Tasking) (caller child : ℤ) :
    Steps s (.wait caller child) 0 (waitForChild s caller child).1 := by
  have hstart : Steps s (.wait caller child) 0 s := .start
  unfold Kernel.waitForChild
  split
  · rename_i t c ht hc
    split
    · exact hstart
    rename_i hparent
    split
    · exact hstart
    refine (hstart.marked rfl rfl ht hc (not_not.mp hparent)).paused rfl (by decide) fun hcalled a ha => ?_
    rw [getTaskById_modify s child caller fun _ => by rfl, ht] at ha
    have htype := called_type rfl ht hcalled
    split at ha <;> cases ha <;> exact htype
  · exact hstart

theorem markChildren_map {β : Type} (g : Task → β) (requester : ℤ)
    (hg : ∀ t, g { t with waiterPid := requester } = g t) (ts : List Task) (found : Bool) :
    (markChildren requester ts found).1.map g = ts.map g := by
  induction ts generalizing found with
  | nil => rfl
  | cons t ts ih =>
    simp only [markChildren]
    split
    · split
      · rfl
      · simp [hg, ih]
    · simp [ih]

theorem markChildren_lookup {ts : List Task} {found : Bool}
    (h : lookup Task.id q (markChildren requester ts found).1 = some t) :
    ∃ a, lookup Task.id q ts = some a ∧ a.type = t.type := by
  have hlook : ∀ l : List Task, lookup Prod.fst q (l.map fun t => (t.id, t.type)) =
      (lookup Task.id q l).map fun t => (t.id, t.type) := lookup_map (fun _ => rfl) q
  have hmap := congrArg (lookup Prod.fst q) (markChildren_map (fun t => (t.id, t.type)) requester
    (fun _ => rfl) ts found)
  rw [hlook, hlook, h] at hmap
  obtain ⟨a, ha, heq⟩ := Option.map_eq_some_iff.mp hmap.symm
  exact ⟨a, ha, congrArg Prod.snd heq⟩

theorem Steps.waitForAnyChild (s : Tasking) (caller : ℤ) :
    Steps s (.waitAny caller) 0 (waitForAnyChild s caller).1 := by
  have hstart : Steps s (.waitAny caller) 0 s := .start
  unfold Kernel.waitForAnyChild
  split
  · exact hstart
  rename_i t ht
  have hmarks := hstart.markedAll rfl rfl ht
  split
  · rename_i tasks hm
    rw [hm] at hmarks
    refine hmarks.paused rfl (by decide) fun hcalled a ha => ?_
    obtain ⟨b, hb, htype⟩ := markChildren_lookup (hm ▸ ha)
    exact htype ▸ called_type rfl hb hcalled
  · rename_i tasks e hm
    rwa [hm] at hmarks

theorem Steps.controlChild {old new : TaskState} (hold : old ≠ .waiting) (hnew : new ≠ .waiting ∧ new ≠ .blockedIpc)
    (action : SupervisionAction) (child : ℤ) (hstart : Steps s op 0 s) (hN : caller ∈ op.notified s) :
    Steps s op 1 (controlChild old new action s caller child).1 := by
  unfold Kernel.controlChild
  split
  · exact hstart.more
  rename_i c hc
  split
  · exact hstart.more
  rename_i hguard
  split
  · exact hstart.more
  rename_i hstate
  rw [not_or, not_not, not_not] at hguard
  rw [not_not] at hstate
  refine (hstart.controlled hc hguard.1 (hstate ▸ hold) hnew).told (j := 1)
    (Signals.refl.recordSupervisionEvent (fun t ht => ⟨hN, ?_⟩) _ _ _ _)
  rw [getTaskById_modify s child caller fun _ => by rfl] at ht
  split at ht
  · exact (Option.map_eq_some_iff.mp ht).imp fun a ha => ha.1
  · exact ⟨t, ht⟩

theorem Steps.delegateChild (s : Tasking) (caller child supervisor : ℤ) :
    Steps s (.delegate caller child supervisor) 2 (delegateChild s caller child supervisor).1 := by
  have hstart : Steps s (.delegate caller child supervisor) 0 s := .start
  unfold Kernel.delegateChild
  split
  · rename_i t c v ht hc hv
    split
    · exact hstart.more.more
    rename_i hparent
    split
    · exact hstart.more.more
    split
    · exact hstart.more.more
    rename_i hfree
    split
    · exact hstart.more.more
    split
    · exact hstart.more.more
    rename_i hwalk
    have hcaller : Told s (.delegate caller child supervisor) caller := ⟨by simp [TaskOp.notified], t, ht⟩
    have hsup : Told s (.delegate caller child supervisor) supervisor := ⟨by simp [TaskOp.notified], v, hv⟩
    have hrefl : Signals (Told s (.delegate caller child supervisor)) s 0 s := .refl
    have hsignals := ((hrefl.recordSupervisionEvent (fun _ _ => hcaller) .delegateOut child supervisor 0)
      |>.recordSupervisionEvent (fun _ _ => hsup) .delegateIn child caller 0).noted caller Task.events
        Task.eventSequence fun u => (u.forgetChild child).notify
    exact hstart.adopted hsignals rfl ht hc (not_not.mp hparent) (not_not.mp hfree) hv (by simpa using hwalk)
  · exact hstart.more.more

theorem Steps.terminate (h : Steps s₀ op k s) (hend : t.id ∈ op.ends s₀) (ht : getTaskById s t.id = some t)
    (huser : t.type = .user ∨ t.id ≠ 0 ∨ ∃ u, getTaskById s₀ t.parentPid = some u)
    (hN : ∀ u, getTaskById s t.parentPid = some u → Told s₀ op t.parentPid) (reason : ExitReason) :
    Steps s₀ op (k + 1) (terminate s t reason) :=
  h.ended (Signals.refl.reportParentExit hN reason) hend ht huser

theorem Steps.exit (s : Tasking) (caller : ℤ) (reason : ExitReason) :
    Steps s (.exit caller reason) 1 (taskStep s (.exit caller reason)) := by
  have hstart : Steps s (.exit caller reason) 0 _ := .start
  simp only [taskStep]
  simp only [TaskOp.clears] at hstart
  split
  · rename_i hnone
    rw [hnone] at hstart
    exact hstart.more
  rename_i t ht
  rw [ht, Option.any_some] at hstart
  split
  · rename_i htype
    rw [if_neg (by simpa using htype)] at hstart
    exact hstart.more
  rename_i htype
  rw [not_not] at htype
  have hid : t.id = caller := lookup_key ht
  rw [if_pos (by simp [htype])] at hstart
  refine hstart.terminate ?_ (hid ▸ ht) (.inl htype) (fun u hu => ⟨?_, u, hu⟩) reason
  · simp [TaskOp.ends, ht, htype, hid]
  · simp [TaskOp.notified, ht]

theorem taskKill_setSpill (s : Tasking) (sp : Spill) (caller pid : ℤ) :
    (taskKill (s.setSpill sp) caller pid).2 = (taskKill s caller pid).2 := by
  have hlook : getTaskById (s.setSpill sp) pid = getTaskById s pid := rfl
  have hroot : (s.setSpill sp).rootShellPid = s.rootShellPid := rfl
  simp only [taskKill, hlook, hroot]
  cases getTaskById s pid with
  | none => split_ifs <;> rfl
  | some t =>
    dsimp only
    split_ifs <;> rfl

theorem taskKill_cases (s : Tasking) (caller pid : ℤ) : (∃ e, taskKill s caller pid = (s, .error e)) ∨
    ∃ t, getTaskById s pid = some t ∧ taskKill s caller pid = (terminate s t .killed, .ok ()) := by
  unfold taskKill
  split
  · exact .inl ⟨_, rfl⟩
  split
  · exact .inl ⟨_, rfl⟩
  rename_i t ht
  split
  · exact .inl ⟨_, rfl⟩
  split
  · exact .inl ⟨_, rfl⟩
  · exact .inr ⟨t, ht, rfl⟩

theorem clears_setSpill (s : Tasking) (op : TaskOp) : ∃ sp, op.clears s = s.setSpill sp := by
  unfold TaskOp.clears
  split
  · split
    · exact ⟨_, rfl⟩
    · exact ⟨s.spill, rfl⟩
  · split
    · exact ⟨s.spill, rfl⟩
    · exact ⟨_, rfl⟩
  · exact ⟨s.spill, rfl⟩

theorem Steps.kill (s : Tasking) (caller pid : ℤ) :
    Steps s (.kill caller pid) 1 (taskStep s (.kill caller pid)) := by
  have hstart : Steps s (.kill caller pid) 0 _ := .start
  change Steps s (.kill caller pid) 1 (taskKill ((TaskOp.kill caller pid).clears s) caller pid).1
  obtain ⟨sp, hsp⟩ := clears_setSpill s (.kill caller pid)
  rw [hsp] at hstart ⊢
  have hanswer := taskKill_setSpill s sp caller pid
  rcases taskKill_cases (s.setSpill sp) caller pid with ⟨e, he⟩ | ⟨t, ht, hok⟩
  · rw [he]
    exact hstart.more
  have hid : t.id = pid := lookup_key ht
  have hne : t.id ≠ 0 := by
    rintro hzero
    simp [taskKill, ← hid, hzero] at hok
  rw [hok] at hanswer ⊢
  refine hstart.terminate ?_ (hid ▸ ht) (.inr (.inl hne)) (fun u hu => ⟨?_, u, hu⟩) .killed
  · simp [TaskOp.ends, ← hanswer, hid]
  · have ht' : getTaskById s pid = some t := ht
    simp [TaskOp.notified, ht']

theorem Steps.killChildren {r : Task} (hr : getTaskById s₀ requester = some r) (hN : requester ∈ op.notified s₀)
    {pids : List ℤ} (h : Steps s₀ op k s) (hall : ∀ d ∈ pids, d ∈ op.ends s₀) :
    Steps s₀ op (k + pids.length) (pids.foldl (killChild requester) s) := by
  induction pids generalizing k s with
  | nil => exact h
  | cons d pids ih =>
    obtain ⟨hd, hall⟩ := List.forall_mem_cons.mp hall
    rw [List.length_cons, Nat.add_comm _ 1, ← Nat.add_assoc]
    refine ih ?_ hall
    unfold killChild
    split
    · exact h.more
    rename_i t ht
    split
    · exact h.more
    rename_i hparent
    rw [not_not] at hparent
    have hid : t.id = d := lookup_key ht
    exact h.terminate (hid ▸ hd) (hid ▸ ht) (.inr (.inr ⟨r, hparent ▸ hr⟩))
      (fun _ _ => hparent ▸ ⟨hN, r, hr⟩) .killed

/-! ## Steps -/

theorem Steps.sysIpcSend (s : Tasking) (caller target : ℤ) (owner : Bool) (p : Payload) :
    Steps s (.send caller target owner p) 0 (sysIpcSend s caller target owner p).1 := by
  have hstart : Steps s (.send caller target owner p) 0 s := .start
  unfold Kernel.sysIpcSend
  split
  · exact hstart
  split
  · exact hstart
  rename_i t ht
  split
  · exact hstart
  split
  · exact hstart
  split
  · rename_i box hbox
    obtain ⟨-, rfl⟩ := ipcEndpointSend_ok hbox
    exact hstart.sent rfl rfl ht p
  · exact hstart

theorem Steps.mono {l : ℕ} (h : Steps s₀ op k s) (hl : k ≤ l := by omega) : Steps s₀ op l s := by
  induction l, hl using Nat.le_induction with
  | base => exact h
  | succ l _ ih => exact ih.more

theorem steps_taskStep (s : Tasking) (op : TaskOp) : Steps s op 4 (taskStep s op) := by
  have htold : ∀ {w : Tasking}, Steps s op 0 s → Signals (Told s op) s 1 w → Steps s op 4 w :=
    fun hstart hs => (hstart.told hs).mono
  have hstart : Steps s op 0 _ := .start
  cases op with
  | create boot generation =>
    simp only [taskStep]
    split
    · exact hstart.mono
    · exact (hstart.created rfl (.inl ⟨rfl, rfl⟩) boot generation).mono
  | spawn caller generation =>
    simp only [taskStep, sysSpawn]
    split
    · exact hstart.mono
    rename_i hcan
    exact (hstart.created rfl (.inr ⟨rfl, canCreate_found hcan, .inl rfl⟩) false generation).mono
  | exec caller generation => exact (Steps.sysExec s caller generation).mono
  | wait caller child => exact (Steps.waitForChild s caller child).mono
  | waitAny caller => exact (Steps.waitForAnyChild s caller).mono
  | delegate caller child supervisor => exact (Steps.delegateChild s caller child supervisor).mono
  | suspend caller child | resume caller child =>
    exact (Steps.controlChild (by decide) (by decide) _ child hstart (by simp [TaskOp.notified])).mono
  | exit caller reason => exact (Steps.exit s caller reason).mono
  | kill caller pid => exact (Steps.kill s caller pid).mono
  | killChildren caller =>
    simp only [taskStep, killDirectChildren]
    split
    · exact hstart.mono
    rename_i r hr
    refine (hstart.killChildren hr (by simp [TaskOp.notified]) fun d hd => ?_).mono ?_
    · simpa [TaskOp.ends, hr] using hd
    · simp [directChildren]
  | configure caller notify =>
    exact htold hstart (Signals.refl.noted caller Task.events Task.eventSequence fun _ => notify).more
  | replay caller sequence =>
    simp only [taskStep, replaySupervisionEvent]
    split
    · exact hstart.mono
    split
    · exact hstart.mono
    split
    · exact hstart.mono
    · exact htold hstart (Signals.refl.deliver (fun t ht => ⟨by simp [TaskOp.notified], t, ht⟩) _)
  | serviceEvent pid p =>
    simp only [taskStep, serviceEvent]
    split
    · exact hstart.mono
    split
    · exact htold hstart (Signals.refl.deliver (fun t ht => ⟨by simp [TaskOp.notified], t, ht⟩) p)
    · exact hstart.mono
  | relay pid p => exact htold hstart (Signals.refl.post (fun t ht => ⟨by simp [TaskOp.notified], t, ht⟩) p).more
  | send caller target owner p => exact (Steps.sysIpcSend s caller target owner p).mono
  | receive caller => exact (hstart.sysIpcReceive rfl caller).mono
  | receiveWait caller timeout mayBlock => exact (Steps.sysIpcReceiveWait s caller timeout mayBlock).mono
  | blockKernel caller =>
    exact (hstart.paused rfl (by decide) fun hcalled t ht => called_type rfl ht hcalled).mono
  | unblockKernel pid => exact (hstart.unblocked pid).mono
  | setRootShell pid => exact (hstart.rooted pid).mono
  | schedule next => exact (Steps.schedule s next).mono
  | tick => exact hstart.ticked.mono

end Mohhdy.Kernel
