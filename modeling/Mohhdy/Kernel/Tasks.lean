import Mohhdy.Foundations.Runs
import Mohhdy.Kernel.Names

/-! The tasks of the kernel: the queue, the supervision tree, mailboxes and blocking receives
(`src/kernel/task/task.c`, `src/kernel/ipc.c`, `src/kernel/ipc_wait.c`, the spill of
`src/kernel/service_registry.c`, and the syscalls on them in `src/kernel/syscall/syscall.c`).

The ring buffers are lists. Which task the scheduler takes, whether a syscall may block and what
the services send are inputs. -/
namespace Mohhdy.Kernel
set_option autoImplicit false

open Words Tables

/-! ## Messages -/

inductive IpcErr where
  | empty | full | badTarget | badMessage | serviceFull | timeout
deriving DecidableEq

/-- `os_ipc_payload_t`; the size is the length of the data. -/
structure Payload where
  (type requestId : UInt32)
  data : List UInt8
deriving DecidableEq

/-- `os_ipc_message_t`. The kernel sends as 0. -/
structure Message where
  senderPid : ℤ
  payload : Payload
deriving DecidableEq

def ipcEndpointSend (box : List Message) (senderPid : ℤ) (p : Payload) :
    Except IpcErr (List Message) :=
  if 96 < p.data.length then .error .badMessage
  else if 4 ≤ box.length then .error .full
  else .ok (box ++ [⟨senderPid, p⟩])

def ipcEndpointReceive : List Message → Except IpcErr (Message × List Message)
  | [] => .error .empty
  | m :: box => .ok (m, box)

/-- `service_ipc_spill_slot_t`. -/
structure SpillSlot where
  watcherPid : ℤ
  order : UInt32
  payload : Payload
  used : Bool
deriving DecidableEq

def SpillSlot.cleared : SpillSlot := ⟨0, 0, ⟨0, 0, []⟩, false⟩

def SpillSlot.isFor (pid : ℤ) (x : SpillSlot) : Bool := x.used && x.watcherPid == pid

structure Spill where
  slots : List SpillSlot
  order : UInt32
deriving DecidableEq

def spillPush (sp : Spill) (pid : ℤ) (p : Payload) : Except IpcErr Spill :=
  if pid ≤ 0 ∨ 96 < p.data.length then .error .badMessage
  else if sp.slots.any fun x => !x.used then
    .ok ⟨modifyFirst (fun x => !x.used) (fun _ => ⟨pid, bump sp.order, p, true⟩) sp.slots,
      bump sp.order⟩
  else .error .full

def spillPop (sp : Spill) (pid : ℤ) : Except IpcErr (Payload × Spill) :=
  if pid ≤ 0 then .error .badMessage
  else
    match least (SpillSlot.isFor pid) (·.order.toNat) sp.slots with
    | none => .error .empty
    | some x =>
      .ok (x.payload, ⟨modifyFirst (fun y => y.isFor pid && y.order == x.order)
        (fun y => { y with used := false, watcherPid := 0 }) sp.slots, sp.order⟩)

def spillClearPid (sp : Spill) (pid : ℤ) : Spill :=
  ⟨sp.slots.map fun x => if x.isFor pid then { x with used := false, watcherPid := 0 } else x,
    sp.order⟩

/-! ## Blocking receives -/

/-- `ipc_wait_t` without its statistics. `since` and `timeout` are not in the source: the tick at
which the wait began, not reduced to 32 bits, and how long it may last. -/
structure IpcWait where
  (blocked forever timedOut woken : Bool)
  deadline : UInt32
  since : ℕ
  timeout : UInt32
deriving DecidableEq

def IpcWait.none : IpcWait := ⟨false, false, false, false, 0, 0, 0⟩

def expired (now deadline : UInt32) : Bool := now - deadline < 0x80000000

def ipcWaitBegin (ticks : ℕ) (timeout : UInt32) : IpcWait :=
  ⟨true, timeout == 0xFFFFFFFF, false, false, UInt32.ofNat ticks + timeout, ticks, timeout⟩

def ipcWaitOnTick (w : IpcWait) (now : UInt32) : Option IpcWait :=
  if !w.blocked || w.forever then .none
  else if !expired now w.deadline then .none
  else some { w with blocked := false, timedOut := true }

/-! ## Tasks -/

abbrev Counter := { c : UInt32 // c ≠ 0 }

def Counter.one : Counter := ⟨1, by decide⟩

def Counter.bump (c : Counter) : Counter := ⟨Kernel.bump c.val, bump_ne_zero c.val⟩

inductive TaskState where
  | running | ready | waiting | waitingForInput | suspended | terminated | blockedKernel | blockedIpc
deriving DecidableEq

inductive TaskType where
  | kernel | user
deriving DecidableEq

inductive TaskErr where
  | notFound | controlDenied | notChild | childLimit | globalLimit | badState | noDirectChild
  | badDelegate | noSupervisionEvent | kernelTask | self
deriving DecidableEq

inductive SupervisionAction where
  | exit | suspend | resume | delegateOut | delegateIn
deriving DecidableEq

def SupervisionAction.code : SupervisionAction → UInt32
  | .exit => 1
  | .suspend => 2
  | .resume => 3
  | .delegateOut => 4
  | .delegateIn => 5

def SupervisionAction.notifyBit : SupervisionAction → UInt32
  | .exit => 1
  | .suspend => 2
  | .resume => 4
  | .delegateOut => 8
  | .delegateIn => 16

def SupervisionAction.delegates : SupervisionAction → Bool
  | .delegateOut | .delegateIn => true
  | .exit | .suspend | .resume => false

/-- `os_task_supervision_event_t` without the stamps of the child's identity. -/
structure SupervisionEvent where
  sequence : UInt32
  action : SupervisionAction
  (childPid relatedPid : ℤ)
  (detail ticks : UInt32)
deriving DecidableEq

structure Notify where
  enabled : Bool
  mask : UInt32
  watchEnabled : Bool
  watchPids : List ℤ
  priorityChildPid : ℤ
  (budgetLimit budgetUsed : UInt32)
deriving DecidableEq

def Notify.default : Notify := ⟨false, 31, false, [], -1, 0, 0⟩

/-- `task_t`. `inReceive` is a kernel continuation inside `sys_ipc_receive_wait`. -/
structure Task where
  id : ℤ
  sequence : Counter
  generation : UInt32
  identityKey : Counter
  state : TaskState
  type : TaskType
  (parentPid waiterPid : ℤ)
  bootService : Bool
  events : List SupervisionEvent
  eventSequence : UInt32
  notify : Notify
  mailbox : List Message
  ipcWait : IpcWait
  inReceive : Bool
deriving DecidableEq

/-- The queue of tasks with the counters, the spill and the clock. `sent` and `got` are not in the
source: the kernel messages that were queued and the messages that were received, per task. -/
structure Tasking where
  tasks : List Task
  nextTaskId : ℤ
  (sequenceCounter identityKey : Counter)
  rootShellPid : ℤ
  spill : Spill
  ticks : ℕ
  sent : List (ℤ × Payload)
  got : List (ℤ × Message)

structure Stamp where
  sequence : Counter
  generation : UInt32
  key : Counter
deriving DecidableEq

def Task.stamp (t : Task) : Stamp := ⟨t.sequence, t.generation, t.identityKey⟩

def newTask (id : ℤ) (sequence : Counter) (generation : UInt32) (key : Counter) (state : TaskState)
    (type : TaskType) : Task :=
  ⟨id, sequence, generation, key, state, type, -1, 0, false, [], 0, Notify.default, [], IpcWait.none,
    false⟩

def taskingInit : Tasking :=
  ⟨[newTask 0 .one 1 .one .running .kernel], 1, Counter.one.bump, Counter.one.bump, 0,
    ⟨List.replicate 8 SpillSlot.cleared, 0⟩, 0, [], []⟩

variable (s : Tasking) (pid : ℤ)

def getTaskById (id : ℤ) : Option Task := lookup Task.id id s.tasks

def Tasking.modify (id : ℤ) (f : Task → Task) : Tasking :=
  { s with tasks := update Task.id id f s.tasks }

def Tasking.setTasks (tasks : List Task) : Tasking := { s with tasks := tasks }

def Tasking.mapTasks (f : Task → Task) : Tasking := s.setTasks (s.tasks.map f)

theorem getTaskById_modify (pid q : ℤ) {f : Task → Task} (hf : ∀ t, (f t).id = t.id) :
    getTaskById (s.modify pid f) q = if q = pid then (getTaskById s q).map f else getTaskById s q :=
  lookup_update pid q f hf s.tasks

theorem getTaskById_modify_self {s : Tasking} {pid : ℤ} {t : Task} {f : Task → Task}
    (hf : ∀ t, (f t).id = t.id) (ht : getTaskById s pid = some t) :
    getTaskById (s.modify pid f) pid = some (f t) := by
  rw [getTaskById_modify s pid pid hf, if_pos rfl, ht, Option.map_some]

def Tasking.setSpill (sp : Spill) : Tasking := { s with spill := sp }

def Tasking.queued (p : Payload) : Tasking :=
  { s with sent := s.sent ++ [(pid, p)] }

def Tasking.received (m : Message) : Tasking :=
  { s with got := s.got ++ [(pid, m)] }

def Tasking.now : UInt32 := UInt32.ofNat s.ticks

/-! ## Queueing a message -/

/-- `task_ipc_message_queued` with `ipc_wait_on_message`. -/
def messageQueued (t : Task) : Task :=
  if t.state = .blockedIpc ∧ t.ipcWait.blocked = true then
    { t with state := .ready, ipcWait := { t.ipcWait with blocked := false, woken := true } }
  else t

def post (p : Payload) : Tasking × Except IpcErr Unit :=
  match getTaskById s pid with
  | none => (s, .error .badTarget)
  | some t =>
    match ipcEndpointSend t.mailbox 0 p with
    | .ok box =>
      ((s.modify pid fun t => messageQueued { t with mailbox := box }).queued pid p, .ok ())
    | .error e => (s, .error e)

/-- A kernel message to the mailbox, and to the spill when the mailbox does not take it. -/
def deliver (p : Payload) : Tasking × Except IpcErr Unit :=
  match post s pid p with
  | (s', .ok ()) => (s', .ok ())
  | (_, .error _) =>
    match getTaskById s pid with
    | none => (s, .error .badTarget)
    | some _ =>
      match spillPush s.spill pid p with
      | .ok sp => (((s.modify pid messageQueued).setSpill sp).queued pid p, .ok ())
      | .error e => (s, .error e)

def Task.takesMessages (t : Task) : Bool := t.type == .user && t.state != .terminated

def serviceEvent (p : Payload) : Tasking :=
  match getTaskById s pid with
  | none => s
  | some t => if t.takesMessages then (deliver s pid p).1 else s

/-- `sys_ipc_send`; `owner` is the answer of `service_registry_pid_is_owner`. -/
def sysIpcSend (caller target : ℤ) (owner : Bool) (p : Payload) : Tasking × Except IpcErr Unit :=
  if 96 < p.data.length then (s, .error .badMessage)
  else
    match getTaskById s target with
    | none => (s, .error .badTarget)
    | some t =>
      if !t.takesMessages then (s, .error .badTarget)
      else if owner && 2 ≤ t.mailbox.length then (s, .error .serviceFull)
      else
        match ipcEndpointSend t.mailbox caller p with
        | .ok box => (s.modify target (fun t => messageQueued { t with mailbox := box }), .ok ())
        | .error e => (s, .error e)

/-! ## Receiving -/

def sysIpcReceive : Tasking × Except IpcErr Message :=
  match getTaskById s pid with
  | none => (s, .error .badMessage)
  | some t =>
    if t.type ≠ .user then (s, .error .badMessage)
    else
      match ipcEndpointReceive t.mailbox with
      | .ok (m, box) =>
        ((s.modify pid fun t => { t with mailbox := box }).received pid m, .ok m)
      | .error _ =>
        match spillPop s.spill pid with
        | .ok (p, sp) => ((s.setSpill sp).received pid ⟨0, p⟩, .ok ⟨0, p⟩)
        | .error _ => (s, .error .empty)

/-- `sys_ipc_receive_wait` up to its first `schedule`; no answer when the task goes to sleep. -/
def sysIpcReceiveWait (timeout : UInt32) (mayBlock : Bool) :
    Tasking × Option (Except IpcErr Message) :=
  match sysIpcReceive s pid with
  | (s', .error .empty) =>
    if timeout = 0 ∨ mayBlock = false then (s', some (.error .empty))
    else
      (s'.modify pid fun t => { t with ipcWait := ipcWaitBegin s.ticks timeout,
                                       state := .blockedIpc, inReceive := true }, none)
  | (s', r) => (s', some r)

/-- The rest of `sys_ipc_receive_wait` after a wake-up, with `ipc_wait_after_wake`. -/
def resumeReceive : Tasking × Option (Except IpcErr Message) :=
  match getTaskById s pid with
  | none => (s, none)
  | some t =>
    match sysIpcReceive (s.modify pid fun t => { t with inReceive := false }) pid with
    | (s', .error .empty) =>
      if t.ipcWait.timedOut || (!t.ipcWait.forever && expired s.now t.ipcWait.deadline) then
        (s'.modify pid fun t => { t with ipcWait := { t.ipcWait with timedOut := true,
                                                                     blocked := false } },
          some (.error .timeout))
      else
        (s'.modify pid fun t => { t with ipcWait := { t.ipcWait with blocked := true, woken := false },
                                         state := .blockedIpc, inReceive := true }, none)
    | (s', r) =>
      (s'.modify pid fun t => { t with ipcWait := { t.ipcWait with blocked := false } }, some r)

def Task.onTick (now : UInt32) (t : Task) : Task :=
  if t.state = .blockedIpc then
    match ipcWaitOnTick t.ipcWait now with
    | some w => { t with ipcWait := w, state := .ready }
    | none => t
  else t

def Tasking.later : Tasking := { s with ticks := s.ticks + 1 }

def tick : Tasking := s.later.mapTasks (Task.onTick s.later.now)

def Task.yields (t : Task) : Task := if t.state = .running then { t with state := .ready } else t

/-- `schedule` with the task it takes, and the answer of a blocking receive that goes on there. It
takes a ready one; only when there is none does it go on with the one it started from, whatever its
state. -/
def schedule (next : ℤ) : Tasking × Option (Except IpcErr Message) :=
  let yielded := s.mapTasks Task.yields
  match getTaskById yielded next with
  | none => (s, none)
  | some t =>
    if t.state = .ready ∨ yielded.tasks.all (fun t => t.state != .ready) then
      let taken := yielded.modify next fun t => { t with state := .running }
      if t.inReceive then resumeReceive taken next else (taken, none)
    else (s, none)

/-! ## Supervision events -/

def makeSupervisionEvent (e : SupervisionEvent) : Option Payload :=
  if e.sequence = 0 ∨ e.childPid ≤ 0 then none
  else if e.action.delegates = true ∧ e.relatedPid ≤ 0 then none
  else if e.action.delegates = false ∧ e.relatedPid ≠ 0 then none
  else some ⟨0x54415302, 0, le32 e.sequence ++ le32 e.action.code ++ le32 (UInt32.ofInt e.childPid) ++
    le32 (UInt32.ofInt e.relatedPid) ++ le32 e.detail ++ le32 e.ticks⟩

def Task.wants (t : Task) (e : SupervisionEvent) : Bool :=
  let priority := t.notify.priorityChildPid == e.childPid
  let watched := !t.notify.watchEnabled || (0 < e.childPid && t.notify.watchPids.contains e.childPid)
  t.notify.enabled && t.takesMessages &&
    (priority || (t.notify.mask &&& e.action.notifyBit != 0 && watched)) &&
    (t.notify.budgetLimit == 0 || t.notify.budgetUsed < t.notify.budgetLimit)

def notifySupervisionEvent (e : SupervisionEvent) : Tasking :=
  match getTaskById s pid with
  | none => s
  | some t =>
    if !t.wants e then s
    else
      match makeSupervisionEvent e with
      | none => s
      | some p => (deliver (s.modify pid fun t => { t with
          notify := { t.notify with budgetUsed := t.notify.budgetUsed + 1 } }) pid p).1

/-- `task_record_supervision_event`; the log of a task keeps the last four events. -/
def recordSupervisionEvent (action : SupervisionAction)
    (childPid relatedPid : ℤ) (detail : UInt32) : Tasking :=
  match getTaskById s pid with
  | none => s
  | some t =>
    let e : SupervisionEvent := ⟨bump t.eventSequence, action, childPid, relatedPid, detail, s.now⟩
    notifySupervisionEvent (s.modify pid fun t => { t with
      eventSequence := e.sequence,
      events := (t.events ++ [e]).drop (t.events.length + 1 - 4) }) pid e

def removeSupervisionWatch (childPid : ℤ) (n : Notify) : Notify :=
  if 0 < childPid ∧ childPid ∈ n.watchPids then
    { n with watchPids := n.watchPids.erase childPid,
             watchEnabled := n.watchEnabled && 1 < n.watchPids.length }
  else n

def Task.forgetChild (childPid : ℤ) (t : Task) : Task :=
  let n := removeSupervisionWatch childPid t.notify
  { t with notify := if n.priorityChildPid = childPid then { n with priorityChildPid := -1 } else n }

inductive ExitReason where
  | exited | killed
deriving DecidableEq

def ExitReason.code : ExitReason → UInt32
  | .exited => 1
  | .killed => 2

def makeTaskEvent (childPid : ℤ) (reason : ExitReason) : Option Payload :=
  if childPid ≤ 0 then none
  else some ⟨0x54415301, 0, le32 (UInt32.ofInt childPid) ++ le32 reason.code⟩

/-! ## The supervision tree -/

def reportParentExit (child : Task) (reason : ExitReason) : Tasking :=
  if child.parentPid ≤ 0 then s
  else
    match getTaskById s child.parentPid with
    | none => s
    | some parent =>
      if !parent.takesMessages then s
      else
        let s₁ := recordSupervisionEvent s child.parentPid .exit child.id 0 reason.code
        let s₂ := s₁.modify child.parentPid (Task.forgetChild child.id)
        match makeTaskEvent child.id reason with
        | none => s₂
        | some p => (post s₂ child.parentPid p).1

def wakeWaiter (childPid : ℤ) : Tasking :=
  match getTaskById s childPid with
  | none => s
  | some child =>
    if child.waiterPid ≤ 0 then s
    else
      (s.modify child.waiterPid fun t => if t.state = .waiting then { t with state := .ready } else t)
        |>.modify childPid fun t => { t with waiterPid := 0 }

def reparentChildren (departing : Task) : Tasking :=
  s.mapTasks fun t =>
    if t.id ≠ departing.id ∧ t.parentPid = departing.id then { t with parentPid := departing.parentPid }
    else t

def unlinkTask : Tasking :=
  s.setTasks (s.tasks.eraseP fun t => decide (t.id = pid))

/-- What every end of a task does to the queue. The task is unlinked by the next `schedule`, or at
once when it is not the current one. -/
def terminate (t : Task) (reason : ExitReason) : Tasking :=
  unlinkTask (reparentChildren (wakeWaiter (reportParentExit s t reason) t.id) t) t.id

def countDirectChildren : ℕ := s.tasks.countP fun t => t.parentPid == pid

/-- `create_task_from_initrd_file` when the file loads, with the parent the caller sets. -/
def createTask (parentPid waiterPid : ℤ) (boot : Bool) (generation : UInt32) : Tasking :=
  let t := newTask s.nextTaskId s.sequenceCounter.bump generation s.identityKey .ready .user
  { s with
    tasks := s.tasks ++ [{ t with parentPid := parentPid, waiterPid := waiterPid, bootService := boot }],
    nextTaskId := s.nextTaskId + 1,
    sequenceCounter := s.sequenceCounter.bump,
    identityKey := s.identityKey.bump }

/-- `task_can_create_child` and `task_can_create_global`. -/
def canCreate (caller : ℤ) : Option TaskErr :=
  match getTaskById s caller with
  | none => some .notFound
  | some _ =>
    if 4 ≤ countDirectChildren s caller then some .childLimit
    else if 16 ≤ s.tasks.length then some .globalLimit
    else none

def sysSpawn (caller : ℤ) (generation : UInt32) : Tasking × Except TaskErr ℤ :=
  match canCreate s caller with
  | some e => (s, .error e)
  | none => (createTask s caller 0 false generation, .ok s.nextTaskId)

def sysExec (caller : ℤ) (generation : UInt32) : Tasking × Except TaskErr Unit :=
  match canCreate s caller with
  | some e => (s, .error e)
  | none => ((createTask s caller caller false generation).modify caller fun t =>
      { t with state := .waiting }, .ok ())

def waitForChild (requester childPid : ℤ) : Tasking × Except TaskErr Unit :=
  match getTaskById s requester, getTaskById s childPid with
  | some _, some child =>
    if child.parentPid ≠ requester then (s, .error .notChild)
    else if child.waiterPid ≠ 0 ∧ child.waiterPid ≠ requester then (s, .error .controlDenied)
    else
      ((s.modify childPid fun t => { t with waiterPid := requester }).modify requester fun t =>
        { t with state := .waiting }, .ok ())
  | _, _ => (s, .error .notFound)

/-- The loop of `task_wait_for_any_child`: the marks made so far stay when a child is refused. -/
def markChildren (requester : ℤ) : List Task → Bool → List Task × Except TaskErr Unit
  | [], found => ([], if found then .ok () else .error .noDirectChild)
  | t :: ts, found =>
    if t.parentPid = requester then
      if t.waiterPid ≠ 0 ∧ t.waiterPid ≠ requester then (t :: ts, .error .controlDenied)
      else
        let rest := markChildren requester ts true
        ({ t with waiterPid := requester } :: rest.1, rest.2)
    else
      let rest := markChildren requester ts found
      (t :: rest.1, rest.2)

def waitForAnyChild (requester : ℤ) : Tasking × Except TaskErr Unit :=
  match getTaskById s requester with
  | none => (s, .error .notFound)
  | some _ =>
    match markChildren requester s.tasks false with
    | (tasks, .ok ()) =>
      ((s.setTasks tasks).modify requester fun t => { t with state := .waiting }, .ok ())
    | (tasks, .error e) => (s.setTasks tasks, .error e)

def taskKill (requester pid : ℤ) : Tasking × Except TaskErr Unit :=
  if pid = 0 then (s, .error .kernelTask)
  else
    match getTaskById s pid with
    | none => (s, .error .notFound)
    | some t =>
      if requester = pid then (s, .error .self)
      else if requester ≠ t.parentPid ∧
          ¬(t.bootService = true ∧ 0 < s.rootShellPid ∧ requester = s.rootShellPid) then
        (s, .error .controlDenied)
      else (terminate s t .killed, .ok ())

def directChildren : List ℤ :=
  ((s.tasks.filter fun t => t.parentPid == pid).map Task.id).take 4

def killChild (requester : ℤ) (s : Tasking) (pid : ℤ) : Tasking :=
  match getTaskById s pid with
  | none => s
  | some t => if t.parentPid ≠ requester then s else terminate s t .killed

def killDirectChildren (requester : ℤ) : Tasking × Except TaskErr ℕ :=
  match getTaskById s requester with
  | none => (s, .error .notFound)
  | some _ => ((directChildren s requester).foldl (killChild requester) s,
      .ok (directChildren s requester).length)

/-- The walk of `task_delegate_child` up from the supervisor; true when it refuses. -/
def delegateWalk (tasks : List Task) (childPid : ℤ) : ℕ → Option Task → Bool
  | _, none => false
  | 0, some _ => true
  | depth + 1, some cursor =>
    if cursor.id = childPid then true
    else if cursor.parentPid < 0 then false
    else delegateWalk tasks childPid depth (lookup Task.id cursor.parentPid tasks)

def delegateChild (requester childPid supervisorPid : ℤ) : Tasking × Except TaskErr Unit :=
  match getTaskById s requester, getTaskById s childPid, getTaskById s supervisorPid with
  | some _, some child, some supervisor =>
    if child.parentPid ≠ requester then (s, .error .notChild)
    else if !supervisor.takesMessages || supervisorPid == requester || supervisorPid == childPid then
      (s, .error .badDelegate)
    else if child.waiterPid ≠ 0 then (s, .error .badState)
    else if 4 ≤ countDirectChildren s supervisorPid then (s, .error .childLimit)
    else if delegateWalk s.tasks childPid 16 (some supervisor) then (s, .error .badDelegate)
    else
      let s₁ := recordSupervisionEvent s requester .delegateOut childPid supervisorPid 0
      let s₂ := recordSupervisionEvent s₁ supervisorPid .delegateIn childPid requester 0
      let s₃ := s₂.modify requester (Task.forgetChild childPid)
      (s₃.modify childPid fun t => { t with parentPid := supervisorPid }, .ok ())
  | _, _, _ => (s, .error .notFound)

/-- `task_suspend_child` and `task_resume_child`: the state that is asked for and the one set. -/
def controlChild (old new : TaskState) (action : SupervisionAction) (s : Tasking)
    (requester childPid : ℤ) : Tasking × Except TaskErr Unit :=
  match getTaskById s childPid with
  | none => (s, .error .notFound)
  | some child =>
    if child.type ≠ .user ∨ child.parentPid ≠ requester then (s, .error .controlDenied)
    else if child.state ≠ old then (s, .error .badState)
    else
      (recordSupervisionEvent (s.modify childPid fun t => { t with state := new }) requester action
        childPid 0 0, .ok ())

def suspendChild : Tasking → ℤ → ℤ → Tasking × Except TaskErr Unit :=
  controlChild .ready .suspended .suspend

def resumeChild : Tasking → ℤ → ℤ → Tasking × Except TaskErr Unit :=
  controlChild .suspended .ready .resume

def replaySupervisionEvent (requester : ℤ) (sequence : UInt32) : Tasking :=
  match getTaskById s requester with
  | none => s
  | some t =>
    if sequence = 0 ∨ !t.takesMessages then s
    else
      match (t.events.find? fun e => e.sequence == sequence).bind makeSupervisionEvent with
      | none => s
      | some p => (deliver s requester p).1

/-! ## Steps -/

inductive TaskOp where
  | create (boot : Bool) (generation : UInt32)
  | spawn (caller : ℤ) (generation : UInt32)
  | exec (caller : ℤ) (generation : UInt32)
  | wait (caller child : ℤ)
  | waitAny (caller : ℤ)
  | delegate (caller child supervisor : ℤ)
  | suspend (caller child : ℤ)
  | resume (caller child : ℤ)
  | exit (caller : ℤ) (reason : ExitReason)
  | kill (caller pid : ℤ)
  | killChildren (caller : ℤ)
  | configure (caller : ℤ) (notify : Notify)
  | replay (caller : ℤ) (sequence : UInt32)
  | serviceEvent (pid : ℤ) (p : Payload)
  | relay (pid : ℤ) (p : Payload)
  | send (caller target : ℤ) (owner : Bool) (p : Payload)
  | receive (caller : ℤ)
  | receiveWait (caller : ℤ) (timeout : UInt32) (mayBlock : Bool)
  | blockKernel (caller : ℤ)
  | unblockKernel (pid : ℤ)
  | setRootShell (pid : ℤ)
  | schedule (next : ℤ)
  | tick
deriving DecidableEq

def TaskOp.caller : TaskOp → Option ℤ
  | .spawn caller _ | .exec caller _ | .wait caller _ | .waitAny caller | .delegate caller _ _
  | .suspend caller _ | .resume caller _ | .exit caller _ | .kill caller _ | .killChildren caller
  | .configure caller _ | .replay caller _ | .send caller _ _ _ | .receive caller
  | .receiveWait caller _ _ | .blockKernel caller => some caller
  | .create _ _ | .serviceEvent _ _ | .relay _ _ | .unblockKernel _ | .setRootShell _ | .schedule _
  | .tick => none

/-- One step of the kernel, for any caller. -/
def taskStep : TaskOp → Tasking
  | .create boot generation => if 16 ≤ s.tasks.length then s else createTask s (-1) 0 boot generation
  | .spawn caller generation => (sysSpawn s caller generation).1
  | .exec caller generation => (sysExec s caller generation).1
  | .wait caller child => (waitForChild s caller child).1
  | .waitAny caller => (waitForAnyChild s caller).1
  | .delegate caller child supervisor => (delegateChild s caller child supervisor).1
  | .suspend caller child => (suspendChild s caller child).1
  | .resume caller child => (resumeChild s caller child).1
  -- the rows of the task in the spill go first, in `service_registry_remove_watcher_pid`
  | .exit caller reason =>
    match getTaskById s caller with
    | none => s
    | some t =>
      if t.type ≠ .user then s
      else terminate (s.setSpill (spillClearPid s.spill caller)) t reason
  -- and in `sys_kill` before the kill is refused or not
  | .kill caller pid =>
    (taskKill (if pid ≤ 0 then s else s.setSpill (spillClearPid s.spill pid)) caller pid).1
  | .killChildren caller => (killDirectChildren s caller).1
  | .configure caller notify => s.modify caller fun t => { t with notify := notify }
  | .replay caller sequence => replaySupervisionEvent s caller sequence
  | .serviceEvent pid p => serviceEvent s pid p
  | .relay pid p => (post s pid p).1
  | .send caller target owner p => (sysIpcSend s caller target owner p).1
  | .receive caller => (sysIpcReceive s caller).1
  | .receiveWait caller timeout mayBlock => (sysIpcReceiveWait s caller timeout mayBlock).1
  | .blockKernel caller => s.modify caller fun t => { t with state := .blockedKernel }
  | .unblockKernel pid =>
    s.modify pid fun t => if t.state = .blockedKernel then { t with state := .ready } else t
  | .setRootShell pid => { s with rootShellPid := pid }
  | .schedule next => (schedule s next).1
  | .tick => tick s

def called (op : TaskOp) : Bool :=
  op.caller.all fun caller =>
    (getTaskById s caller).any fun t => t.type == .user && t.state == .running

/-- One step of the system: what a task that does not run would call does not happen. -/
def kernelStep (op : TaskOp) : Tasking := if called s op then taskStep s op else s

end Mohhdy.Kernel
