import Mohhdy.Kernel.Capabilities

/-! The syscalls on services, and the ends of tasks with the purges they begin with
(`src/kernel/syscall/syscall.c`). -/
namespace Mohhdy.Kernel
set_option autoImplicit false

open Words

/-! ## Service events -/

inductive ServiceReason where
  | published | granted | unregistered | purged
deriving DecidableEq

def ServiceReason.code : ServiceReason → UInt32
  | .published => 1
  | .granted => 2
  | .unregistered => 3
  | .purged => 4

variable (s : System) (name : CString)

def serviceMakeEvent (oldPid newPid : ℤ) (reason : ServiceReason) : Option Payload :=
  if oldPid < 0 ∨ newPid < 0 ∨ 16 ≤ name.val.length then none
  else some ⟨0x53525601, 0, textField 16 name ++ le32 (UInt32.ofInt oldPid) ++ le32 (UInt32.ofInt newPid) ++
    le32 reason.code⟩

def collectWatchers (live : Identities) (ws : List Watch) (name : CString) : List ℤ :=
  if nameValid name then
    (ws.filter fun w => 0 < w.pid && nameEqual w.name name &&
      taskIdentityValid live w.pid w.sequence w.generation).map Watch.pid
  else []

def notifyWatcher (oldPid newPid : ℤ) (reason : ServiceReason) (p : Payload) (s : System)
    (pid : ℤ) : System :=
  match getTaskById s.tasking pid with
  | none => s
  | some t =>
    if t.takesMessages then
      ⟨(deliver s.tasking pid p).1, s.registry.setNotifier ⟨s.registry.notifier.watches,
        (notifyRecord s.registry.notifier.history name pid (UInt32.ofInt oldPid) (UInt32.ofInt newPid)
          reason.code).1⟩⟩
    else s

def notifyChange (oldPid newPid : ℤ) (reason : ServiceReason) : System :=
  match serviceMakeEvent name oldPid newPid reason with
  | none => s
  | some p =>
    (collectWatchers s.live s.registry.notifier.watches name).foldl
      (notifyWatcher name oldPid newPid reason p) s

/-! ## Services -/

def System.setRegistry (r : Registry) : System := ⟨s.tasking, r⟩

def System.userTask (pid : ℤ) : Option Task :=
  (getTaskById s.tasking pid).filter Task.takesMessages

def dropOwner (pid : ℤ) : System :=
  notifyChange (s.setRegistry (serviceRemove s.live s.registry name pid).1) name pid 0 .purged

def sysServiceLookup : System × Except ServiceErr ℤ :=
  match serviceLookup s.live s.registry name with
  | (r, .error e) => (s.setRegistry r, .error e)
  | (r, .ok pid) =>
    if (s.userTask pid).isSome then (s.setRegistry r, .ok pid)
    else (dropOwner (s.setRegistry r) name pid, .error .notFound)

/-- `sys_service_register`; `allowed` is the answer of `service_registry_ata_driver_name_allowed`. -/
def sysServiceRegister (caller : ℤ) (allowed : Bool) (name : CString) : System :=
  if !allowed then s
  else
    let (s, owner) := sysServiceLookup s name
    let (r, answer) := serviceRegister s.live s.registry name caller
    if answer = .ok () ∧ owner = .error .notFound then
      notifyChange (s.setRegistry r) name 0 caller .published
    else s.setRegistry r

def sysServiceUnregister (caller : ℤ) (name : CString) : System :=
  let (r, answer) := serviceRemove s.live s.registry name caller
  if answer = .ok () then notifyChange (s.setRegistry r) name caller 0 .unregistered else s.setRegistry r

def sysServiceGrant (caller : ℤ) (allowed : Bool) (name : CString) (target : ℤ) : System :=
  if (s.userTask target).isNone || !allowed then s
  else
    let (r, answer) := serviceGrant s.live s.registry name caller target
    if answer = .ok () then notifyChange (s.setRegistry r) name caller target .granted else s.setRegistry r

/-- `sys_service_backend_grant_scoped_source_prefix`; the shorter calls give all sources, all rights
or the root. -/
def sysBackendGrant (caller : ℤ) (name : CString) (target : ℤ) (rights sources : UInt32)
    (pre : CString) : System :=
  if (s.userTask target).isNone then s
  else s.setRegistry (backendGrant s.live s.registry name caller target rights sources pre).1

def sysBackendRevoke (caller : ℤ) (name : CString) (target : ℤ) : System :=
  if (s.userTask target).isNone then s
  else s.setRegistry (backendRevoke s.live s.registry name caller target).1

def sysServiceNotify (caller : ℤ) (name : CString) : System :=
  s.setRegistry (s.registry.setNotifier (subscribe s.registry.notifier name caller
    (identityOf s.live caller).1 (identityOf s.live caller).2))

/-! ## Ends of tasks -/

/-- The drivers of the disk that the kernel knows by number, and the slot of the one it starts when
the last is gone, if it does. -/
structure Drivers where
  pids : List ℤ
  respawn : Option UInt32
deriving DecidableEq

def ataDriverName : CString := ⟨[97, 116, 97, 45, 100, 114, 105, 118, 101, 114], by decide⟩

def netDriverName : CString := ⟨[110, 101, 116, 45, 100, 114, 105, 118, 101, 114], by decide⟩

def collectOwned (live : Identities) (es : List Entry) (pid : ℤ) : List Entry :=
  if pid ≤ 0 then [] else es.filter fun e => e.pid == pid && e.valid live

def purgeIsDriver (drivers : Drivers) (pid : ℤ) (owned : List Entry) : Bool :=
  (0 < pid && drivers.pids.contains pid) || owned.any fun e => e.name == ataDriverName

def removePid (pid : ℤ) : System :=
  ⟨if pid ≤ 0 then s.tasking else s.tasking.setSpill (spillClearPid s.tasking.spill pid),
    serviceRemovePid s.registry pid⟩

def bridgeAfterPurge (drivers : Drivers) (died : Bool) : System :=
  if !died then s
  else
    match serviceLookup s.live s.registry ataDriverName with
    | (r, .ok _) => s.setRegistry r
    | (r, .error _) =>
      match drivers.respawn with
      | none => s.setRegistry r
      | some generation => ⟨kernelStep s.tasking (.create true generation), r⟩

def notifyPurgePid (drivers : Drivers) (pid : ℤ) : System :=
  let owned := collectOwned s.live s.registry.entries pid
  let purged := if owned.isEmpty then s
    else removePid (owned.foldl (fun s e => notifyChange s e.name pid 0 .purged) s) pid
  (sysServiceLookup (bridgeAfterPurge purged drivers (purgeIsDriver drivers pid owned)) netDriverName).1

/-- The three purges before a task ends, but for the rows of the spill, which go in the step that
ends it. -/
def purgeTask (drivers : Drivers) (pid : ℤ) : System :=
  let s := notifyPurgePid s drivers pid
  s.setRegistry (removeWatcherPid (backendRemovePid s.registry pid) pid)

/-- `SYS_EXIT`, and `syscall_kill_current_on_user_fault` with the reason of a kill. -/
def sysExit (caller : ℤ) (reason : ExitReason) (drivers : Drivers) : System :=
  let s := purgeTask s drivers caller
  ⟨taskStep s.tasking (.exit caller reason), s.registry⟩

def sysKill (caller pid : ℤ) (drivers : Drivers) : System × Except TaskErr Unit :=
  let s := purgeTask s drivers pid
  let (tasking, answer) := taskKill (if pid ≤ 0 then s.tasking
    else s.tasking.setSpill (spillClearPid s.tasking.spill pid)) caller pid
  (⟨tasking, s.registry⟩, answer)

/-! ## Steps -/

inductive Syscall where
  | task (op : TaskOp)
  | exit (caller : ℤ) (reason : ExitReason) (drivers : Drivers)
  | kill (caller pid : ℤ) (drivers : Drivers)
  | register (caller : ℤ) (allowed : Bool) (name : CString)
  | lookup (name : CString)
  | unregister (caller : ℤ) (name : CString)
  | grant (caller : ℤ) (allowed : Bool) (name : CString) (target : ℤ)
  | backendGrant (caller : ℤ) (name : CString) (target : ℤ) (rights sources : UInt32) (pre : CString)
  | backendRevoke (caller : ℤ) (name : CString) (target : ℤ)
  | backendRelease (caller : ℤ) (name : CString)
  | backendAllowed (name : CString) (pid : ℤ) (right source : UInt32) (path : Option CString)
  | notify (caller : ℤ) (name : CString)
  | eventPull (caller : ℤ)
deriving DecidableEq

def Syscall.caller : Syscall → Option ℤ
  | .task op => op.caller
  | .exit caller _ _ | .kill caller _ _ | .register caller _ _ | .unregister caller _ | .grant caller _ _ _
  | .backendGrant caller _ _ _ _ _ | .backendRevoke caller _ _ | .backendRelease caller _
  | .notify caller _ | .eventPull caller => some caller
  | .lookup _ | .backendAllowed _ _ _ _ _ => none

def Syscall.called (op : Syscall) : Bool :=
  op.caller.all fun caller =>
    (getTaskById s.tasking caller).any fun t => t.type == .user && t.state == .running

def TaskOp.purges : TaskOp → Bool
  | .exit _ _ | .kill _ _ => true
  | _ => false

def syscall : Syscall → System
  | .task op => if op.purges then s else ⟨taskStep s.tasking op, s.registry⟩
  | .exit caller reason drivers => sysExit s caller reason drivers
  | .kill caller pid drivers => (sysKill s caller pid drivers).1
  | .register caller allowed name => sysServiceRegister s caller allowed name
  | .lookup name => (sysServiceLookup s name).1
  | .unregister caller name => sysServiceUnregister s caller name
  | .grant caller allowed name target => sysServiceGrant s caller allowed name target
  | .backendGrant caller name target rights sources pre => sysBackendGrant s caller name target rights sources pre
  | .backendRevoke caller name target => sysBackendRevoke s caller name target
  | .backendRelease caller name => s.setRegistry (backendRelease s.registry name caller).1
  | .backendAllowed name pid right source path =>
    s.setRegistry (backendAllowed s.live s.registry name pid right source path).1
  | .notify caller name => sysServiceNotify s caller name
  | .eventPull caller => s.setRegistry (s.registry.setNotifier ⟨s.registry.notifier.watches,
    (notifyPull s.registry.notifier.history caller).1⟩)

/-- One step of the system: what a task that does not run would call does not happen. -/
def syscallStep (op : Syscall) : System := if op.called s then syscall s op else s

end Mohhdy.Kernel
