import Mohhdy.Kernel.History
import Mohhdy.Kernel.Tasks

/-! The services, the backend capabilities and the watches of `src/kernel/service_registry.c`.

A function of the source that asks for the identity of a task takes the identities of the tasks
that are there as its first argument. A lookup is not a pure question: it removes an entry whose
owner is gone, and so does everything that looks a name up. -/
namespace Mohhdy.Kernel
set_option autoImplicit false

open Words Tables

abbrev Identities := ℤ → Option Stamp

def Tasking.identities (s : Tasking) : Identities := fun pid => (getTaskById s pid).map Task.stamp

/-- `service_registry_entry_t`. -/
structure Entry where
  pid : ℤ
  (sequence generation : UInt32)
  name : CString
  (backendGeneration rightToken identityKey : UInt32)
deriving DecidableEq

def Entry.free : Entry := ⟨0, 0, 0, noText, 1, 0, 0⟩

/-- `service_backend_cap_t`. -/
structure Cap where
  ownerPid : ℤ
  (ownerSequence ownerGeneration : UInt32)
  granteePid : ℤ
  (granteeSequence granteeGeneration rights sources : UInt32)
  (pre name : CString)
  (token identityKey : UInt32)
deriving DecidableEq

def Cap.free : Cap := ⟨0, 0, 0, 0, 0, 0, 0, 0, noText, noText, 0, 0⟩

structure Registry where
  entries : List Entry
  caps : List Cap
  notifier : Notifier
  (tokenNext rightTokenNext : Counter)
deriving DecidableEq

def registryInit : Registry :=
  ⟨List.replicate 12 Entry.free, List.replicate 4 Cap.free, Notifier.init, .one, .one⟩

variable (r : Registry) (name : CString)

def Registry.setEntries (es : List Entry) : Registry :=
  ⟨es, r.caps, r.notifier, r.tokenNext, r.rightTokenNext⟩

def Registry.setCaps (cs : List Cap) : Registry :=
  ⟨r.entries, cs, r.notifier, r.tokenNext, r.rightTokenNext⟩

def Registry.setNotifier (n : Notifier) : Registry :=
  ⟨r.entries, r.caps, n, r.tokenNext, r.rightTokenNext⟩

/-! ## Identities -/

def identityOf (live : Identities) (pid : ℤ) : UInt32 × UInt32 :=
  match live pid with
  | some st => (st.sequence.val, st.generation)
  | none => (0, 0)

def keyOf (live : Identities) (pid : ℤ) : UInt32 :=
  match live pid with
  | some st => st.key.val
  | none => 0

def taskIdentityValid (live : Identities) (pid : ℤ) (sequence generation : UInt32) : Bool :=
  if pid ≤ 0 then false
  else
    match live pid with
    | some st =>
      if sequence ≠ 0 ∨ generation ≠ 0 then st.sequence.val == sequence && st.generation == generation
      else true
    | none => sequence == 0 && generation == 0

def identityKeyBound (live : Identities) (pid : ℤ) (stored : UInt32) : Bool :=
  match live pid with
  | some st => st.key.val != 0 && stored == st.key.val
  | none => stored == 0

/-! ## Rights, sources and paths -/

def rightAll : UInt32 := 3

def sourceAll : UInt32 := 15

def rightValid (right : UInt32) : Bool := right != 0 && right &&& ~~~rightAll == 0

def backendSourcesValid (sources : UInt32) : Bool := sources != 0 && sources &&& ~~~sourceAll == 0

/-! ## Rows -/

def Entry.holds (e : Entry) : Bool := 0 < e.pid && nameEqual e.name name

def Entry.clear (e : Entry) : Entry := { e with pid := 0, sequence := 0, generation := 0, name := noText }

def Entry.purge (e : Entry) : Entry := { e with pid := 0, name := noText, rightToken := 0, identityKey := 0 }

def Cap.clear (c : Cap) : Cap :=
  { c with ownerPid := 0, granteePid := 0, rights := 0, sources := 0, pre := noText, name := noText,
           token := 0, identityKey := 0 }

def Cap.drop (c : Cap) : Cap :=
  { c with ownerPid := 0, granteePid := 0, rights := 0, token := 0, identityKey := 0, name := noText }

def Cap.between (ownerPid granteePid : ℤ) (c : Cap) : Bool :=
  c.ownerPid == ownerPid && c.granteePid == granteePid && nameEqual c.name name

def Cap.heldBy (granteePid : ℤ) (c : Cap) : Bool :=
  c.granteePid == granteePid && nameEqual c.name name

def Cap.names (pid : ℤ) (c : Cap) : Bool := c.ownerPid == pid || c.granteePid == pid

def backendGenerationBump : Registry :=
  r.setEntries (modifyFirst (Entry.holds name)
    (fun e => { e with backendGeneration := bump e.backendGeneration }) r.entries)

def backendRemoveName : Registry :=
  let hit : Cap → Bool := fun c => 0 < c.ownerPid && nameEqual c.name name
  if !nameValid name then r
  else if r.caps.any hit then
    backendGenerationBump (r.setCaps (r.caps.map fun c => if hit c then c.clear else c)) name
  else r

def backendRemovePid (pid : ℤ) : Registry :=
  if pid ≤ 0 then r
  else
    ((r.caps.filter (Cap.names pid)).foldl (fun r c => backendGenerationBump r c.name) r).setCaps
      (r.caps.map fun c => if c.names pid then c.clear else c)

/-! ## Services -/

section Live

variable (live : Identities)

def Entry.valid (e : Entry) : Bool := taskIdentityValid live e.pid e.sequence e.generation

variable (r : Registry) (name : CString) (ownerPid granteePid : ℤ) (pid : ℤ)

def serviceLookup : Registry × Except ServiceErr ℤ :=
  if !nameValid name then (r, .error .badName)
  else
    match r.entries.find? (Entry.holds name) with
    | none => (r, .error .notFound)
    | some e =>
      if e.valid live then (r, .ok e.pid)
      else
        (backendRemoveName (r.setEntries (modifyFirst (Entry.holds name) Entry.clear r.entries)) name,
          .error .notFound)

def newEntry : Entry :=
  ⟨pid, (identityOf live pid).1, (identityOf live pid).2, name, 1, r.rightTokenNext.val, keyOf live pid⟩

def publish (p : Entry → Bool) (name : CString) (pid : ℤ) : Registry :=
  ⟨modifyFirst p (fun _ => newEntry live r name pid) r.entries, r.caps, r.notifier, r.tokenNext,
    r.rightTokenNext.bump⟩

def serviceRegister : Registry × Except ServiceErr Unit :=
  let isIt : Entry → Bool := fun e => e.pid != 0 && nameEqual e.name name
  if !nameValid name || pid ≤ 0 then (r, .error .badName)
  else
    match r.entries.find? isIt with
    | some e =>
      if e.pid = pid ∧ e.valid live = true then (r, .ok ())
      else if e.valid live = false then (publish live r isIt name pid, .ok ())
      else (r, .error .taken)
    | none =>
      if r.entries.any fun e => e.pid == 0 then (publish live r (fun e => e.pid == 0) name pid, .ok ())
      else (r, .error .full)

def serviceRemove : Registry × Except ServiceErr Unit :=
  let hit : Entry → Bool := fun e => e.pid == pid && nameEqual e.name name && e.valid live
  if !nameValid name || pid ≤ 0 then (r, .error .badName)
  else if r.entries.any hit then
    (backendRemoveName (r.setEntries (modifyFirst hit Entry.clear r.entries)) name, .ok ())
  else (r, .error .notFound)

/-! ## Capabilities -/

def Cap.stamped (rights sources : UInt32) (pre name : CString) (token : UInt32) : Cap :=
  ⟨ownerPid, (identityOf live ownerPid).1, (identityOf live ownerPid).2, granteePid,
    (identityOf live granteePid).1, (identityOf live granteePid).2, rights, sources, pre, name, token,
    keyOf live granteePid⟩

/-- A grant to a task that has one already: rights and sources are joined, the prefix is replaced,
and nothing happens when that changes nothing. -/
def backendMerge (c : Cap) (name : CString) (ownerPid granteePid : ℤ)
    (rights sources : UInt32) (pre : CString) : Registry :=
  if c.rights ≠ c.rights ||| rights ∨ c.sources ≠ c.sources ||| sources ∨ prefixEqual c.pre pre = false then
    let token := if c.token = 0 then r.tokenNext.val else c.token
    let row := Cap.stamped live ownerPid granteePid (c.rights ||| rights) (c.sources ||| sources) pre
      c.name token
    backendGenerationBump ⟨r.entries, modifyFirst (Cap.between name ownerPid granteePid) (fun _ => row)
      r.caps, r.notifier, if c.token = 0 then r.tokenNext.bump else r.tokenNext, r.rightTokenNext⟩ name
  else r

/-- `service_registry_backend_grant_scoped_source_prefix`. -/
def backendGrant (rights sources : UInt32) (pre : CString) : Registry × Except ServiceErr Unit :=
  if !nameValid name || ownerPid ≤ 0 || granteePid ≤ 0 || !rightValid rights ||
      !backendSourcesValid sources || !prefixValid pre then (r, .error .badName)
  else
    let (r, owner) := serviceLookup live r name
    if owner ≠ .ok ownerPid then (r, .error .notOwner)
    else
      match r.caps.find? (Cap.between name ownerPid granteePid) with
      | some c => (backendMerge live r c name ownerPid granteePid rights sources pre, .ok ())
      | none =>
        if r.caps.any fun c => c.ownerPid == 0 then
          let row := Cap.stamped live ownerPid granteePid rights sources pre name r.tokenNext.val
          (backendGenerationBump ⟨r.entries, modifyFirst (fun c => c.ownerPid == 0) (fun _ => row) r.caps,
            r.notifier, r.tokenNext.bump, r.rightTokenNext⟩ name, .ok ())
        else (r, .error .full)

def vfsVirtualName : CString := ⟨[118, 102, 115, 45, 118, 105, 114, 116, 117, 97, 108], by decide⟩

def vfsHandoff (granteePid : ℤ) : Registry :=
  if nameEqual name vfsName then
    let (r, worker) := serviceLookup live r vfsVirtualName
    match worker with
    | .ok _ => (backendGrant live r name granteePid granteePid rightAll sourceAll noText).1
    | .error _ => r
  else r

def Entry.handTo (e : Entry) : Entry :=
  ⟨pid, (identityOf live pid).1, (identityOf live pid).2, e.name, e.backendGeneration, e.rightToken,
    keyOf live pid⟩

def handedOver (granteePid : ℤ) : Registry :=
  backendRemoveName (r.setEntries (modifyFirst (fun e => nameEqual e.name name)
    (Entry.handTo live granteePid) r.entries)) name

/-- `service_registry_grant`: the owner hands the name over. -/
def serviceGrant : Registry × Except ServiceErr Unit :=
  if !nameValid name || ownerPid ≤ 0 then (r, .error .badName)
  else if granteePid ≤ 0 then (r, .error .badGrantee)
  else
    match r.entries.find? fun e => nameEqual e.name name with
    | none => (r, .error .notFound)
    | some e =>
      if e.pid ≠ ownerPid ∨ e.valid live = false then (r, .error .notOwner)
      else (vfsHandoff live (handedOver live r name granteePid) name granteePid, .ok ())

def backendRevoke : Registry × Except ServiceErr Unit :=
  if !nameValid name || ownerPid ≤ 0 || granteePid ≤ 0 then (r, .error .badName)
  else
    let (r, owner) := serviceLookup live r name
    if owner ≠ .ok ownerPid then (r, .error .notOwner)
    else if r.caps.any (Cap.between name ownerPid granteePid) then
      (backendGenerationBump (r.setCaps (modifyFirst (Cap.between name ownerPid granteePid) Cap.clear
        r.caps)) name, .ok ())
    else (r, .error .notFound)

def backendRelease (granteePid : ℤ) : Registry × Except ServiceErr Unit :=
  if !nameValid name || granteePid ≤ 0 then (r, .error .badName)
  else if r.caps.any (Cap.heldBy name granteePid) then
    (backendGenerationBump (r.setCaps (modifyFirst (Cap.heldBy name granteePid) Cap.drop r.caps)) name,
      .ok ())
  else (r, .error .notFound)

def backendClearToken (granteePid : ℤ) : Registry × Except ServiceErr Unit :=
  if !nameValid name || granteePid ≤ 0 then (r, .error .badName)
  else if r.caps.any (Cap.heldBy name granteePid) then
    (r.setCaps (modifyFirst (Cap.heldBy name granteePid) (fun c => { c with token := 0, identityKey := 0 })
      r.caps), .ok ())
  else (r, .error .notFound)

def Cap.permits (right source : UInt32) (path : Option CString) (c : Cap) : Bool :=
  taskIdentityValid live c.ownerPid c.ownerSequence c.ownerGeneration && c.token != 0 &&
    c.rights &&& right == right && c.sources &&& source == source &&
    identityKeyBound live pid c.identityKey && prefixMatches c.pre path

def Cap.reaches (c : Cap) : Bool :=
  c.granteePid == pid && taskIdentityValid live pid c.granteeSequence c.granteeGeneration &&
    nameEqual c.name name

/-- The loop, over the numbers of the rows: a lookup that removes the name clears its rows. -/
def allowedLoop (name : CString) (pid : ℤ) (right source : UInt32) (path : Option CString) :
    List ℕ → Registry → Registry × Bool
  | [], r => (r, false)
  | i :: is, r =>
    match r.caps[i]? with
    | none => allowedLoop name pid right source path is r
    | some c =>
      if c.reaches live name pid then
        let (r, owner) := serviceLookup live r name
        if owner = .ok c.ownerPid ∧ c.permits live pid right source path = true then (r, true)
        else allowedLoop name pid right source path is r
      else allowedLoop name pid right source path is r

def backendAllowed (right source : UInt32) (path : Option CString) : Registry × Bool :=
  if !rightValid right || !backendSourcesValid source then (r, false)
  else allowedLoop live name pid right source path (List.range r.caps.length) r

end Live

/-! ## Purges -/

/-- `service_registry_remove_pid` without the rows of the spill. -/
def serviceRemovePid (r : Registry) (pid : ℤ) : Registry :=
  if pid ≤ 0 then r
  else
    let r := backendRemovePid r pid
    (r.setEntries (r.entries.map fun e => if e.pid == pid then e.purge else e)).setNotifier
      ⟨r.notifier.watches, clearWatcher r.notifier.history pid⟩

/-- `service_registry_remove_watcher_pid` without the rows of the spill. -/
def removeWatcherPid (r : Registry) (pid : ℤ) : Registry :=
  if pid ≤ 0 then r
  else r.setNotifier ⟨r.notifier.watches.map fun w => if w.pid == pid then { w with pid := 0, name := noText }
    else w, r.notifier.history⟩

end Mohhdy.Kernel
