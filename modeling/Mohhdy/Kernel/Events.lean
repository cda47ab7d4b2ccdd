import Mohhdy.Kernel.Mounts

/-! The history of service events and its journal (`src/kernel/service_registry.c`).

The history has eight rows; a row is free when no task watches it. The journal holds the rows that
are not acknowledged, without their watcher: a header of five words (magic, version, number of
records, sequence counter, sum of the bytes of the records) and records of 32 bytes. -/
namespace Mohhdy.Kernel
set_option autoImplicit false

open Words Tables

/-- `service_registry_notify_event_t`. The two process numbers are only stored, as 32 bits. -/
structure NotifyEvent where
  sequence : UInt32
  watcherPid : ℤ
  name : CString
  (oldPid newPid reason : UInt32)
  (acked replayed : Bool)
deriving DecidableEq

def NotifyEvent.cleared : NotifyEvent := ⟨0, 0, noText, 0, 0, 0, false, false⟩

structure History where
  events : List NotifyEvent
  seqCounter : UInt32
deriving DecidableEq

def noEvents : List NotifyEvent := List.replicate 8 NotifyEvent.cleared

variable (h : History)

/-- The row a new event takes: the first without a watcher, else one by the sequence number. -/
def recordSlot : ℕ :=
  (h.events.findIdx? fun e => e.watcherPid == 0).getD ((bump h.seqCounter).toNat % 8)

def notifyRecord (name : CString) (watcherPid : ℤ) (oldPid newPid reason : UInt32) :
    History × Except ServiceErr UInt32 :=
  if nameValid name = false ∨ watcherPid ≤ 0 then (h, .error .badName)
  else
    let seq := bump h.seqCounter
    (⟨h.events.set (recordSlot h) ⟨seq, watcherPid, name, oldPid, newPid, reason, false, false⟩,
      seq⟩, .ok seq)

/-- An event that `notify_pull` may hand to the watcher. -/
def NotifyEvent.pendingFor (watcherPid : ℤ) (e : NotifyEvent) : Bool :=
  e.watcherPid == watcherPid && 0 < e.sequence && !e.acked

def notifyPull (watcherPid : ℤ) : History × Except ServiceErr NotifyEvent :=
  if watcherPid ≤ 0 then (h, .error .badName)
  else
    match least (NotifyEvent.pendingFor watcherPid) (·.sequence.toNat) h.events with
    | none => (h, .error .notFound)
    | some e =>
      (⟨modifyFirst (fun x => x.pendingFor watcherPid && x.sequence == e.sequence)
          (fun x => { x with acked := true }) h.events, h.seqCounter⟩, .ok e)

def notifyAck (watcherPid : ℤ) (sequence : UInt32) : History × Except ServiceErr Unit :=
  let at_ := fun e : NotifyEvent => e.watcherPid == watcherPid && e.sequence == sequence
  if watcherPid ≤ 0 ∨ sequence = 0 then (h, .error .badName)
  else if h.events.any at_ then
    (⟨modifyFirst at_ (fun e => { e with acked := true }) h.events, h.seqCounter⟩, .ok ())
  else (h, .error .notFound)

def clearWatcher (pid : ℤ) : History :=
  ⟨h.events.map fun e => if e.watcherPid = pid then
      { e with sequence := 0, watcherPid := 0, name := noText, acked := false } else e,
    h.seqCounter⟩

def NotifyEvent.unbound (name : CString) (e : NotifyEvent) : Bool :=
  e.watcherPid == 0 && 0 < e.sequence && !e.acked && nameEqual e.name name

def eventJournalBind (name : CString) (pid : ℤ) : History :=
  ⟨h.events.map fun e => if e.unbound name then { e with watcherPid := pid } else e,
    h.seqCounter⟩

/-! ## Watches -/

/-- `service_registry_watch_t`. -/
structure Watch where
  pid : ℤ
  (sequence generation : UInt32)
  name : CString
deriving DecidableEq

def Watch.cleared : Watch := ⟨0, 0, 0, noText⟩

def noWatches : List Watch := List.replicate 8 Watch.cleared

def Watch.isFor (name : CString) (pid : ℤ) (w : Watch) : Bool :=
  w.pid != 0 && w.pid == pid && nameEqual w.name name

/-- The row `service_registry_subscribe` writes: the one of the name and the task, stamped again,
or the first free one. -/
def watchAdd (ws : List Watch) (name : CString) (pid : ℤ) (sequence generation : UInt32) :
    Except ServiceErr (List Watch) :=
  if nameValid name = false ∨ pid ≤ 0 then .error .badName
  else if ws.any (Watch.isFor name pid) then
    .ok (modifyFirst (Watch.isFor name pid)
      (fun w => { w with sequence := sequence, generation := generation }) ws)
  else if ws.any fun w => w.pid == 0 then
    .ok (modifyFirst (fun w => w.pid == 0) (fun _ => ⟨pid, sequence, generation, name⟩) ws)
  else .error .watchFull

/-! ## The journal -/

def NotifyEvent.pending (e : NotifyEvent) : Bool := 0 < e.sequence && !e.acked

/-- `event_journal_entry_t`. -/
def eventRecord (e : NotifyEvent) : List UInt8 :=
  le32 e.sequence ++ (textField 16 e.name ++ (le32 e.oldPid ++ (le32 e.newPid ++ le32 e.reason)))

def eventHeader (body : List UInt8) (count : ℕ) (seqCounter : UInt32) : List UInt8 :=
  le32 0x544E5645 ++ (le32 1 ++ (le32 (UInt32.ofNat count) ++ (le32 seqCounter ++
    le32 (journalSum body))))

def eventJournalExport (cap : ℕ) : Except ServiceErr (List UInt8) :=
  let recs := h.events.filter NotifyEvent.pending
  let need := 20 + recs.length * 32
  if cap < need ∨ 512 < need then .error .full
  else
    let body := recs.flatMap eventRecord
    .ok (eventHeader body recs.length h.seqCounter ++ (body ++ List.replicate (cap - need) 0))

def readEvent (b : List UInt8) : NotifyEvent :=
  ⟨readLe32 b, 0, readText 16 (b.drop 4), readLe32 (b.drop 20), readLe32 (b.drop 24),
    readLe32 (b.drop 28), false, false⟩

def NotifyEvent.recordOk (e : NotifyEvent) : Bool :=
  e.sequence != 0 && 1 ≤ e.reason && e.reason ≤ 4 && nameValid e.name

def eventImportLoop : ℕ → ℕ → List UInt8 → List NotifyEvent → List NotifyEvent × Except ServiceErr Unit
  | 0, _, _, es => (es, .ok ())
  | n + 1, i, b, es =>
    if (readEvent b).recordOk then eventImportLoop n (i + 1) (b.drop 32) (es.set i (readEvent b))
    else (es, .error .notFound)

def eventHeaderError (buf : List UInt8) : Option ServiceErr :=
  let count := (readLe32 (buf.drop 8)).toNat
  if buf.length < 20 then some .badName
  else if readLe32 buf ≠ 0x544E5645 ∨ readLe32 (buf.drop 4) ≠ 1 then some .notFound
  else if 8 < count then some .notFound
  else if buf.length < 20 + count * 32 then some .notFound
  else if readLe32 (buf.drop 16) ≠ journalSum ((buf.drop 20).take (count * 32)) then some .notFound
  else none

def eventJournalImport (buf : List UInt8) : History × Except ServiceErr Unit :=
  match eventHeaderError buf with
  | some e => (h, .error e)
  | none =>
    let (es, rc) := eventImportLoop (readLe32 (buf.drop 8)).toNat 0 (buf.drop 20) noEvents
    (⟨es, max (readLe32 (buf.drop 12)) h.seqCounter⟩, rc)

end Mohhdy.Kernel
