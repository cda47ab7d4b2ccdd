import Mohhdy.Kernel.BootJournal

/-! What the history of service events is for: a queue of events that each watcher takes its own
from, in the order they were recorded, and that a reboot keeps.

`Queue` is that queue. As long as `service_registry_notify_record` does not take the row of an
event that is still waiting, the history is such a queue. -/
namespace Mohhdy.Kernel
set_option autoImplicit false

open Words Tables Runs List

variable {e x : NotifyEvent} {l₁ l₂ : List NotifyEvent}

/-! ## The history and the watches -/

structure Notifier where
  watches : List Watch
  history : History
deriving DecidableEq

def Notifier.init : Notifier := ⟨noWatches, ⟨noEvents, 0⟩⟩

inductive NotifyOp where
  | record (name : CString) (watcherPid : ℤ) (oldPid newPid reason : UInt32)
  | pull (watcherPid : ℤ)
  | ack (watcherPid : ℤ) (sequence : UInt32)
  | subscribe (name : CString) (pid : ℤ) (sequence generation : UInt32)
  | reboot
  | removePid (pid : ℤ)

/-- `service_registry_subscribe`. -/
def subscribe (s : Notifier) (name : CString) (pid : ℤ) (sequence generation : UInt32) : Notifier :=
  match watchAdd s.watches name pid sequence generation with
  | .error _ => s
  | .ok ws => ⟨ws, eventJournalBind s.history name pid⟩

/-- `service_registry_init` with the journal that the last export wrote. -/
def reboot (s : Notifier) : Notifier :=
  match eventJournalExport s.history 512 with
  | .error _ => Notifier.init
  | .ok buf => ⟨noWatches, (eventJournalImport ⟨noEvents, 0⟩ buf).1⟩

def notifyStep (s : Notifier) : NotifyOp → Notifier
  | .record name watcherPid oldPid newPid reason =>
    ⟨s.watches, (notifyRecord s.history name watcherPid oldPid newPid reason).1⟩
  | .pull watcherPid => ⟨s.watches, (notifyPull s.history watcherPid).1⟩
  | .ack watcherPid sequence => ⟨s.watches, (notifyAck s.history watcherPid sequence).1⟩
  | .subscribe name pid sequence generation => subscribe s name pid sequence generation
  | .reboot => reboot s
  | .removePid pid => if pid ≤ 0 then s else ⟨s.watches, clearWatcher s.history pid⟩

/-! ## The queue -/

structure Item where
  sequence : UInt32
  watcherPid : ℤ
  name : CString
  (oldPid newPid reason : UInt32)
deriving DecidableEq

structure Queue where
  watches : List Watch
  items : List Item
  counter : UInt32

def Queue.init : Queue := ⟨noWatches, [], 0⟩

def Item.bind (name : CString) (pid : ℤ) (x : Item) : Item :=
  if x.watcherPid = 0 ∧ x.name = name then { x with watcherPid := pid } else x

def queueStep (q : Queue) : NotifyOp → Queue
  | .record name watcherPid oldPid newPid reason =>
    if nameValid name = false ∨ watcherPid ≤ 0 then q
    else ⟨q.watches, q.items ++ [⟨bump q.counter, watcherPid, name, oldPid, newPid, reason⟩],
      bump q.counter⟩
  | .pull watcherPid =>
    if watcherPid ≤ 0 then q
    else ⟨q.watches, q.items.eraseP fun x => x.watcherPid == watcherPid, q.counter⟩
  | .ack watcherPid sequence =>
    if watcherPid ≤ 0 then q
    else ⟨q.watches, q.items.eraseP fun x => x.watcherPid == watcherPid && x.sequence == sequence,
      q.counter⟩
  | .subscribe name pid sequence generation =>
    match watchAdd q.watches name pid sequence generation with
    | .error _ => q
    | .ok ws => ⟨ws, q.items.map (Item.bind name pid), q.counter⟩
  | .reboot => ⟨noWatches, q.items.map fun x => { x with watcherPid := 0 }, q.counter⟩
  | .removePid pid =>
    if pid ≤ 0 then q
    else ⟨q.watches, q.items.filter fun x => x.watcherPid != pid, q.counter⟩

/-! ## The history is the queue -/

def NotifyEvent.item (e : NotifyEvent) : Item :=
  ⟨e.sequence, e.watcherPid, e.name, e.oldPid, e.newPid, e.reason⟩

structure RowOk (counter : UInt32) (e : NotifyEvent) : Prop where
  le : e.sequence.toNat ≤ counter.toNat
  name : nameValid e.name = true
  reason : 1 ≤ e.reason ∧ e.reason ≤ 4

structure Sim (s : Notifier) (q : Queue) : Prop where
  watches : s.watches = q.watches
  counter : s.history.seqCounter = q.counter
  length : s.history.events.length = 8
  perm : q.items.Perm ((s.history.events.filter NotifyEvent.pending).map NotifyEvent.item)
  sorted : q.items.Pairwise fun x y => x.sequence.toNat < y.sequence.toNat
  distinct : s.history.events.Pairwise fun a b => a.sequence = b.sequence → a.sequence = 0
  rows : ∀ e ∈ s.history.events, e.sequence ≠ 0 → RowOk s.history.seqCounter e

theorem pending_iff : e.pending = true ↔ e.sequence ≠ 0 ∧ e.acked = false := by
  simp [NotifyEvent.pending, UInt32.pos_iff_ne_zero]

theorem pendingFor_iff {w : ℤ} : e.pendingFor w = true ↔ e.pending = true ∧ e.watcherPid = w := by
  simp only [NotifyEvent.pendingFor, NotifyEvent.pending, Bool.and_eq_true, beq_iff_eq]
  tauto

variable {s : Notifier} {q : Queue}

theorem Sim.mem_iff (h : Sim s q) {x : Item} :
    x ∈ q.items ↔ ∃ e ∈ s.history.events, e.pending = true ∧ e.item = x := by
  rw [h.perm.mem_iff, mem_map]
  simp only [mem_filter, and_assoc]

theorem Sim.init : Sim Notifier.init Queue.init where
  watches := rfl
  counter := rfl
  length := rfl
  perm := List.Perm.refl _
  sorted := List.Pairwise.nil
  distinct := by
    exact pairwise_replicate.mpr (.inr fun _ => rfl)
  rows := by
    intro e he hne
    rw [eq_of_mem_replicate he] at hne
    exact absurd rfl hne

theorem Sim.row_eq (h : Sim s q) {a b : NotifyEvent}
    (ha : a ∈ s.history.events) (hb : b ∈ s.history.events) (heq : a.sequence = b.sequence)
    (hne : a.sequence ≠ 0) : a = b := by
  by_contra hab
  have : Std.Symm fun a b : NotifyEvent => a.sequence = b.sequence → a.sequence = 0 :=
    ⟨fun x y hxy hyx => hyx.trans (hxy hyx.symm)⟩
  exact hne (h.distinct.forall ha hb hab heq)

theorem distinct_middle :
    (l₁ ++ x :: l₂).Pairwise (fun a b => a.sequence = b.sequence → a.sequence = 0) ↔
      (∀ a ∈ l₁ ++ l₂, x.sequence = a.sequence → x.sequence = 0) ∧
        (l₁ ++ l₂).Pairwise fun a b => a.sequence = b.sequence → a.sequence = 0 := by
  rw [pairwise_middle fun hab hba => hba.trans (hab hba.symm), pairwise_cons]

/-- One row is rewritten: `hy` puts it beside the others, `hperm` says what it does to the queue. -/
theorem Sim.replace (h : Sim s q)
    {y : NotifyEvent} (hev : s.history.events = l₁ ++ x :: l₂) {c : UInt32} {items : List Item}
    (hc : s.history.seqCounter.toNat ≤ c.toNat) (hrow : y.sequence ≠ 0 → RowOk c y)
    (hy : ∀ a ∈ l₁ ++ l₂, y.sequence = a.sequence → y.sequence = 0)
    (hperm : items.Perm (((y :: (l₁ ++ l₂)).filter NotifyEvent.pending).map NotifyEvent.item))
    (hsorted : items.Pairwise fun x y => x.sequence.toNat < y.sequence.toNat) :
    Sim ⟨s.watches, ⟨l₁ ++ y :: l₂, c⟩⟩ ⟨q.watches, items, c⟩ where
  watches := h.watches
  counter := rfl
  length := by simpa [hev] using h.length
  perm := hperm.trans ((perm_middle.symm.filter _).map _)
  sorted := hsorted
  distinct := distinct_middle.mpr ⟨hy, (distinct_middle.mp (hev ▸ h.distinct)).2⟩
  rows := by
    intro e he hne
    rcases mem_cons.mp (perm_middle.mem_iff.mp he) with rfl | he
    · exact hrow hne
    · have hmem : e ∈ s.history.events := by
        rw [hev]
        exact perm_middle.mem_iff.mpr (mem_cons_of_mem _ he)
      obtain ⟨hle, hname, hreason⟩ := h.rows e hmem hne
      exact ⟨hle.trans hc, hname, hreason⟩

theorem Sim.perm_split (h : Sim s q) (hev : s.history.events = l₁ ++ x :: l₂) :
    q.items.Perm (((x :: (l₁ ++ l₂)).filter NotifyEvent.pending).map NotifyEvent.item) := by
  have hp := h.perm
  rw [hev] at hp
  exact hp.trans ((perm_middle.filter _).map _)

/-! ## Recording -/

theorem recordSlot_lt {h : History} (hlen : h.events.length = 8) : recordSlot h < 8 := by
  unfold recordSlot
  cases hf : h.events.findIdx? fun e => e.watcherPid == 0 with
  | none => exact Nat.mod_lt _ (by decide)
  | some i => exact hlen ▸ (List.findIdx?_eq_some_iff_getElem.mp hf).1

/-- A record takes a row that holds no waiting event, has a reason of the kernel, and the counter
does not run over. -/
def RecordKept (h : History) (reason : UInt32) : Prop :=
  (h.events[recordSlot h]?).all (fun e => !e.pending) = true ∧ (1 ≤ reason ∧ reason ≤ 4) ∧
    h.seqCounter.toNat + 1 < 2 ^ 32

section
variable (h : Sim s q)
include h

theorem Sim.record {name : CString} {w : ℤ} {oldPid newPid reason : UInt32}
    (hk : nameValid name = true → 0 < w → RecordKept s.history reason) :
    Sim (notifyStep s (.record name w oldPid newPid reason))
      (queueStep q (.record name w oldPid newPid reason)) := by
  simp only [notifyStep, queueStep, notifyRecord]
  split
  · exact h
  rename_i hvalid
  simp only [not_or, Bool.not_eq_false, not_le] at hvalid
  obtain ⟨hfree, hreason, hroom⟩ := hk hvalid.1 hvalid.2
  have hlt : recordSlot s.history < s.history.events.length := h.length ▸ recordSlot_lt h.length
  rw [List.getElem?_eq_getElem hlt, Option.all_some, Bool.not_eq_true'] at hfree
  have hev : s.history.events = s.history.events.take (recordSlot s.history) ++
      s.history.events[recordSlot s.history] :: s.history.events.drop (recordSlot s.history + 1) := by
    rw [← drop_eq_getElem_cons hlt, take_append_drop]
  have hbump := bump_toNat hroom
  have hnext : ∀ a ∈ s.history.events, a.sequence.toNat ≤ s.history.seqCounter.toNat := by
    intro a ha
    by_cases h0 : a.sequence = 0
    · simp [h0]
    · exact (h.rows a ha h0).le
  have hold := h.perm_split hev
  rw [filter_cons_of_neg (by simp [hfree])] at hold
  rw [set_eq_take_append_cons_drop, if_pos hlt, ← h.counter]
  refine h.replace hev (by omega) (fun _ => ⟨le_rfl, hvalid.1, hreason⟩) ?_ ?_ ?_
  · intro a ha heq
    have hmem : a ∈ s.history.events := by
      rw [hev]
      exact perm_middle.mem_iff.mpr (mem_cons_of_mem _ ha)
    have hle := hnext a hmem
    change bump s.history.seqCounter = a.sequence at heq
    rw [← heq] at hle
    omega
  · rw [filter_cons_of_pos (pending_iff.mpr ⟨bump_ne_zero _, rfl⟩), map_cons]
    exact (perm_append_singleton _ _).trans (hold.cons _)
  · refine pairwise_append.mpr ⟨h.sorted, pairwise_singleton _ _, ?_⟩
    intro x hx y hy
    obtain ⟨e, he, -, rfl⟩ := h.mem_iff.mp hx
    rw [mem_singleton.mp hy]
    have := hnext e he
    simp only [NotifyEvent.item]
    omega

/-! ## Pulling and acknowledging -/

theorem Sim.find_eq (w : ℤ) : q.items.find? (fun x => x.watcherPid == w) =
      (least (NotifyEvent.pendingFor w) (·.sequence.toNat) s.history.events).map NotifyEvent.item := by
  cases hl : least (NotifyEvent.pendingFor w) (·.sequence.toNat) s.history.events with
  | none =>
    rw [Option.map_none, List.find?_eq_none]
    intro x hx hw
    obtain ⟨e, he, hp, rfl⟩ := h.mem_iff.mp hx
    have := least_none hl e he
    rw [pendingFor_iff.mpr ⟨hp, by simpa [NotifyEvent.item] using hw⟩] at this
    cases this
  | some e =>
    obtain ⟨he, hpend, hmin⟩ := least_spec hl
    obtain ⟨hp, hw⟩ := pendingFor_iff.mp hpend
    have hitem : e.item ∈ q.items := h.mem_iff.mpr ⟨e, he, hp, rfl⟩
    cases hf : q.items.find? fun x => x.watcherPid == w with
    | none =>
      have := List.find?_eq_none.mp hf e.item hitem
      simp [NotifyEvent.item, hw] at this
    | some x =>
      obtain ⟨hx, as, bs, hsplit, has⟩ := List.find?_eq_some_iff_append.mp hf
      rw [hsplit] at hitem
      rcases mem_append.mp hitem with hmem | hmem
      · have := has _ hmem
        simp [NotifyEvent.item, hw] at this
      rcases mem_cons.mp hmem with heq | hlater
      · rw [← heq, Option.map_some]
      · -- the picked event would come after a smaller one for the same watcher
        have hxmem : x ∈ q.items := by simp [hsplit]
        obtain ⟨e', he', hp', rfl⟩ := h.mem_iff.mp hxmem
        have hle := hmin e' he' (pendingFor_iff.mpr ⟨hp', by simpa [NotifyEvent.item] using hx⟩)
        have hsorted := h.sorted
        rw [hsplit, pairwise_append, pairwise_cons] at hsorted
        have hlt := hsorted.2.1.1 e.item hlater
        simp only [NotifyEvent.item] at hlt
        omega

theorem Sim.drop (hev : s.history.events = l₁ ++ x :: l₂) (hx : x.pending = true)
    {p : Item → Bool} (hp : q.items.find? p = some x.item) :
    Sim ⟨s.watches, ⟨l₁ ++ { x with acked := true } :: l₂, s.history.seqCounter⟩⟩
      ⟨q.watches, q.items.eraseP p, q.counter⟩ := by
  obtain ⟨hpx, as, bs, hsplit, has⟩ := List.find?_eq_some_iff_append.mp hp
  have herase : q.items.eraseP p = as ++ bs := by
    rw [hsplit, eraseP_append_right _ (by simpa using has), eraseP_cons_of_pos hpx]
  have hmem : x ∈ s.history.events := by simp [hev]
  have hd := h.perm_split hev
  rw [filter_cons_of_pos hx, map_cons, hsplit] at hd
  rw [herase, ← h.counter]
  refine h.replace hev le_rfl (fun hne => ⟨(h.rows x hmem hne).le, (h.rows x hmem hne).name,
    (h.rows x hmem hne).reason⟩) ?_ ?_ ?_
  · have hd := h.distinct
    rw [hev] at hd
    exact (distinct_middle.mp hd).1
  · rw [filter_cons_of_neg (by simp [NotifyEvent.pending])]
    exact (perm_middle.symm.trans hd).cons_inv
  · have hs := h.sorted
    rw [hsplit] at hs
    exact hs.sublist (List.Sublist.append_left (sublist_cons_self _ _) _)

theorem Sim.pull (w : ℤ) : Sim (notifyStep s (.pull w)) (queueStep q (.pull w)) := by
  simp only [notifyStep, queueStep, notifyPull]
  split
  · exact h
  have hfind := h.find_eq w
  cases hl : least (NotifyEvent.pendingFor w) (·.sequence.toNat) s.history.events with
  | none =>
    rw [hl, Option.map_none] at hfind
    rw [eraseP_of_forall_not (fun x hx => List.find?_eq_none.mp hfind x hx)]
    exact h
  | some e =>
    rw [hl, Option.map_some] at hfind
    obtain ⟨he, hpend, -⟩ := least_spec hl
    have hany : s.history.events.any
        (fun x => x.pendingFor w && x.sequence == e.sequence) = true :=
      any_eq_true.mpr ⟨e, he, by simp [hpend]⟩
    obtain ⟨l₁, x, l₂, hev, hx, -, hmod⟩ := modifyFirst_split (fun x => { x with acked := true }) hany
    simp only [Bool.and_eq_true, beq_iff_eq] at hx
    have hxp := (pendingFor_iff.mp hx.1).1
    have hxe : x = e := h.row_eq (by simp [hev]) he hx.2 (pending_iff.mp hxp).1
    simp only [hmod]
    rw [← hxe] at hfind
    exact h.drop hev hxp hfind

theorem Sim.ack (w : ℤ) (sequence : UInt32) :
    Sim (notifyStep s (.ack w sequence)) (queueStep q (.ack w sequence)) := by
  have hitem : ∀ y ∈ q.items, (y.watcherPid == w && y.sequence == sequence) = true →
      ∃ e ∈ s.history.events, e.pending = true ∧ e.watcherPid = w ∧ e.sequence = sequence ∧
        e.item = y := by
    intro y hy hp
    obtain ⟨e, he, hpend, rfl⟩ := h.mem_iff.mp hy
    simp only [Bool.and_eq_true, beq_iff_eq] at hp
    exact ⟨e, he, hpend, hp.1, hp.2, rfl⟩
  -- without a waiting row of that number nothing leaves the queue
  have hnone : (∀ e ∈ s.history.events, e.watcherPid = w → e.sequence = sequence →
      e.pending = false) → Sim s ⟨q.watches, q.items.eraseP fun x =>
        x.watcherPid == w && x.sequence == sequence, q.counter⟩ := by
    intro hno
    rw [eraseP_of_forall_not]
    · exact h
    · intro y hy hp
      obtain ⟨e, he, hpend, hw, hseq, -⟩ := hitem y hy hp
      rw [hno e he hw hseq] at hpend
      cases hpend
  simp only [notifyStep, queueStep, notifyAck]
  by_cases hw : w ≤ 0
  · rw [if_pos (.inl hw), if_pos hw]
    exact h
  rw [if_neg hw]
  by_cases h0 : sequence = 0
  · rw [if_pos (.inr h0)]
    refine hnone fun e _ _ hseq => ?_
    rw [Bool.eq_false_iff]
    exact fun hpend => (pending_iff.mp hpend).1 (hseq.trans h0)
  rw [if_neg (by simp [hw, h0])]
  split
  · rename_i hany
    obtain ⟨l₁, x, l₂, hev, hx, -, hmod⟩ :=
      modifyFirst_split (fun e : NotifyEvent => { e with acked := true }) hany
    simp only [Bool.and_eq_true, beq_iff_eq] at hx
    have hmem : x ∈ s.history.events := by simp [hev]
    simp only [hmod]
    by_cases hpend : x.pending = true
    · refine h.drop hev hpend ?_
      have hex : (q.items.find? fun y => y.watcherPid == w && y.sequence == sequence).isSome := by
        rw [List.find?_isSome]
        exact ⟨x.item, h.mem_iff.mpr ⟨x, hmem, hpend, rfl⟩, by simp [NotifyEvent.item, hx]⟩
      obtain ⟨y, hy⟩ := Option.isSome_iff_exists.mp hex
      have hyp := List.find?_some hy
      obtain ⟨e, he, -, -, hseq, rfl⟩ := hitem y (mem_of_find?_eq_some hy) hyp
      rw [hy, h.row_eq he hmem (hseq.trans hx.2.symm) (hseq ▸ h0)]
    · have hacked : x.acked = true := by
        by_contra hna
        exact hpend (pending_iff.mpr ⟨hx.2 ▸ h0, by simpa using hna⟩)
      have hsame : ({ x with acked := true } : NotifyEvent) = x := by rw [← hacked]
      rw [hsame, ← hev]
      refine hnone fun e he _ hseq => ?_
      rw [h.row_eq he hmem (hseq.trans hx.2.symm) (hseq ▸ h0)]
      simpa using hpend
  · rename_i hany
    refine hnone fun e he hew hes => ?_
    exact absurd (any_eq_true.mpr ⟨e, he, by simp [hew, hes]⟩) hany

/-! ## Subscribing, removing a task, rebooting -/

theorem Sim.mapRows {f : NotifyEvent → NotifyEvent} {ws : List Watch} {items : List Item}
    (hseq : ∀ e, (f e).sequence = e.sequence ∨ (f e).sequence = 0)
    (hrow : ∀ e, (f e).sequence ≠ 0 → (f e).name = e.name ∧ (f e).reason = e.reason)
    (hperm : items.Perm (((s.history.events.map f).filter NotifyEvent.pending).map NotifyEvent.item))
    (hsorted : items.Pairwise fun x y => x.sequence.toNat < y.sequence.toNat) :
    Sim ⟨ws, ⟨s.history.events.map f, s.history.seqCounter⟩⟩ ⟨ws, items, q.counter⟩ where
  watches := rfl
  counter := h.counter
  length := by rw [length_map, h.length]
  perm := hperm
  sorted := hsorted
  distinct := by
    rw [pairwise_map]
    refine h.distinct.imp fun {a b} hab heq => ?_
    rcases hseq a with ha | ha
    · rcases hseq b with hb | hb
      · rw [ha]
        exact hab (by rw [← ha, ← hb, heq])
      · rw [heq, hb]
    · exact ha
  rows := by
    intro e he hne
    obtain ⟨a, ha, rfl⟩ := mem_map.mp he
    obtain ⟨hname, hreason⟩ := hrow a hne
    have hs : (f a).sequence = a.sequence := (hseq a).resolve_right hne
    obtain ⟨hle, h1, h2⟩ := h.rows a ha (hs ▸ hne)
    exact ⟨by rw [hs]; exact hle, by rw [hname]; exact h1, by rw [hreason]; exact h2⟩

theorem Sim.subscribe (name : CString) (pid : ℤ) (sequence generation : UInt32) :
    Sim (notifyStep s (.subscribe name pid sequence generation))
      (queueStep q (.subscribe name pid sequence generation)) := by
  simp only [notifyStep, queueStep, Kernel.subscribe, h.watches]
  cases watchAdd q.watches name pid sequence generation with
  | error e => exact h
  | ok ws =>
    have hbind : ∀ e ∈ s.history.events, e.pending = true →
        (if e.unbound name then { e with watcherPid := pid } else e).item = e.item.bind name pid := by
      intro e he hpend
      have hlen := nameValid_length (h.rows e he (pending_iff.mp hpend).1).name
      have hiff : e.unbound name = true ↔ e.item.watcherPid = 0 ∧ e.item.name = name := by
        rw [pending_iff] at hpend
        simp [NotifyEvent.unbound, NotifyEvent.item, hpend, hlen, UInt32.pos_iff_ne_zero]
      unfold Item.bind
      by_cases hu : e.unbound name = true
      · rw [if_pos hu, if_pos (hiff.mp hu)]
        rfl
      · rw [if_neg hu, if_neg (fun hc => hu (hiff.mpr hc))]
    have hfilter : ((s.history.events.map fun e =>
        if e.unbound name then { e with watcherPid := pid } else e).filter NotifyEvent.pending).map
          NotifyEvent.item =
        ((s.history.events.filter NotifyEvent.pending).map NotifyEvent.item).map
          (Item.bind name pid) := by
      rw [filter_map, map_map, map_map]
      have hpend : (NotifyEvent.pending ∘ fun e : NotifyEvent =>
          if e.unbound name then { e with watcherPid := pid } else e) = NotifyEvent.pending := by
        funext e
        simp only [Function.comp]
        split <;> rfl
      rw [hpend]
      refine map_congr_left fun e he => ?_
      exact hbind e (mem_filter.mp he).1 (mem_filter.mp he).2
    refine h.mapRows ?_ ?_ ?_ ?_
    · intro e
      left
      split <;> rfl
    · intro e _
      split <;> exact ⟨rfl, rfl⟩
    · rw [hfilter]
      exact h.perm.map _
    · rw [pairwise_map]
      refine h.sorted.imp fun {x y} hxy => ?_
      have hkeep : ∀ z : Item, (z.bind name pid).sequence = z.sequence := by
        intro z
        unfold Item.bind
        split <;> rfl
      rw [hkeep, hkeep]
      exact hxy

theorem Sim.removePid (pid : ℤ) :
    Sim (notifyStep s (.removePid pid)) (queueStep q (.removePid pid)) := by
  simp only [notifyStep, queueStep]
  split
  · exact h
  rw [h.watches]
  have hfilter : ((s.history.events.map fun e => if e.watcherPid = pid then
      { e with sequence := 0, watcherPid := 0, name := noText, acked := false } else e).filter
        NotifyEvent.pending).map NotifyEvent.item =
      ((s.history.events.filter NotifyEvent.pending).map NotifyEvent.item).filter
        fun x => x.watcherPid != pid := by
    have hpend : (NotifyEvent.pending ∘ fun e : NotifyEvent => if e.watcherPid = pid then
        { e with sequence := 0, watcherPid := 0, name := noText, acked := false } else e) =
          fun e => e.watcherPid != pid && e.pending := by
      funext e
      by_cases hw : e.watcherPid = pid <;> simp [NotifyEvent.pending, hw]
    rw [filter_map, map_map, hpend, filter_map, filter_filter]
    refine map_congr_left fun e he => ?_
    have hw : e.watcherPid ≠ pid := by simpa using (Bool.and_eq_true_iff.mp (mem_filter.mp he).2).1
    rw [Function.comp, if_neg hw]
  refine h.mapRows ?_ ?_ ?_ (h.sorted.sublist filter_sublist)
  · intro e
    split
    · exact .inr rfl
    · exact .inl rfl
  · intro e hne
    split
    · rename_i hw
      rw [if_pos hw] at hne
      exact absurd rfl hne
    · exact ⟨rfl, rfl⟩
  · rw [hfilter]
    exact h.perm.filter _

end

def NotifyEvent.restored (e : NotifyEvent) : NotifyEvent :=
  { e with watcherPid := 0, acked := false, replayed := false }

theorem eventRecord_length (h : nameValid e.name = true) : (eventRecord e).length = 32 := by
  simp only [eventRecord, length_append, textField_length (nameValid_length h).le, le32_length]

theorem readEvent_eventRecord (h : nameValid e.name = true) (rest : List UInt8) :
    readEvent (eventRecord e ++ rest) = e.restored := by
  have hn := textField_length (nameValid_length h).le
  have hall : eventRecord e ++ rest = le32 e.sequence ++ (textField 16 e.name ++
      (le32 e.oldPid ++ (le32 e.newPid ++ (le32 e.reason ++ rest)))) := by
    simp only [eventRecord, append_assoc]
  have h4 : (eventRecord e ++ rest).drop 4 = _ := drop_next (m := 0) hall (le32_length _)
  have h20 : (eventRecord e ++ rest).drop 20 = _ := drop_next h4 hn
  have h24 : (eventRecord e ++ rest).drop 24 = _ := drop_next h20 (le32_length _)
  have h28 : (eventRecord e ++ rest).drop 28 = _ := drop_next h24 (le32_length _)
  rw [readEvent, h4, h20, h24, h28, hall, readText_textField (nameValid_length h)]
  simp only [readLe32_le32, NotifyEvent.restored]

theorem eventImportLoop_records (recs done : List NotifyEvent) (rest : List UInt8) (k : ℕ)
    (hok : ∀ e ∈ recs, e.recordOk = true) :
    eventImportLoop recs.length done.length (recs.flatMap eventRecord ++ rest)
      (done ++ List.replicate (recs.length + k) NotifyEvent.cleared) =
      (done ++ recs.map NotifyEvent.restored ++ List.replicate k NotifyEvent.cleared, .ok ()) := by
  induction recs generalizing done with
  | nil => simp [eventImportLoop]
  | cons e recs ih =>
    obtain ⟨he, hrecs⟩ := forall_mem_cons.mp hok
    have hname : nameValid e.name = true := (Bool.and_eq_true_iff.mp he).2
    have hread := readEvent_eventRecord hname (recs.flatMap eventRecord ++ rest)
    have hset : (done ++ List.replicate (recs.length + 1 + k) NotifyEvent.cleared).set done.length
        e.restored = done ++ [e.restored] ++ List.replicate (recs.length + k) NotifyEvent.cleared := by
      rw [show recs.length + 1 + k = recs.length + k + 1 by omega, replicate_succ]
      simp
    have hnext : done.length + 1 = (done ++ [e.restored]).length := by simp
    rw [flatMap_cons, append_assoc, length_cons, eventImportLoop, hread,
      if_pos (show e.restored.recordOk = true from he), hset,
      drop_left' (eventRecord_length hname), hnext, ih _ hrecs]
    simp

theorem eventHeaderError_image {image body : List UInt8} (zeros : List UInt8) {n : ℕ} (c : UInt32)
    (himage : image = eventHeader body n c ++ (body ++ zeros)) (hn8 : n ≤ 8) (hbody : body.length = n * 32) :
    eventHeaderError image = none ∧ (readLe32 (image.drop 8)).toNat = n ∧ readLe32 (image.drop 12) = c ∧
      image.drop 20 = body ++ zeros := by
  have hlen : (eventHeader body n c).length = 20 := rfl
  -- the header is five words written out, so the reading of each one computes
  have h0 : readLe32 image = 0x544E5645 := himage ▸ readLe32_bytes _ _
  have h4 : readLe32 (image.drop 4) = 1 := himage ▸ readLe32_bytes _ _
  have h8 : (readLe32 (image.drop 8)).toNat = n :=
    himage ▸ (congrArg UInt32.toNat (readLe32_bytes (UInt32.ofNat n) _)).trans
      (UInt32.toNat_ofNat_of_lt' (hn8.trans_lt (by decide)))
  have h12 : readLe32 (image.drop 12) = c := himage ▸ readLe32_bytes c _
  have h16 : readLe32 (image.drop 16) = journalSum body := himage ▸ readLe32_bytes (journalSum body) _
  have h20 : image.drop 20 = body ++ zeros := himage ▸ drop_left' hlen
  refine ⟨?_, h8, h12, h20⟩
  have htotal : image.length = 20 + n * 32 + zeros.length := by
    rw [himage]
    simp only [length_append, hlen, hbody]
    omega
  have hsum : (image.drop 20).take (n * 32) = body := by
    rw [h20, take_left' hbody]
  rw [eventHeaderError, h8, h0, h4, h16, hsum, if_neg (by omega), if_neg (by simp),
    if_neg (by omega), if_neg (by omega), if_neg (by simp)]

theorem Sim.reboot_eq (h : Sim s q) :
    reboot s = ⟨noWatches, ⟨(s.history.events.filter NotifyEvent.pending).map NotifyEvent.restored ++
      List.replicate (8 - (s.history.events.filter NotifyEvent.pending).length) NotifyEvent.cleared,
      s.history.seqCounter⟩⟩ := by
  set recs := s.history.events.filter NotifyEvent.pending
  have hok : ∀ e ∈ recs, e.recordOk = true := by
    intro e he
    obtain ⟨he, hp⟩ := mem_filter.mp he
    obtain ⟨-, hname, h1, h4⟩ := h.rows e he (pending_iff.mp hp).1
    simp [NotifyEvent.recordOk, (pending_iff.mp hp).1, hname, h1, h4]
  have hle : recs.length ≤ 8 := h.length ▸ length_filter_le _ _
  have hexp : eventJournalExport s.history 512 = .ok (eventHeader (recs.flatMap eventRecord)
      recs.length s.history.seqCounter ++ (recs.flatMap eventRecord ++
        List.replicate (512 - (20 + recs.length * 32)) 0)) := by
    exact if_neg (show ¬ (512 < 20 + recs.length * 32 ∨ 512 < 20 + recs.length * 32) by omega)
  rw [reboot, hexp]
  clear_value recs
  have hbody : (recs.flatMap eventRecord).length = recs.length * 32 := by
    rw [length_flatMap, map_congr_left fun e he =>
      eventRecord_length (Bool.and_eq_true_iff.mp (hok e he)).2]
    simp
  obtain ⟨hhead, hcount, hctr, hdrop⟩ := eventHeaderError_image
    (List.replicate (512 - (20 + recs.length * 32)) 0) s.history.seqCounter rfl hle hbody
  have hloop := eventImportLoop_records recs [] (List.replicate (512 - (20 + recs.length * 32)) 0)
    (8 - recs.length) hok
  rw [nil_append, nil_append, Nat.add_sub_cancel' hle, length_nil] at hloop
  have hmax : max s.history.seqCounter 0 = s.history.seqCounter := by
    change (if s.history.seqCounter ≤ 0 then 0 else s.history.seqCounter) = s.history.seqCounter
    split
    · rename_i hzero
      exact (UInt32.le_zero_iff.mp hzero).symm
    · rfl
  simp only [eventJournalImport, hhead, hcount, hctr, hdrop, noEvents, hloop, hmax]

theorem Sim.reboot (h : Sim s q) : Sim (notifyStep s .reboot) (queueStep q .reboot) := by
  have hpend : ∀ e : NotifyEvent, e.pending = true → e.restored.pending = true := by
    intro e he
    exact pending_iff.mpr ⟨(pending_iff.mp he).1, rfl⟩
  rw [notifyStep, h.reboot_eq]
  set recs := s.history.events.filter NotifyEvent.pending
  have hle : recs.length ≤ 8 := h.length ▸ length_filter_le _ _
  have hcleared : ∀ e ∈ List.replicate (8 - recs.length) NotifyEvent.cleared, e.sequence = 0 := by
    intro e he
    rw [eq_of_mem_replicate he]
    rfl
  constructor
  · rfl
  · exact h.counter
  · simp only [length_append, length_map, length_replicate]
    omega
  · have hall : (recs.map NotifyEvent.restored).filter NotifyEvent.pending =
        recs.map NotifyEvent.restored := by
      rw [filter_eq_self]
      refine forall_mem_map.mpr fun a ha => ?_
      exact hpend a (mem_filter.mp ha).2
    have hnone : (List.replicate (8 - recs.length) NotifyEvent.cleared).filter
        NotifyEvent.pending = [] := by
      rw [filter_eq_nil_iff]
      intro e he
      simp [pending_iff, hcleared e he]
    simp only [queueStep, filter_append, hall, hnone, append_nil, map_map]
    have hperm := h.perm.map fun x : Item => { x with watcherPid := 0 }
    rw [map_map] at hperm
    exact hperm
  · simp only [queueStep]
    rw [pairwise_map]
    exact h.sorted
  · refine pairwise_append.mpr ⟨?_, ?_, ?_⟩
    · rw [pairwise_map]
      exact h.distinct.sublist filter_sublist
    · exact pairwise_replicate.mpr (.inr fun _ => rfl)
    · intro a _ b hb heq
      rw [heq, hcleared b hb]
  · intro e he hne
    rcases mem_append.mp he with he | he
    · obtain ⟨a, ha, rfl⟩ := mem_map.mp he
      obtain ⟨hle, hname, hreason⟩ := h.rows a (mem_filter.mp ha).1 hne
      exact ⟨hle, hname, hreason⟩
    · exact absurd (hcleared e he) hne

/-! ## Runs -/

def NotifyOp.Kept (s : Notifier) : NotifyOp → Prop
  | .record name watcherPid _ _ reason =>
    nameValid name = true → 0 < watcherPid → RecordKept s.history reason
  | _ => True

theorem Sim.step (h : Sim s q) {op : NotifyOp} (hk : op.Kept s) : Sim (notifyStep s op) (queueStep q op) := by
  cases op with
  | record name w oldPid newPid reason => exact h.record hk
  | pull w => exact h.pull w
  | ack w sequence => exact h.ack w sequence
  | subscribe name pid sequence generation => exact h.subscribe name pid sequence generation
  | reboot => exact h.reboot
  | removePid pid => exact h.removePid pid

theorem Sim.run {ops : List NotifyOp} (h : Sim s q) (hk : Along notifyStep (fun s op => op.Kept s) s ops) :
    Sim (Runs.run notifyStep s ops) (Runs.run queueStep q ops) := by
  induction ops generalizing s q with
  | nil => exact h
  | cons op ops ih => exact ih (h.step hk.1) hk.2

/-- Where no record takes the row of a waiting event, the events that `notify_pull` may hand out
are those of the queue, and it hands out the oldest of the watcher. -/
theorem history_is_queue (ops : List NotifyOp) (hk : Along notifyStep (fun s op => op.Kept s) Notifier.init ops) :
    let s := run notifyStep Notifier.init ops
    let q := run queueStep Queue.init ops
    (∀ x, x ∈ q.items ↔ ∃ e ∈ s.history.events, e.pending = true ∧ e.item = x) ∧
    (q.items.Pairwise fun x y => x.sequence.toNat < y.sequence.toNat) ∧
    ∀ w > 0, (notifyPull s.history w).2.toOption.map NotifyEvent.item =
      q.items.find? fun x => x.watcherPid == w := by
  have h := Sim.init.run hk
  refine ⟨fun x => h.mem_iff, h.sorted, fun w hw => ?_⟩
  rw [h.find_eq w, notifyPull, if_neg (by omega)]
  split
  · rename_i hl
    rw [hl]
    rfl
  · rename_i e hl
    rw [hl]
    rfl

instance (h : History) (reason : UInt32) : Decidable (RecordKept h reason) :=
  inferInstanceAs (Decidable (_ ∧ _ ∧ _))

instance decidableKept (s : Notifier) (op : NotifyOp) : Decidable (op.Kept s) := by
  unfold NotifyOp.Kept
  split <;> infer_instance

def netName : CString := ⟨[110, 101, 116], by decide⟩

def acrossReboot : List NotifyOp :=
  [.subscribe vfsName 5 1 1, .record vfsName 5 0 7 1, .reboot, .subscribe vfsName 6 2 1]

theorem history_is_queue_acrossReboot : Along notifyStep (fun s op => op.Kept s) Notifier.init acrossReboot ∧
    (notifyPull (run notifyStep Notifier.init acrossReboot).history 6).2.toOption.map
      NotifyEvent.item = some ⟨1, 6, vfsName, 0, 7, 1⟩ := by
  have hk : Along notifyStep (fun s op => op.Kept s) Notifier.init acrossReboot := by decide +kernel
  refine ⟨hk, ?_⟩
  rw [(history_is_queue acrossReboot hk).2.2 6 (by decide)]
  decide +kernel

def oneWaiting : List NotifyOp :=
  List.replicate 8 (.record vfsName 5 0 7 1) ++ [1, 3, 4, 5, 6, 7, 8].map (.ack 5)

/-- The ninth event takes the row of the second although seven rows are done; and after a reboot
the first new event takes the row of a restored one. -/
theorem waitingEvent_overwritten : let s := run notifyStep Notifier.init oneWaiting
    let s' := notifyStep s (.record vfsName 5 0 7 2)
    let b := run notifyStep Notifier.init [.record vfsName 5 0 7 1, .reboot, .record netName 6 0 8 1,
      .subscribe vfsName 5 1 1]
    (s.history.events.filter NotifyEvent.pending).map (·.sequence) = [2] ∧
    (notifyPull s.history 5).2.toOption.map (·.sequence) = some 2 ∧
    (notifyPull s'.history 5).2.toOption.map (·.sequence) = some 9 ∧
    s'.history.events.all (fun e => e.sequence != 2) = true ∧
    (notifyPull b.history 5).2 = .error .notFound := by
  decide +kernel

end Mohhdy.Kernel
