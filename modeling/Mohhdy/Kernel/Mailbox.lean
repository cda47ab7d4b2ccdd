import Mohhdy.Foundations.Slots
import Mohhdy.Kernel.Supervision

/-! The stream of kernel events to one task: mailbox first, spill when the mailbox is full. In which
order a task receives what was queued to it. -/
namespace Mohhdy.Kernel
set_option autoImplicit false

open Words Tables Slots Runs
open List hiding lookup

variable {k order : ℕ} {t : Task} {pid q : ℤ} {rows : List SpillSlot} {s : Tasking}

/-! ## The stream of one task -/

def sentEvents (s : Tasking) (pid : ℤ) : List Payload := (s.sent.filter fun e => e.1 == pid).map Prod.snd

def kernelEvents (box : List Message) : List Payload :=
  (box.filter fun m => m.senderPid == 0).map Message.payload

def gotEvents (s : Tasking) (pid : ℤ) : List Payload :=
  kernelEvents ((s.got.filter fun e => e.1 == pid).map Prod.snd)

def mailOf (pid : ℤ) (tasks : List Task) : List Message :=
  ((lookup Task.id pid tasks).map Task.mailbox).getD []

structure Inbox where
  box : List Message
  spill : Spill
  (sent got : List Payload)

def Inbox.setBox (I : Inbox) (box : List Message) : Inbox := ⟨box, I.spill, I.sent, I.got⟩

def Inbox.setSpill (I : Inbox) (sp : Spill) : Inbox := ⟨I.box, sp, I.sent, I.got⟩

def Inbox.produced (I : Inbox) (e : Payload) : Inbox := ⟨I.box, I.spill, I.sent ++ [e], I.got⟩

def Inbox.taken (I : Inbox) (m : Message) : Inbox := ⟨I.box, I.spill, I.sent, I.got ++ kernelEvents [m]⟩

def inbox (pid : ℤ) (s : Tasking) : Inbox := ⟨mailOf pid s.tasks, s.spill, sentEvents s pid, gotEvents s pid⟩

structure Fifo (pid : ℤ) (I : Inbox) (rows : List SpillSlot) : Prop where
  slots : Represents (SpillSlot.isFor pid) (·.order.toNat) I.spill.slots rows
  below : ∀ x ∈ rows, x.order.toNat ≤ I.spill.order.toNat
  all : I.sent = I.got ++ kernelEvents I.box ++ rows.map SpillSlot.payload

def Tight (pid : ℤ) (I : Inbox) : Prop := NoRows I.spill pid ∨ 4 ≤ I.box.length

/-- The kernel produces events, at most `k` of them into the spill; some for the task itself only
if `notified`. -/
inductive Produces (pid : ℤ) (notified : Prop) (I : Inbox) : ℕ → Inbox → Prop
  | refl (k : ℕ) : Produces pid notified I k I
  | post {k : ℕ} {J : Inbox} (h : Produces pid notified I k J) (hn : notified) (e : Payload)
    (hroom : J.box.length < 4) :
    Produces pid notified I k ((J.setBox (J.box ++ [⟨0, e⟩])).produced e)
  | spill {k : ℕ} {J : Inbox} {sp : Spill} {e : Payload} (h : Produces pid notified I k J)
    (hn : notified) (hfull : 4 ≤ J.box.length) (hpush : spillPush J.spill pid e = .ok sp) :
    Produces pid notified I (k + 1) ((J.setSpill sp).produced e)
  | other {k : ℕ} {J : Inbox} {q : ℤ} {sp : Spill} {e : Payload} (h : Produces pid notified I k J)
    (hq : q ≠ pid) (hpush : spillPush J.spill q e = .ok sp) :
    Produces pid notified I (k + 1) (J.setSpill sp)

variable {I J : Inbox} {n : Prop}

theorem Produces.mono {l : ℕ} (h : Produces pid n I k J) (hl : k ≤ l) : Produces pid n I l J := by
  induction h generalizing l with
  | refl => exact .refl l
  | post _ hn e hroom ih => exact (ih hl).post hn e hroom
  | spill _ hn hfull hpush ih =>
    obtain ⟨m, rfl⟩ : ∃ m, l = m + 1 := ⟨l - 1, by omega⟩
    exact (ih (by omega)).spill hn hfull hpush
  | other _ hq hpush ih =>
    obtain ⟨m, rfl⟩ : ∃ m, l = m + 1 := ⟨l - 1, by omega⟩
    exact (ih (by omega)).other hq hpush

theorem isFor_of_unused {x : SpillSlot} (h : (!x.used) = true) : x.isFor pid = false := by
  have hused : x.used = false := by simpa using h
  simp [SpillSlot.isFor, hused]

def Flows (pid : ℤ) (n : Prop) (order : ℕ) (I : Inbox) : Prop :=
  I.spill.order.toNat ≤ order ∧ (n → Tight pid I) ∧ ∃ rows, Fifo pid I rows

/-- Production keeps the order when it finds the task's spill empty or its mailbox full. -/
theorem Produces.fifo (h : Produces pid n I k J) (hI : Flows pid n order I)
    (hroom : order + k < 2 ^ 32) : Flows pid n (order + k) J := by
  induction h with
  | refl k => exact ⟨hI.1.trans (Nat.le_add_right _ _), hI.2⟩
  | @post k J _ hn e hbox ih =>
    obtain ⟨hle, hT, rows', hF⟩ := ih hroom
    have hnone : NoRows J.spill pid := (hT hn).resolve_right (by omega)
    have hnil : rows' = [] := hF.slots.nil_iff.mpr hnone
    refine ⟨hle, fun _ => .inl hnone, rows', hF.slots, hF.below, ?_⟩
    simp [Inbox.setBox, Inbox.produced, hF.all, hnil, kernelEvents]
  | @spill k J sp e _ hn hfull hpush ih =>
    obtain ⟨hle, hT, rows', hF⟩ := ih (by omega)
    obtain ⟨-, hany, rfl⟩ := spillPush_ok hpush
    have hbump := bump_toNat (c := J.spill.order) (by omega)
    have hslots := hF.slots.push (fun x => isFor_of_unused) hany
      (a := ⟨pid, bump J.spill.order, e, true⟩) (by simp [SpillSlot.isFor]) fun x hx => by
        have := hF.below x hx
        change x.order.toNat < (bump J.spill.order).toNat
        omega
    refine ⟨?_, fun _ => .inr hfull, _, hslots, ?_, ?_⟩
    · change (bump J.spill.order).toNat ≤ _
      omega
    · intro x hx
      change x.order.toNat ≤ (bump J.spill.order).toNat
      rcases mem_append.mp hx with hx | hx
      · have := hF.below x hx
        omega
      · rw [mem_singleton.mp hx]
    · simp [Inbox.setSpill, Inbox.produced, hF.all]
  | @other k J q sp e _ hq hpush ih =>
    obtain ⟨hle, hT, rows', hF⟩ := ih (by omega)
    obtain ⟨-, -, rfl⟩ := spillPush_ok hpush
    have hbump := bump_toNat (c := J.spill.order) (by omega)
    refine ⟨?_, fun hn => ?_, rows', ?_, ?_, hF.all⟩
    · change (bump J.spill.order).toNat ≤ _
      omega
    · exact (hT hn).imp_left fun hnone => spillPush_noRows hpush hq.symm hnone
    · exact hF.slots.other (fun x => isFor_of_unused) fun x _ => by simp [SpillSlot.isFor, hq]
    · intro x hx
      have := hF.below x hx
      change x.order.toNat ≤ (bump J.spill.order).toNat
      omega

/-! ## What leaves the stream alone -/

theorem mailOf_congr (pid : ℤ) {l l' : List Task}
    (h : (l'.map fun t => (t.id, t.mailbox)) = l.map fun t => (t.id, t.mailbox)) :
    mailOf pid l' = mailOf pid l := by
  have hmail : ∀ l : List Task, mailOf pid l =
      ((lookup Prod.fst pid (l.map fun t => (t.id, t.mailbox))).map Prod.snd).getD [] := by
    intro l
    have hlook : lookup Prod.fst pid (l.map fun t => (t.id, t.mailbox)) =
        (lookup Task.id pid l).map fun t => (t.id, t.mailbox) := lookup_map (fun _ => rfl) pid l
    rw [hlook, Option.map_map]
    rfl
  rw [hmail, hmail, h]

theorem inbox_setTasks (pid : ℤ) (s : Tasking) {tasks : List Task}
    (h : (tasks.map fun t => (t.id, t.mailbox)) = s.tasks.map fun t => (t.id, t.mailbox)) :
    inbox pid (s.setTasks tasks) = inbox pid s :=
  congrArg (Inbox.mk · s.spill (sentEvents s pid) (gotEvents s pid)) (mailOf_congr pid h)

theorem inbox_modify (pid : ℤ) (s : Tasking) (q : ℤ) (f : Task → Task)
    (hf : ∀ t, ((f t).id, (f t).mailbox) = (t.id, t.mailbox)) :
    inbox pid (s.modify q f) = inbox pid s :=
  inbox_setTasks pid s (modifyFirst_map _ f _ hf _)

theorem inbox_mapTasks (pid : ℤ) (s : Tasking) (f : Task → Task)
    (hf : ∀ t, ((f t).id, (f t).mailbox) = (t.id, t.mailbox)) :
    inbox pid (s.mapTasks f) = inbox pid s := by
  refine inbox_setTasks pid s ?_
  rw [map_map]
  exact map_congr_left fun t _ => hf t

theorem inbox_wakeWaiter (pid : ℤ) (s : Tasking) (child : ℤ) : inbox pid (wakeWaiter s child) = inbox pid s := by
  unfold wakeWaiter
  split
  · rfl
  split
  · rfl
  rw [inbox_modify _ _ _ _ fun _ => by rfl, inbox_modify _ _ _ _ fun t => ?_]
  split <;> rfl

theorem inbox_unlinkTask {d : ℤ} (s : Tasking) (hd : d ≠ pid) : inbox pid (unlinkTask s d) = inbox pid s := by
  refine congrArg (Inbox.mk · s.spill (sentEvents s pid) (gotEvents s pid)) ?_
  have hlook : lookup Task.id pid (s.tasks.eraseP fun t => decide (t.id = d)) =
      lookup Task.id pid s.tasks := by
    induction s.tasks with
    | nil => rfl
    | cons t ts ih =>
      by_cases ht : t.id = d
      · rw [eraseP_cons_of_pos (by simpa using ht), lookup, lookup,
          List.find?_cons_of_neg (by simpa [ht] using hd)]
      · rw [eraseP_cons_of_neg (by simpa using ht)]
        unfold lookup at ih ⊢
        rw [List.find?_cons, List.find?_cons, ih]
  exact congrArg (fun o => (o.map Task.mailbox).getD []) hlook

theorem inbox_createTask (pid : ℤ) (s : Tasking) (parent waiter : ℤ) (boot : Bool) (generation : UInt32) :
    inbox pid (createTask s parent waiter boot generation) = inbox pid s := by
  refine congrArg (Inbox.mk · s.spill (sentEvents s pid) (gotEvents s pid)) ?_
  simp only [mailOf, createTask, lookup, List.find?_append]
  cases s.tasks.find? fun t => decide (t.id = pid) with
  | some t => rfl
  | none =>
    rw [List.find?_cons]
    split <;> rfl

/-! ## What produces events -/

theorem mailOf_eq (h : getTaskById s pid = some t) : mailOf pid s.tasks = t.mailbox := by
  unfold mailOf
  unfold getTaskById at h
  rw [h]
  rfl

theorem inbox_filled {f : Task → Task}
    (ht : getTaskById s q = some t) (pid : ℤ) (box : List Message) (hid : ∀ t, (f t).id = t.id)
    (hbox : ∀ t, (f t).mailbox = box) : inbox pid (s.modify q f) =
      if q = pid then (inbox pid s).setBox box else inbox pid s := by
  have hmail : mailOf pid (s.modify q f).tasks = if q = pid then box else mailOf pid s.tasks := by
    unfold mailOf
    rw [Tasking.modify, lookup_update _ _ _ hid]
    by_cases h : q = pid
    · unfold getTaskById at ht
      rw [if_pos h.symm, if_pos h, ← h, ht]
      exact hbox t
    · rw [if_neg (Ne.symm h), if_neg h]
  unfold inbox
  rw [hmail]
  split <;> rfl

theorem inbox_queued (s : Tasking) (pid q : ℤ) (e : Payload) : inbox pid (s.queued q e) =
    if q = pid then (inbox pid s).produced e else inbox pid s := by
  by_cases h : q = pid <;> simp [inbox, sentEvents, gotEvents, Tasking.queued, Inbox.produced, h]

theorem Signals.produces {s' : Tasking} {N : ℤ → Prop} (hs : Signals N s k s') (hn : N pid → n) :
    Produces pid n (inbox pid s) k (inbox pid s') := by
  induction hs with
  | refl => exact .refl 0
  | more _ ih => exact ih.mono (Nat.le_succ _)
  | noted _ q es f g ih =>
    rw [inbox_modify _ _ _ _ fun _ => by rfl]
    exact ih
  | @posted k s' q t _ hN ht e hroom ih =>
    rw [inbox_queued, inbox_filled ht pid (t.mailbox ++ [⟨0, e⟩]) (fun _ => by simp) (fun _ => by simp)]
    split_ifs with hq
    · subst hq
      rw [← mailOf_eq ht]
      exact ih.post (hn hN) e (show (mailOf q s'.tasks).length < 4 from (mailOf_eq ht).symm ▸ hroom)
    · exact ih
  | @spilled k s' q t sp e _ hN ht hfull hpush ih =>
    have hkeep : inbox pid (s'.modify q messageQueued) = inbox pid s' :=
      inbox_modify _ _ _ _ fun t => by simp
    have hspilled : inbox pid (((s'.modify q messageQueued).setSpill sp).queued q e) =
        if q = pid then ((inbox pid s').setSpill sp).produced e else (inbox pid s').setSpill sp := by
      rw [inbox_queued, ← hkeep]
      rfl
    rw [hspilled]
    split_ifs with hq
    · subst hq
      exact ih.spill (hn hN) (show 4 ≤ (mailOf q s'.tasks).length from (mailOf_eq ht).symm ▸ hfull) hpush
    · exact ih.other hq hpush

theorem Signals.silent {s' : Tasking} {N : ℤ → Prop} (hs : Signals N s k s') (hN : ∀ q, ¬N q) (pid : ℤ) :
    inbox pid s' = inbox pid s := by
  induction hs with
  | refl => rfl
  | more _ ih => exact ih
  | noted _ q es n f ih => exact (inbox_modify pid _ q _ fun _ => by rfl).trans ih
  | posted _ hq => exact absurd hq (hN _)
  | spilled _ hq => exact absurd hq (hN _)

/-! ## What takes messages -/

def Streams (pid : ℤ) (s : Tasking) : Prop := ∃ rows, Fifo pid (inbox pid s) rows

theorem inbox_received (s : Tasking) (pid q : ℤ) (m : Message) : inbox pid (s.received q m) =
    if q = pid then (inbox pid s).taken m else inbox pid s := by
  by_cases h : q = pid <;> simp [inbox, sentEvents, gotEvents, kernelEvents, Tasking.received,
    Inbox.taken, h]

theorem spillPop_ok {sp sp' : Spill} {e : Payload} (h : spillPop sp pid = .ok (e, sp')) :
    ∃ x, least (SpillSlot.isFor pid) (·.order.toNat) sp.slots = some x ∧ e = x.payload ∧ sp' =
      ⟨modifyFirst (fun y => y.isFor pid && y.order.toNat == x.order.toNat)
        (fun y => { y with used := false, watcherPid := 0 }) sp.slots, sp.order⟩ := by
  unfold spillPop at h
  split at h
  · cases h
  split at h
  · cases h
  rename_i x hx
  cases h
  refine ⟨x, hx, rfl, ?_⟩
  have hkey : ∀ a b : UInt32, (a == b) = (a.toNat == b.toNat) := by
    intro a b
    rw [Bool.eq_iff_iff, beq_iff_eq, beq_iff_eq, UInt32.toNat_inj]
  simp only [hkey]

theorem Fifo.takes {m : Message}
    {box : List Message} (hF : Fifo pid (inbox pid s) rows) (ht : getTaskById s q = some t)
    (hmail : t.mailbox = m :: box) :
    Fifo pid (inbox pid ((s.modify q fun t => { t with mailbox := box }).received q m)) rows := by
  rw [inbox_received, inbox_filled ht pid box (fun _ => by rfl) (fun _ => by rfl)]
  split_ifs with hq
  · subst hq
    refine ⟨hF.slots, hF.below, ?_⟩
    have hall := hF.all
    have hsplit : kernelEvents (m :: box) = kernelEvents [m] ++ kernelEvents box := by
      simp only [kernelEvents, ← map_append, ← filter_append, singleton_append]
    rw [show (inbox q s).box = m :: box from (mailOf_eq ht).trans hmail, hsplit,
      ← append_assoc] at hall
    exact hall
  · exact hF

theorem Fifo.pops {e : Payload} {sp : Spill}
    (hF : Fifo pid (inbox pid s) rows) (hempty : q = pid → (inbox pid s).box = [])
    (hpop : spillPop s.spill q = .ok (e, sp)) :
    ∃ rows', Fifo pid (inbox pid ((s.setSpill sp).received q ⟨0, e⟩)) rows' ∧
      (q = pid → rows'.length + 1 = rows.length) := by
  obtain ⟨x, hx, rfl, rfl⟩ := spillPop_ok hpop
  rw [inbox_received]
  split_ifs with hq
  · subst hq
    have hempty := hempty rfl
    obtain ⟨rows, rfl⟩ := List.head?_eq_some_iff.mp (hF.slots.least_eq.symm.trans hx)
    refine ⟨rows, ⟨hF.slots.take fun y => by simp [SpillSlot.isFor], ?_, ?_⟩, fun _ => rfl⟩
    · exact fun y hy => hF.below y (mem_cons_of_mem x hy)
    · have hall := hF.all
      rw [hempty] at hall
      change (inbox q s).sent = (inbox q s).got ++ [x.payload] ++ kernelEvents (inbox q s).box ++ _
      rw [hempty, hall]
      simp [kernelEvents]
  · refine ⟨rows, ⟨hF.slots.other ?_ ?_, hF.below, hF.all⟩, fun heq => absurd heq hq⟩
    · intro y hy
      have hfor := (Bool.and_eq_true_iff.mp hy).1
      simp only [SpillSlot.isFor, Bool.and_eq_true, beq_iff_eq] at hfor
      simp [SpillSlot.isFor, hfor.2, hq]
    · intro y _
      simp [SpillSlot.isFor]

theorem Fifo.sent {caller : ℤ} (hF : Fifo pid (inbox pid s) rows) (ht : getTaskById s q = some t)
    (hc : caller ≠ 0) (e : Payload) : Fifo pid (inbox pid (s.modify q fun u =>
      messageQueued { u with mailbox := t.mailbox ++ [⟨caller, e⟩] })) rows := by
  rw [inbox_filled ht pid (t.mailbox ++ [⟨caller, e⟩]) (fun _ => by simp) (fun _ => by simp)]
  split
  · rename_i hq
    subst hq
    have huser : kernelEvents (t.mailbox ++ [⟨caller, e⟩]) = kernelEvents t.mailbox := by
      simp [kernelEvents, hc]
    refine ⟨hF.slots, hF.below, ?_⟩
    have hall := hF.all
    rw [show (inbox q s).box = t.mailbox from mailOf_eq ht, ← huser] at hall
    exact hall
  · exact hF

/-! ## Steps -/

/-- A step does not end the task, sends it something only when it has nothing in the spill or a full
mailbox, does not wrap the order of the spill, and is no kill that is refused while the task has
something in the spill. -/
def keepsOrder (pid : ℤ) (s : Tasking) (op : TaskOp) : Prop :=
  called s op = true →
    pid ∉ op.ends s ∧ (pid ∈ op.notified s → Tight pid (inbox pid s)) ∧
    (op.notified s ≠ [] → s.spill.order.toNat + 4 < 2 ^ 32) ∧
    (op.target = some pid → NoRows s.spill pid)

instance (sp : Spill) (pid : ℤ) : Decidable (NoRows sp pid) :=
  inferInstanceAs (Decidable (∀ x ∈ _, _))

instance (pid : ℤ) (I : Inbox) : Decidable (Tight pid I) :=
  inferInstanceAs (Decidable (_ ∨ _))

instance (pid : ℤ) (s : Tasking) (op : TaskOp) : Decidable (keepsOrder pid s op) := by
  unfold keepsOrder
  infer_instance

theorem filter_spillClearPid (hq : q ≠ pid) (sp : Spill) :
    (spillClearPid sp q).slots.filter (SpillSlot.isFor pid) = sp.slots.filter (SpillSlot.isFor pid) := by
  unfold spillClearPid
  induction sp.slots with
  | nil => rfl
  | cons x xs ih =>
    rw [map_cons, filter_cons, filter_cons, ih]
    by_cases hx : x.isFor q = true
    · have hfor := hx
      simp only [SpillSlot.isFor, Bool.and_eq_true, beq_iff_eq] at hfor
      simp [SpillSlot.isFor, hfor.1, hfor.2, hq]
    · rw [if_neg hx]

theorem noRows_spillClearPid {sp : Spill} (h : NoRows sp pid) : NoRows (spillClearPid sp q) pid := by
  refine forall_mem_map.mpr fun y hy => ?_
  split
  · simp [SpillSlot.isFor]
  · exact h y hy

theorem noRows_clear {sp : Spill} : NoRows (spillClearPid sp pid) pid := by
  refine forall_mem_map.mpr fun y hy => ?_
  split
  · simp [SpillSlot.isFor]
  rename_i hy
  exact Bool.eq_false_iff.mpr hy

theorem spillClearPid_eq {sp : Spill} (h : NoRows sp pid) : spillClearPid sp pid = sp := by
  have hslots : (sp.slots.map fun x => if x.isFor pid then { x with used := false, watcherPid := 0 } else x) =
      sp.slots.map id := map_congr_left fun x hx => by simp [h x hx]
  unfold spillClearPid
  rw [hslots, map_id]

theorem Flows.clear (h : Flows pid n order (inbox pid s)) (hq : q = pid → NoRows s.spill pid) :
    Flows pid n order (inbox pid (s.setSpill (spillClearPid s.spill q))) := by
  by_cases heq : q = pid
  · rw [heq, spillClearPid_eq (hq heq)]
    exact h
  obtain ⟨hle, hT, rows, hF⟩ := h
  refine ⟨hle, fun hn => (hT hn).imp_left noRows_spillClearPid, rows, ⟨?_, hF.slots.sorted⟩, hF.below, hF.all⟩
  change rows.Perm ((spillClearPid s.spill q).slots.filter (SpillSlot.isFor pid))
  rw [filter_spillClearPid heq]
  exact hF.slots.perm

theorem onTick_mail (now : UInt32) (t : Task) : ((t.onTick now).id, (t.onTick now).mailbox) = (t.id, t.mailbox) := by
  unfold Task.onTick
  split
  · split <;> rfl
  · rfl

theorem Steps.flows {s₀ : Tasking} {op : TaskOp} (hs : Steps s₀ op k s)
    (h : Flows pid (pid ∈ op.notified s₀) order (inbox pid s₀)) (hok : Ok s₀) (hcalled : called s₀ op = true)
    (hends : pid ∉ op.ends s₀) (hroom : op.notified s₀ ≠ [] → order + k < 2 ^ 32)
    (hrows : op.target = some pid → NoRows s₀.spill pid) :
    Flows pid (pid ∈ op.notified s₀) (order + k) (inbox pid s) := by
  have htold : ∀ {k j : ℕ} {s s' : Tasking}, Flows pid (pid ∈ op.notified s₀) (order + k) (inbox pid s) →
      Signals (Told s₀ op) s j s' → (op.notified s₀ ≠ [] → order + (k + j) < 2 ^ 32) →
      Flows pid (pid ∈ op.notified s₀) (order + (k + j)) (inbox pid s') := by
    intro k j s s' ih hs hroom
    by_cases hquiet : op.notified s₀ = []
    · rw [hs.silent (fun q hq => by simp [Told, hquiet] at hq)]
      exact ⟨ih.1.trans (by omega), ih.2⟩
    · have := hroom hquiet
      rw [← Nat.add_assoc]
      exact (hs.produces And.left).fifo ih (by omega)
  induction hs with
  | start =>
    unfold TaskOp.clears
    split
    · split
      · rename_i hcaller
        refine h.clear fun hq => absurd ?_ hends
        subst hq
        rw [TaskOp.ends, if_pos hcaller]
        exact mem_singleton_self _
      · exact h
    · split
      · exact h
      · exact h.clear fun hq => hrows (by rw [TaskOp.target, hq])
    · exact h
  | more _ ih =>
    obtain ⟨hle, hrest⟩ := ih fun hn => by have := hroom hn; omega
    exact ⟨by omega, hrest⟩
  | told _ hs ih => exact htold (ih fun hn => by have := hroom hn; omega) hs hroom
  | sent _ hquiet hc ht p ih =>
    obtain ⟨hle, -, rows, hF⟩ := ih hroom
    obtain ⟨t, ht', huser, -⟩ := called_user hcalled hc
    have hne := (lookup_key ht' : t.id = _) ▸ ((hok.of_lookup ht').1.user huser).ne'
    exact ⟨hle, fun hn => by simp [hquiet] at hn, rows, hF.sent ht hne p⟩
  | took _ hquiet ht hbox ih =>
    obtain ⟨hle, -, rows, hF⟩ := ih hroom
    exact ⟨hle, fun hn => by simp [hquiet] at hn, rows, hF.takes ht hbox⟩
  | popped _ hquiet ht hbox hpop ih =>
    obtain ⟨hle, -, rows, hF⟩ := ih hroom
    obtain ⟨rows', hF', -⟩ := hF.pops (fun hq => (mailOf_eq (hq ▸ ht)).trans hbox) hpop
    obtain ⟨x, -, -, rfl⟩ := spillPop_ok hpop
    exact ⟨hle, fun hn => by simp [hquiet] at hn, rows', hF'⟩
  | slept _ _ _ _ _ _ timeout ih =>
    rw [inbox_modify _ _ _ _ fun _ => by rfl]
    exact ih hroom
  | again _ _ _ _ _ _ _ ih =>
    rw [inbox_modify _ _ _ _ fun _ => by rfl, inbox_modify _ _ _ _ fun _ => by rfl]
    exact ih hroom
  | left _ _ ih | settled _ _ _ ih | ran _ _ ih | paused _ _ _ _ ih | controlled _ _ _ _ _ ih
  | marked _ _ _ _ _ _ ih =>
    rw [inbox_modify _ _ _ _ fun _ => by rfl]
    exact ih hroom
  | yielded _ ih =>
    rw [inbox_mapTasks]
    · exact ih hroom
    · intro t
      unfold Task.yields
      split <;> rfl
  | @ticked k s _ ih =>
    rw [tick, inbox_mapTasks pid s.later _ fun t => onTick_mail _ t]
    exact ih hroom
  | unblocked _ q ih =>
    rw [inbox_modify]
    · exact ih hroom
    · intro t
      split <;> rfl
  | markedAll _ _ _ _ ih =>
    rw [inbox_setTasks pid _ (markChildren_map (fun t => (t.id, t.mailbox)) _ (fun _ => by rfl) _ _)]
    exact ih hroom
  | adopted _ hs _ _ _ _ _ _ _ ih =>
    rw [inbox_modify _ _ _ _ fun _ => by rfl]
    exact htold (ih fun hn => by have := hroom hn; omega) hs hroom
  | @ended k j s s' t _ hs hend _ _ ih =>
    have hne : t.id ≠ pid := fun heq => hends (heq ▸ hend)
    rw [inbox_unlinkTask _ hne, reparentChildren, inbox_mapTasks, inbox_wakeWaiter]
    · exact htold (ih fun hn => by have := hroom hn; omega) hs hroom
    · intro a
      split <;> rfl
  | created _ _ _ boot generation ih =>
    rw [inbox_createTask]
    exact ih hroom
  | rooted _ _ ih => exact ih hroom

theorem Streams.taskStep {op : TaskOp} (h : Streams pid s) (hok : Ok s)
    (hcalled : called s op = true) (hcond : keepsOrder pid s op) : Streams pid (taskStep s op) := by
  obtain ⟨hends, htight, hroom, hrows⟩ := hcond hcalled
  exact ((steps_taskStep s op).flows ⟨le_rfl, htight, h⟩ hok hcalled hends hroom hrows).2.2

theorem streams_run {ops : List TaskOp} (h : Along kernelStep (keepsOrder pid) taskingInit ops) :
    Streams pid (run kernelStep taskingInit ops) := by
  have hstep : ∀ s op, (Ok s ∧ Streams pid s) → keepsOrder pid s op →
      Ok (kernelStep s op) ∧ Streams pid (kernelStep s op) := by
    intro s op ⟨hok, hs⟩ hcond
    refine ⟨hok.kernelStep op, ?_⟩
    unfold kernelStep
    split
    · rename_i hcalled
      exact hs.taskStep hok hcalled hcond
    · exact hs
  have hinit : Streams pid taskingInit := by
    have hmail : mailOf pid taskingInit.tasks = [] := by
      simp only [mailOf, taskingInit, lookup, List.find?_cons]
      split <;> rfl
    refine ⟨[], ⟨List.Perm.nil, List.Pairwise.nil⟩, by simp, ?_⟩
    change [] = [] ++ kernelEvents (mailOf pid taskingInit.tasks) ++ []
    rw [hmail]
    rfl
  exact (run_invariant hstep ⟨Ok.init, hinit⟩ h).2

/-! ## Order and completeness -/

theorem Fifo.receive (hF : Fifo pid (inbox pid s) rows) (ht : getTaskById s pid = some t) (huser : t.type = .user)
    (hwaits : t.mailbox.length + rows.length ≠ 0) (hpos : 0 < pid) :
    ∃ t' rows', Fifo pid (inbox pid (sysIpcReceive s pid).1) rows' ∧
      getTaskById (sysIpcReceive s pid).1 pid = some t' ∧ t'.type = .user ∧
      t'.mailbox.length + rows'.length + 1 = t.mailbox.length + rows.length ∧
      sentEvents (sysIpcReceive s pid).1 pid = sentEvents s pid := by
  simp only [sysIpcReceive, ht, huser, ne_eq, not_true_eq_false, if_false]
  split
  · rename_i m box hbox
    have hmail := ipcEndpointReceive_ok hbox
    refine ⟨{ t with mailbox := box }, rows, hF.takes ht hmail, ?_, huser, ?_, rfl⟩
    · exact getTaskById_modify_self (fun _ => by rfl) ht
    · simp only [hmail, length_cons]
      omega
  · rename_i hbox
    have hmail := ipcEndpointReceive_error hbox
    split
    · rename_i e sp hpop
      obtain ⟨rows', hF', hlen⟩ := hF.pops (fun _ => (mailOf_eq ht).trans hmail) hpop
      have := hlen rfl
      exact ⟨t, rows', hF', ht, huser, by omega, rfl⟩
    · rename_i e hpop
      -- the spill has a row of the task
      exfalso
      unfold spillPop at hpop
      rw [if_neg (by omega)] at hpop
      split at hpop
      · rename_i hnone
        have hnil : rows = [] := hF.slots.nil_iff.mpr (least_none hnone)
        simp [hnil, hmail] at hwaits
      · cases hpop

def receiveTimes (pid : ℤ) (n : ℕ) (s : Tasking) : Tasking := (fun s => (sysIpcReceive s pid).1)^[n] s

theorem Fifo.drains (hF : Fifo pid (inbox pid s) rows) (ht : getTaskById s pid = some t) (huser : t.type = .user)
    (hpos : 0 < pid) : gotEvents (receiveTimes pid (t.mailbox.length + rows.length) s) pid = sentEvents s pid := by
  generalize hn : t.mailbox.length + rows.length = n
  induction n generalizing s t rows with
  | zero =>
    have hbox : t.mailbox = [] := length_eq_zero_iff.mp (by omega)
    have hnil : rows = [] := length_eq_zero_iff.mp (by omega)
    have hall : sentEvents s pid = gotEvents s pid ++ kernelEvents (mailOf pid s.tasks) ++ _ := hF.all
    rw [mailOf_eq ht, hbox, hnil] at hall
    simpa [kernelEvents, receiveTimes] using hall.symm
  | succ n ih =>
    obtain ⟨t', rows', hF', ht', huser', hlen, hsent⟩ := hF.receive ht huser (by omega) hpos
    rw [← hsent]
    exact ih hF' ht' huser' (by omega)

/-- Kernel events arrive in the order they were produced, and each one once: what a task has
received is the first part of what was queued to it, and after some more receives all of it. This
holds for every interleaving in which the kernel queues events to the task only while nothing of it
is in the spill or its mailbox is full, the order counter of the spill does not wrap, and no kill of
the task is refused while something of it is in the spill. -/
theorem kernelEvents_inOrder (ops : List TaskOp) (pid : ℤ) (h : Along kernelStep (keepsOrder pid) taskingInit ops)
    (hlive : (getTaskById (run kernelStep taskingInit ops) pid).any (·.type == .user) = true) :
    gotEvents (run kernelStep taskingInit ops) pid <+: sentEvents (run kernelStep taskingInit ops) pid ∧
    ∃ n, gotEvents (receiveTimes pid n (run kernelStep taskingInit ops)) pid =
      sentEvents (run kernelStep taskingInit ops) pid := by
  obtain ⟨rows, hF⟩ := streams_run h
  have hok := ok_run ops
  generalize run kernelStep taskingInit ops = s at *
  cases ht : getTaskById s pid with
  | none =>
    rw [ht] at hlive
    cases hlive
  | some t =>
    have huser : t.type = .user := by
      rw [ht] at hlive
      simpa using hlive
    have hpos : 0 < pid := (lookup_key ht : t.id = pid) ▸ (hok.of_lookup ht).1.user huser
    have hall : sentEvents s pid = gotEvents s pid ++ kernelEvents _ ++ _ := hF.all
    rw [append_assoc] at hall
    exact ⟨⟨_, hall.symm⟩, _, hF.drains ht huser hpos⟩

def event (c : UInt8) : Payload :=
  ⟨0x53525601, 0, [c] ++ List.replicate 15 0 ++ le32 0 ++ le32 2 ++ le32 1⟩

def sixEvents : List TaskOp :=
  [.create false 1, .schedule 1, .serviceEvent 1 (event 97), .serviceEvent 1 (event 98),
    .serviceEvent 1 (event 99), .serviceEvent 1 (event 100), .serviceEvent 1 (event 101),
    .serviceEvent 1 (event 102), .receive 1, .receive 1]

theorem kernelEvents_inOrder_sixEvents : gotEvents (run kernelStep taskingInit sixEvents) 1 = [event 97, event 98] ∧
    ∃ n, gotEvents (receiveTimes 1 n (run kernelStep taskingInit sixEvents)) 1 =
      sentEvents (run kernelStep taskingInit sixEvents) 1 :=
  ⟨by decide +kernel,
    (kernelEvents_inOrder sixEvents 1 (by decide +kernel) (by decide +kernel)).2⟩

/-- The fifth event is in the spill when a receive makes room and the sixth one is queued: the task
receives the sixth one before the fifth. -/
theorem spilled_event_overtaken :
    let s := run kernelStep taskingInit [.create false 1, .schedule 1, .serviceEvent 1 (event 97),
      .serviceEvent 1 (event 98), .serviceEvent 1 (event 99), .serviceEvent 1 (event 100),
      .serviceEvent 1 (event 101), .receive 1, .serviceEvent 1 (event 102), .receive 1, .receive 1,
      .receive 1, .receive 1, .receive 1]
    sentEvents s 1 = [event 97, event 98, event 99, event 100, event 101, event 102] ∧
    gotEvents s 1 = [event 97, event 98, event 99, event 100, event 102, event 101] := by
  decide +kernel

end Mohhdy.Kernel
