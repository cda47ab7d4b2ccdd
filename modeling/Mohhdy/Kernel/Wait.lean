import Mohhdy.Kernel.Changes

/-! Blocking receives: a task asleep in `sys_ipc_receive_wait` has nothing to receive, and a finite
wait gives up only at its deadline. The other sleep in `TASK_BLOCKED_IPC`, `device_block` of the
device calls, which waits for a driver and not for a message, is left out. -/
namespace Mohhdy.Kernel
set_option autoImplicit false

open Tables Runs List

variable {sp : Spill} {ticks : ℕ} {t : Task} {pid q requester : ℤ}

/-! ## What holds of the tasks of a running system -/

/-- The deadline of the source is the one of the unbounded clock, and a wait that gave up is past
it. -/
structure Timely (ticks : ℕ) (w : IpcWait) : Prop where
  deadline : w.deadline = UInt32.ofNat (w.since + w.timeout.toNat)
  since : w.since ≤ ticks
  timedOut : w.timeout.toNat < 2 ^ 31 → w.timedOut = true → w.since + w.timeout.toNat ≤ ticks

structure TaskOk (sp : Spill) (ticks : ℕ) (t : Task) : Prop where
  kernel : t.type = .kernel → t.id = 0 ∧ t.parentPid = -1 ∧ (t.state = .ready ∨ t.state = .running)
  user : t.type = .user → 0 < t.id
  asleep : t.state = .blockedIpc → t.mailbox = [] ∧ t.ipcWait.blocked = true ∧ NoRows sp t.id
  timely : t.inReceive = true → Timely ticks t.ipcWait

structure Ok (s : Tasking) : Prop where
  ids : (s.tasks.map Task.id).Nodup
  fresh : ∀ t ∈ s.tasks, t.id < s.nextTaskId
  kernel : ∃ t ∈ s.tasks, t.type = .kernel
  tasks : ∀ t ∈ s.tasks, TaskOk s.spill s.ticks t

theorem TaskOk.nonneg (h : TaskOk sp ticks t) : 0 ≤ t.id := by
  cases ht : t.type with
  | kernel => exact (h.kernel ht).1.ge
  | user => exact (h.user ht).le

theorem TaskOk.user_of_ne (h : TaskOk sp ticks t) (hne : t.id ≠ 0) : t.type = .user := by
  cases ht : t.type with
  | kernel => exact absurd (h.kernel ht).1 hne
  | user => rfl

theorem Ok.init : Ok taskingInit where
  ids := by decide
  fresh := by decide
  kernel := ⟨_, mem_cons_self, rfl⟩
  tasks := by
    intro t ht
    rw [mem_singleton.mp ht]
    exact ⟨by decide, by decide, fun h => absurd h (by decide), fun h => absurd h (by decide)⟩

section Updates

variable {s : Tasking}

theorem Ok.of_lookup (h : Ok s) (ht : getTaskById s pid = some t) : TaskOk s.spill s.ticks t ∧ t.id = pid :=
  ⟨h.tasks t (lookup_mem ht), lookup_key ht⟩

theorem Ok.queued (h : Ok s) (pid : ℤ) (p : Payload) : Ok (s.queued pid p) := { h with }

theorem Ok.received (h : Ok s) (pid : ℤ) (m : Message) : Ok (s.received pid m) := { h with }

theorem Ok.modify (h : Ok s) (pid : ℤ) (f : Task → Task)
    (hf : ∀ t, getTaskById s pid = some t → TaskOk s.spill s.ticks t →
      TaskOk s.spill s.ticks (f t))
    (hid : ∀ t, (f t).id = t.id := by intro; first | rfl | simp | (split <;> rfl))
    (htype : ∀ t, (f t).type = t.type := by intro; first | rfl | simp | (split <;> rfl)) :
    Ok (s.modify pid f) where
  ids := by
    rw [Tasking.modify, update_map _ _ hid]
    exact h.ids
  fresh := modifyFirst_forall h.fresh fun t _ ht => (hid t).symm ▸ ht
  kernel := by
    have hmap : ((s.modify pid f).tasks.map Task.type) = s.tasks.map Task.type :=
      modifyFirst_map _ _ _ htype _
    have hk : TaskType.kernel ∈ s.tasks.map Task.type := mem_map.mpr h.kernel
    rw [← hmap] at hk
    exact mem_map.mp hk
  tasks := modifyFirst_forall h.tasks hf

theorem Ok.mapTasks (h : Ok s) (f : Task → Task) (hid : ∀ t, (f t).id = t.id) (htype : ∀ t, (f t).type = t.type)
    (hf : ∀ t ∈ s.tasks, TaskOk s.spill s.ticks t → TaskOk s.spill s.ticks (f t)) :
    Ok (s.mapTasks f) where
  ids := by
    simp only [Tasking.mapTasks, Tasking.setTasks, map_map, Function.comp_def, hid]
    exact h.ids
  fresh := by
    refine forall_mem_map.mpr fun a ha => ?_
    exact (hid a).symm ▸ h.fresh a ha
  kernel := by
    obtain ⟨k, hk, hkt⟩ := h.kernel
    exact ⟨f k, mem_map_of_mem hk, (htype k).trans hkt⟩
  tasks := by
    refine forall_mem_map.mpr fun a ha => ?_
    exact hf a ha (h.tasks a ha)

theorem Ok.setSpill (h : Ok s) (hsp : ∀ t ∈ s.tasks, t.state = .blockedIpc → NoRows s.spill t.id → NoRows sp t.id) :
    Ok (s.setSpill sp) where
  __ := h
  tasks := by
    intro t ht
    obtain ⟨hk, hu, ha, hw⟩ := h.tasks t ht
    exact ⟨hk, hu, fun hb => ⟨(ha hb).1, (ha hb).2.1, hsp t ht hb (ha hb).2.2⟩, hw⟩

end Updates

/-! ## Queueing wakes the task -/

theorem TaskOk.messageQueued (h : TaskOk sp ticks t) (box : List Message) :
    TaskOk sp ticks (messageQueued { t with mailbox := box }) ∧
    (messageQueued { t with mailbox := box }).state ≠ .blockedIpc := by
  unfold Kernel.messageQueued
  split
  · rename_i hb
    refine ⟨⟨fun hk => ?_, h.user, fun hc => by simp at hc, ?_⟩, by simp⟩
    · obtain ⟨h0, hp, hready | hrun⟩ := h.kernel hk
      · exact absurd (hb.1.symm.trans hready) (by decide)
      · exact absurd (hb.1.symm.trans hrun) (by decide)
    · intro hr
      obtain ⟨hd, hs, ht⟩ := h.timely hr
      exact ⟨hd, hs, ht⟩
  · rename_i hb
    have hne : t.state ≠ .blockedIpc := fun hc => hb ⟨hc, (h.asleep hc).2.1⟩
    exact ⟨⟨h.kernel, h.user, fun hc => absurd hc hne, h.timely⟩, hne⟩

@[simp] theorem messageQueued_id (t : Task) : (messageQueued t).id = t.id := by
  unfold messageQueued
  split <;> rfl

@[simp] theorem messageQueued_type (t : Task) : (messageQueued t).type = t.type := by
  unfold messageQueued
  split <;> rfl

@[simp] theorem messageQueued_mailbox (t : Task) : (messageQueued t).mailbox = t.mailbox := by
  unfold messageQueued
  split <;> rfl

theorem spillPush_noRows {sp' : Spill} {p : Payload} (hp : spillPush sp pid p = .ok sp')
    (hq : q ≠ pid) (h : NoRows sp q) : NoRows sp' q := by
  unfold spillPush at hp
  split at hp
  · cases hp
  split at hp
  · cases hp
    refine modifyFirst_forall h fun x _ _ => ?_
    simp [SpillSlot.isFor, Ne.symm hq]
  · cases hp

theorem Ok.signals {s s' : Tasking} {N : ℤ → Prop} {k : ℕ} (h : Ok s) (hs : Signals N s k s') : Ok s' := by
  induction hs with
  | refl => exact h
  | more _ ih => exact ih
  | noted _ pid es q n ih =>
    exact ih.modify _ _ fun _ _ ha => { ha with }
  | posted _ _ _ p _ ih =>
    exact (ih.modify _ _ fun _ _ ha => (ha.messageQueued _).1).queued _ _
  | @spilled k s pid t sp p _ _ _ _ hpush ih =>
    have hq : Ok (s.modify pid Kernel.messageQueued) := ih.modify _ _ fun a _ ha =>
      (ha.messageQueued a.mailbox).1
    refine (hq.setSpill ?_).queued _ _
    intro a ha hb hrows
    -- the task that gets the row was woken
    have hne : a.id ≠ pid := by
      rintro rfl
      have hfound : lookup Task.id a.id (s.modify a.id Kernel.messageQueued).tasks = some a :=
        lookup_eq_of_mem hq.ids ha rfl
      rw [Tasking.modify, lookup_update _ _ _ messageQueued_id, if_pos rfl] at hfound
      obtain ⟨t, ht, rfl⟩ := Option.map_eq_some_iff.mp hfound
      exact ((ih.of_lookup ht).1.messageQueued t.mailbox).2 hb
    exact spillPush_noRows hpush hne hrows

/-! ## Receiving -/

theorem spillPop_noRows {sp' : Spill} {p : Payload} (hp : spillPop sp pid = .ok (p, sp')) (h : NoRows sp q) :
    NoRows sp' q := by
  unfold spillPop at hp
  split at hp
  · cases hp
  split at hp
  · cases hp
  cases hp
  refine modifyFirst_forall h fun x _ _ => ?_
  simp [SpillSlot.isFor]

theorem not_expired {since : ℕ} {timeout : UInt32} (hsince : since ≤ ticks)
    (hbefore : ticks < since + timeout.toNat) (hshort : timeout.toNat < 2 ^ 31) :
    expired (UInt32.ofNat ticks) (UInt32.ofNat (since + timeout.toNat)) = false := by
  simp only [expired, decide_eq_false_iff_not, UInt32.lt_iff_toNat_lt, UInt32.toNat_sub,
    UInt32.toNat_ofNat', not_lt]
  have hhalf : (0x80000000 : UInt32).toNat = 2 ^ 31 := rfl
  omega

theorem TaskOk.onTick (h : TaskOk sp ticks t) : TaskOk sp ticks (t.onTick (UInt32.ofNat ticks)) := by
  unfold Task.onTick
  split
  · rename_i hb
    split
    · rename_i w hw
      unfold ipcWaitOnTick at hw
      split at hw
      · cases hw
      split at hw
      · cases hw
      rename_i hexp
      cases hw
      refine ⟨fun hk => ?_, h.user, fun hc => by simp at hc, fun hr => ?_⟩
      · obtain ⟨-, -, hready | hrun⟩ := h.kernel hk
        · exact absurd (hb.symm.trans hready) (by decide)
        · exact absurd (hb.symm.trans hrun) (by decide)
      · obtain ⟨hd, hs, -⟩ := h.timely hr
        refine ⟨hd, hs, fun hshort _ => ?_⟩
        by_contra hnot
        apply hexp
        rw [hd, not_expired hs (by simpa using hnot) hshort]
        rfl
    · exact h
  · exact h

variable {s : Tasking}

theorem Ok.later (h : Ok s) : Ok s.later where
  __ := h
  tasks := by
    intro t ht
    obtain ⟨hk, hu, ha, hw⟩ := h.tasks t ht
    refine ⟨hk, hu, ha, fun hr => ?_⟩
    obtain ⟨hd, hs, hto⟩ := hw hr
    exact ⟨hd, hs.trans (Nat.le_succ _), fun h1 h2 => (hto h1 h2).trans (Nat.le_succ _)⟩

theorem onTick_id (now : UInt32) (t : Task) : (t.onTick now).id = t.id := by
  unfold Task.onTick
  split
  · split <;> rfl
  · rfl

theorem onTick_type (now : UInt32) (t : Task) : (t.onTick now).type = t.type := by
  unfold Task.onTick
  split
  · split <;> rfl
  · rfl

theorem Ok.tick (h : Ok s) : Ok (tick s) :=
  h.later.mapTasks _ (onTick_id _) (onTick_type _) fun _ _ ht => ht.onTick

theorem yields_id (t : Task) : t.yields.id = t.id := by
  unfold Task.yields
  split <;> rfl

theorem yields_type (t : Task) : t.yields.type = t.type := by
  unfold Task.yields
  split <;> rfl

theorem Ok.yields (h : Ok s) : Ok (s.mapTasks Task.yields) := by
  refine h.mapTasks _ yields_id yields_type fun t _ ht => ?_
  unfold Task.yields
  split
  · exact ⟨fun hk => ⟨(ht.kernel hk).1, (ht.kernel hk).2.1, .inl rfl⟩, ht.user,
      fun hc => by simp at hc, ht.timely⟩
  · exact ht

theorem Ok.setState {state : TaskState} (h : Ok s) (pid : ℤ) (hstate : state ≠ .blockedIpc)
    (hkernel : (∀ t, getTaskById s pid = some t → t.type = .user) ∨ state = .ready ∨ state = .running) :
    Ok (s.modify pid fun t => { t with state := state }) := by
  refine h.modify _ _ fun t ht ha =>
    ⟨fun hk => ?_, ha.user, fun hb => absurd hb hstate, ha.timely⟩
  rcases hkernel with huser | hruns
  · exact absurd ((huser t ht).symm.trans hk) (by decide)
  · exact ⟨(ha.kernel hk).1, (ha.kernel hk).2.1, hruns⟩

theorem TaskOk.sleeps {w : IpcWait} (h : TaskOk sp ticks t) (huser : t.type = .user)
    (hbox : t.mailbox = []) (hrows : 0 < t.id → NoRows sp t.id) (hw : w.blocked = true) (htimely : Timely ticks w) :
    TaskOk sp ticks { t with ipcWait := w, state := .blockedIpc, inReceive := true } :=
  ⟨fun hk => absurd (huser.symm.trans hk) (by decide), h.user,
    fun _ => ⟨hbox, hw, hrows (h.user huser)⟩, fun _ => htimely⟩

/-! ## The supervision tree -/

theorem Ok.wakeWaiter (h : Ok s) (pid : ℤ) : Ok (wakeWaiter s pid) := by
  unfold Kernel.wakeWaiter
  split
  · exact h
  split
  · exact h
  refine Ok.modify ?_ _ _ fun a _ ha =>
    { ha with }
  refine h.modify _ _ fun a _ ha => ?_
  split
  · exact ⟨fun hk => ⟨(ha.kernel hk).1, (ha.kernel hk).2.1, .inl rfl⟩, ha.user,
      fun hc => by simp at hc, ha.timely⟩
  · exact ha

theorem Ok.unlink (h : Ok s) (hpos : 0 < t.id) :
    Ok (unlinkTask (reparentChildren (Kernel.wakeWaiter s t.id) t) t.id) := by
  have hrep : Ok (reparentChildren (Kernel.wakeWaiter s t.id) t) := by
    refine (h.wakeWaiter t.id).mapTasks _ (fun a => by split <;> rfl) (fun a => by split <;> rfl) fun a _ ha => ?_
    split
    · rename_i hchild
      refine ⟨fun hk => ?_, ha.user, ha.asleep, ha.timely⟩
      have := (ha.kernel hk).2.1
      omega
    · exact ha
  refine ⟨hrep.ids.sublist (eraseP_sublist.map _),
    fun a ha => hrep.fresh a (mem_of_mem_eraseP ha), ?_,
    fun a ha => hrep.tasks a (mem_of_mem_eraseP ha)⟩
  obtain ⟨k, hk, hkt⟩ := hrep.kernel
  refine ⟨k, ?_, hkt⟩
  have hid := ((hrep.tasks k hk).kernel hkt).1
  exact (mem_eraseP_of_neg (by simpa using (by omega : k.id ≠ t.id))).mpr hk

theorem TaskOk.user_of_parent (h : TaskOk sp ticks t) (hp : 0 ≤ t.parentPid) : t.type = .user := by
  cases ht : t.type with
  | user => rfl
  | kernel =>
    have := (h.kernel ht).2.1
    omega

theorem Ok.nonneg (h : Ok s) (ht : getTaskById s pid = some t) : 0 ≤ pid :=
  (h.of_lookup ht).2 ▸ (h.of_lookup ht).1.nonneg

theorem Ok.next_pos (h : Ok s) : 0 < s.nextTaskId := by
  obtain ⟨k, hk, hkt⟩ := h.kernel
  have := h.fresh k hk
  have := ((h.tasks k hk).kernel hkt).1
  omega

theorem Ok.createTask (h : Ok s) (parent waiter : ℤ) (boot : Bool)
    (generation : UInt32) : Ok (createTask s parent waiter boot generation) where
  ids := by
    simp only [Kernel.createTask, map_append, map_cons, map_nil]
    refine nodup_append.mpr ⟨h.ids, nodup_singleton _, ?_⟩
    intro a ha b hb
    obtain ⟨t, ht, rfl⟩ := mem_map.mp ha
    rw [mem_singleton.mp hb]
    exact (h.fresh t ht).ne
  fresh := forall_mem_append.mpr ⟨fun t ht => (h.fresh t ht).trans (lt_add_one _),
    forall_mem_singleton.mpr (lt_add_one s.nextTaskId)⟩
  kernel := by
    obtain ⟨k, hk, hkt⟩ := h.kernel
    exact ⟨k, mem_append_left _ hk, hkt⟩
  tasks := forall_mem_append.mpr ⟨h.tasks, forall_mem_singleton.mpr
    ⟨fun hc => absurd hc TaskType.user.noConfusion, fun _ => h.next_pos,
      fun hc => absurd hc TaskState.ready.noConfusion, fun hc => absurd hc Bool.false_ne_true⟩⟩

theorem markChildren_forall {P : Task → Prop}
    (hP : ∀ t, P t → P { t with waiterPid := requester }) {ts : List Task} (found : Bool)
    (h : ∀ t ∈ ts, P t) : ∀ t ∈ (markChildren requester ts found).1, P t := by
  induction ts generalizing found with
  | nil => simp [markChildren]
  | cons t ts ih =>
    obtain ⟨ht, hts⟩ := forall_mem_cons.mp h
    simp only [markChildren]
    split
    · split
      · exact h
      · exact forall_mem_cons.mpr ⟨hP t ht, ih true hts⟩
    · exact forall_mem_cons.mpr ⟨ht, ih found hts⟩

theorem Ok.markChildren (h : Ok s) (requester : ℤ) :
    Ok (s.setTasks (markChildren requester s.tasks false).1) where
  ids := by
    rw [Tasking.setTasks, markChildren_map Task.id requester fun _ => rfl]
    exact h.ids
  fresh := markChildren_forall (fun _ h => h) false h.fresh
  kernel := by
    have hk : TaskType.kernel ∈ s.tasks.map Task.type := mem_map.mpr h.kernel
    rw [← markChildren_map Task.type requester (fun _ => rfl) s.tasks false] at hk
    exact mem_map.mp hk
  tasks := markChildren_forall (fun _ h => { h with }) false h.tasks

theorem Ok.clearSpill (h : Ok s) (pid : ℤ) : Ok (s.setSpill (spillClearPid s.spill pid)) := by
  refine h.setSpill fun t _ _ hrows => ?_
  refine forall_mem_map.mpr fun y hy => ?_
  split
  · rfl
  · exact hrows y hy

/-! ## Runs -/

theorem Ok.steps {s₀ s : Tasking} {op : TaskOp} {k : ℕ} (h : Ok s₀) (hcalled : called s₀ op = true)
    (hs : Steps s₀ op k s) : Ok s := by
  induction hs with
  | start =>
    unfold TaskOp.clears
    split
    · split
      · exact h.clearSpill _
      · exact h
    · split
      · exact h
      · exact h.clearSpill _
    · exact h
  | more _ ih => exact ih
  | told _ hs ih => exact ih.signals hs
  | sent _ _ _ _ p ih => exact ih.modify _ _ fun _ _ ha => (ha.messageQueued _).1
  | took _ _ ht hbox ih =>
    refine (ih.modify _ _ fun a ha hok => ?_).received _ _
    refine ⟨hok.kernel, hok.user, fun hb => ?_, hok.timely⟩
    -- a task that had a message was not asleep
    cases ha.symm.trans ht
    rw [(hok.asleep hb).1] at hbox
    cases hbox
  | popped _ _ _ _ hpop ih => exact (ih.setSpill fun _ _ _ hrows => spillPop_noRows hpop hrows).received _ _
  | slept _ _ ht huser hbox hrows timeout ih =>
    refine ih.modify _ _ fun a ha hok => ?_
    cases ha.symm.trans ht
    cases lookup_key ht
    exact hok.sleeps huser hbox hrows rfl ⟨by simp [ipcWaitBegin], le_rfl, fun _ hc => by cases hc⟩
  | @again k s pid t _ ht hin hrun huser hbox hrows ih =>
    have hleft : Ok (s.modify pid fun t => { t with inReceive := false }) :=
      ih.modify _ _ fun a _ ha =>
        ⟨ha.kernel, ha.user, ha.asleep, fun hc => by cases hc⟩
    have htimely := (ih.of_lookup ht).1.timely hin
    refine hleft.modify _ _ fun a ha hok => ?_
    rw [getTaskById_modify_self (fun _ => by rfl) ht] at ha
    cases ha
    cases lookup_key ht
    exact hok.sleeps huser hbox hrows rfl { htimely with }
  | left _ pid ih =>
    exact ih.modify _ _ fun a _ ha =>
      ⟨ha.kernel, ha.user, ha.asleep, fun hc => by cases hc⟩
  | settled _ hrun w ih =>
    refine ih.modify _ _ fun a ha hok => ?_
    obtain ⟨hstate, hin⟩ := hrun a ha
    exact ⟨hok.kernel, hok.user, fun hc => absurd (hstate.symm.trans hc) (by decide),
      fun hc => absurd (hin.symm.trans hc) (by decide)⟩
  | yielded _ ih => exact ih.yields
  | ran _ _ ih => exact ih.setState _ (by decide) (.inr (.inr rfl))
  | ticked _ ih => exact ih.tick
  | paused _ _ hstate huser ih => exact ih.setState _ hstate (.inl (huser hcalled))
  | unblocked _ pid ih =>
    refine ih.modify _ _ fun a _ ha => ?_
    split
    · exact ⟨fun hk => ⟨(ha.kernel hk).1, (ha.kernel hk).2.1, .inl rfl⟩, ha.user,
        fun hb => by simp at hb, ha.timely⟩
    · exact ha
  | controlled _ ht huser _ hnew ih =>
    refine ih.setState _ hnew.2 (.inl fun a ha => ?_)
    cases ha.symm.trans ht
    exact huser
  | marked _ _ _ _ _ _ ih =>
    exact ih.modify _ _ fun _ _ ha => { ha with }
  | markedAll _ _ _ _ ih => exact ih.markChildren _
  | adopted _ hs _ ht hchild hparent _ _ _ ih =>
    have huser := (ih.of_lookup hchild).1.user_of_parent (hparent ▸ ih.nonneg ht)
    have hpos := (ih.of_lookup hchild).1.user huser
    have hchildId := (ih.of_lookup hchild).2
    refine (ih.signals hs).modify _ _ fun a ha hok => ?_
    -- the child is not the kernel task
    refine { hok with kernel := fun hk => ?_ }
    have h0 := (hok.kernel hk).1
    have hid := ((ih.signals hs).of_lookup ha).2
    omega
  | ended _ hs _ ht huser ih =>
    have hok := (ih.of_lookup ht).1
    refine (ih.signals hs).unlink (hok.user ?_)
    rcases huser with huser | hne | ⟨u, hu⟩
    · exact huser
    · exact hok.user_of_ne hne
    · exact hok.user_of_parent (h.nonneg hu)
  | created _ _ _ boot generation ih => exact ih.createTask _ _ _ _
  | rooted _ pid ih => exact { ih with }

theorem Ok.taskStep (h : Ok s) {op : TaskOp} (hcalled : called s op = true) : Ok (taskStep s op) :=
  h.steps hcalled (steps_taskStep s op)

theorem Ok.kernelStep (h : Ok s) (op : TaskOp) : Ok (kernelStep s op) := by
  unfold Kernel.kernelStep
  split
  · rename_i hcalled
    exact h.taskStep hcalled
  · exact h

theorem ok_run (ops : List TaskOp) : Ok (run kernelStep taskingInit ops) := by
  have hstep : ∀ s op, Ok s → Ok (kernelStep s op) := fun _ op h => h.kernelStep op
  exact run_invariant_all hstep Ok.init

/-! ## No lost wake-up, no early timeout -/

theorem sysIpcReceive_answer (s : Tasking) (pid : ℤ) : (sysIpcReceive s pid).2 ≠ .error .timeout := by
  unfold sysIpcReceive
  split
  · simp
  split
  · simp
  split
  · simp
  split <;> simp

theorem resumeReceive_timeout (ht : getTaskById s pid = some t)
    (htimely : Timely s.ticks t.ipcWait) (hshort : t.ipcWait.timeout.toNat < 2 ^ 31)
    (h : (resumeReceive s pid).2 = some (.error .timeout)) :
    t.ipcWait.since + t.ipcWait.timeout.toNat ≤ s.ticks := by
  simp only [resumeReceive, ht] at h
  split at h
  · split at h
    · rename_i hover
      rcases Bool.or_eq_true_iff.mp hover with hout | hexp
      · exact htimely.timedOut hshort hout
      · by_contra hnot
        have hlate := (Bool.and_eq_true_iff.mp hexp).2
        rw [htimely.deadline, Tasking.now, not_expired htimely.since (by omega) hshort] at hlate
        cases hlate
    · cases h
  · rename_i r _ hrecv
    have hanswer := sysIpcReceive_answer (s.modify pid fun t => { t with inReceive := false }) pid
    rw [hrecv] at hanswer
    exact absurd (Option.some.inj h) hanswer

/-- In every state that blocking receives, the enqueues of the kernel and the clock lead to, a task
asleep in a receive has nothing to receive; and a receive with a finite wait of less than half the
range of the clock answers `OS_IPC_TIMEOUT` only when its deadline is reached. -/
theorem blockedReceive_sound (ops : List TaskOp) : let s := run kernelStep taskingInit ops
    (∀ t ∈ s.tasks, t.state = .blockedIpc →
      t.mailbox = [] ∧ ∀ x ∈ s.spill.slots, x.used = true → x.watcherPid ≠ t.id) ∧
    (∀ next t, getTaskById s next = some t → t.ipcWait.timeout.toNat < 2 ^ 31 →
      (schedule s next).2 = some (.error .timeout) →
      t.ipcWait.since + t.ipcWait.timeout.toNat ≤ s.ticks) ∧
    ∀ pid timeout mayBlock, (sysIpcReceiveWait s pid timeout mayBlock).2 ≠ some (.error .timeout) := by
  have hok := ok_run ops
  generalize run kernelStep taskingInit ops = s at hok
  refine ⟨fun t ht hb => ?_, fun next t ht hshort hout => ?_, fun pid timeout mayBlock => ?_⟩
  · obtain ⟨hbox, -, hrows⟩ := (hok.tasks t ht).asleep hb
    refine ⟨hbox, fun x hx hused heq => ?_⟩
    have := hrows x hx
    simp [SpillSlot.isFor, hused, heq] at this
  · simp only [schedule] at hout
    have hlook : getTaskById (s.mapTasks Task.yields) next = some t.yields :=
      (lookup_map yields_id next s.tasks).trans (Option.map_eq_some_iff.mpr ⟨t, ht, rfl⟩)
    have hwait : t.yields.ipcWait = t.ipcWait := by
      unfold Task.yields
      split <;> rfl
    rw [hlook] at hout
    dsimp only at hout
    split at hout
    · split at hout
      · rename_i hin
        have htimely := (hok.yields.of_lookup hlook).1.timely hin
        have htaken := getTaskById_modify_self (f := fun t => { t with state := .running })
          (fun _ => by rfl) hlook
        have hgone := resumeReceive_timeout htaken htimely (hwait ▸ hshort) hout
        exact hwait ▸ hgone
      · cases hout
    · cases hout
  · unfold sysIpcReceiveWait
    split
    · split <;> simp
    rename_i r _ hrecv
    have hanswer := sysIpcReceive_answer s pid
    rw [hrecv] at hanswer
    exact fun hc => hanswer (Option.some.inj hc)

end Mohhdy.Kernel
