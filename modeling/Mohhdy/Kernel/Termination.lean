import Mohhdy.Kernel.Services
import Mohhdy.Kernel.Mailbox

/-! What is left of a task that ends. Exits and kills purge the registry before the task goes, so that
services, capabilities, watches and spilled messages are always those of tasks that are there; the
killing of all children does not. -/
namespace Mohhdy.Kernel
set_option autoImplicit false

open Words Tables Runs Relation List

variable {caller grantee q : ℤ} {op : TaskOp} {live : Identities}
  {pid : ℤ} {s : System} {r : Registry}

/-! ## Rows in the spill -/

theorem Signals.noRows {s s' : Tasking} {N : ℤ → Prop} {k : ℕ} (hs : Signals N s k s') (hN : ¬N pid)
    (h : NoRows s.spill pid) : NoRows s'.spill pid := by
  induction hs with
  | refl => exact h
  | more _ ih => exact ih
  | noted _ _ _ _ _ ih => exact ih
  | posted _ _ _ _ _ ih => exact ih
  | spilled _ hq _ _ hpush ih =>
    refine spillPush_noRows hpush ?_ ih
    rintro rfl
    exact hN hq

theorem wakeWaiter_spill (s : Tasking) (d : ℤ) : (wakeWaiter s d).spill = s.spill := by
  unfold wakeWaiter
  split
  · rfl
  · split <;> rfl

theorem Steps.noRows {s₀ s : Tasking} {k : ℕ} (hs : Steps s₀ op k s)
    (h : NoRows (op.clears s₀).spill pid) (hN : ¬Told s₀ op pid) : NoRows s.spill pid := by
  induction hs with
  | start => exact h
  | told _ hs ih => exact hs.noRows hN ih
  | popped _ _ _ _ hpop ih => exact spillPop_noRows hpop ih
  | adopted _ hs _ _ _ _ _ _ _ ih => exact hs.noRows hN ih
  | @ended k j s s' t _ hs _ _ _ ih =>
    change NoRows (wakeWaiter s' t.id).spill pid
    rw [wakeWaiter_spill]
    exact hs.noRows hN ih
  | more _ ih | sent _ _ _ _ _ ih | took _ _ _ _ ih | slept _ _ _ _ _ _ _ ih | again _ _ _ _ _ _ _ ih | left _ _ ih
  | settled _ _ _ ih | yielded _ ih | ran _ _ ih | ticked _ ih | paused _ _ _ _ ih | unblocked _ _ ih
  | controlled _ _ _ _ _ ih | marked _ _ _ _ _ _ ih | markedAll _ _ _ _ ih | created _ _ _ _ _ ih
  | rooted _ _ ih => exact ih

theorem Forest.parent_ne {s : Tasking} (hF : Forest (tree s)) {t : Task}
    (ht : getTaskById s pid = some t) : t.parentPid ≠ pid := by
  intro hp
  have hid : t.id = pid := lookup_key ht
  exact hF.acyclic pid (TransGen.single (above_iff.mpr ⟨t.node, mem_nodes ht, hid, hp⟩))

/-- A task that is not there, or that the step ends after it has cleared its rows, or without. -/
def Leaving (s : Tasking) (op : TaskOp) (pid : ℤ) : Prop :=
  (getTaskById s pid = none ∧ NoRows s.spill pid) ∨
    (pid ∈ op.ends s ∧ (op.purges = true ∨ NoRows s.spill pid))

theorem ends_exit {s : Tasking} {reason : ExitReason} (h : pid ∈ (TaskOp.exit caller reason).ends s) :
    pid = caller ∧ (getTaskById s caller).any (fun t => t.type == .user) = true := by
  rw [TaskOp.ends] at h
  split at h
  · rename_i huser
    exact ⟨mem_singleton.mp h, huser⟩
  · cases h

theorem ends_kill {s : Tasking} (h : pid ∈ (TaskOp.kill caller q).ends s) :
    pid = q ∧ q ≠ 0 ∧ ∃ t, getTaskById s q = some t := by
  simp only [TaskOp.ends] at h
  rcases taskKill_cases s caller q with ⟨e, he⟩ | ⟨t, ht, hok⟩
  · rw [he] at h
    cases h
  · rw [hok] at h
    refine ⟨mem_singleton.mp h, ?_, t, ht⟩
    rintro rfl
    simp [taskKill] at hok

theorem Leaving.clears {s : Tasking} (hF : Forest (tree s)) (h : Leaving s op pid) :
    NoRows (op.clears s).spill pid := by
  have hold : NoRows s.spill pid → NoRows (op.clears s).spill pid := by
    intro hrows
    unfold TaskOp.clears
    split
    · split
      · exact noRows_spillClearPid hrows
      · exact hrows
    · split
      · exact hrows
      · exact noRows_spillClearPid hrows
    · exact hrows
  rcases h with ⟨-, h⟩ | ⟨hends, hp | h⟩
  · exact hold h
  · cases op with
    | exit caller reason =>
      obtain ⟨rfl, huser⟩ := ends_exit hends
      rw [TaskOp.clears, if_pos huser]
      exact noRows_clear
    | kill caller q =>
      obtain ⟨rfl, hne, t, ht⟩ := ends_kill hends
      have := (hF.bounds_ids (mem_ids ht)).1
      rw [TaskOp.clears, if_neg (by omega)]
      exact noRows_clear
    | _ => cases hp
  · exact hold h

/-- Nobody who is not there is sent anything, and no task hears of its own end. -/
theorem Leaving.not_told {s : Tasking} (hF : Forest (tree s)) (h : Leaving s op pid) : ¬Told s op pid := by
  rintro ⟨hmem, t, ht⟩
  rcases h with ⟨hnone, -⟩ | ⟨hends, -⟩
  · rw [hnone] at ht
    cases ht
  cases op with
  | exit caller reason =>
    obtain ⟨rfl, -⟩ := ends_exit hends
    rw [TaskOp.notified, ht] at hmem
    exact hF.parent_ne ht (mem_singleton.mp hmem).symm
  | kill caller q =>
    obtain ⟨rfl, -⟩ := ends_kill hends
    rw [TaskOp.notified, ht] at hmem
    exact hF.parent_ne ht (mem_singleton.mp hmem).symm
  | killChildren caller =>
    cases mem_singleton.mp hmem
    rw [TaskOp.ends, ht, Option.isSome_some, if_pos rfl] at hends
    obtain ⟨c, hc, hid⟩ := mem_map.mp (mem_of_mem_take hends)
    obtain ⟨hin, hpar⟩ := mem_filter.mp hc
    have hd : (s.tasks.map Task.id).Nodup := by
      simpa [ids, tree, Task.node, Function.comp_def] using hF.distinct
    exact hF.parent_ne (lookup_eq_of_mem hd hin hid) (by simpa using hpar)
  | _ => cases hends

/-- A step puts nothing into the spill for a task that is not there, or that it ends. -/
theorem Leaving.taskStep {s : Tasking} (hF : Forest (tree s)) (h : Leaving s op pid) :
    NoRows (taskStep s op).spill pid :=
  (steps_taskStep s op).noRows (h.clears hF) (h.not_told hF)

/-! ## Who stays -/

theorem identities_tree (s : Tasking) :
    s.identities pid = (lookup Node.id pid (tree s).nodes).map Node.stamp := by
  rw [lookup_tree, Option.map_map]
  rfl

theorem identities_iff {s : Tasking} (hF : Forest (tree s)) {st : Stamp} :
    s.identities pid = some st ↔ (pid, st) ∈ (tree s).nodes.map Node.person := by
  rw [identities_tree]
  constructor
  · intro h
    obtain ⟨n, hn, rfl⟩ := Option.map_eq_some_iff.mp h
    have hid : n.id = pid := lookup_key hn
    exact mem_map.mpr ⟨n, lookup_mem hn, by rw [Node.person, hid]⟩
  · intro h
    obtain ⟨n, hn, heq⟩ := mem_map.mp h
    obtain ⟨hid, rfl⟩ := Prod.mk.inj heq
    rw [lookup_eq_of_mem hF.distinct hn hid, Option.map_some]

theorem identities_of_tree {s s' : Tasking} (h : tree s' = tree s) : s'.identities = s.identities := by
  funext pid
  rw [identities_tree, identities_tree, h]

theorem identities_taskStep {s : Tasking} (hF : Forest (tree s)) {st : Stamp}
    (hends : pid ∉ op.ends s) (h : s.identities pid = some st) : (taskStep s op).identities pid = some st := by
  rw [identities_iff (hF.taskStep op)]
  refine ((moves_taskStep hF op).keep hF (P := fun T => (pid, st) ∈ T.nodes.map Node.person)
    ((identities_iff hF).mp h) fun T T' _ hp hmove => ?_).2
  exact hmove.stays hp fun ns d hd heq => hends ((show d = pid from heq) ▸ hd.1)

/-! ## The tables name tasks that are there -/

structure Unnamed (r : Registry) (pid : ℤ) : Prop where
  entries : ∀ e ∈ r.entries, e.pid ≠ pid
  caps : ∀ c ∈ r.caps, c.ownerPid ≠ pid ∧ c.granteePid ≠ pid
  watches : ∀ w ∈ r.notifier.watches, w.pid ≠ pid

structure Registered (live : Identities) (r : Registry) : Prop where
  entries : ∀ e ∈ r.entries, e.pid ≠ 0 → ∃ st, live e.pid = some st ∧ e.sequence = st.sequence.val ∧
    e.generation = st.generation
  caps : ∀ c ∈ r.caps, (c.ownerPid ≠ 0 → (live c.ownerPid).isSome = true) ∧
    (c.granteePid ≠ 0 → (live c.granteePid).isSome = true)
  watches : ∀ w ∈ r.notifier.watches, w.pid ≠ 0 → (live w.pid).isSome = true

section
variable (h : Registered live r)
include h

theorem Registered.leave {live' : Identities}
    (hstay : ∀ pid st, live pid = some st → pid ≠ 0 → ¬Unnamed r pid → live' pid = some st) : Registered live' r := by
  have hsome : ∀ pid, (live pid).isSome = true → pid ≠ 0 → ¬Unnamed r pid → (live' pid).isSome = true := by
    intro pid hpid h0 hn
    obtain ⟨st, hst⟩ := Option.isSome_iff_exists.mp hpid
    rw [hstay pid st hst h0 hn]
    rfl
  refine ⟨fun e he hpid => ?_, fun c hc => ⟨fun ho => ?_, fun hg => ?_⟩, fun w hw hpid => ?_⟩
  · obtain ⟨st, hst, hstamp⟩ := h.entries e he hpid
    exact ⟨st, hstay _ st hst hpid fun hn => hn.entries e he rfl, hstamp⟩
  · exact hsome _ ((h.caps c hc).1 ho) ho fun hn => (hn.caps c hc).1 rfl
  · exact hsome _ ((h.caps c hc).2 hg) hg fun hn => (hn.caps c hc).2 rfl
  · exact hsome _ (h.watches w hw hpid) hpid fun hn => hn.watches w hw rfl

theorem Registered.shrink {r' : Registry} (hs : Shrinks r r') : Registered live r' := by
  refine ⟨fun e he hpid => ?_, fun c hc => ?_, fun w hw hpid => h.watches w (hs.watches w hw hpid) hpid⟩
  · obtain ⟨a, ha, heq⟩ := mem_map.mp (hs.entries e he hpid)
    simp only [Entry.person, Prod.mk.injEq] at heq
    obtain ⟨hid, hseq, hgen, -⟩ := heq
    rw [← hid, ← hseq, ← hgen]
    exact h.entries a ha (hid ▸ hpid)
  · rcases hs.rows c hc with hold | ⟨ho, hg⟩
    · exact h.caps c hold
    · exact ⟨absurd ho, absurd hg⟩

theorem Registered.setEntry (hpid : (live pid).isSome = true) (p : Entry → Bool) {f : Entry → Entry}
    (hf : ∀ e, (f e).pid = pid ∧ (f e).sequence = (identityOf live pid).1 ∧
      (f e).generation = (identityOf live pid).2) :
    Registered live (r.setEntries (modifyFirst p f r.entries)) := by
  obtain ⟨st, hst⟩ := Option.isSome_iff_exists.mp hpid
  refine ⟨modifyFirst_forall h.entries fun e _ _ _ => ⟨st, ?_⟩, h.caps, h.watches⟩
  obtain ⟨hid, hseq, hgen⟩ := hf e
  rw [hid, hseq, hgen]
  simp [identityOf, hst]

variable (name : CString)

theorem Registered.register (hpid : (live pid).isSome = true) :
    Registered live (serviceRegister live r name pid).1 := by
  have hpublish : ∀ p, Registered live (publish live r p name pid) := by
    intro p
    have hset := h.setEntry hpid p (f := fun _ => newEntry live r name pid) fun _ => ⟨rfl, rfl, rfl⟩
    exact { hset with }
  simp only [serviceRegister]
  split
  · exact h
  split
  · split
    · exact h
    split
    · exact hpublish _
    · exact h
  · split
    · exact hpublish _
    · exact h

theorem Registered.backendGrant
    {owner : ℤ} (ho : (live owner).isSome = true) (hg : (live grantee).isSome = true)
    (rights sources : UInt32) (pre : CString) :
    Registered live (backendGrant live r name owner grantee rights sources pre).1 := by
  have hl := h.shrink (shrinks_lookup live r name)
  -- a row is written and a generation counted up
  have hrow : ∀ (w : Registry) (p : Cap → Bool) (row : Cap) (t : Counter), Registered live w →
      row.ownerPid = owner → row.granteePid = grantee → Registered live (backendGenerationBump
        ⟨w.entries, modifyFirst p (fun _ => row) w.caps, w.notifier, t, w.rightTokenNext⟩ name) := by
    rintro w p row t hw rfl rfl
    have hset : Registered live ⟨w.entries, modifyFirst p (fun _ => row) w.caps, w.notifier, t,
        w.rightTokenNext⟩ :=
      ⟨hw.entries, modifyFirst_forall hw.caps fun _ _ _ => ⟨fun _ => ho, fun _ => hg⟩, hw.watches⟩
    exact hset.shrink (shrinks_bump _ name)
  unfold Kernel.backendGrant
  split
  · exact h
  dsimp only
  split
  · exact hl
  split
  · unfold backendMerge
    split
    · exact hrow _ _ _ _ hl rfl rfl
    · exact hl
  · split
    · exact hrow _ _ _ _ hl rfl rfl
    · exact hl

theorem Registered.grant (owner : ℤ) (hg : (live grantee).isSome = true) :
    Registered live (serviceGrant live r name owner grantee).1 := by
  have hover : Registered live (handedOver live r name grantee) :=
    (h.setEntry hg _ fun _ => ⟨rfl, rfl, rfl⟩).shrink (shrinks_backendRemoveName _ name)
  have hlook := hover.shrink (shrinks_lookup live (handedOver live r name grantee) vfsVirtualName)
  unfold serviceGrant
  split
  · exact h
  split
  · exact h
  split
  · exact h
  split
  · exact h
  unfold vfsHandoff
  split
  · dsimp only
    split
    · exact hlook.backendGrant name hg hg _ _ _
    · exact hlook
  · exact hover

theorem Registered.notify (hpid : (live pid).isSome = true) (sequence generation : UInt32) :
    Registered live (r.setNotifier (subscribe r.notifier name pid sequence generation)) := by
  refine ⟨h.entries, h.caps, ?_⟩
  simp only [Registry.setNotifier, subscribe, watchAdd]
  split
  · exact h.watches
  rename_i ws hws
  split at hws
  · cases hws
  split at hws
  · cases hws
    exact modifyFirst_forall h.watches fun w _ hw => hw
  split at hws
  · cases hws
    exact modifyFirst_forall h.watches fun _ _ _ _ => hpid
  · cases hws

end

/-! ## Runs -/

structure Tidy (s : System) : Prop where
  forest : Forest (tree s.tasking)
  registered : Registered s.live s.registry
  spill : ∀ pid, getTaskById s.tasking pid = none → NoRows s.tasking.spill pid

theorem isNone_iff {s : Tasking} : getTaskById s pid = none ↔ s.identities pid = none := by
  rw [Tasking.identities, Option.map_eq_none_iff]

theorem Tidy.setRegistry (h : Tidy s) (hr : Registered s.live r) : Tidy (s.setRegistry r) :=
  ⟨h.forest, hr, h.spill⟩

structure Settles (s s' : System) : Prop where
  tidy : Tidy s'
  shrinks : Shrinks s.registry s'.registry
  live : s'.live = s.live

theorem Tidy.settles (h : Tidy s) : Settles s s := ⟨h, .refl _, rfl⟩

theorem Settles.trans {s' s'' : System} (h : Settles s s') (h' : Settles s' s'') : Settles s s'' :=
  ⟨h'.tidy, h.shrinks.trans h'.shrinks, h'.live.trans h.live⟩

theorem Tidy.shrink (h : Tidy s) (hs : Shrinks s.registry r) : Settles s (s.setRegistry r) :=
  ⟨h.setRegistry (h.registered.shrink hs), hs, rfl⟩

theorem shrinks_history (r : Registry) (history : History) :
    Shrinks r (r.setNotifier ⟨r.notifier.watches, history⟩) :=
  ⟨fun _ hc => .inl hc, fun _ he _ => mem_map_of_mem he, fun _ hw _ => hw⟩

theorem Tidy.notifyWatcher (h : Tidy s) (name : CString) (oldPid newPid : ℤ)
    (reason : ServiceReason) (p : Payload) (pid : ℤ) :
    Settles s (notifyWatcher name oldPid newPid reason p s pid) := by
  unfold Kernel.notifyWatcher
  split
  · exact h.settles
  rename_i t ht
  split
  · have hrefl : Signals (· = pid) s.tasking 0 s.tasking := .refl
    have hsignals := hrefl.deliver (fun _ _ => rfl) p
    have htree := tree_signals hsignals
    have hlive : (deliver s.tasking pid p).1.identities = s.live := identities_of_tree htree
    refine ⟨⟨htree ▸ h.forest, ?_, fun q hq => ?_⟩, shrinks_history _ _, hlive⟩
    · have hr := h.registered.shrink (shrinks_history s.registry (notifyRecord s.registry.notifier.history name
        pid (UInt32.ofInt oldPid) (UInt32.ofInt newPid) reason.code).1)
      rw [← hlive] at hr
      exact hr
    · have hnone : getTaskById s.tasking q = none := by
        rw [isNone_iff] at hq ⊢
        rw [← hq]
        exact (congrFun hlive q).symm
      refine hsignals.noRows ?_ (h.spill q hnone)
      rintro rfl
      rw [hnone] at ht
      cases ht
  · exact h.settles

theorem Tidy.notifyChange (h : Tidy s) (name : CString) (oldPid newPid : ℤ)
    (reason : ServiceReason) : Settles s (notifyChange s name oldPid newPid reason) := by
  unfold Kernel.notifyChange
  split
  · exact h.settles
  · exact List.foldlRecOn _ _ h.settles fun s' hs w _ =>
      hs.trans (hs.tidy.notifyWatcher name oldPid newPid reason _ w)

theorem Tidy.sysServiceLookup (h : Tidy s) (name : CString) : Settles s (sysServiceLookup s name).1 := by
  have hl := shrinks_lookup s.live s.registry name
  unfold Kernel.sysServiceLookup
  split
  · rename_i r e heq
    rw [heq] at hl
    exact h.shrink hl
  · rename_i r pid heq
    rw [heq] at hl
    have hr := h.shrink hl
    split
    · exact hr
    have hrem := hr.tidy.shrink (shrinks_remove (s.setRegistry r).live (s.setRegistry r).registry name pid)
    exact (hr.trans hrem).trans (hrem.tidy.notifyChange name pid 0 .purged)

/-- A step of the tasks, when what it ends is in no table, or has only rows in the spill that it clears. -/
theorem Tidy.taskStep (h : Tidy s) (hends : ∀ d ∈ op.ends s.tasking, (d ≠ 0 → Unnamed s.registry d) ∧
      (op.purges = true ∨ NoRows s.tasking.spill d)) :
    Tidy ⟨taskStep s.tasking op, s.registry⟩ := by
  refine ⟨h.forest.taskStep op, h.registered.leave fun pid st hst h0 hn => ?_, fun pid hnone => ?_⟩
  · exact identities_taskStep h.forest (fun hin => hn ((hends pid hin).1 h0)) hst
  · refine Leaving.taskStep h.forest ?_
    by_cases hin : pid ∈ op.ends s.tasking
    · exact .inr ⟨hin, (hends pid hin).2⟩
    · left
      have hbefore : getTaskById s.tasking pid = none := by
        rw [isNone_iff] at hnone ⊢
        cases hst : s.tasking.identities pid with
        | none => rfl
        | some st =>
          have hafter := identities_taskStep h.forest hin hst
          rw [hafter] at hnone
          cases hnone
      exact ⟨hbefore, h.spill pid hbefore⟩

theorem Tidy.bridgeAfterPurge (h : Tidy s) (drivers : Drivers) (died : Bool) :
    Tidy (bridgeAfterPurge s drivers died) ∧ Shrinks s.registry (bridgeAfterPurge s drivers died).registry := by
  have hl := shrinks_lookup s.live s.registry ataDriverName
  unfold Kernel.bridgeAfterPurge
  split
  · exact ⟨h, .refl _⟩
  split
  · rename_i r pid heq
    rw [heq] at hl
    exact ⟨(h.shrink hl).tidy, hl⟩
  · rename_i r e heq
    rw [heq] at hl
    split
    · exact ⟨(h.shrink hl).tidy, hl⟩
    rename_i generation _
    have hcreate : called s.tasking (.create true generation) = true := rfl
    have hstep : Tidy ⟨Kernel.taskStep s.tasking (.create true generation), r⟩ :=
      (h.shrink hl).tidy.taskStep fun d hd => by cases hd
    unfold kernelStep
    rw [if_pos hcreate]
    exact ⟨hstep, hl⟩

/-- The entries of a task that is there are valid, so the purge finds all of them. -/
theorem collectOwned_nil (h : Registered live r) (hpid : 0 < pid)
    (hnil : collectOwned live r.entries pid = []) : ∀ e ∈ r.entries, e.pid ≠ pid := by
  rintro e he rfl
  obtain ⟨st, hst, hseq, hgen⟩ := h.entries e he hpid.ne'
  rw [collectOwned, if_neg (by omega), filter_eq_nil_iff] at hnil
  refine hnil e he ?_
  rw [Bool.and_eq_true]
  refine ⟨beq_self_eq_true _, ?_⟩
  rw [Entry.valid, hseq, hgen, taskIdentityValid, if_neg (by omega), hst]
  have hne := st.sequence.property
  simp [hne]

theorem Tidy.removePid (h : Tidy s) (pid : ℤ) :
    Tidy (removePid s pid) ∧ Shrinks s.registry (removePid s pid).registry := by
  have hs := shrinks_removePid s.registry pid
  have hr := (h.shrink hs).tidy
  unfold Kernel.removePid
  split
  · exact ⟨hr, hs⟩
  · exact ⟨⟨hr.forest, hr.registered, fun q hq => noRows_spillClearPid (hr.spill q hq)⟩, hs⟩

theorem serviceRemovePid_entries (hpid : 0 < pid) : ∀ e ∈ (serviceRemovePid r pid).entries, e.pid ≠ pid := by
  unfold serviceRemovePid
  rw [if_neg (by omega)]
  intro e he
  obtain ⟨a, -, rfl⟩ := mem_map.mp he
  split
  · exact hpid.ne
  rename_i hne
  simpa using hne

theorem Shrinks.entries_ne {r' : Registry} (h : Shrinks r r') (hpid : pid ≠ 0)
    (hr : ∀ e ∈ r.entries, e.pid ≠ pid) : ∀ e ∈ r'.entries, e.pid ≠ pid := by
  rintro e he rfl
  obtain ⟨a, ha, heq⟩ := mem_map.mp (h.entries e he hpid)
  exact hr a ha (congrArg Prod.fst heq)

theorem Tidy.notifyPurgePid (h : Tidy s) (drivers : Drivers) (pid : ℤ) : Tidy (notifyPurgePid s drivers pid) ∧
    (0 < pid → ∀ e ∈ (notifyPurgePid s drivers pid).registry.entries, e.pid ≠ pid) := by
  -- the part before the lookups of the drivers
  have hpurged : ∀ owned, owned = collectOwned s.live s.registry.entries pid →
      Tidy (if owned.isEmpty then s
        else Kernel.removePid (owned.foldl (fun s e => Kernel.notifyChange s e.name pid 0 .purged) s) pid) ∧
      (0 < pid → ∀ e ∈ (if owned.isEmpty then s else Kernel.removePid
        (owned.foldl (fun s e => Kernel.notifyChange s e.name pid 0 .purged) s) pid).registry.entries,
        e.pid ≠ pid) := by
    rintro owned rfl
    split
    · rename_i hnil
      exact ⟨h, fun hpid => collectOwned_nil h.registered hpid (isEmpty_iff.mp hnil)⟩
    · have hfold : Tidy ((collectOwned s.live s.registry.entries pid).foldl
          (fun s e => Kernel.notifyChange s e.name pid 0 .purged) s) :=
        List.foldlRecOn _ _ h fun s' hs e _ => (hs.notifyChange e.name pid 0 .purged).tidy
      exact ⟨(hfold.removePid pid).1, fun hpid => serviceRemovePid_entries hpid⟩
  obtain ⟨htidy, hgone⟩ := hpurged _ rfl
  obtain ⟨hb, hbs⟩ := htidy.bridgeAfterPurge drivers
    (purgeIsDriver drivers pid (collectOwned s.live s.registry.entries pid))
  have hl := hb.sysServiceLookup netDriverName
  exact ⟨hl.tidy, fun hpid => (hbs.trans hl.shrinks).entries_ne hpid.ne' (hgone hpid)⟩

theorem shrinks_removeWatcherPid (r : Registry) (pid : ℤ) : Shrinks r (removeWatcherPid r pid) := by
  unfold removeWatcherPid
  split
  · exact .refl r
  refine ⟨fun _ hc => .inl hc, fun _ he _ => mem_map_of_mem he, fun w hw hpid => ?_⟩
  obtain ⟨a, ha, rfl⟩ := mem_map.mp hw
  split at hpid
  · exact absurd rfl hpid
  rename_i hne
  rw [if_neg hne]
  exact ha

theorem Tidy.purgeTask (h : Tidy s) (drivers : Drivers) (pid : ℤ) :
    Tidy (purgeTask s drivers pid) ∧ (0 < pid → Unnamed (purgeTask s drivers pid).registry pid) := by
  obtain ⟨hp, hgone⟩ := h.notifyPurgePid drivers pid
  have hb := shrinks_backendRemovePid (Kernel.notifyPurgePid s drivers pid).registry pid
  have hw := shrinks_removeWatcherPid (backendRemovePid (Kernel.notifyPurgePid s drivers pid).registry pid) pid
  refine ⟨(hp.shrink (hb.trans hw)).tidy, fun hpid => ⟨?_, ?_, ?_⟩⟩
  · exact (hb.trans hw).entries_ne hpid.ne' (hgone hpid)
  · intro c hc
    have hmem : c ∈ (backendRemovePid (Kernel.notifyPurgePid s drivers pid).registry pid).caps :=
      (removeWatcherPid_tables _ pid).2 ▸ hc
    simpa [Cap.names] using backendRemovePid_names hpid c hmem
  · exact removeWatcherPid_watches hpid

theorem Forest.pos {s : Tasking} (hF : Forest (tree s)) {t : Task} (ht : getTaskById s pid = some t)
    (h0 : pid ≠ 0) : 0 < pid := by
  have := (hF.bounds_ids (mem_ids ht)).1
  omega

theorem Tidy.sysExit (h : Tidy s) (caller : ℤ) (reason : ExitReason) (drivers : Drivers) :
    Tidy (sysExit s caller reason drivers) := by
  obtain ⟨hp, hgone⟩ := h.purgeTask drivers caller
  refine hp.taskStep fun d hd => ⟨fun h0 => ?_, .inl rfl⟩
  obtain ⟨rfl, huser⟩ := ends_exit hd
  obtain ⟨t, ht, -⟩ := (Option.any_eq_true _ _).mp huser
  exact hgone (hp.forest.pos ht h0)

theorem Tidy.sysKill (h : Tidy s) (caller pid : ℤ) (drivers : Drivers) : Tidy (sysKill s caller pid drivers).1 := by
  obtain ⟨hp, hgone⟩ := h.purgeTask drivers pid
  change Tidy ⟨Kernel.taskStep (Kernel.purgeTask s drivers pid).tasking (.kill caller pid), _⟩
  refine hp.taskStep fun d hd => ⟨fun h0 => ?_, .inl rfl⟩
  obtain ⟨rfl, -, t, ht⟩ := ends_kill hd
  exact hgone (hp.forest.pos ht h0)

def sparesServants (s : System) : Syscall → Prop
  | .task (.killChildren caller) => ∀ d ∈ directChildren s.tasking caller, Unnamed s.registry d ∧
    NoRows s.tasking.spill d
  | _ => True

theorem called_live {op : Syscall} (h : op.called s = true)
    (hc : op.caller = some caller) : (s.live caller).isSome = true := by
  rw [Syscall.called, hc, Option.all_some] at h
  cases ht : getTaskById s.tasking caller with
  | none =>
    rw [ht] at h
    cases h
  | some t => simp [System.live, Tasking.identities, ht]

theorem userTask_live (h : ¬(s.userTask pid).isNone = true) : (s.live pid).isSome = true := by
  rw [Option.isNone_iff_eq_none, ← ne_eq, Option.ne_none_iff_exists'] at h
  obtain ⟨t, ht⟩ := h
  have hget := (Option.filter_eq_some_iff.mp ht).1
  simp [System.live, Tasking.identities, hget]

theorem Tidy.syscall (h : Tidy s) {op : Syscall} (hcalled : op.called s = true)
    (hspares : sparesServants s op) : Tidy (syscall s op) := by
  cases op with
  | task op =>
    simp only [Kernel.syscall]
    split
    · exact h
    rename_i hp
    refine h.taskStep fun d hd => ?_
    cases op with
    | killChildren caller =>
      simp only [TaskOp.ends] at hd
      split at hd
      · exact (hspares d hd).imp (fun hn _ => hn) .inr
      · cases hd
    | exit => exact absurd rfl hp
    | kill => exact absurd rfl hp
    | create | spawn | exec | wait | waitAny | delegate | suspend | resume | configure | replay
    | serviceEvent | relay | send | receive | receiveWait | blockKernel | unblockKernel | setRootShell
    | schedule | tick => cases hd
  | exit caller reason drivers => exact h.sysExit caller reason drivers
  | kill caller pid drivers => exact h.sysKill caller pid drivers
  | register caller allowed name =>
    simp only [Kernel.syscall, sysServiceRegister]
    split
    · exact h
    have hl := h.sysServiceLookup name
    have hlive : ((Kernel.sysServiceLookup s name).1.live caller).isSome = true :=
      hl.live ▸ called_live hcalled rfl
    have hr := hl.tidy.setRegistry (hl.tidy.registered.register name hlive)
    split
    · exact (hr.notifyChange name 0 caller .published).tidy
    · exact hr
  | lookup name => exact (h.sysServiceLookup name).tidy
  | unregister caller name =>
    have hrem := (h.shrink (shrinks_remove s.live s.registry name caller)).tidy
    simp only [Kernel.syscall, sysServiceUnregister]
    split
    · exact (hrem.notifyChange name caller 0 .unregistered).tidy
    · exact hrem
  | grant caller allowed name target =>
    simp only [Kernel.syscall, sysServiceGrant]
    split
    · exact h
    rename_i htarget
    rw [Bool.or_eq_true, not_or] at htarget
    have hg := h.setRegistry (h.registered.grant name caller (userTask_live htarget.1))
    split
    · exact (hg.notifyChange name caller target .granted).tidy
    · exact hg
  | backendGrant caller name target rights sources pre =>
    simp only [Kernel.syscall, sysBackendGrant]
    split
    · exact h
    rename_i htarget
    exact h.setRegistry (h.registered.backendGrant name (called_live hcalled rfl) (userTask_live htarget) _ _ _)
  | backendRevoke caller name target =>
    simp only [Kernel.syscall, sysBackendRevoke]
    split
    · exact h
    · exact (h.shrink (shrinks_revoke s.live s.registry name caller target)).tidy
  | backendRelease caller name => exact (h.shrink (shrinks_release s.registry name caller)).tidy
  | backendAllowed name pid right source path =>
    exact (h.shrink (shrinks_allowed s.live s.registry name pid right source path)).tidy
  | notify caller name => exact h.setRegistry (h.registered.notify name (called_live hcalled rfl) _ _)
  | eventPull caller =>
    exact (h.shrink (shrinks_history s.registry _)).tidy

theorem Tidy.init : Tidy System.init := by
  refine ⟨Forest.init, ⟨fun e he hpid => ?_, fun c hc => ?_, fun w hw hpid => ?_⟩, fun pid _ x hx => ?_⟩
  · rw [show e = Entry.free from eq_of_mem_replicate he] at hpid
    exact absurd rfl hpid
  · rw [show c = Cap.free from eq_of_mem_replicate hc]
    exact ⟨absurd rfl, absurd rfl⟩
  · rw [show w = Watch.cleared from eq_of_mem_replicate hw] at hpid
    exact absurd rfl hpid
  · rw [show x = SpillSlot.cleared from eq_of_mem_replicate hx]
    rfl

/-- A number that no task has, in particular that of a task that ended, is in none of the tables. -/
theorem noRow_outlives (ops : List Syscall) (h : Along syscallStep sparesServants System.init ops) (pid : ℤ)
    (hpid : 0 < pid) (hgone : getTaskById (run syscallStep System.init ops).tasking pid = none) :
    (∀ e ∈ (run syscallStep System.init ops).registry.entries, e.pid ≠ pid) ∧
    (∀ c ∈ (run syscallStep System.init ops).registry.caps, c.ownerPid ≠ pid ∧ c.granteePid ≠ pid) ∧
    (∀ w ∈ (run syscallStep System.init ops).registry.notifier.watches, w.pid ≠ pid) ∧
    ∀ x ∈ (run syscallStep System.init ops).tasking.spill.slots, ¬(x.used = true ∧ x.watcherPid = pid) := by
  have hstep : ∀ s op, Tidy s → sparesServants s op → Tidy (syscallStep s op) := by
    intro s op hs hspares
    unfold syscallStep
    split
    · exact hs.syscall ‹_› hspares
    · exact hs
  have ht := run_invariant hstep Tidy.init h
  generalize run syscallStep System.init ops = s at ht hgone ⊢
  have hnone : s.live pid = none := isNone_iff.mp hgone
  have hdead : ¬(s.live pid).isSome = true := by simp [hnone]
  refine ⟨?_, ?_, ?_, ?_⟩
  · rintro e he rfl
    obtain ⟨st, hst, -⟩ := ht.registered.entries e he hpid.ne'
    rw [hnone] at hst
    cases hst
  · refine fun c hc => ⟨?_, ?_⟩
    · rintro rfl
      exact hdead ((ht.registered.caps c hc).1 hpid.ne')
    · rintro rfl
      exact hdead ((ht.registered.caps c hc).2 hpid.ne')
  · rintro w hw rfl
    exact hdead (ht.registered.watches w hw hpid.ne')
  · rintro x hx ⟨hused, hwatcher⟩
    have hno := ht.spill pid hgone x hx
    simp [SpillSlot.isFor, hused, hwatcher] at hno

def dbName : CString := ⟨[100, 98], by decide⟩

def servantRun : List Syscall :=
  [.task (.create false 1), .task (.schedule 1), .task (.spawn 1 1), .task (.schedule 2),
    .register 2 true dbName]

theorem noRow_outlives_exit : let s := run syscallStep System.init (servantRun ++ [.exit 2 .exited ⟨[], none⟩])
    (∀ e ∈ s.registry.entries, e.pid ≠ 2) ∧ (∀ c ∈ s.registry.caps, c.ownerPid ≠ 2 ∧ c.granteePid ≠ 2) ∧
    (∀ w ∈ s.registry.notifier.watches, w.pid ≠ 2) ∧
    ∀ x ∈ s.tasking.spill.slots, ¬(x.used = true ∧ x.watcherPid = 2) := by
  have hspares : Along syscallStep sparesServants System.init (servantRun ++ [.exit 2 .exited ⟨[], none⟩]) := by
    simp [servantRun, Along, sparesServants]
  have hgone : (getTaskById (run syscallStep System.init
      (servantRun ++ [.exit 2 .exited ⟨[], none⟩])).tasking 2).isNone = true := by
    decide +kernel
  exact noRow_outlives _ hspares 2 (by decide) (Option.isNone_iff_eq_none.mp hgone)

/-- A child that is killed with its brothers keeps its service. -/
theorem killedChild_keepsName :
    let s := run syscallStep System.init (servantRun ++ [.task (.schedule 1), .task (.killChildren 1)])
    (getTaskById s.tasking 2).isNone = true ∧ (s.registry.entries.map Entry.pid).contains 2 = true := by
  decide +kernel

end Mohhdy.Kernel
