import Mohhdy.Kernel.Tree
import Mohhdy.Kernel.Wait

/-! The kernel makes the moves of the supervision tree and no others. From that: the supervisors
form a forest in every state, marks of waiting tasks and waits as far as they are kept. -/
namespace Mohhdy.Kernel
set_option autoImplicit false

open Relation Tables Runs
open List hiding lookup

variable {T T' : Tree} {c p pid : ℤ} {op : TaskOp} {s : Tasking}

def Task.node (t : Task) : Node := ⟨t.id, t.stamp, t.parentPid, t.waiterPid, t.state == .waiting⟩

def tree (s : Tasking) : Tree := ⟨s.nextTaskId, s.tasks.map Task.node⟩

/-! ## What messages do to the tree: nothing -/

@[simp] theorem tree_queued (s : Tasking) (pid : ℤ) (p : Payload) : tree (s.queued pid p) = tree s := rfl

@[simp] theorem tree_received (s : Tasking) (pid : ℤ) (m : Message) : tree (s.received pid m) = tree s := rfl

@[simp] theorem tree_setSpill (s : Tasking) (sp : Spill) : tree (s.setSpill sp) = tree s := rfl

theorem tree_modify (s : Tasking) (pid : ℤ) (f : Task → Task)
    (hf : ∀ t, getTaskById s pid = some t → (f t).node = t.node) : tree (s.modify pid f) = tree s := by
  simp only [tree, Tasking.modify, update]
  rw [modifyFirst_map_found hf]

theorem tree_update (s : Tasking) (pid : ℤ) (f : Task → Task) (g : Node → Node) (hf : ∀ t, (f t).node = g t.node) :
    tree (s.modify pid f) = ⟨(tree s).next, update Node.id pid g (tree s).nodes⟩ :=
  congrArg (Tree.mk (tree s).next)
    (map_modifyFirst (fun _ => by rfl) hf s.tasks)

theorem messageQueued_node (t : Task) : (messageQueued t).node = t.node := by
  unfold messageQueued
  split
  · rename_i h
    simp [Task.node, Task.stamp, h.1]
  · rfl

theorem tree_signals {s' : Tasking} {N : ℤ → Prop} {k : ℕ} (hs : Signals N s k s') : tree s' = tree s := by
  induction hs with
  | refl => rfl
  | more _ ih => exact ih
  | noted _ pid es q n ih => exact (tree_modify _ pid _ fun _ _ => by rfl).trans ih
  | posted _ _ _ p _ ih =>
    rw [tree_queued, ← ih]
    exact tree_modify _ _ _ fun t _ => messageQueued_node { t with mailbox := _ }
  | spilled _ _ _ _ _ ih => exact (tree_modify _ _ _ fun t _ => messageQueued_node t).trans ih

/-! ## The moves of each step -/

/-- Every mark was there in the state. -/
def Marked (s : Tasking) (ns : List Node) : Prop :=
  ∀ n ∈ ns, n.waiterPid = 0 ∨ ∃ t ∈ s.tasks, t.waiterPid = n.waiterPid

/-- A task may go that the step ends; the marks are still those from before the step. -/
def Drops (s : Tasking) (op : TaskOp) (ns : List Node) (d : ℤ) : Prop := d ∈ op.ends s ∧ Marked s ns

theorem lookup_tree (s : Tasking) (pid : ℤ) : lookup Node.id pid (tree s).nodes = (getTaskById s pid).map Task.node :=
  lookup_map (fun _ => rfl) pid s.tasks

theorem tree_wakeWaiter (s : Tasking) (pid : ℤ) :
    tree (wakeWaiter s pid) = ⟨(tree s).next, wakeNode pid (tree s).nodes⟩ := by
  unfold wakeWaiter wakeNode
  rw [lookup_tree]
  cases hc : getTaskById s pid with
  | none => rfl
  | some c =>
    simp only [Option.map_some]
    by_cases hle : c.waiterPid ≤ 0
    · rw [if_pos hle, if_pos (show c.node.waiterPid ≤ 0 from hle)]
    · rw [if_neg hle, if_neg (show ¬c.node.waiterPid ≤ 0 from hle)]
      rw [tree_update _ _ _ (fun m => { m with waiterPid := 0 }) fun _ => by rfl,
        tree_update _ _ _ (fun m => { m with waiting := false })]
      · rfl
      · intro t
        by_cases hw : t.state = .waiting <;> simp [Task.node, Task.stamp, hw]

variable {t : Task}

theorem tree_unlink {s' : Tasking} (hs : tree s' = tree s) (ht : getTaskById s t.id = some t) :
    tree (unlinkTask (reparentChildren (wakeWaiter s' t.id) t) t.id) =
      ⟨(tree s).next, dropNode t.id (tree s).nodes⟩ := by
  have hlook : lookup Node.id t.id (tree s).nodes = some t.node := by
    rw [lookup_tree, ht]
    rfl
  have hwake := tree_wakeWaiter s' t.id
  rw [hs] at hwake
  generalize wakeWaiter s' t.id = w at hwake ⊢
  have hnext : w.nextTaskId = (tree s).next := congrArg Tree.next hwake
  have hnodes : w.tasks.map Task.node = wakeNode t.id (tree s).nodes := congrArg Tree.nodes hwake
  simp only [dropNode, hlook, ← hnodes, eraseP_map]
  refine congrArg₂ Tree.mk hnext ?_
  simp only [unlinkTask, reparentChildren, Tasking.setTasks, Tasking.mapTasks, eraseP_map,
    List.map_map]
  have hmoved : ∀ a : Task, (if a.id ≠ t.id ∧ a.parentPid = t.id then
      { a with parentPid := t.parentPid } else a).node = a.node.reparent t.id t.node.parentPid := by
    intro a
    by_cases h : a.id ≠ t.id ∧ a.parentPid = t.id
    · rw [if_pos h, Node.reparent, if_pos (show a.node.id ≠ t.id ∧ a.node.parentPid = t.id from h)]
      rfl
    · rw [if_neg h, Node.reparent, if_neg (show ¬(a.node.id ≠ t.id ∧ a.node.parentPid = t.id) from h)]
  have hid : ∀ a : Task, (if a.id ≠ t.id ∧ a.parentPid = t.id then
      { a with parentPid := t.parentPid } else a).id = (a.node.reparent t.id t.node.parentPid).id :=
    fun a => congrArg Node.id (hmoved a)
  simp only [Function.comp_def, hmoved, hid]

theorem tree_createTask (s : Tasking) (parent waiter : ℤ) (boot : Bool) (generation : UInt32) :
    tree (createTask s parent waiter boot generation) =
      ⟨(tree s).next + 1, (tree s).nodes ++ [⟨(tree s).next,
        ⟨s.sequenceCounter.bump, generation, s.identityKey⟩, parent, waiter, false⟩]⟩ := by
  simp [tree, createTask, newTask, Task.node, Task.stamp]

theorem tree_setState (s : Tasking) (pid : ℤ) (state : TaskState) :
    tree (s.modify pid fun t => { t with state := state }) = ⟨(tree s).next,
        update Node.id pid (fun n => { n with waiting := state == .waiting }) (tree s).nodes⟩ :=
  tree_update s pid _ _ fun _ => rfl

abbrev Moves (s : Tasking) (op : TaskOp) : Tree → Tree → Prop :=
  ReflTransGen (TreeStep op.caller (Stuck s) (Drops s op))

theorem Moves.keep {P : Tree → Prop} (h : Moves s op T T') (hF : Forest T) (hP : P T)
    (hstep : ∀ T T', Forest T → P T → TreeStep op.caller (Stuck s) (Drops s op) T T' → P T') :
    Forest T' ∧ P T' := by
  induction h with
  | refl => exact ⟨hF, hP⟩
  | tail _ hmove ih => exact ⟨ih.1.step hmove, hstep _ _ ih.1 ih.2 hmove⟩

theorem Moves.forest (h : Moves s op T T') (hF : Forest T) : Forest T' :=
  (h.keep hF trivial fun _ _ _ _ _ => trivial).1

theorem mem_ids (h : getTaskById s pid = some t) : pid ∈ ids (tree s).nodes := by
  have := lookup_tree s pid
  rw [h] at this
  exact lookup_isSome_iff.mp (Option.isSome_iff_exists.mpr ⟨_, this⟩)

theorem mem_nodes (h : getTaskById s pid = some t) : t.node ∈ (tree s).nodes :=
  mem_map_of_mem (lookup_mem h)

theorem moves_markChildren {stuck : Prop} {ends : List Node → ℤ → Prop} {caller : ℤ} (next : ℤ)
    {ts : List Task} {p : List Node} (found : Bool) (hnd : (ids (p ++ ts.map Task.node)).Nodup)
    (hin : caller ∈ ids (p ++ ts.map Task.node)) :
    ReflTransGen (TreeStep (some caller) stuck ends) ⟨next, p ++ ts.map Task.node⟩
      ⟨next, p ++ (markChildren caller ts found).1.map Task.node⟩ := by
  induction ts generalizing p found with
  | nil => exact ReflTransGen.refl
  | cons t ts ih =>
    have hshift : ∀ (n : Node) (ns : List Node), p ++ n :: ns = p ++ [n] ++ ns := by
      intro n ns
      rw [append_assoc, singleton_append]
    unfold markChildren
    split
    · rename_i hparent
      split
      · exact ReflTransGen.refl
      set marked : Task := { t with waiterPid := caller } with hmarked
      have hids : ids (p ++ [marked.node] ++ ts.map Task.node) =
          ids (p ++ (t :: ts).map Task.node) := by
        simp [ids, hmarked, Task.node]
      have hfirst : update Node.id t.node.id (fun n => { n with waiterPid := caller })
          (p ++ (t :: ts).map Task.node) = p ++ [marked.node] ++ ts.map Task.node := by
        rw [update, modifyFirst_append _, map_cons, modifyFirst, if_pos (by simp), ← hshift]
        · rfl
        · intro a ha
          have hne : a.id ≠ t.node.id := by
            rw [ids, map_append] at hnd
            exact (nodup_append.mp hnd).2.2 _ (mem_map_of_mem ha) _ (by simp)
          simpa using hne
      have hmark : TreeStep (some caller) stuck ends ⟨next, p ++ (t :: ts).map Task.node⟩
          ⟨next, update Node.id t.node.id (fun n => { n with waiterPid := caller })
            (p ++ (t :: ts).map Task.node)⟩ :=
        .mark next rfl hin (mem_append_right p mem_cons_self) hparent
      have hrest := ih true (hids ▸ hnd) (hids ▸ hin)
      rw [hfirst] at hmark
      rw [← hshift marked.node (List.map Task.node (markChildren caller ts true).1)] at hrest
      exact hrest.head hmark
    · dsimp only
      rw [map_cons, map_cons, hshift, hshift t.node (List.map _ _)]
      rw [map_cons, hshift] at hnd hin
      exact ih found hnd hin

theorem not_above_of_delegateWalk (hF : Forest (tree s)) {child : ℤ}
    (hc : child ∈ ids (tree s).nodes) {depth : ℕ} {cursor : Task} (hcur : cursor ∈ s.tasks)
    (h : delegateWalk s.tasks child depth (some cursor) = false) :
    ¬ReflTransGen (Above (tree s).nodes) cursor.id child := by
  have hstop : ∀ x, x ∉ ids (tree s).nodes → ¬ReflTransGen (Above (tree s).nodes) x child := by
    intro x hx hpath
    rcases hpath.cases_head with heq | ⟨y, hxy, -⟩
    · exact hx (heq ▸ hc)
    · obtain ⟨n, hn, hid, -⟩ := above_iff.mp hxy
      exact hx (hid ▸ mem_map_of_mem hn)
  induction depth generalizing cursor with
  | zero => cases h
  | succ depth ih =>
    unfold delegateWalk at h
    split at h
    · cases h
    rename_i hne
    intro hpath
    rcases hpath.cases_head with heq | ⟨x, hx, hrest⟩
    · exact hne heq
    have hxp : x = cursor.parentPid := by
      obtain ⟨n, hn, hid, hparent⟩ := above_iff.mp hx
      have hlookn := lookup_eq_of_mem hF.distinct hn hid
      have hlookc := lookup_eq_of_mem hF.distinct (mem_map_of_mem (f := Task.node) hcur) rfl
      have hnc : n = cursor.node := Option.some.inj (hlookn.symm.trans hlookc)
      rw [← hparent, hnc]
      rfl
    subst hxp
    split at h
    · rename_i hneg
      refine hstop _ (fun hin => ?_) hrest
      have := (hF.bounds_ids hin).1
      omega
    · cases hlook : lookup Task.id cursor.parentPid s.tasks with
      | none =>
        refine hstop _ (fun hin => ?_) hrest
        have := lookup_isSome_iff.mpr hin
        rw [lookup_tree, getTaskById, hlook] at this
        cases this
      | some up =>
        rw [hlook] at h
        refine ih (lookup_mem hlook) h ?_
        rw [lookup_key hlook]
        exact hrest

theorem tree_mapTasks {f : Task → Task} (hf : ∀ t ∈ s.tasks, (f t).node = t.node) : tree (s.mapTasks f) = tree s := by
  refine congrArg (Tree.mk _) ?_
  rw [Tasking.mapTasks, Tasking.setTasks, List.map_map]
  exact map_congr_left hf

theorem yields_node (t : Task) : t.yields.node = t.node := by
  unfold Task.yields
  split
  · rename_i h
    simp [Task.node, Task.stamp, h]
  · rfl

theorem Marked.update {ns : List Node} (h : Marked s ns) (pid : ℤ) {g : Node → Node}
    (hg : ∀ n, (g n).waiterPid = n.waiterPid) : Marked s (update Node.id pid g ns) :=
  modifyFirst_forall h fun n _ hn => (hg n).symm ▸ hn

/-- The changes that a step is made of are moves of the tree. A step that ends tasks makes no marks. -/
theorem Steps.moves {s₀ : Tasking} {k : ℕ} (hF : Forest (tree s₀)) (hs : Steps s₀ op k s) :
    Moves s₀ op (tree s₀) (tree s) ∧ (op.ends s₀ = [] ∨ Marked s₀ (tree s).nodes) := by
  -- changes that the tree does not show
  have hsame : ∀ {a b : Tasking}, (Moves s₀ op (tree s₀) (tree a) ∧ (op.ends s₀ = [] ∨ Marked s₀ (tree a).nodes)) →
      tree b = tree a → Moves s₀ op (tree s₀) (tree b) ∧ (op.ends s₀ = [] ∨ Marked s₀ (tree b).nodes) := by
    intro a b h heq
    rw [heq]
    exact h
  induction hs with
  | start =>
    obtain ⟨sp, hsp⟩ := clears_setSpill s₀ op
    rw [hsp, tree_setSpill]
    refine ⟨ReflTransGen.refl, .inr fun n hn => .inr ?_⟩
    obtain ⟨t, ht, rfl⟩ := mem_map.mp hn
    exact ⟨t, ht, rfl⟩
  | more _ ih => exact ih
  | told _ hs ih => exact hsame ih (tree_signals hs)
  | sent _ _ _ _ p ih => exact hsame ih (tree_modify _ _ _ fun t _ => messageQueued_node { t with mailbox := _ })
  | took _ _ _ _ ih =>
    refine hsame ih ?_
    rw [tree_received]
    exact tree_modify _ _ _ fun _ _ => by rfl
  | popped _ _ _ _ _ ih => exact ih
  | @slept k s pid t _ hc _ _ _ _ timeout ih =>
    rw [tree_update _ _ _ (fun n => { n with waiting := false }) fun _ => by rfl]
    exact ⟨ih.1.tail (.own _ _ _ hc), ih.2.imp_right fun h => h.update pid fun _ => by rfl⟩
  | again _ ht _ hrun _ _ _ ih =>
    refine hsame (hsame ih (tree_modify _ _ _ fun _ _ => by rfl)) (tree_modify _ _ _ fun a ha => ?_)
    rw [getTaskById_modify_self (fun _ => by rfl) ht] at ha
    cases ha
    simp [Task.node, Task.stamp, hrun]
  | left _ pid ih => exact hsame ih (tree_modify _ _ _ fun _ _ => by rfl)
  | settled _ _ w ih => exact hsame ih (tree_modify _ _ _ fun _ _ => by rfl)
  | yielded _ ih => exact hsame ih (tree_mapTasks fun t _ => yields_node t)
  | @ran k s pid _ hready ih =>
    rcases hready with hstuck | hready
    · rw [tree_setState]
      exact ⟨ih.1.tail (.start _ _ _ hstuck), ih.2.imp_right fun h => h.update pid fun _ => by rfl⟩
    · refine hsame ih (tree_modify _ _ _ fun a ha => ?_)
      simp [Task.node, Task.stamp, hready a ha]
  | @ticked k s _ ih =>
    refine hsame ih (tree_mapTasks (s := s.later) fun t _ => ?_)
    unfold Task.onTick
    split
    · rename_i h
      split
      · simp [Task.node, Task.stamp, h]
      · rfl
    · rfl
  | @paused k s pid state _ hc _ _ ih =>
    rw [tree_setState]
    exact ⟨ih.1.tail (.own _ _ _ hc), ih.2.imp_right fun h => h.update pid fun _ => by rfl⟩
  | unblocked _ pid ih =>
    refine hsame ih (tree_modify _ _ _ fun t _ => ?_)
    split
    · rename_i h
      simp [Task.node, Task.stamp, h]
    · rfl
  | controlled _ ht _ hold hnew ih =>
    refine hsame ih (tree_modify _ _ _ fun a ha => ?_)
    cases ha.symm.trans ht
    simp [Task.node, Task.stamp, beq_eq_false_iff_ne.mpr hold, beq_eq_false_iff_ne.mpr hnew.1]
  | @marked k s caller child t c _ hends hc ht hchild hparent ih =>
    refine ⟨?_, .inl hends⟩
    have hid : c.node.id = child := (lookup_key hchild : c.id = child)
    rw [tree_update _ _ _ (fun n => { n with waiterPid := caller }) fun _ => by rfl, ← hid]
    exact ih.1.tail (.mark _ hc (mem_ids ht) (mem_nodes hchild) hparent)
  | @markedAll k s caller t _ hends hc ht ih =>
    refine ⟨?_, .inl hends⟩
    have hmarks : ReflTransGen (TreeStep (some caller) (Stuck s₀) (Drops s₀ op)) (tree s) _ :=
      moves_markChildren s.nextTaskId (p := []) false (ih.1.forest hF).distinct (mem_ids ht)
    rw [← hc] at hmarks
    exact ih.1.trans hmarks
  | @adopted k j s s' caller child supervisor t c v _ hs hc ht hchild hparent hfree hv hwalk ih =>
    have hid : c.node.id = child := (lookup_key hchild : c.id = child)
    have hno := not_above_of_delegateWalk (ih.1.forest hF) (mem_ids hchild) (lookup_mem hv) hwalk
    rw [lookup_key hv, ← hid] at hno
    rw [tree_update _ _ _ (fun n => { n with parentPid := supervisor }) fun _ => by rfl, tree_signals hs, ← hid]
    exact ⟨ih.1.tail (.adopt _ hc (mem_nodes hchild) hparent hfree (mem_ids hv) hno),
      ih.2.imp_right fun h => h.update _ fun _ => by rfl⟩
  | @ended k j s s' t _ hs hend ht _ ih =>
    have hmarks : Marked s₀ (tree s).nodes := ih.2.resolve_left (ne_nil_of_mem hend)
    rw [tree_unlink (tree_signals hs) ht]
    refine ⟨ih.1.tail (.drop _ ⟨hend, hmarks⟩), .inr fun n hn => ?_⟩
    obtain ⟨a, ha, -, -, -, hwa, -⟩ := mem_dropNode (ih.1.forest hF).distinct
      (by rw [lookup_tree, ht, Option.map_some]) hn
    rw [hwa]
    exact hmarks a ha
  | created _ hends hp boot generation ih =>
    refine ⟨?_, .inl hends⟩
    rw [tree_createTask]
    rcases hp with ⟨rfl, rfl⟩ | ⟨hc, ⟨t, ht⟩, hw⟩
    · exact ih.1.tail (.root _ _ _)
    · exact ih.1.tail (.child _ _ hc (mem_ids ht) hw)
  | rooted _ pid ih => exact ih

theorem moves_taskStep (hF : Forest (tree s)) (op : TaskOp) : Moves s op (tree s) (tree (taskStep s op)) :=
  ((steps_taskStep s op).moves hF).1

/-! ## Runs -/

theorem Forest.taskStep (hF : Forest (tree s)) (op : TaskOp) : Forest (tree (taskStep s op)) :=
  (moves_taskStep hF op).forest hF

theorem Forest.kernelStep (hF : Forest (tree s)) (op : TaskOp) : Forest (tree (kernelStep s op)) := by
  unfold Kernel.kernelStep
  split
  · exact hF.taskStep op
  · exact hF

theorem Born.kernelStep {stamp : Stamp} (h : Born pid stamp (tree s))
    (hF : Forest (tree s)) (op : TaskOp) : Born pid stamp (tree (kernelStep s op)) := by
  unfold Kernel.kernelStep
  split
  · exact ((moves_taskStep hF op).keep hF h fun _ _ _ hb hmove => hb.step hmove).2
  · exact h

theorem Born.of_task (hF : Forest (tree s))
    (ht : getTaskById s pid = some t) : Born pid t.stamp (tree s) where
  old := (hF.bounds_ids (mem_ids ht)).2
  same := by
    intro n hn hid
    have hl := lookup_eq_of_mem hF.distinct hn hid
    rw [lookup_tree, ht] at hl
    exact congrArg Node.stamp (Option.some.inj hl).symm

theorem Forest.init : Forest (tree taskingInit) where
  next := by decide
  distinct := by decide
  bounds := by decide
  parents := by decide
  acyclic := by
    intro a ha
    -- the supervisor of the kernel task is no task
    have hedge : ∀ x y, Above (tree taskingInit).nodes x y → x = 0 ∧ y = -1 := by
      intro x y hxy
      obtain ⟨n, hn, rfl, rfl⟩ := above_iff.mp hxy
      rw [show n = ⟨0, ⟨.one, 1, .one⟩, -1, 0, false⟩ from mem_singleton.mp hn]
      exact ⟨rfl, rfl⟩
    obtain ⟨x, hax, -⟩ := TransGen.head'_iff.mp ha
    obtain ⟨y, -, hya⟩ := TransGen.tail'_iff.mp ha
    have hstart := (hedge _ _ hax).1
    have hend := (hedge _ _ hya).2
    omega

def sparesWaiters (s : Tasking) (op : TaskOp) : Prop := ∀ d ∈ op.ends s, ∀ t ∈ s.tasks, t.waiterPid ≠ d

instance (s : Tasking) (op : TaskOp) : Decidable (sparesWaiters s op) :=
  inferInstanceAs (Decidable (∀ d ∈ _, _))

theorem Waiters.taskStep (h : Waiters (tree s)) (hF : Forest (tree s))
    (hspare : sparesWaiters s op) : Waiters (tree (taskStep s op)) := by
  refine ((moves_taskStep hF op).keep hF h fun T T' hF hP hmove => hP.step hF hmove ?_).2
  rintro ns d ⟨hd, hmarks⟩ n hn h0 heq
  obtain ⟨t, ht, htn⟩ := (hmarks n hn).resolve_left h0
  exact hspare d hd t ht (htn.trans heq)

def supervises (s : Tasking) (child parent : ℤ) : Prop := ∃ t ∈ s.tasks, t.id = child ∧ t.parentPid = parent

theorem above_tree (s : Tasking) : Above (tree s).nodes = supervises s := by
  funext a b
  simp [above_iff, supervises, tree, Task.node]

/-- In every run of task creations, delegations, waits, exits and kills, whoever asks for them, the
parent relation has no cycle and every positive `parent_pid` is a task of the queue; every
`waiter_pid` is 0 or the `parent_pid` as long as no task ends while another one has it as its
waiter. -/
theorem supervision_forest (ops : List TaskOp) : let s := run taskStep taskingInit ops
    (∀ pid, ¬TransGen (supervises s) pid pid) ∧
    (∀ t ∈ s.tasks, 0 < t.parentPid → ∃ u ∈ s.tasks, u.id = t.parentPid) ∧
    (Along taskStep sparesWaiters taskingInit ops →
      ∀ t ∈ s.tasks, t.waiterPid = 0 ∨ t.waiterPid = t.parentPid) := by
  have hforest : ∀ s op, Forest (tree s) → Forest (tree (taskStep s op)) := fun _ op h => h.taskStep op
  have hF : Forest (tree (run taskStep taskingInit ops)) := run_invariant_all hforest Forest.init
  refine ⟨fun pid hpid => ?_, fun t ht hpos => ?_, fun h t ht => ?_⟩
  · rw [← above_tree] at hpid
    exact hF.acyclic pid hpid
  · have := hF.parents t.node (mem_map_of_mem ht) hpos
    obtain ⟨n, hn, hid⟩ := mem_map.mp this
    obtain ⟨u, hu, rfl⟩ := mem_map.mp hn
    exact ⟨u, hu, hid⟩
  · have hstep : ∀ s op, (Forest (tree s) ∧ Waiters (tree s)) → sparesWaiters s op →
        Forest (tree (taskStep s op)) ∧ Waiters (tree (taskStep s op)) :=
      fun s op hs hspare => ⟨hs.1.taskStep op, hs.2.taskStep hs.1 hspare⟩
    have hinit : Waiters (tree taskingInit) := by
      intro n hn
      rw [mem_singleton.mp hn]
      exact .inl rfl
    exact (run_invariant hstep ⟨Forest.init, hinit⟩ h).2 t.node (mem_map_of_mem ht)

def waitInTurn : List TaskOp :=
  [.create false 1, .schedule 1, .spawn 1 1, .schedule 2, .spawn 2 1, .wait 2 3, .schedule 3,
    .exit 3 .exited, .schedule 1, .kill 1 2]

theorem supervision_forest_waitInTurn : Along taskStep (fun s op => called s op = true) taskingInit waitInTurn ∧
    ∀ t ∈ (run taskStep taskingInit waitInTurn).tasks, t.waiterPid = 0 ∨ t.waiterPid = t.parentPid :=
  ⟨by decide +kernel, (supervision_forest waitInTurn).2.2 (by decide +kernel)⟩

/-- The child that waits is killed before the grandchild ends: the grandchild goes to the shell with
the dead task as its waiter, and the shell is refused when it wants to wait for it or to delegate
it. -/
theorem deadWaiter_stays :
    let ops : List TaskOp := [.create false 1, .schedule 1, .spawn 1 1, .schedule 2, .spawn 2 1,
      .wait 2 3, .schedule 1, .kill 1 2]
    let s := run taskStep taskingInit ops
    Along taskStep (fun s op => called s op = true) taskingInit ops ∧
    (∃ t ∈ s.tasks, t.id = 3 ∧ t.waiterPid = 2 ∧ t.parentPid = 1) ∧
    (waitForChild s 1 3).2 = .error .controlDenied := by
  decide +kernel

/-! ## A wait for one child -/

theorem not_stuck (h : Ok s) : ¬Stuck s := by
  intro hstuck
  obtain ⟨t, ht, hk⟩ := h.kernel
  have hne := hstuck t ht
  unfold Task.yields at hne
  rcases ((h.tasks t ht).kernel hk).2.2 with hr | hr <;> simp [hr] at hne

def sparesBoth (p c : ℤ) (s : Tasking) (op : TaskOp) : Prop :=
  called s op = true → c ∉ op.ends s ∧ p ∉ op.ends s

instance (p c : ℤ) (s : Tasking) (op : TaskOp) : Decidable (sparesBoth p c s op) :=
  inferInstanceAs (Decidable (_ → _))

theorem awaits_kernelStep (h : Awaits p c (tree s)) (hok : Ok s) (hF : Forest (tree s)) (h0 : p ≠ 0)
    (hends : sparesBoth p c s op) : Awaits p c (tree (kernelStep s op)) := by
  unfold kernelStep
  split
  · rename_i hcalled
    refine ((moves_taskStep hF op).keep hF h fun T T' hF hP hmove => ?_).2
    refine hP.step hF h0 hmove ?_ (not_stuck hok) ?_
    · -- a task that waits does not run
      intro hcaller
      obtain ⟨t, ht, -, hrun⟩ := called_user hcalled hcaller
      have hwaits := h.waiting t.node (mem_nodes ht) (lookup_key ht : t.id = p)
      simp [Task.node, hrun] at hwaits
    · rintro ns d ⟨hd, -⟩
      obtain ⟨hc, hp⟩ := hends hcalled
      exact ⟨fun heq => hc (heq ▸ hd), fun heq => hp (heq ▸ hd)⟩
  · exact h

theorem awaits_wait (hF : Forest (tree s))
    (hok : (waitForChild s p c).2 = .ok ()) (honly : ∀ t ∈ s.tasks, t.waiterPid = p → t.id = c) :
    Awaits p c (tree (waitForChild s p c).1) := by
  unfold waitForChild at hok ⊢
  split at hok
  · rename_i t child ht hc
    split at hok
    · cases hok
    rename_i hparent
    split at hok
    · cases hok
    rename_i hfree
    rw [if_neg hparent, if_neg hfree, tree_setState,
      tree_update _ _ _ (fun n => { n with waiterPid := p }) fun _ => by rfl]
    have hids : ids (update Node.id c (fun n => { n with waiterPid := p }) (tree s).nodes) =
        ids (tree s).nodes := update_map _ _ (fun _ => by rfl) _
    have hnd : (ids (update Node.id c (fun n => { n with waiterPid := p }) (tree s).nodes)).Nodup :=
      hids ▸ hF.distinct
    have hin : p ∈ ids (update Node.id c (fun n => { n with waiterPid := p }) (tree s).nodes) :=
      hids ▸ mem_ids ht
    refine ⟨?_, fun n hn hid => ?_, ?_⟩
    · rw [ids, update_map _ _ fun _ => by rfl]
      exact hin
    · rcases mem_modifyFirst (k := Node.id) (fun _ => decide_eq_true_iff) hnd hn with
        ⟨-, hne⟩ | ⟨a, -, -, rfl⟩
      · exact absurd hid hne
      · rfl
    · refine modifyFirst_forall ?_ fun _ _ hold => hold
      refine modifyFirst_forall ?_ fun n hn _ _ => (lookup_key hn : n.id = c)
      intro n hn hw
      obtain ⟨a, ha, rfl⟩ := mem_map.mp hn
      exact honly a ha hw
  · cases hok

/-- A task that waits for its child `c`, while no other task still has it as a waiter from an
earlier wait, waits until `c` or the task itself ends, whatever else happens. -/
theorem wait_lasts (before after : List TaskOp) (p c : ℤ)
    (hcalled : called (run kernelStep taskingInit before) (.wait p c) = true)
    (hok : (waitForChild (run kernelStep taskingInit before) p c).2 = .ok ())
    (honly : ∀ t ∈ (run kernelStep taskingInit before).tasks, t.waiterPid = p → t.id = c)
    (hspare : Along kernelStep (sparesBoth p c)
      (kernelStep (run kernelStep taskingInit before) (.wait p c)) after) :
    (getTaskById (run kernelStep (kernelStep (run kernelStep taskingInit before) (.wait p c)) after)
      p).map Task.state = some .waiting := by
  have hokay := ok_run before
  have hF : Forest (tree (run kernelStep taskingInit before)) := by
    have hstep : ∀ s op, Forest (tree s) → Forest (tree (kernelStep s op)) :=
      fun _ op h => h.kernelStep op
    exact run_invariant_all hstep Forest.init
  generalize run kernelStep taskingInit before = s at *
  obtain ⟨t, ht, huser, -⟩ := called_user hcalled rfl
  have h0 : p ≠ 0 := (lookup_key ht : t.id = p) ▸ ((hokay.of_lookup ht).1.user huser).ne'
  have hstart : kernelStep s (.wait p c) = (waitForChild s p c).1 := if_pos hcalled
  have hF' : Forest (tree (kernelStep s (.wait p c))) := hstart ▸ hF.taskStep (.wait p c)
  have hA : Awaits p c (tree (kernelStep s (.wait p c))) := hstart ▸ awaits_wait hF hok honly
  have hstep : ∀ s op, (Ok s ∧ Forest (tree s) ∧ Awaits p c (tree s)) → sparesBoth p c s op →
      Ok (kernelStep s op) ∧ Forest (tree (kernelStep s op)) ∧ Awaits p c (tree (kernelStep s op)) :=
    fun s op ⟨hok, hF, hA⟩ hspare =>
      ⟨hok.kernelStep op, hF.kernelStep op, awaits_kernelStep hA hok hF h0 hspare⟩
  obtain ⟨-, -, hA⟩ := run_invariant hstep ⟨hokay.kernelStep _, hF', hA⟩ hspare
  generalize run kernelStep (kernelStep s (.wait p c)) after = w at hA ⊢
  cases hlook : getTaskById w p with
  | none =>
    have hsome := lookup_isSome_iff.mpr hA.here
    rw [lookup_tree, hlook] at hsome
    cases hsome
  | some a =>
    have hwaits := hA.waiting a.node (mem_nodes hlook) (lookup_key hlook : a.id = p)
    simpa [Task.node] using hwaits

/-- A shell with two children that waits for the second one while the first one ends. -/
theorem wait_lasts_twoChildren : let before : List TaskOp := [.create false 1, .schedule 1, .spawn 1 1, .spawn 1 1]
    (getTaskById (run kernelStep (kernelStep (run kernelStep taskingInit before) (.wait 1 3))
      [.schedule 2, .exit 2 .exited]) 1).map Task.state = some .waiting :=
  wait_lasts [.create false 1, .schedule 1, .spawn 1 1, .spawn 1 1] [.schedule 2, .exit 2 .exited] 1 3
    (by decide +kernel) (by decide +kernel) (by decide +kernel) (by decide +kernel)

/-- A shell that waited for any of three children and then waits for the last one is woken by the
end of the second one, which still has its mark. -/
theorem oldMark_wakes : let before : List TaskOp := [.create false 1, .schedule 1, .spawn 1 1, .spawn 1 1, .spawn 1 1,
      .waitAny 1, .schedule 2, .exit 2 .exited, .schedule 1]
    let after : List TaskOp := [.schedule 3, .exit 3 .exited]
    let s := run kernelStep taskingInit before
    let w := run kernelStep (kernelStep s (.wait 1 4)) after
    called s (.wait 1 4) = true ∧ (waitForChild s 1 4).2 = .ok () ∧
    Along kernelStep (sparesBoth 1 4) (kernelStep s (.wait 1 4)) after ∧
    (getTaskById w 1).map Task.state = some .ready ∧ (getTaskById w 4).isSome := by
  decide +kernel

end Mohhdy.Kernel
