import Mohhdy.Foundations.Forests
import Mohhdy.Kernel.Tasks

/-! The supervision tree in its own terms: tasks with a supervisor, who waits for whom, and the
moves the kernel makes on it. What the moves keep is proved here; that the kernel makes no other
moves is proved of the code. -/
namespace Mohhdy.Kernel
set_option autoImplicit false

open Relation Tables Forests
open List hiding lookup

variable {next : ℤ} {caller : Option ℤ} {c d p : ℤ} {stuck : Prop}

structure Node where
  id : ℤ
  stamp : Stamp
  (parentPid waiterPid : ℤ)
  waiting : Bool
deriving DecidableEq

structure Tree where
  next : ℤ
  nodes : List Node

def Node.edge (n : Node) : ℤ × ℤ := (n.id, n.parentPid)

def ids (ns : List Node) : List ℤ := ns.map Node.id

def Above (ns : List Node) (a b : ℤ) : Prop := (a, b) ∈ ns.map Node.edge

/-! ## Moves -/

def wakeNode (d : ℤ) (ns : List Node) : List Node :=
  match lookup Node.id d ns with
  | none => ns
  | some n =>
    if n.waiterPid ≤ 0 then ns
    else update Node.id d (fun m => { m with waiterPid := 0 })
      (update Node.id n.waiterPid (fun m => { m with waiting := false }) ns)

def Node.reparent (d parent : ℤ) (m : Node) : Node :=
  if m.id ≠ d ∧ m.parentPid = d then { m with parentPid := parent } else m

def dropNode (d : ℤ) (ns : List Node) : List Node :=
  match lookup Node.id d ns with
  | none => ns
  | some n => ((wakeNode d ns).map (Node.reparent d n.parentPid)).eraseP fun m => decide (m.id = d)

/-- The moves of a step that `caller` asked for. `stuck` says that no task is ready, `ends` which
tasks may go in which tree. -/
inductive TreeStep (caller : Option ℤ) (stuck : Prop) (ends : List Node → ℤ → Prop) : Tree → Tree → Prop
  | root (next : ℤ) (ns : List Node) (stamp : Stamp) :
    TreeStep caller stuck ends ⟨next, ns⟩ ⟨next + 1, ns ++ [⟨next, stamp, -1, 0, false⟩]⟩
  | child {c : ℤ} (next : ℤ) {ns : List Node} (stamp : Stamp) {waiter : ℤ} (hc : caller = some c) (hn : c ∈ ids ns)
    (hw : waiter = 0 ∨ waiter = c) :
    TreeStep caller stuck ends ⟨next, ns⟩ ⟨next + 1, ns ++ [⟨next, stamp, c, waiter, false⟩]⟩
  | mark {c : ℤ} (next : ℤ) {ns : List Node} {n : Node} (hc : caller = some c) (hin : c ∈ ids ns)
    (hn : n ∈ ns) (hp : n.parentPid = c) :
    TreeStep caller stuck ends ⟨next, ns⟩
      ⟨next, update Node.id n.id (fun m => { m with waiterPid := c }) ns⟩
  | own {c : ℤ} (next : ℤ) (ns : List Node) (waiting : Bool) (hc : caller = some c) :
    TreeStep caller stuck ends ⟨next, ns⟩ ⟨next, update Node.id c (fun m => { m with waiting := waiting }) ns⟩
  | start (next : ℤ) (ns : List Node) (q : ℤ) (h : stuck) :
    TreeStep caller stuck ends ⟨next, ns⟩ ⟨next, update Node.id q (fun m => { m with waiting := false }) ns⟩
  | adopt {c sup : ℤ} (next : ℤ) {ns : List Node} {n : Node} (hc : caller = some c) (hn : n ∈ ns)
    (hp : n.parentPid = c) (hw : n.waiterPid = 0) (hs : sup ∈ ids ns)
    (hno : ¬ReflTransGen (Above ns) sup n.id) :
    TreeStep caller stuck ends ⟨next, ns⟩
      ⟨next, update Node.id n.id (fun m => { m with parentPid := sup }) ns⟩
  | drop (next : ℤ) {ns : List Node} {d : ℤ} (h : ends ns d) :
    TreeStep caller stuck ends ⟨next, ns⟩ ⟨next, dropNode d ns⟩

/-! ## What is left after a task goes -/

theorem wakeNode_map {β : Type} {f : Node → β} (hf : ∀ i s p w b w' b', f ⟨i, s, p, w, b⟩ = f ⟨i, s, p, w', b'⟩)
    (d : ℤ) (ns : List Node) : (wakeNode d ns).map f = ns.map f := by
  unfold wakeNode
  split
  · rfl
  split
  · rfl
  · rw [update, update, modifyFirst_map _ _ _ fun _ => hf .., modifyFirst_map _ _ _ fun _ => hf ..]

theorem wakeNode_edges (d : ℤ) (ns : List Node) : (wakeNode d ns).map Node.edge = ns.map Node.edge :=
  wakeNode_map (fun _ _ _ _ _ _ _ => rfl) d ns

theorem ids_eq_edges (ns : List Node) : ids ns = (ns.map Node.edge).map Prod.fst := by
  simp [ids, Node.edge]

variable {ns : List Node}

theorem ids_of_edges {ns' : List Node} (h : ns'.map Node.edge = ns.map Node.edge) : ids ns' = ids ns := by
  rw [ids_eq_edges, ids_eq_edges, h]

variable {m n : Node}

theorem mem_wakeNode (hnd : (ids ns).Nodup) (hn : lookup Node.id d ns = some n) (hm : m ∈ wakeNode d ns) :
    ∃ a ∈ ns, m.id = a.id ∧ m.parentPid = a.parentPid ∧ (a.id ≠ d → m.waiterPid = a.waiterPid) ∧
      (m.waiting = a.waiting ∨ a.id = n.waiterPid) := by
  simp only [wakeNode, hn] at hm
  split at hm
  · exact ⟨m, hm, rfl, rfl, fun _ => rfl, .inl rfl⟩
  have hids : ((update Node.id n.waiterPid (fun m => { m with waiting := false }) ns).map Node.id).Nodup := by
    rw [update_map _ _ fun _ => by rfl]
    exact hnd
  have hinner : ∀ b ∈ update Node.id n.waiterPid (fun m => { m with waiting := false }) ns,
      ∃ a ∈ ns, b.id = a.id ∧ b.parentPid = a.parentPid ∧ b.waiterPid = a.waiterPid ∧
        (b.waiting = a.waiting ∨ a.id = n.waiterPid) := by
    intro b hb
    rcases mem_modifyFirst (k := Node.id) (fun _ => decide_eq_true_iff) hnd hb with
      ⟨hb, -⟩ | ⟨a, ha, hid, rfl⟩
    · exact ⟨b, hb, rfl, rfl, rfl, .inl rfl⟩
    · exact ⟨a, ha, rfl, rfl, rfl, .inr hid⟩
  rcases mem_modifyFirst (k := Node.id) (fun _ => decide_eq_true_iff) hids hm with
    ⟨hm, hne⟩ | ⟨b, hb, hid, rfl⟩
  · obtain ⟨a, ha, hia, hpa, hwa, hst⟩ := hinner m hm
    exact ⟨a, ha, hia, hpa, fun _ => hwa, hst⟩
  · obtain ⟨a, ha, hia, hpa, -, hst⟩ := hinner b hb
    exact ⟨a, ha, hia, hpa, fun hne => absurd (hia.symm.trans hid) hne, hst⟩

theorem reparent_id (d parent : ℤ) (m : Node) : (m.reparent d parent).id = m.id := by
  unfold Node.reparent
  split <;> rfl

theorem ids_reparent (d parent : ℤ) (ns : List Node) :
    ((wakeNode d ns).map (Node.reparent d parent)).map Node.id = ids ns := by
  rw [List.map_map, ← ids_of_edges (wakeNode_edges d ns)]
  exact map_congr_left fun m _ => reparent_id _ _ _

theorem mem_dropNode (hnd : (ids ns).Nodup) (hn : lookup Node.id d ns = some n) (hm : m ∈ dropNode d ns) :
    ∃ a ∈ ns, a.id ≠ d ∧ m.id = a.id ∧
      m.parentPid = (if a.parentPid = d then n.parentPid else a.parentPid) ∧
      m.waiterPid = a.waiterPid ∧ (m.waiting = a.waiting ∨ a.id = n.waiterPid) := by
  simp only [dropNode, hn] at hm
  rw [eraseP_key ((ids_reparent d n.parentPid ns).symm ▸ hnd), mem_filter] at hm
  obtain ⟨hm, hne⟩ := hm
  obtain ⟨b, hb, rfl⟩ := mem_map.mp hm
  obtain ⟨a, ha, hid, hparent, hwaiter, hstate⟩ := mem_wakeNode hnd hn hb
  have hne : b.id ≠ d := by
    rw [decide_eq_true_iff, reparent_id] at hne
    exact hne
  refine ⟨a, ha, hid ▸ hne, (reparent_id _ _ _).trans hid, ?_⟩
  unfold Node.reparent
  by_cases hb' : b.parentPid = d
  · rw [if_pos ⟨hne, hb'⟩, if_pos (hparent ▸ hb')]
    exact ⟨rfl, hwaiter (hid ▸ hne), hstate⟩
  · rw [if_neg (fun hc => hb' hc.2), if_neg (hparent ▸ hb')]
    exact ⟨hparent, hwaiter (hid ▸ hne), hstate⟩

theorem ids_dropNode (hnd : (ids ns).Nodup) : ids (dropNode d ns) = (ids ns).filter fun x => decide (x ≠ d) := by
  unfold dropNode
  split
  · rename_i hnone
    rw [filter_eq_self.mpr]
    intro x hx
    have : x ≠ d := by
      rintro rfl
      have := lookup_isSome_iff.mpr hx
      rw [hnone] at this
      cases this
    simpa using this
  · rename_i n hn
    have hmap := ids_reparent d n.parentPid ns
    rw [eraseP_key (hmap ▸ hnd), ← hmap, filter_map (f := Node.id)]
    rfl

/-! ## The forest -/

structure Forest (T : Tree) : Prop where
  next : 0 < T.next
  distinct : (ids T.nodes).Nodup
  bounds : ∀ n ∈ T.nodes, 0 ≤ n.id ∧ n.id < T.next
  parents : ∀ n ∈ T.nodes, 0 < n.parentPid → n.parentPid ∈ ids T.nodes
  acyclic : Acyclic (Above T.nodes)

theorem above_iff {a b : ℤ} : Above ns a b ↔ ∃ n ∈ ns, n.id = a ∧ n.parentPid = b := by
  simp [Above, Node.edge]

variable {T : Tree}

theorem Forest.bounds_ids (h : Forest T) {x : ℤ} (hx : x ∈ ids T.nodes) : 0 ≤ x ∧ x < T.next := by
  obtain ⟨n, hn, rfl⟩ := mem_map.mp hx
  exact h.bounds n hn

variable {stamp : Stamp}

section
variable (h : Forest ⟨next, ns⟩)
include h

theorem Forest.congr {ns' : List Node}
    (he : ns'.map Node.edge = ns.map Node.edge) : Forest ⟨next, ns'⟩ where
  next := h.next
  distinct := by
    rw [ids_of_edges he]
    exact h.distinct
  bounds := by
    intro n hn
    have hid : n.id ∈ ids ns := ids_of_edges he ▸ mem_map_of_mem hn
    exact h.bounds_ids hid
  parents := by
    intro n hn hpos
    have hedge : n.edge ∈ ns.map Node.edge := he ▸ mem_map_of_mem hn
    obtain ⟨a, ha, hae⟩ := mem_map.mp hedge
    have hparent : a.parentPid = n.parentPid := congrArg Prod.snd hae
    rw [ids_of_edges he, ← hparent]
    exact h.parents a ha (hparent ▸ hpos)
  acyclic := by
    have : Above ns' = Above ns := by
      funext a b
      rw [Above, Above, he]
    rw [this]
    exact h.acyclic

theorem Forest.add {parent waiter : ℤ} {waiting : Bool} (hp : parent = -1 ∨ parent ∈ ids ns) :
    Forest ⟨next + 1, ns ++ [⟨next, stamp, parent, waiter, waiting⟩]⟩ := by
  have hids : ids (ns ++ [⟨next, stamp, parent, waiter, waiting⟩]) = ids ns ++ [next] := by simp [ids]
  have hnext : 0 < next := h.next
  have hbounds : ∀ n ∈ ns, 0 ≤ n.id ∧ n.id < next := h.bounds
  refine ⟨show 0 < next + 1 by omega, ?_, ?_, ?_, ?_⟩
  · rw [hids]
    refine nodup_append.mpr ⟨h.distinct, nodup_singleton _, ?_⟩
    intro a ha b hb
    rw [mem_singleton.mp hb]
    exact (h.bounds_ids ha).2.ne
  · exact forall_mem_append.mpr
      ⟨fun n hn => ⟨(hbounds n hn).1, (hbounds n hn).2.trans (lt_add_one next)⟩,
        forall_mem_singleton.mpr ⟨hnext.le, lt_add_one next⟩⟩
  · intro n hn hpos
    rw [hids]
    rcases mem_append.mp hn with hn | hn
    · exact mem_append_left _ (h.parents n hn hpos)
    · rw [mem_singleton.mp hn] at hpos ⊢
      rcases hp with rfl | hp
      · cases hpos
      · exact mem_append_left _ hp
  · refine h.acyclic.add_edge (c := next) (s := parent) ?_ ?_
    · intro a b hab
      rw [Above, map_append, mem_append, map_singleton, mem_singleton] at hab
      exact hab.imp_right fun he => ⟨congrArg Prod.fst he, congrArg Prod.snd he⟩
    · -- nobody is below the new task, and it is not its own supervisor
      intro hpath
      rcases hpath.cases_tail with heq | ⟨x, -, hx⟩
      · rcases hp with rfl | hp
        · omega
        · exact (h.bounds_ids hp).2.ne heq.symm
      · obtain ⟨n, hn, -, hnp⟩ := above_iff.mp hx
        exact (h.bounds_ids (h.parents n hn (hnp ▸ hnext))).2.ne hnp

theorem Forest.adopt {sup : ℤ} (hs : sup ∈ ids ns) (hno : ¬ReflTransGen (Above ns) sup n.id) :
    Forest ⟨next, update Node.id n.id (fun m => { m with parentPid := sup }) ns⟩ := by
  have hids : ids (update Node.id n.id (fun m => { m with parentPid := sup }) ns) = ids ns :=
    update_map _ _ (fun _ => by rfl) _
  have hmem : ∀ m ∈ update Node.id n.id (fun m : Node => { m with parentPid := sup }) ns,
      m ∈ ns ∨ (m.id = n.id ∧ m.parentPid = sup ∧ m.id ∈ ids ns) := by
    intro m hm
    rcases mem_modifyFirst (k := Node.id) (fun _ => decide_eq_true_iff) h.distinct hm with
      ⟨hm, -⟩ | ⟨a, ha, hid, rfl⟩
    · exact .inl hm
    · exact .inr ⟨hid, rfl, mem_map.mpr ⟨a, ha, rfl⟩⟩
  refine ⟨h.next, hids ▸ h.distinct, ?_, ?_, ?_⟩
  · intro m hm
    rcases hmem m hm with hm | ⟨-, -, hm⟩
    · exact h.bounds m hm
    · exact h.bounds_ids hm
  · intro m hm hpos
    rw [hids]
    rcases hmem m hm with hm | ⟨-, hp, -⟩
    · exact h.parents m hm hpos
    · exact hp ▸ hs
  · refine h.acyclic.add_edge (c := n.id) (s := sup) ?_ hno
    intro a b hab
    obtain ⟨m, hm, rfl, rfl⟩ := above_iff.mp hab
    rcases hmem m hm with hm | ⟨hid, hp, -⟩
    · exact .inl (above_iff.mpr ⟨m, hm, rfl, rfl⟩)
    · exact .inr ⟨hid, hp⟩

theorem Forest.drop : Forest ⟨next, dropNode d ns⟩ := by
  cases hn : lookup Node.id d ns with
  | none =>
    simp only [dropNode, hn]
    exact h
  | some n =>
    have hd : Above ns d n.parentPid := above_iff.mpr ⟨n, lookup_mem hn, lookup_key hn, rfl⟩
    have hne : n.parentPid ≠ d := by
      intro heq
      rw [heq] at hd
      exact h.acyclic d (TransGen.single hd)
    have hkept : ∀ x ∈ ids ns, x ≠ d → x ∈ ids (dropNode d ns) := by
      intro x hx hxd
      rw [ids_dropNode h.distinct]
      exact mem_filter.mpr ⟨hx, by simpa using hxd⟩
    refine ⟨h.next, ?_, ?_, ?_, ?_⟩
    · dsimp only
      rw [ids_dropNode h.distinct]
      exact h.distinct.filter _
    · intro m hm
      obtain ⟨a, ha, -, hid, -⟩ := mem_dropNode h.distinct hn hm
      exact hid ▸ h.bounds a ha
    · intro m hm hpos
      obtain ⟨a, ha, -, -, hparent, -⟩ := mem_dropNode h.distinct hn hm
      rw [hparent] at hpos ⊢
      split_ifs at hpos ⊢ with had
      · exact hkept _ (h.parents n (lookup_mem hn) hpos) hne
      · exact hkept _ (h.parents a ha hpos) had
    · refine h.acyclic.of_paths fun x y hxy => ?_
      obtain ⟨m, hm, rfl, rfl⟩ := above_iff.mp hxy
      obtain ⟨a, ha, -, hid, hparent, -⟩ := mem_dropNode h.distinct hn hm
      have hup : Above ns a.id a.parentPid := above_iff.mpr ⟨a, ha, rfl, rfl⟩
      rw [hid, hparent]
      split
      · rename_i had
        exact (TransGen.single (had ▸ hup)).tail hd
      · exact TransGen.single hup

end

variable {T' : Tree} {ends : List Node → ℤ → Prop}

theorem Forest.step (h : Forest T) (hs : TreeStep caller stuck ends T T') : Forest T' := by
  cases hs with
  | root => exact h.add (.inl rfl)
  | child next stamp hc hn hw => exact h.add (.inr hn)
  | mark | own | start => exact h.congr (modifyFirst_map _ _ _ (fun _ => by rfl) _)
  | adopt next hc hn hp hw hs hno => exact h.adopt hs hno
  | drop => exact h.drop

/-! ## Who waits for whom -/

def Waiters (T : Tree) : Prop := ∀ n ∈ T.nodes, n.waiterPid = 0 ∨ n.waiterPid = n.parentPid

theorem Waiters.step (h : Waiters T) (hF : Forest T) (hs : TreeStep caller stuck ends T T')
    (hends : ∀ ns d, ends ns d → ∀ n ∈ ns, n.waiterPid ≠ 0 → n.waiterPid ≠ d) : Waiters T' := by
  cases hs with
  | root next ns stamp =>
    exact forall_mem_append.mpr ⟨h, forall_mem_singleton.mpr (.inl rfl)⟩
  | child next stamp hc hn hw =>
    exact forall_mem_append.mpr ⟨h, forall_mem_singleton.mpr hw⟩
  | @mark c next ns n hc hin hn hp =>
    refine modifyFirst_forall h fun m hm _ => .inr ?_
    have := lookup_eq_of_mem hF.distinct hn rfl
    cases hm.symm.trans this
    exact hp.symm
  | own | start => exact modifyFirst_forall h fun _ _ hm => hm
  | @adopt c sup next ns n hc hn hp hw hs hno =>
    refine modifyFirst_forall h fun m hm _ => .inl ?_
    have := lookup_eq_of_mem hF.distinct hn rfl
    cases hm.symm.trans this
    exact hw
  | @drop next ns d hd =>
    cases hn : lookup Node.id d ns with
    | none =>
      simp only [dropNode, hn]
      exact h
    | some n =>
      intro m hm
      obtain ⟨a, ha, -, -, hp, hw, -⟩ := mem_dropNode hF.distinct hn hm
      by_cases h0 : a.waiterPid = 0
      · exact .inl (hw.trans h0)
      · have heq := (h a ha).resolve_left h0
        have hne : a.parentPid ≠ d := heq ▸ hends ns d hd a ha h0
        rw [if_neg hne] at hp
        exact .inr (hw.trans (heq.trans hp.symm))

structure Awaits (p c : ℤ) (T : Tree) : Prop where
  here : p ∈ ids T.nodes
  waiting : ∀ n ∈ T.nodes, n.id = p → n.waiting = true
  only : ∀ n ∈ T.nodes, n.waiterPid = p → n.id = c

theorem Awaits.add {parent waiter : ℤ} (h : Awaits p c ⟨next, ns⟩)
    (hF : Forest ⟨next, ns⟩) (hw : waiter ≠ p) :
    Awaits p c ⟨next + 1, ns ++ [⟨next, stamp, parent, waiter, false⟩]⟩ := by
  refine ⟨?_, forall_mem_append.mpr ⟨h.waiting, forall_mem_singleton.mpr fun hid => ?_⟩,
    forall_mem_append.mpr ⟨h.only, forall_mem_singleton.mpr fun hwp => absurd hwp hw⟩⟩
  · rw [ids, map_append]
    exact mem_append_left _ h.here
  · exact absurd hid (hF.bounds_ids h.here).2.ne'

theorem Awaits.update {k : ℤ} {f : Node → Node} (h : Awaits p c ⟨next, ns⟩)
    (hid : ∀ n, (f n).id = n.id) (hwait : k = p → ∀ n, n.waiting = true → (f n).waiting = true)
    (hmark : ∀ n, (f n).waiterPid = p → n.waiterPid = p) :
    Awaits p c ⟨next, Tables.update Node.id k f ns⟩ := by
  refine ⟨?_, ?_, ?_⟩
  · rw [ids, update_map _ _ hid]
    exact h.here
  · refine modifyFirst_forall h.waiting fun n hn hold hp => ?_
    rw [hid] at hp
    exact hwait ((lookup_key hn).symm.trans hp) n (hold hp)
  · refine modifyFirst_forall h.only fun n _ hold hp => ?_
    rw [hid]
    exact hold (hmark n hp)

theorem Awaits.step (h : Awaits p c T) (hF : Forest T) (h0 : p ≠ 0) (hs : TreeStep caller stuck ends T T')
    (hcaller : caller ≠ some p) (hstuck : ¬stuck) (hends : ∀ ns d, ends ns d → d ≠ c ∧ d ≠ p) :
    Awaits p c T' := by
  have hother : ∀ q, caller = some q → q ≠ p := by
    rintro q hq rfl
    exact hcaller hq
  cases hs with
  | root next ns stamp => exact h.add hF h0.symm
  | child next stamp hc hn hw =>
    refine h.add hF ?_
    rcases hw with rfl | rfl
    · exact h0.symm
    · exact hother _ hc
  | mark next hc hin hn hpar =>
    exact h.update (fun _ => by rfl) (fun _ _ hw => hw) fun _ hw => absurd hw (hother _ hc)
  | own next ns waiting hc =>
    exact h.update (fun _ => by rfl) (fun hq => absurd hq (hother _ hc)) fun _ hw => hw
  | start next ns q hst => exact absurd hst hstuck
  | adopt => exact h.update (fun _ => by rfl) (fun _ _ hw => hw) fun _ hw => hw
  | @drop next ns d hd =>
    cases hn : lookup Node.id d ns with
    | none =>
      simp only [dropNode, hn]
      exact h
    | some n =>
      refine ⟨?_, fun m hm hid => ?_, fun m hm hw => ?_⟩
      · dsimp only
        rw [ids_dropNode hF.distinct]
        exact mem_filter.mpr ⟨h.here, by simpa using (hends ns d hd).2.symm⟩
      · obtain ⟨a, ha, -, hia, -, -, hstate⟩ := mem_dropNode hF.distinct hn hm
        rcases hstate with hsame | hwoken
        · exact hsame.trans (h.waiting a ha (hia.symm.trans hid))
        · -- `d` would be the one that `p` waits for
          have hdc := h.only n (lookup_mem hn) (hwoken.symm.trans (hia.symm.trans hid))
          exact absurd ((lookup_key hn).symm.trans hdc) (hends ns d hd).1
      · obtain ⟨a, ha, -, hia, -, hwa, -⟩ := mem_dropNode hF.distinct hn hm
        exact hia.trans (h.only a ha (hwa.symm.trans hw))

/-! ## Who is who -/

def Node.person (n : Node) : ℤ × Stamp := (n.id, n.stamp)

theorem wakeNode_person (d : ℤ) (ns : List Node) : (wakeNode d ns).map Node.person = ns.map Node.person :=
  wakeNode_map (fun _ _ _ _ _ _ _ => rfl) d ns

theorem reparent_person (d parent : ℤ) (m : Node) : (m.reparent d parent).person = m.person := by
  unfold Node.reparent
  split <;> rfl

theorem dropNode_person (hm : m ∈ dropNode d ns) : m.person ∈ ns.map Node.person := by
  unfold dropNode at hm
  split at hm
  · exact mem_map_of_mem hm
  obtain ⟨b, hb, rfl⟩ := mem_map.mp (mem_of_mem_eraseP hm)
  rw [reparent_person, ← wakeNode_person d ns]
  exact mem_map_of_mem hb

theorem TreeStep.person (hs : TreeStep caller stuck ends T T') :
    T.next ≤ T'.next ∧ ∀ m ∈ T'.nodes, m.person ∈ T.nodes.map Node.person ∨ m.id = T.next := by
  have hnew : ∀ {next : ℤ} {ns : List Node} {n : Node}, n.id = next → next ≤ next + 1 ∧
      ∀ m ∈ ns ++ [n], m.person ∈ ns.map Node.person ∨ m.id = next := by
    intro next ns n hid
    exact ⟨by omega, forall_mem_append.mpr ⟨fun m hm => .inl (mem_map_of_mem hm),
      forall_mem_singleton.mpr (.inr hid)⟩⟩
  have hupdate : ∀ {ns : List Node} {k : ℤ} {f : Node → Node} (next : ℤ), (∀ n, (f n).person = n.person) →
      ∀ m ∈ update Node.id k f ns, m.person ∈ ns.map Node.person ∨ m.id = next := by
    intro ns k f next hf m hm
    left
    rw [← modifyFirst_map (fun n => decide (n.id = k)) f Node.person hf ns]
    exact mem_map_of_mem hm
  cases hs with
  | root | child => exact hnew rfl
  | mark | own | start | adopt => exact ⟨le_rfl, hupdate _ fun _ => by rfl⟩
  | drop => exact ⟨le_rfl, fun m hm => .inl (dropNode_person hm)⟩

theorem TreeStep.stays (hs : TreeStep caller stuck ends T T') {p : ℤ × Stamp} (hp : p ∈ T.nodes.map Node.person)
    (hends : ∀ ns d, ends ns d → d ≠ p.1) : p ∈ T'.nodes.map Node.person := by
  have hupdate : ∀ {ns : List Node} {k : ℤ} {f : Node → Node}, (∀ n, (f n).person = n.person) →
      p ∈ ns.map Node.person → p ∈ (update Node.id k f ns).map Node.person := by
    intro ns k f hf h
    rw [update, modifyFirst_map _ f Node.person hf ns]
    exact h
  cases hs with
  | root | child =>
    rw [map_append]
    exact mem_append_left _ hp
  | mark | own | start | adopt => exact hupdate (fun _ => by rfl) hp
  | @drop next ns d hd =>
    have hne := hends ns d hd
    simp only [dropNode]
    split
    · exact hp
    rename_i n hn
    have hwake : (wakeNode d ns).map Node.person = ns.map Node.person := wakeNode_person d ns
    rw [← hwake] at hp
    obtain ⟨b, hb, rfl⟩ := mem_map.mp hp
    have hsame : (b.reparent d n.parentPid).person = b.person := reparent_person d n.parentPid b
    refine mem_map.mpr ⟨b.reparent d n.parentPid, ?_, hsame⟩
    refine (mem_eraseP_of_neg ?_).mpr (mem_map_of_mem hb)
    rw [decide_eq_true_iff, reparent_id]
    exact fun heq => hne heq.symm

structure Born (pid : ℤ) (stamp : Stamp) (T : Tree) : Prop where
  old : pid < T.next
  same : ∀ n ∈ T.nodes, n.id = pid → n.stamp = stamp

theorem Born.step {pid : ℤ} (h : Born pid stamp T)
    (hs : TreeStep caller stuck ends T T') : Born pid stamp T' := by
  obtain ⟨hnext, hperson⟩ := hs.person
  refine ⟨h.old.trans_le hnext, fun m hm hid => ?_⟩
  rcases hperson m hm with hold | hnew
  · obtain ⟨n, hn, heq⟩ := mem_map.mp hold
    obtain ⟨hids, hstamps⟩ := Prod.mk.inj heq
    exact hstamps ▸ h.same n hn (hids.trans hid)
  · exact absurd (hid.symm.trans hnew) h.old.ne

end Mohhdy.Kernel
