import Mohhdy.Kernel.Capabilities

/-! The grants behind the capabilities. Beside a run of the system a list is kept of the grants that
were made and not taken back since; what the registry admits is compared with it. -/
namespace Mohhdy.Kernel
set_option autoImplicit false

open Words Runs List

variable {live : Identities}

/-! ## Audited runs -/

def spares (live : Identities) (r : Registry) (g : Grant) : RegistryOp → Bool
  | .revoke name ownerPid granteePid =>
    decide ¬((backendRevoke live r name ownerPid granteePid).2 = .ok () ∧ g.name = name ∧
      g.ownerPid = ownerPid ∧ g.granteePid = granteePid)
  | .release name granteePid =>
    decide ¬((backendRelease r name granteePid).2 = .ok () ∧ g.name = name ∧ g.granteePid = granteePid)
  | .grant name ownerPid granteePid =>
    decide ¬((serviceGrant live r name ownerPid granteePid).2 = .ok () ∧ g.name = name)
  | .removePid pid | .backendRemovePid pid => decide ¬(0 < pid ∧ (g.ownerPid = pid ∨ g.granteePid = pid))
  | _ => true

def grantsOf (live : Identities) (r : Registry) : RegistryOp → List Grant
  | .backendGrant name ownerPid granteePid rights sources pre =>
    if (backendGrant live r name ownerPid granteePid rights sources pre).2 = .ok () then
      [newGrant live name ownerPid granteePid rights sources pre]
    else []
  | .grant name ownerPid granteePid =>
    if (serviceGrant live r name ownerPid granteePid).2 = .ok () ∧
        handoffGrants live (handedOver live r name granteePid) name granteePid = true then
      [newGrant live name granteePid granteePid rightAll sourceAll noText]
    else []
  | _ => []

structure Audited where
  system : System
  grants : List Grant

def Audited.init : Audited := ⟨System.init, []⟩

def auditStep (a : Audited) (op : SystemOp) : Audited :=
  let s := systemStep a.system op
  match op with
  | .task _ => ⟨s, a.grants⟩
  | .registry op =>
    ⟨s, (a.grants.filter fun g => ownerOf a.system.registry.entries g.name == ownerOf s.registry.entries g.name
        && spares a.system.live a.system.registry g op) ++ grantsOf a.system.live a.system.registry op⟩

/-- A name is taken only from nobody, grants are between tasks that are there, and a second grant to
a task and its first one are under one another. -/
def grantsWell (a : Audited) : SystemOp → Prop
  | .registry (.register name _) => ∀ e ∈ a.system.registry.entries, e.holds name = true →
    e.valid a.system.live = true
  | .registry (.backendGrant name ownerPid granteePid rights sources pre) =>
    (a.system.live ownerPid).isSome = true ∧ (a.system.live granteePid).isSome = true ∧
      mergesWell a.system.registry name ownerPid granteePid rights sources pre
  | .registry (.grant name _ granteePid) =>
    nameEqual name vfsName = true → (a.system.live granteePid).isSome = true
  | _ => True

instance decidableMergesWell (r : Registry) (name : CString) (ownerPid granteePid : ℤ)
    (rights sources : UInt32) (pre : CString) :
    Decidable (mergesWell r name ownerPid granteePid rights sources pre) := by
  unfold mergesWell
  infer_instance

instance decidableGrantsWell (a : Audited) (op : SystemOp) : Decidable (grantsWell a op) := by
  unfold grantsWell
  split <;> infer_instance

/-! ## Every row has its grant -/

theorem registryStep_rows {a : Audited} (h : Rows a.system.registry) (op : RegistryOp)
    (hwell : grantsWell a (.registry op)) : Rows (registryStep a.system.live a.system.registry op) ∧
    ∀ c ∈ (registryStep a.system.live a.system.registry op).caps, c.works →
      (c ∈ a.system.registry.caps ∧ spares a.system.live a.system.registry c.grant op = true) ∨
      c.grant ∈ grantsOf a.system.live a.system.registry op := by
  cases op with
  | register name pid =>
    exact ⟨register_rows h hwell, fun c hc hw => .inl ⟨fewer_register _ _ name pid c hc hw.1, rfl⟩⟩
  | lookup name =>
    exact ⟨lookup_rows h _ name, fun c hc hw => .inl ⟨(shrinks_lookup _ _ name).caps c hc hw.1, rfl⟩⟩
  | remove name pid =>
    exact ⟨remove_rows h _ name pid, fun c hc hw => .inl ⟨(shrinks_remove _ _ name pid).caps c hc hw.1, rfl⟩⟩
  | clearToken name grantee =>
    obtain ⟨hr, hf⟩ := clearToken_rows h name grantee
    exact ⟨hr, fun c hc hw => .inl ⟨hf c hc hw, rfl⟩⟩
  | allowed name pid right source path =>
    refine ⟨allowed_rows h _ name pid right source path, fun c hc hw => .inl ⟨?_, rfl⟩⟩
    exact (shrinks_allowed _ _ name pid right source path).caps c hc hw.1
  | removePid pid =>
    obtain ⟨hr, hgone⟩ := removePid_rows h pid
    refine ⟨hr, fun c hc hw => .inl ⟨(shrinks_removePid _ pid).caps c hc hw.1, decide_eq_true ?_⟩⟩
    rintro ⟨hpid, heq⟩
    exact heq.elim (hgone hpid c hc).1 (hgone hpid c hc).2
  | backendRemovePid pid =>
    obtain ⟨hr, hgone⟩ := backendRemovePid_rows h pid
    refine ⟨hr, fun c hc hw => .inl ⟨(shrinks_backendRemovePid _ pid).caps c hc hw.1, decide_eq_true ?_⟩⟩
    rintro ⟨hpid, heq⟩
    exact heq.elim (hgone hpid c hc).1 (hgone hpid c hc).2
  | revoke name owner grantee =>
    obtain ⟨hr, hgone⟩ := revoke_rows h a.system.live name owner grantee
    refine ⟨hr, fun c hc hw => .inl ⟨(shrinks_revoke _ _ name owner grantee).caps c hc hw.1, decide_eq_true ?_⟩⟩
    rintro ⟨hok, hname, -, hg⟩
    exact hgone hok c hc hw.1 ⟨hg, hname⟩
  | release name grantee =>
    obtain ⟨hr, hgone⟩ := release_rows h name grantee
    refine ⟨hr, fun c hc hw => .inl ⟨(shrinks_release _ name grantee).caps c hc hw.1, decide_eq_true ?_⟩⟩
    rintro ⟨hok, hname, hg⟩
    exact hgone hok c hc hw.1 ⟨hg, hname⟩
  | grant name owner grantee =>
    obtain ⟨hr, hcase⟩ := grant_rows h a.system.live name owner grantee
    refine ⟨hr, fun c hc hw => ?_⟩
    rcases hcase with ⟨hsame, hno⟩ | hrows
    · exact .inl ⟨hsame ▸ hc, decide_eq_true fun hboth => hno hboth.1⟩
    · rcases hrows c hc hw with ⟨hold, hne⟩ | ⟨hok, hhand, heq⟩
      · exact .inl ⟨hold, decide_eq_true fun hboth => hne hboth.2⟩
      · right
        rw [heq, grantsOf, if_pos ⟨hok, hhand⟩]
        exact mem_singleton_self _
  | backendGrant name owner grantee rights sources pre =>
    obtain ⟨hr, hcase⟩ := backendGrant_rows h a.system.live hwell.2.2
    refine ⟨hr, fun c hc hw => ?_⟩
    rcases hcase with ⟨hok, hadds⟩ | hfewer
    · rcases hadds c hc hw with hold | heq
      · exact .inl ⟨hold, rfl⟩
      · right
        rw [heq, grantsOf, if_pos hok]
        exact mem_singleton_self _
    · exact .inl ⟨hfewer c hc hw.1, rfl⟩

structure Backed (a : Audited) : Prop where
  rows : Rows a.system.registry
  backed : ∀ c ∈ a.system.registry.caps, c.works → c.grant ∈ a.grants
  stamped : ∀ g ∈ a.grants, g.ownerSequence ≠ 0 ∧ g.granteeSequence ≠ 0

theorem identityOf_ne_zero {pid : ℤ} (h : (live pid).isSome = true) : (identityOf live pid).1 ≠ 0 := by
  obtain ⟨st, hst⟩ := Option.isSome_iff_exists.mp h
  simp only [identityOf, hst]
  exact st.sequence.property

theorem handoffGrants_vfs {r : Registry} {name : CString} {grantee : ℤ}
    (h : handoffGrants live r name grantee = true) : nameEqual name vfsName = true :=
  (Bool.and_eq_true_iff.mp h).1

theorem Backed.auditStep {a : Audited} (h : Backed a) (op : SystemOp) (hwell : grantsWell a op) :
    Backed (auditStep a op) := by
  cases op with
  | task op => exact ⟨h.rows, h.backed, h.stamped⟩
  | registry op =>
    obtain ⟨hr, hrows⟩ := registryStep_rows h.rows op hwell
    refine ⟨hr, ?_, ?_⟩
    · intro c hc hw
      refine mem_append.mpr ((hrows c hc hw).imp_left ?_)
      rintro ⟨hold, hspares⟩
      refine mem_filter.mpr ⟨h.backed c hold hw, Bool.and_eq_true_iff.mpr ⟨beq_iff_eq.mpr ?_, hspares⟩⟩
      -- the row had the same owner before
      exact (h.rows.owned c hold hw.1).trans (hr.owned c hc hw.1).symm
    · intro g hg
      rcases mem_append.mp hg with hold | hnew
      · exact h.stamped g (mem_filter.mp hold).1
      cases op with
      | backendGrant name owner grantee rights sources pre =>
        rw [grantsOf] at hnew
        split at hnew
        · rw [mem_singleton.mp hnew]
          exact ⟨identityOf_ne_zero hwell.1, identityOf_ne_zero hwell.2.1⟩
        · cases hnew
      | grant name owner grantee =>
        rw [grantsOf] at hnew
        split at hnew
        · rename_i hhand
          have hlive := identityOf_ne_zero (hwell (handoffGrants_vfs hhand.2))
          rw [mem_singleton.mp hnew]
          exact ⟨hlive, hlive⟩
        · cases hnew
      | register | lookup | remove | removePid | backendRemovePid | revoke | release | clearToken
      | allowed => cases hnew

theorem Backed.init : Backed Audited.init := by
  have hentries : ∀ e ∈ registryInit.entries, e = Entry.free := fun e => eq_of_mem_replicate
  have hcaps : ∀ c ∈ registryInit.caps, c = Cap.free := fun c => eq_of_mem_replicate
  refine ⟨⟨?_, ?_, ?_, ?_⟩, ?_, ?_⟩
  · intro e he
    rw [hentries e he]
    exact ⟨le_rfl, fun _ => rfl⟩
  · intro c hc
    rw [hcaps c hc]
    exact .inr ⟨rfl, rfl, rfl⟩
  · intro c hc hpos
    rw [hcaps c hc] at hpos
    exact absurd hpos (lt_irrefl 0)
  · exact pairwise_replicate.mpr (.inr fun hpos => absurd hpos (lt_irrefl 0))
  · intro c hc hw
    rw [hcaps c hc] at hw
    exact absurd hw.1 (lt_irrefl 0)
  · intro g hg
    cases hg

/-! ## What is admitted -/

theorem taskIdentityValid_pos {pid : ℤ} {sequence generation : UInt32}
    (h : taskIdentityValid live pid sequence generation = true) : 0 < pid := by
  by_contra hle
  rw [taskIdentityValid, if_pos (not_lt.mp hle)] at h
  cases h

theorem allowedLoop_row {name : CString} {pid : ℤ} {right source : UInt32}
    {path : Option CString} (is : List ℕ) {r : Registry} (h : Rows r)
    (hyes : (allowedLoop live name pid right source path is r).2 = true) :
    ∃ c ∈ r.caps, c.reaches live name pid = true ∧ serviceLookup live r name = (r, .ok c.ownerPid) ∧
      c.permits live pid right source path = true := by
  induction is generalizing r with
  | nil => cases hyes
  | cons i is ih =>
    unfold allowedLoop at hyes
    split at hyes
    · exact ih h hyes
    rename_i c hci
    split at hyes
    · rename_i hreach
      rcases lookup_cases h live name with ⟨owner, hl, -⟩ | ⟨e, hl⟩ | ⟨r', e, hl, hr, hgone⟩
      · rw [hl] at hyes
        dsimp only at hyes
        split at hyes
        · rename_i hboth
          exact ⟨c, mem_of_getElem? hci, hreach, by rw [hl, hboth.1], hboth.2⟩
        · exact ih h hyes
      · rw [hl] at hyes
        exact ih h hyes
      · rw [hl] at hyes
        -- the rows of the name are gone, so no later row is one of it
        obtain ⟨d, hd, hdreach, hdlook, -⟩ := ih hr hyes
        have hown : 0 < d.ownerPid ∧ d.name = name := by
          simp only [Cap.reaches, Bool.and_eq_true, beq_iff_eq] at hdreach
          obtain ⟨⟨hg, hv⟩, hname⟩ := hdreach
          have hpid := taskIdentityValid_pos hv
          rcases hr.shape d hd with hpos | ⟨-, h0, -⟩
          · exact ⟨hpos.1, (nameEqual_iff.mp hname).1⟩
          · omega
        exact absurd hown.2 (hgone d hd hown.1)
    · exact ih h hyes

theorem taskIdentityValid_stamp {pid : ℤ} {sequence generation : UInt32}
    (hne : sequence ≠ 0) (h : taskIdentityValid live pid sequence generation = true) :
    ∃ st, live pid = some st ∧ st.sequence.val = sequence ∧ st.generation = generation := by
  unfold taskIdentityValid at h
  split at h
  · cases h
  cases hst : live pid with
  | none =>
    rw [hst] at h
    simp only [Bool.and_eq_true, beq_iff_eq] at h
    exact absurd h.1 hne
  | some st =>
    rw [hst] at h
    simp only [if_pos (.inl hne : sequence ≠ 0 ∨ generation ≠ 0), Bool.and_eq_true, beq_iff_eq] at h
    exact ⟨st, rfl, h⟩

def isTask (live : Identities) (pid : ℤ) (sequence generation : UInt32) : Prop :=
  ∃ st, live pid = some st ∧ st.sequence.val = sequence ∧ st.generation = generation

/-- What the registry admits, the owner of the name as it lives now has granted to the task as it
lives now, in one scope, and has not taken back. -/
theorem admitted_granted (ops : List SystemOp) (h : Along auditStep grantsWell Audited.init ops)
    (name : CString) (pid : ℤ) (right source : UInt32) (path : Option CString)
    (hyes : (backendAllowed (run auditStep Audited.init ops).system.live
      (run auditStep Audited.init ops).system.registry name pid right source path).2 = true) :
    ∃ g ∈ (run auditStep Audited.init ops).grants, g.name = name ∧ g.granteePid = pid ∧
      (serviceLookup (run auditStep Audited.init ops).system.live
        (run auditStep Audited.init ops).system.registry name).2 = .ok g.ownerPid ∧
      isTask (run auditStep Audited.init ops).system.live g.ownerPid g.ownerSequence g.ownerGeneration ∧
      isTask (run auditStep Audited.init ops).system.live pid g.granteeSequence g.granteeGeneration ∧
      g.rights &&& right = right ∧ g.sources &&& source = source ∧ prefixMatches g.pre path = true := by
  have hstep : ∀ a op, Backed a → grantsWell a op → Backed (auditStep a op) := fun a op ha => ha.auditStep op
  have hb := run_invariant hstep Backed.init h
  generalize run auditStep Audited.init ops = a at hb hyes ⊢
  unfold backendAllowed at hyes
  split at hyes
  · cases hyes
  obtain ⟨c, hc, hreach, hlook, hpermits⟩ := allowedLoop_row _ hb.rows hyes
  simp only [Cap.reaches, Bool.and_eq_true, beq_iff_eq] at hreach
  obtain ⟨⟨hg, hvalid⟩, hname⟩ := hreach
  simp only [Cap.permits, Bool.and_eq_true, beq_iff_eq, bne_iff_ne] at hpermits
  obtain ⟨⟨⟨⟨⟨hov, htoken⟩, hrights⟩, hsources⟩, -⟩, hpre⟩ := hpermits
  have hmem := hb.backed c hc ⟨taskIdentityValid_pos hov, htoken⟩
  obtain ⟨hos, hgs⟩ := hb.stamped _ hmem
  exact ⟨c.grant, hmem, (nameEqual_iff.mp hname).1, hg, by rw [hlook]; rfl, taskIdentityValid_stamp hos hov,
    taskIdentityValid_stamp hgs hvalid, hrights, hsources, hpre⟩

theorem admitted_granted_reader :
    let ops := twoTasks ++ [.registry (.backendGrant ⟨[97], by decide⟩ 1 2 1 3 ⟨[98, 47], by decide⟩)]
    ∃ g ∈ (run auditStep Audited.init ops).grants, g.name = ⟨[97], by decide⟩ ∧ g.granteePid = 2 ∧
      (serviceLookup (run auditStep Audited.init ops).system.live
        (run auditStep Audited.init ops).system.registry ⟨[97], by decide⟩).2 = .ok g.ownerPid ∧
      isTask (run auditStep Audited.init ops).system.live g.ownerPid g.ownerSequence g.ownerGeneration ∧
      isTask (run auditStep Audited.init ops).system.live 2 g.granteeSequence g.granteeGeneration ∧
      g.rights &&& 1 = 1 ∧ g.sources &&& 2 = 2 ∧
      prefixMatches g.pre (some ⟨[98, 47, 120], by decide⟩) = true :=
  admitted_granted _ (by decide +kernel) _ _ _ _ _ (by decide +kernel)

/-- Reading under `a/` from the initrd and changing under `b/` in the overlay add up to reading under
`b/` in the overlay, which nobody granted. -/
theorem merged_grants_exceed :
    let ops := twoTasks ++ [.registry (.backendGrant ⟨[97], by decide⟩ 1 2 1 1 ⟨[97, 47], by decide⟩),
      .registry (.backendGrant ⟨[97], by decide⟩ 1 2 2 2 ⟨[98, 47], by decide⟩)]
    (backendAllowed (run auditStep Audited.init ops).system.live
      (run auditStep Audited.init ops).system.registry ⟨[97], by decide⟩ 2 1 2
      (some ⟨[98, 47, 120], by decide⟩)).2 = true ∧
    ¬∃ g ∈ (run auditStep Audited.init ops).grants, g.granteePid = 2 ∧ g.rights &&& 1 = 1 ∧
      g.sources &&& 2 = 2 ∧ prefixMatches g.pre (some ⟨[98, 47, 120], by decide⟩) = true := by
  decide +kernel

end Mohhdy.Kernel
