import Mohhdy.Kernel.Capabilities

/-! A grant that succeeds takes effect: the row it leaves is up to date, or it was before. -/
namespace Mohhdy.Kernel
set_option autoImplicit false

open Words Tables Runs List

variable {live : Identities} {owner pid : ℤ}

/-! ## What a grant writes -/

theorem lookup_answer (live : Identities) (r : Registry) (name : CString) : (serviceLookup live r name).2 =
      if nameValid name = true then
        match (r.entries.map Entry.person).find? fun x => 0 < x.1 && nameEqual x.2.2.2 name with
        | none => .error .notFound
        | some x => if taskIdentityValid live x.1 x.2.1 x.2.2.1 = true then .ok x.1 else .error .notFound
      else .error .badName := by
  unfold serviceLookup
  cases hn : nameValid name with
  | false => rfl
  | true =>
    simp only [Bool.not_true, Bool.false_eq_true, if_false, if_true, List.find?_map]
    have hfun : ((fun x : ℤ × UInt32 × UInt32 × CString => decide (0 < x.1) && nameEqual x.2.2.2 name) ∘
        Entry.person) = Entry.holds name := rfl
    rw [hfun]
    cases r.entries.find? (Entry.holds name) with
    | none => rfl
    | some e =>
      simp only [Option.map_some]
      have hsame : taskIdentityValid live e.person.1 e.person.2.1 e.person.2.2.1 = e.valid live := rfl
      rw [hsame]
      cases e.valid live <;> rfl

theorem lookup_ok {r : Registry} {name : CString}
    (h : (serviceLookup live r name).2 = .ok pid) : serviceLookup live r name = (r, .ok pid) := by
  unfold serviceLookup at h ⊢
  split at h
  · cases h
  rename_i hn
  rw [if_neg hn]
  split at h
  · cases h
  split at h
  · rename_i hv
    rw [if_pos hv]
    exact congrArg (Prod.mk r) h
  · cases h

def Written (live : Identities) (owner grantee : ℤ) (c : Cap) : Prop :=
  c.token ≠ 0 ∧ c = Cap.stamped live owner grantee c.rights c.sources c.pre c.name c.token

theorem backendGrant_written (live : Identities) (r : Registry) (name : CString) (owner grantee : ℤ)
    (rights sources : UInt32) (pre : CString) :
    let g := backendGrant live r name owner grantee rights sources pre
    (g.2 ≠ .ok () ∧ Shrinks r g.1) ∨
    ((∀ c ∈ g.1.caps, c ∈ r.caps ∨ Written live owner grantee c) ∧
      (serviceLookup live g.1 name).2 = .ok owner ∧
      ∃ c ∈ g.1.caps, c.between name owner grantee = true ∧ rights &&& c.rights = rights ∧
        sources &&& c.sources = sources ∧ c.pre = pre) := by
  have hl := shrinks_lookup live r name
  unfold backendGrant
  dsimp only
  split
  · exact .inl ⟨by simp, .refl r⟩
  rename_i hargs
  have hn : nameValid name = true := by simp_all
  split
  · exact .inl ⟨by simp, hl⟩
  rename_i hok
  have hok := not_not.mp hok
  rw [lookup_ok hok]
  split
  · rename_i c hc
    have hbetween := List.find?_some hc
    right
    unfold backendMerge
    split
    · dsimp only
      refine ⟨?_, ?_, ?_⟩
      · refine modifyFirst_forall (P := fun a => a ∈ r.caps ∨ Written live owner grantee a)
          (fun a ha => .inl ha) fun a _ _ => .inr ⟨?_, rfl⟩
        split
        · exact r.tokenNext.property
        · assumption
      · rw [lookup_answer, bump_person, ← lookup_answer live r]
        exact hok
      · refine ⟨_, modifyFirst_mem hc, ?_, and_or_right_self _ _, and_or_right_self _ _, rfl⟩
        rw [between_iff hn] at hbetween ⊢
        exact ⟨rfl, rfl, hbetween.2.2⟩
    · rename_i hsame
      simp only [not_or, not_not, Bool.not_eq_false] at hsame
      refine ⟨fun a ha => .inl ha, hok, c, mem_of_find?_eq_some hc, hbetween, and_eq_of_or_eq hsame.1,
        and_eq_of_or_eq hsame.2.1, (prefixEqual_iff.mp hsame.2.2).1⟩
  · split
    · rename_i hany
      right
      refine ⟨?_, ?_, ?_⟩
      · exact modifyFirst_forall (P := fun a => a ∈ r.caps ∨ Written live owner grantee a)
          (fun a ha => .inl ha) fun a _ _ => .inr ⟨r.tokenNext.property, rfl⟩
      · rw [lookup_answer, bump_person, ← lookup_answer live r]
        exact hok
      · obtain ⟨x, hx, hfree⟩ := any_eq_true.mp hany
        obtain ⟨y, hy⟩ := Option.isSome_iff_exists.mp
          (List.find?_isSome.mpr ⟨x, hx, hfree⟩ : (r.caps.find? fun c => c.ownerPid == 0).isSome = true)
        refine ⟨_, modifyFirst_mem hy, ?_, UInt32.and_self, UInt32.and_self, rfl⟩
        exact (between_iff hn).mpr ⟨rfl, rfl, rfl⟩
    · exact .inl ⟨by simp, .refl r⟩

theorem allowedLoop_yes {r : Registry} {name : CString} {right source : UInt32} {path : Option CString} {c : Cap}
    (hl : serviceLookup live r name = (r, .ok owner)) (hown : c.ownerPid = owner)
    (hreach : c.reaches live name pid = true) (hpermits : c.permits live pid right source path = true)
    {is : List ℕ} (hi : ∃ i ∈ is, r.caps[i]? = some c) :
    (allowedLoop live name pid right source path is r).2 = true := by
  induction is with
  | nil =>
    obtain ⟨i, hi, -⟩ := hi
    cases hi
  | cons j is ih =>
    obtain ⟨i, hi, hci⟩ := hi
    unfold allowedLoop
    rcases mem_cons.mp hi with rfl | hi
    · rw [hci]
      simp only [hreach, hl, hown, hpermits, if_true, and_self]
    · have hrest := ih ⟨i, hi, hci⟩
      split
      · exact hrest
      split
      · rw [hl]
        dsimp only
        split
        · rfl
        · exact hrest
      · exact hrest

structure Cap.Fresh (T : Tree) (c : Cap) : Prop where
  token : c.token ≠ 0
  owner : (c.ownerSequence = 0 ∧ c.ownerGeneration = 0) ∨
    ∃ st, Born c.ownerPid st T ∧ c.ownerSequence = st.sequence.val ∧ c.ownerGeneration = st.generation
  grantee : ∃ st, Born c.granteePid st T ∧ c.granteeSequence = st.sequence.val ∧
    c.granteeGeneration = st.generation ∧ c.identityKey = st.key.val

theorem born_of_live {s : Tasking} (hF : Forest (tree s)) {st : Stamp}
    (h : s.identities pid = some st) : Born pid st (tree s) := by
  obtain ⟨t, ht, rfl⟩ := Option.map_eq_some_iff.mp h
  exact .of_task hF ht

theorem Born.stamp_eq {s : Tasking} {st st' : Stamp} (h : Born pid st (tree s))
    (hlive : s.identities pid = some st') : st' = st := by
  obtain ⟨t, ht, rfl⟩ := Option.map_eq_some_iff.mp hlive
  exact h.same t.node (mem_nodes ht) (lookup_key ht : t.id = pid)

theorem Written.fresh {s : Tasking} (hF : Forest (tree s)) {grantee : ℤ} {c : Cap}
    (h : Written s.identities owner grantee c) (hg : (s.identities grantee).isSome = true) :
    c.Fresh (tree s) := by
  obtain ⟨htoken, hc⟩ := h
  obtain ⟨st, hst⟩ := Option.isSome_iff_exists.mp hg
  rw [hc] at htoken ⊢
  refine ⟨htoken, ?_, st, born_of_live hF hst, ?_⟩
  · cases ho : s.identities owner with
    | none =>
      left
      simp [Cap.stamped, identityOf, ho]
    | some st =>
      right
      refine ⟨st, born_of_live hF ho, ?_⟩
      simp [Cap.stamped, identityOf, ho]
  · simp [Cap.stamped, identityOf, keyOf, hst]

def grantsLive (s : System) : SystemOp → Prop
  | .registry (.clearToken name granteePid) => (backendClearToken s.registry name granteePid).2 ≠ .ok ()
  | .registry (.backendGrant _ _ granteePid _ _ _) => (s.live granteePid).isSome = true
  | .registry (.grant name _ granteePid) =>
    nameEqual name vfsName = true → (s.live granteePid).isSome = true
  | _ => True

instance decidableGrantsLive (s : System) : ∀ op, Decidable (grantsLive s op)
  | .task _ => .isTrue trivial
  | .registry (.clearToken _ _) => inferInstanceAs (Decidable (_ ≠ _))
  | .registry (.backendGrant _ _ _ _ _ _) => inferInstanceAs (Decidable (_ = _))
  | .registry (.grant _ _ _) => inferInstanceAs (Decidable (_ → _))
  | .registry (.register _ _) | .registry (.lookup _) | .registry (.remove _ _) | .registry (.removePid _)
  | .registry (.backendRemovePid _) | .registry (.revoke _ _ _) | .registry (.release _ _)
  | .registry (.allowed _ _ _ _ _) => .isTrue trivial

theorem grant_written (live : Identities) (r : Registry) (name : CString) (owner grantee : ℤ) :
    ∀ c ∈ (serviceGrant live r name owner grantee).1.caps, (c ∈ r.caps ∨ (c.ownerPid = 0 ∧ c.granteePid = 0)) ∨
      (nameEqual name vfsName = true ∧ Written live grantee grantee c) := by
  have hback : ∀ c ∈ (handedOver live r name grantee).caps, c ∈ r.caps ∨ (c.ownerPid = 0 ∧ c.granteePid = 0) :=
    (shrinks_backendRemoveName (r.setEntries _) name).rows
  unfold serviceGrant
  split
  · exact fun c hc => .inl (.inl hc)
  split
  · exact fun c hc => .inl (.inl hc)
  split
  · exact fun c hc => .inl (.inl hc)
  split
  · exact fun c hc => .inl (.inl hc)
  unfold vfsHandoff
  split
  · rename_i hvfs
    have hl : ∀ c ∈ (serviceLookup live (handedOver live r name grantee) vfsVirtualName).1.caps,
        c ∈ r.caps ∨ (c.ownerPid = 0 ∧ c.granteePid = 0) := fun c hc =>
      ((shrinks_lookup live (handedOver live r name grantee) vfsVirtualName).rows c hc).elim (hback c) .inr
    dsimp only
    split
    · intro c hc
      rcases backendGrant_written live (serviceLookup live (handedOver live r name grantee) vfsVirtualName).1
        name grantee grantee rightAll sourceAll noText with ⟨-, hf⟩ | ⟨hrows, -⟩
      · exact .inl ((hf.rows c hc).elim (hl c) .inr)
      · exact (hrows c hc).imp (hl c) fun hw => ⟨hvfs, hw⟩
    · exact fun c hc => .inl (hl c hc)
  · exact fun c hc => .inl (hback c hc)

structure Current (s : System) : Prop where
  forest : Forest (tree s.tasking)
  rows : ∀ c ∈ s.registry.caps, 0 < c.ownerPid → c.Fresh (tree s.tasking)

theorem Current.systemStep {s : System} (h : Current s) (op : SystemOp) (hlive : grantsLive s op) :
    Current (systemStep s op) := by
  cases op with
  | task op =>
    refine ⟨h.forest.kernelStep op, fun c hc hpos => ?_⟩
    obtain ⟨htoken, howner, st, hst, hstamp⟩ := h.rows c hc hpos
    refine ⟨htoken, howner.imp_right ?_, st, hst.kernelStep h.forest op, hstamp⟩
    rintro ⟨so, hso, hostamp⟩
    exact ⟨so, hso.kernelStep h.forest op, hostamp⟩
  | registry op =>
    have htree : tree (taskingAfter s.tasking op) = tree s.tasking := by
      unfold taskingAfter
      split
      · split <;> rfl
      · rfl
    have hfewer : Fewer s.registry (registryStep s.live s.registry op) →
        Current ⟨taskingAfter s.tasking op, registryStep s.live s.registry op⟩ := by
      intro hf
      refine ⟨htree ▸ h.forest, fun c hc hpos => ?_⟩
      rw [htree]
      exact h.rows c (hf c hc hpos) hpos
    cases op with
    | register name pid => exact hfewer (fewer_register _ _ name pid)
    | lookup name => exact hfewer (shrinks_lookup _ _ name).caps
    | remove name pid => exact hfewer (shrinks_remove _ _ name pid).caps
    | removePid pid => exact hfewer (shrinks_removePid _ pid).caps
    | backendRemovePid pid => exact hfewer (shrinks_backendRemovePid _ pid).caps
    | revoke name owner grantee => exact hfewer (shrinks_revoke _ _ name owner grantee).caps
    | release name grantee => exact hfewer (shrinks_release _ name grantee).caps
    | allowed name pid right source path =>
      exact hfewer (shrinks_allowed _ _ name pid right source path).caps
    | clearToken name grantee =>
      refine hfewer ?_
      have hno : (backendClearToken s.registry name grantee).2 ≠ .ok () := hlive
      have hsame : (backendClearToken s.registry name grantee).1 = s.registry := by
        unfold backendClearToken at hno ⊢
        split_ifs at hno ⊢
        · rfl
        · exact absurd rfl hno
        · rfl
      exact fun c hc _ => hsame ▸ hc
    | grant name owner grantee =>
      refine ⟨h.forest, fun c hc hpos => ?_⟩
      rcases grant_written s.live s.registry name owner grantee c hc with hold | ⟨hvfs, hnew⟩
      · exact h.rows c (hold.resolve_right fun h0 => hpos.ne' h0.1) hpos
      · exact hnew.fresh h.forest (hlive hvfs)
    | backendGrant name owner grantee rights sources pre =>
      refine ⟨h.forest, fun c hc hpos => ?_⟩
      rcases backendGrant_written s.live s.registry name owner grantee rights sources pre with
        ⟨-, hf⟩ | ⟨hrows, -⟩
      · exact h.rows c (hf.caps c hc hpos) hpos
      · rcases hrows c hc with hold | hnew
        · exact h.rows c hold hpos
        · exact hnew.fresh h.forest hlive

theorem Current.init : Current System.init := by
  refine ⟨Forest.init, fun c hc hpos => ?_⟩
  rw [show c = Cap.free from eq_of_mem_replicate hc] at hpos
  exact absurd hpos (lt_irrefl 0)

theorem taskIdentityValid_of {st : Stamp} {sequence generation : UInt32} (hpid : 0 < pid) (hlive : live pid = some st)
    (h : (sequence = 0 ∧ generation = 0) ∨ (sequence = st.sequence.val ∧ generation = st.generation)) :
    taskIdentityValid live pid sequence generation = true := by
  rw [taskIdentityValid, if_neg (by omega), hlive]
  dsimp only
  split
  · rename_i hne
    rcases h with ⟨h0, h0'⟩ | ⟨rfl, rfl⟩
    · exact absurd hne (by simp [h0, h0'])
    · simp
  · rfl

theorem backendGrant_args {r : Registry} {name : CString} {grantee : ℤ} {rights sources : UInt32} {pre : CString}
    (h : (backendGrant live r name owner grantee rights sources pre).2 = .ok ()) :
    0 < owner ∧ 0 < grantee ∧ rightValid rights = true ∧ backendSourcesValid sources = true := by
  unfold backendGrant at h
  split at h
  · cases h
  rename_i hargs
  simp only [Bool.or_eq_true, not_or, Bool.not_eq_true', Bool.not_eq_false, decide_eq_true_eq,
    not_le] at hargs
  exact ⟨hargs.1.1.1.1.2, hargs.1.1.1.2, hargs.1.1.2, hargs.1.2⟩

/-- What is granted to a task that is there by an owner that is there is admitted right away. -/
theorem granted_admitted (ops : List SystemOp) (h : Along systemStep grantsLive System.init ops)
    (name : CString) (owner grantee : ℤ) (rights sources : UInt32) (pre : CString)
    (ho : ((run systemStep System.init ops).live owner).isSome = true)
    (hg : ((run systemStep System.init ops).live grantee).isSome = true)
    (hok : (backendGrant (run systemStep System.init ops).live (run systemStep System.init ops).registry
      name owner grantee rights sources pre).2 = .ok ())
    (right source : UInt32) (path : Option CString) (hr0 : right ≠ 0) (hr : rights &&& right = right)
    (hs0 : source ≠ 0) (hs : sources &&& source = source) (hp : prefixMatches pre path = true) :
    (backendAllowed (run systemStep System.init ops).live (backendGrant (run systemStep System.init ops).live
      (run systemStep System.init ops).registry name owner grantee rights sources pre).1
      name grantee right source path).2 = true := by
  have hstep : ∀ s op, Current s → grantsLive s op → Current (systemStep s op) := fun s op hs => hs.systemStep op
  have hc := run_invariant hstep Current.init h
  generalize run systemStep System.init ops = s at hc ho hg hok ⊢
  obtain ⟨howner, hgrantee, hrv, hsv⟩ := backendGrant_args hok
  rcases backendGrant_written s.live s.registry name owner grantee rights sources pre with
    ⟨hno, -⟩ | ⟨hrows, hlook, c, hmem, hbetween, hcr, hcs, rfl⟩
  · exact absurd hok hno
  simp only [Cap.between, Bool.and_eq_true, beq_iff_eq] at hbetween
  obtain ⟨⟨rfl, rfl⟩, hname⟩ := hbetween
  -- the row is one of before or it is new, and in both cases it is up to date
  have hfresh : c.Fresh (tree s.tasking) := by
    rcases hrows c hmem with hold | hnew
    · exact hc.rows c hold howner
    · exact hnew.fresh hc.forest hg
  obtain ⟨htoken, hos, st, hborn, hgs, hgg, hgk⟩ := hfresh
  obtain ⟨so, hso⟩ := Option.isSome_iff_exists.mp ho
  obtain ⟨sg, hsg⟩ := Option.isSome_iff_exists.mp hg
  have hsame : sg = st := hborn.stamp_eq hsg
  have hov : taskIdentityValid s.live c.ownerPid c.ownerSequence c.ownerGeneration = true := by
    refine taskIdentityValid_of howner hso (hos.imp_right ?_)
    rintro ⟨sb, hsb, hstamp⟩
    rw [show so = sb from hsb.stamp_eq hso]
    exact hstamp
  have hgv : taskIdentityValid s.live c.granteePid c.granteeSequence c.granteeGeneration = true :=
    taskIdentityValid_of hgrantee hsg (.inr (hsame ▸ ⟨hgs, hgg⟩))
  have hkey : identityKeyBound s.live c.granteePid c.identityKey = true := by
    simp only [identityKeyBound, hsg, Bool.and_eq_true, bne_iff_ne, beq_iff_eq]
    exact ⟨sg.key.property, hsame ▸ hgk⟩
  have hright : rightValid right = true := by
    simp only [rightValid, Bool.and_eq_true, bne_iff_ne, beq_iff_eq] at hrv ⊢
    exact ⟨hr0, and_compl_of_part hrv.2 hr⟩
  have hsource : backendSourcesValid source = true := by
    simp only [backendSourcesValid, Bool.and_eq_true, bne_iff_ne, beq_iff_eq] at hsv ⊢
    exact ⟨hs0, and_compl_of_part hsv.2 hs⟩
  unfold backendAllowed
  rw [hright, hsource, if_neg (by simp)]
  obtain ⟨i, hi, hci⟩ := getElem_of_mem hmem
  refine allowedLoop_yes (lookup_ok hlook) rfl ?_ ?_ ⟨i, mem_range.mpr hi, ?_⟩
  · simp only [Cap.reaches, hgv, hname, Bool.and_true, beq_self_eq_true]
  · simp only [Cap.permits, Bool.and_eq_true, bne_iff_ne, beq_iff_eq]
    exact ⟨⟨⟨⟨⟨hov, htoken⟩, and_of_part hcr hr⟩, and_of_part hcs hs⟩, hkey⟩, hp⟩
  · rw [List.getElem?_eq_getElem hi, hci]

theorem granted_admitted_again :
    let ops := twoTasks ++ [.registry (.backendGrant ⟨[97], by decide⟩ 1 2 1 1 ⟨[97, 47], by decide⟩)]
    let s := run systemStep System.init ops
    (backendAllowed s.live (backendGrant s.live s.registry ⟨[97], by decide⟩ 1 2 1 1 ⟨[97, 47], by decide⟩).1
      ⟨[97], by decide⟩ 2 1 1 (some ⟨[97, 47, 120], by decide⟩)).2 = true :=
  granted_admitted _ (by decide +kernel) _ _ _ _ _ _ (by decide +kernel) (by decide +kernel)
    (by decide +kernel) _ _ _ (by decide) (by decide) (by decide) (by decide) (by decide)

/-- A row without its token looks like one that needs no change. -/
theorem clearedToken_stays :
    let ops := twoTasks ++ [.registry (.backendGrant ⟨[97], by decide⟩ 1 2 1 1 ⟨[97, 47], by decide⟩),
      .registry (.clearToken ⟨[97], by decide⟩ 2)]
    let s := run systemStep System.init ops
    let again := backendGrant s.live s.registry ⟨[97], by decide⟩ 1 2 1 1 ⟨[97, 47], by decide⟩
    (s.live 1).isSome = true ∧ (s.live 2).isSome = true ∧ again.2 = .ok () ∧
      (backendAllowed s.live again.1 ⟨[97], by decide⟩ 2 1 1 (some ⟨[97, 47, 120], by decide⟩)).2 = false := by
  decide +kernel

end Mohhdy.Kernel
