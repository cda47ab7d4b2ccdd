import Mohhdy.Kernel.Registry
import Mohhdy.Kernel.Supervision

/-! Backend capabilities: who may use the backend of a service, and by which grant. -/
namespace Mohhdy.Kernel
set_option autoImplicit false

open Words Tables List

variable {es : List Entry} {f : Cap → Cap} {rights sources : UInt32}
  {name : CString} {r r' : Registry} {grantee owner pid : ℤ}

/-! ## The system -/

structure System where
  tasking : Tasking
  registry : Registry

def System.live (s : System) : Identities := s.tasking.identities

inductive RegistryOp where
  | register (name : CString) (pid : ℤ)
  | lookup (name : CString)
  | remove (name : CString) (pid : ℤ)
  | grant (name : CString) (ownerPid granteePid : ℤ)
  | removePid (pid : ℤ)
  | backendRemovePid (pid : ℤ)
  | backendGrant (name : CString) (ownerPid granteePid : ℤ) (rights sources : UInt32) (pre : CString)
  | revoke (name : CString) (ownerPid granteePid : ℤ)
  | release (name : CString) (granteePid : ℤ)
  | clearToken (name : CString) (granteePid : ℤ)
  | allowed (name : CString) (pid : ℤ) (right source : UInt32) (path : Option CString)
deriving DecidableEq

def registryStep (live : Identities) (r : Registry) : RegistryOp → Registry
  | .register name pid => (serviceRegister live r name pid).1
  | .lookup name => (serviceLookup live r name).1
  | .remove name pid => (serviceRemove live r name pid).1
  | .grant name ownerPid granteePid => (serviceGrant live r name ownerPid granteePid).1
  | .removePid pid => serviceRemovePid r pid
  | .backendRemovePid pid => backendRemovePid r pid
  | .backendGrant name ownerPid granteePid rights sources pre =>
    (backendGrant live r name ownerPid granteePid rights sources pre).1
  | .revoke name ownerPid granteePid => (backendRevoke live r name ownerPid granteePid).1
  | .release name granteePid => (backendRelease r name granteePid).1
  | .clearToken name granteePid => (backendClearToken r name granteePid).1
  | .allowed name pid right source path => (backendAllowed live r name pid right source path).1

inductive SystemOp where
  | task (op : TaskOp)
  | registry (op : RegistryOp)
deriving DecidableEq

def taskingAfter (s : Tasking) : RegistryOp → Tasking
  | .removePid pid => if pid ≤ 0 then s else s.setSpill (spillClearPid s.spill pid)
  | _ => s

def systemStep (s : System) : SystemOp → System
  | .task op => ⟨kernelStep s.tasking op, s.registry⟩
  | .registry op => ⟨taskingAfter s.tasking op, registryStep s.live s.registry op⟩

def System.init : System := ⟨taskingInit, registryInit⟩

def twoTasks : List SystemOp :=
  [.task (.create false 1), .task (.create false 1), .registry (.register ⟨[97], by decide⟩ 1)]

/-! ## Owners -/

def ownerOf (es : List Entry) (name : CString) : Option ℤ := (es.find? (Entry.holds name)).map Entry.pid

def owners (es : List Entry) : List (ℤ × CString) := es.map fun e => (e.pid, e.name)

theorem ownerOf_congr {es' : List Entry} (name : CString) (h : owners es' = owners es) :
    ownerOf es' name = ownerOf es name := by
  have hview : ∀ es : List Entry, ownerOf es name =
      ((owners es).find? fun x => 0 < x.1 && nameEqual x.2 name).map Prod.fst := by
    intro es
    rw [owners, List.find?_map, Option.map_map]
    rfl
  rw [hview, hview, h]

theorem ownerOf_modifyFirst {p : Entry → Bool} {f : Entry → Entry}
    (hp : ∀ e, p e = true → e.holds name = false) (hf : ∀ e, p e = true → (f e).holds name = false)
    (es : List Entry) : ownerOf (modifyFirst p f es) name = ownerOf es name := by
  rw [ownerOf, find?_modifyFirst hp hf, ownerOf]

theorem nameEqual_valid {x : CString} (h : nameValid name = true) : nameEqual x name = true ↔ x = name := by
  rw [nameEqual_iff]
  constructor
  · exact fun heq => heq.1
  · rintro rfl
    exact ⟨rfl, nameValid_length h⟩

theorem holds_name {e : Entry} (h : e.holds name = true) : 0 < e.pid ∧ e.name = name := by
  simp only [Entry.holds, Bool.and_eq_true, decide_eq_true_eq, nameEqual_iff] at h
  exact ⟨h.1, h.2.1⟩

/-! ## Rows and the grants behind them -/

structure Grant where
  name : CString
  ownerPid : ℤ
  (ownerSequence ownerGeneration : UInt32)
  granteePid : ℤ
  (granteeSequence granteeGeneration identityKey rights sources : UInt32)
  pre : CString
deriving DecidableEq

def Cap.grant (c : Cap) : Grant :=
  ⟨c.name, c.ownerPid, c.ownerSequence, c.ownerGeneration, c.granteePid, c.granteeSequence,
    c.granteeGeneration, c.identityKey, c.rights, c.sources, c.pre⟩

structure Rows (r : Registry) : Prop where
  entries : ∀ e ∈ r.entries, 0 ≤ e.pid ∧ (e.pid = 0 → e.name = noText)
  shape : ∀ c ∈ r.caps, (0 < c.ownerPid ∧ 0 < c.granteePid) ∨
    (c.ownerPid = 0 ∧ c.granteePid = 0 ∧ c.name = noText)
  owned : ∀ c ∈ r.caps, 0 < c.ownerPid → ownerOf r.entries c.name = some c.ownerPid
  single : r.caps.Pairwise fun c d => 0 < c.ownerPid → 0 < d.ownerPid →
    (c.granteePid, c.name) ≠ (d.granteePid, d.name)

def Cap.works (c : Cap) : Prop := 0 < c.ownerPid ∧ c.token ≠ 0

/-! ## Fewer rows -/

def Fewer (r r' : Registry) : Prop := ∀ c ∈ r'.caps, 0 < c.ownerPid → c ∈ r.caps

theorem Fewer.refl (r : Registry) : Fewer r r := fun _ hc _ => hc

def Entry.person (e : Entry) : ℤ × UInt32 × UInt32 × CString := (e.pid, e.sequence, e.generation, e.name)

structure Shrinks (r r' : Registry) : Prop where
  rows : ∀ c ∈ r'.caps, c ∈ r.caps ∨ (c.ownerPid = 0 ∧ c.granteePid = 0)
  entries : ∀ e ∈ r'.entries, e.pid ≠ 0 → e.person ∈ r.entries.map Entry.person
  watches : ∀ w ∈ r'.notifier.watches, w.pid ≠ 0 → w ∈ r.notifier.watches

theorem Shrinks.caps (h : Shrinks r r') : Fewer r r' := by
  intro c hc hpos
  exact (h.rows c hc).resolve_right fun h0 => hpos.ne' h0.1

theorem Shrinks.refl (r : Registry) : Shrinks r r :=
  ⟨fun _ hc => .inl hc, fun _ he _ => mem_map_of_mem he, fun _ hw _ => hw⟩

theorem Shrinks.trans {r'' : Registry} (h : Shrinks r r') (h' : Shrinks r' r'') : Shrinks r r'' := by
  refine ⟨fun c hc => ?_, fun e he hpid => ?_, fun w hw hpid => h.watches w (h'.watches w hw hpid) hpid⟩
  · exact (h'.rows c hc).elim (h.rows c) .inr
  · obtain ⟨a, ha, heq⟩ := mem_map.mp (h'.entries e he hpid)
    have hsame : a.pid = e.pid := congrArg Prod.fst heq
    exact heq ▸ h.entries a ha (hsame ▸ hpid)

theorem shrinks_setCaps {cs : List Cap} (h : ∀ c ∈ cs, c ∈ r.caps ∨ (c.ownerPid = 0 ∧ c.granteePid = 0)) :
    Shrinks r (r.setCaps cs) :=
  ⟨h, fun _ he _ => mem_map_of_mem he, fun _ hw _ => hw⟩

theorem allowed_keeps {P : Registry → Prop} {live : Identities} (hl : ∀ w, P w → P (serviceLookup live w name).1)
    (h : P r) (pid : ℤ) (right source : UInt32) (path : Option CString) :
    P (backendAllowed live r name pid right source path).1 := by
  have hloop : ∀ (is : List ℕ) (w : Registry), P w → P (allowedLoop live name pid right source path is w).1 := by
    intro is
    induction is with
    | nil => exact fun w hw => hw
    | cons i is ih =>
      intro w hw
      unfold allowedLoop
      split
      · exact ih w hw
      split
      · dsimp only
        split
        · exact hl w hw
        · exact ih _ (hl w hw)
      · exact ih w hw
  unfold backendAllowed
  split
  · exact h
  · exact hloop _ r h

section
variable (live : Identities) (r : Registry) (name : CString) (pid : ℤ)

theorem shrinks_clearing (p : Cap → Bool) :
    Shrinks r (r.setCaps (r.caps.map fun c => if p c then c.clear else c)) := by
  refine shrinks_setCaps fun c hc => ?_
  obtain ⟨a, ha, rfl⟩ := mem_map.mp hc
  split
  · exact .inr ⟨rfl, rfl⟩
  · exact .inl ha

theorem shrinks_clearFirst (p : Cap → Bool) (hf : ∀ c, (f c).ownerPid = 0 ∧ (f c).granteePid = 0) :
    Shrinks r (r.setCaps (modifyFirst p f r.caps)) :=
  shrinks_setCaps (modifyFirst_forall (fun _ hc => .inl hc) fun c _ _ => .inr (hf c))

theorem shrinks_clearEntry (p : Entry → Bool) :
    Shrinks r (r.setEntries (modifyFirst p Entry.clear r.entries)) := by
  refine ⟨fun _ hc => .inl hc, ?_, fun _ hw _ => hw⟩
  exact modifyFirst_forall
    (fun e he _ => mem_map_of_mem he) fun e _ _ hpid => absurd rfl hpid

theorem bump_person :
    (backendGenerationBump r name).entries.map Entry.person = r.entries.map Entry.person :=
  modifyFirst_map _ _ _ (fun _ => by rfl) _

theorem shrinks_bump : Shrinks r (backendGenerationBump r name) :=
  ⟨fun _ hc => .inl hc, fun _ he _ => bump_person r name ▸ mem_map_of_mem he, fun _ hw _ => hw⟩

theorem shrinks_backendRemoveName : Shrinks r (backendRemoveName r name) := by
  unfold backendRemoveName
  dsimp only
  split
  · exact .refl r
  split
  · exact (shrinks_clearing r _).trans (shrinks_bump _ name)
  · exact .refl r

theorem shrinks_lookup : Shrinks r (serviceLookup live r name).1 := by
  unfold serviceLookup
  split
  · exact .refl r
  split
  · exact .refl r
  split
  · exact .refl r
  · exact (shrinks_clearEntry r _).trans (shrinks_backendRemoveName _ name)

theorem shrinks_allowed (right source : UInt32) (path : Option CString) :
    Shrinks r (backendAllowed live r name pid right source path).1 :=
  allowed_keeps (fun w hw => hw.trans (shrinks_lookup live w name)) (.refl r) pid right source path

theorem fewer_register : Fewer r (serviceRegister live r name pid).1 := by
  simp only [serviceRegister]
  split
  · exact .refl r
  split
  · split
    · exact .refl r
    · split <;> exact .refl r
  · split <;> exact .refl r

theorem shrinks_remove : Shrinks r (serviceRemove live r name pid).1 := by
  simp only [serviceRemove]
  split
  · exact .refl r
  split
  · exact (shrinks_clearEntry r _).trans (shrinks_backendRemoveName _ name)
  · exact .refl r

theorem shrinks_revoke (owner grantee : ℤ) :
    Shrinks r (backendRevoke live r name owner grantee).1 := by
  have hl := shrinks_lookup live r name
  unfold backendRevoke
  split
  · exact .refl r
  dsimp only
  split
  · exact hl
  split
  · exact (hl.trans (shrinks_clearFirst _ _ fun _ => ⟨rfl, rfl⟩)).trans (shrinks_bump _ name)
  · exact hl

theorem shrinks_release (grantee : ℤ) :
    Shrinks r (backendRelease r name grantee).1 := by
  unfold backendRelease
  split
  · exact .refl r
  split
  · exact (shrinks_clearFirst r _ fun _ => ⟨rfl, rfl⟩).trans (shrinks_bump _ name)
  · exact .refl r

theorem shrinks_backendRemovePid : Shrinks r (backendRemovePid r pid) := by
  unfold backendRemovePid
  split
  · exact .refl r
  have hbumped : Shrinks r ((r.caps.filter (Cap.names pid)).foldl (fun r c => backendGenerationBump r c.name) r) :=
    List.foldlRecOn _ _ (.refl r) fun w hw c _ => hw.trans (shrinks_bump w c.name)
  exact ⟨(shrinks_clearing r _).rows, hbumped.entries, hbumped.watches⟩

theorem shrinks_removePid : Shrinks r (serviceRemovePid r pid) := by
  have hb := shrinks_backendRemovePid r pid
  unfold serviceRemovePid
  split
  · exact .refl r
  refine ⟨hb.rows, fun e he hpid => ?_, hb.watches⟩
  obtain ⟨a, ha, rfl⟩ := mem_map.mp he
  split at hpid
  · exact absurd rfl hpid
  rename_i hne
  rw [if_neg hne]
  exact hb.entries a ha hpid

theorem fewer_handedOver (grantee : ℤ) : Fewer r (handedOver live r name grantee) :=
  (shrinks_backendRemoveName (r.setEntries _) name).caps

end

/-! ## What the rows keep -/

theorem bump_entries (r : Registry) (name : CString) :
    owners (backendGenerationBump r name).entries = owners r.entries :=
  modifyFirst_map _ _ _ (fun _ => by rfl) _

theorem Rows.congr (h : Rows r) (hc : r'.caps = r.caps) (he : owners r'.entries = owners r.entries) :
    Rows r' where
  entries := by
    intro e hmem
    have hin : (e.pid, e.name) ∈ owners r.entries := he ▸ mem_map.mpr ⟨e, hmem, rfl⟩
    obtain ⟨a, ha, hae⟩ := mem_map.mp hin
    obtain ⟨hpid, hname⟩ := Prod.mk.inj hae
    rw [← hpid, ← hname]
    exact h.entries a ha
  shape := hc ▸ h.shape
  owned := by
    rw [hc]
    intro c hmem hpos
    rw [ownerOf_congr _ he]
    exact h.owned c hmem hpos
  single := hc ▸ h.single

theorem Rows.bump (h : Rows r) (name : CString) : Rows (backendGenerationBump r name) :=
  h.congr rfl (bump_entries r name)

def Cap.key (c : Cap) : ℤ × ℤ × CString := (c.ownerPid, c.granteePid, c.name)

def Kept (c d : Cap) : Prop := d.key = c.key ∨ d.key = (0, 0, noText)

theorem Rows.kept {cs : List Cap} (h : Rows r) (hcs : Forall₂ Kept r.caps cs) : Rows (r.setCaps cs) := by
  obtain ⟨hlen, hget⟩ := forall₂_iff_get.mp hcs
  have hkeep : ∀ i : Fin cs.length, Kept (r.caps.get (i.cast hlen.symm)) (cs.get i) := fun i => hget i _ i.2
  have hkey := fun i (hpos : 0 < (cs.get i).ownerPid) =>
    (hkeep i).resolve_right fun hz => hpos.ne' (congrArg Prod.fst hz)
  refine ⟨h.entries, fun d hd => ?_, fun d hd hpos => ?_, pairwise_iff_get.mpr fun i j hij hi hj heq => ?_⟩
  · obtain ⟨i, rfl⟩ := get_of_mem hd
    have hshape := h.shape _ (get_mem r.caps (i.cast hlen.symm))
    have hk := hkeep i
    simp only [Kept, Cap.key, Prod.mk.injEq] at hk
    rcases hk with ⟨ho, hg, hn⟩ | hk
    · rwa [← ho, ← hg, ← hn] at hshape
    · exact .inr hk
  · obtain ⟨i, rfl⟩ := get_of_mem hd
    obtain ⟨ho, hp⟩ := Prod.mk.inj (hkey i hpos)
    have hown := h.owned _ (get_mem r.caps (i.cast hlen.symm)) (ho ▸ hpos)
    rwa [← ho, ← (Prod.mk.inj hp).2] at hown
  · obtain ⟨hoi, hpi⟩ := Prod.mk.inj (hkey i hi)
    obtain ⟨hoj, hpj⟩ := Prod.mk.inj (hkey j hj)
    exact pairwise_iff_get.mp h.single _ _ hij (hoi ▸ hi) (hoj ▸ hj) (hpi.symm.trans (heq.trans hpj))

theorem Rows.clearing (h : Rows r) (p : Cap → Bool) :
    Rows (r.setCaps (r.caps.map fun c => if p c then c.clear else c)) := by
  refine h.kept (forall₂_map_right_iff.mpr (forall₂_same.mpr fun c _ => ?_))
  split
  · exact .inr rfl
  · exact .inl rfl

theorem backendRemoveName_caps (hn : nameValid name = true) (r : Registry) : (backendRemoveName r name).caps =
      r.caps.map fun c => if 0 < c.ownerPid && nameEqual c.name name then c.clear else c := by
  simp only [backendRemoveName, hn, Bool.not_true, Bool.false_eq_true, if_false]
  split
  · rfl
  rename_i hnone
  have hsame : (r.caps.map fun c => if 0 < c.ownerPid && nameEqual c.name name then c.clear else c) =
      r.caps.map id := by
    refine map_congr_left fun c hc => if_neg fun hit => hnone ?_
    exact any_eq_true.mpr ⟨c, hc, hit⟩
  rw [hsame, map_id]

theorem backendRemoveName_entries (r : Registry) (name : CString) :
    owners (backendRemoveName r name).entries = owners r.entries := by
  unfold backendRemoveName
  dsimp only
  split
  · rfl
  split
  · exact bump_entries (r.setCaps _) name
  · rfl

section
variable (h : Rows r)
include h

theorem Rows.dropName (es : List Entry)
    (hn : nameValid name = true) (hes : ∀ e ∈ es, 0 ≤ e.pid ∧ (e.pid = 0 → e.name = noText))
    (hother : ∀ x, x ≠ name → ownerOf es x = ownerOf r.entries x) :
    Rows (backendRemoveName (r.setEntries es) name) ∧
    ∀ c ∈ (backendRemoveName (r.setEntries es) name).caps, 0 < c.ownerPid → c.name ≠ name := by
  have hcaps := backendRemoveName_caps hn (r.setEntries es)
  have hclear := h.clearing fun c => 0 < c.ownerPid && nameEqual c.name name
  have hgone : ∀ c ∈ (backendRemoveName (r.setEntries es) name).caps, 0 < c.ownerPid → c.name ≠ name := by
    rw [hcaps]
    intro c hc hpos
    obtain ⟨a, ha, rfl⟩ := mem_map.mp hc
    split at hpos
    · exact absurd hpos (lt_irrefl 0)
    rename_i hp
    rw [if_neg hp]
    intro heq
    exact hp (Bool.and_eq_true_iff.mpr ⟨decide_eq_true hpos, (nameEqual_valid hn).mpr heq⟩)
  have hcleared : Rows ((r.setEntries es).setCaps (r.caps.map fun c =>
      if 0 < c.ownerPid && nameEqual c.name name then c.clear else c)) := by
    refine ⟨hes, hclear.shape, fun c hc hpos => ?_, hclear.single⟩
    exact (hother c.name (hgone c (hcaps ▸ hc) hpos)).trans (hclear.owned c hc hpos)
  exact ⟨hcleared.congr hcaps (backendRemoveName_entries (r.setEntries es) name), hgone⟩

theorem Rows.dropFirst {p : Entry → Bool} {f : Entry → Entry} (hn : nameValid name = true)
    (hp : ∀ e, p e = true → e.name = name) (hf : ∀ e, f e = e.clear ∨ 0 < (f e).pid ∧ (f e).name = e.name) :
    Rows (backendRemoveName (r.setEntries (modifyFirst p f r.entries)) name) ∧
    ∀ c ∈ (backendRemoveName (r.setEntries (modifyFirst p f r.entries)) name).caps, 0 < c.ownerPid →
      c.name ≠ name := by
  refine h.dropName _ hn (modifyFirst_forall h.entries fun e _ _ => ?_) fun x hx => ?_
  · rcases hf e with he | ⟨hpos, -⟩
    · exact he ▸ ⟨le_rfl, fun _ => rfl⟩
    · exact ⟨hpos.le, fun h0 => absurd h0 hpos.ne'⟩
  have hother : ∀ e : Entry, e.name = name → e.holds x = false :=
    fun e he => Bool.eq_false_iff.mpr fun hhold => hx ((holds_name hhold).2.symm.trans he)
  refine ownerOf_modifyFirst (fun e he => hother e (hp e he)) (fun e he => ?_) r.entries
  rcases hf e with he | ⟨-, hname⟩
  · rw [he]
    rfl
  · exact hother _ (hname.trans (hp e he))

section
variable (live : Identities)

theorem lookup_cases (name : CString) :
    (∃ pid, serviceLookup live r name = (r, .ok pid) ∧ ownerOf r.entries name = some pid ∧
      nameValid name = true) ∨
    (∃ e, serviceLookup live r name = (r, .error e)) ∨
    (∃ r' e, serviceLookup live r name = (r', .error e) ∧ Rows r' ∧
      ∀ c ∈ r'.caps, 0 < c.ownerPid → c.name ≠ name) := by
  unfold serviceLookup
  split
  · exact .inr (.inl ⟨_, rfl⟩)
  rename_i hn
  have hn : nameValid name = true := by simpa using hn
  split
  · exact .inr (.inl ⟨_, rfl⟩)
  rename_i e he
  split
  · exact .inl ⟨e.pid, rfl, by rw [ownerOf, he, Option.map_some], hn⟩
  exact .inr (.inr ⟨_, _, rfl, h.dropFirst hn (fun e he => (holds_name he).2) fun _ => .inl rfl⟩)

theorem lookup_rows (name : CString) : Rows (serviceLookup live r name).1 := by
  rcases lookup_cases h live name with ⟨pid, hl, -⟩ | ⟨e, hl⟩ | ⟨r', e, hl, hr, -⟩ <;> rw [hl]
  · exact h
  · exact h
  · exact hr

theorem allowed_rows (name : CString) (pid : ℤ) (right source : UInt32) (path : Option CString) :
    Rows (backendAllowed live r name pid right source path).1 :=
  allowed_keeps (P := Rows) (fun _ hw => lookup_rows hw live name) h pid right source path

/-! ## Registering and handing over -/

theorem remove_rows (name : CString) (pid : ℤ) :
    Rows (serviceRemove live r name pid).1 := by
  simp only [serviceRemove]
  split
  · exact h
  rename_i hargs
  have hn : nameValid name = true := by
    simp_all
  split
  · refine (h.dropFirst hn (fun e he => ?_) fun _ => .inl rfl).1
    exact (nameEqual_valid hn).mp (Bool.and_eq_true_iff.mp (Bool.and_eq_true_iff.mp he).1).2
  · exact h

end

theorem register_rows {live : Identities}
    (hfresh : ∀ e ∈ r.entries, e.holds name = true → e.valid live = true) :
    Rows (serviceRegister live r name pid).1 := by
  simp only [serviceRegister]
  split
  · exact h
  rename_i hargs
  obtain ⟨hn, hpid⟩ : nameValid name = true ∧ 0 < pid := by simpa using hargs
  split
  · rename_i e he
    have hmem := mem_of_find?_eq_some he
    have hit := List.find?_some he
    have hvalid : e.valid live = true := by
      refine hfresh e hmem ?_
      obtain ⟨h0, hname⟩ := Bool.and_eq_true_iff.mp hit
      have := (h.entries e hmem).1
      have h0 : e.pid ≠ 0 := by simpa using h0
      exact Bool.and_eq_true_iff.mpr ⟨decide_eq_true (by omega), hname⟩
    rw [hvalid]
    split
    · exact h
    · exact h
  · rename_i hnone
    split
    · have hfree : ∀ e : Entry, (e.pid == 0) = true → ∀ x, e.holds x = false := by
        intro e he x
        have : e.pid = 0 := by simpa using he
        simp [Entry.holds, this]
      have hnobody : ownerOf r.entries name = none := by
        rw [ownerOf, Option.map_eq_none_iff]
        refine List.find?_eq_none.mpr fun e he hhold => ?_
        obtain ⟨hpos, hname⟩ := holds_name hhold
        refine List.find?_eq_none.mp hnone e he (Bool.and_eq_true_iff.mpr ⟨?_, (nameEqual_valid hn).mpr hname⟩)
        have : e.pid ≠ 0 := by omega
        simpa using this
      refine ⟨modifyFirst_forall h.entries fun _ _ _ => ⟨hpid.le, fun h0 => absurd h0 hpid.ne'⟩, h.shape, ?_,
        h.single⟩
      intro c hc hpos
      have hown := h.owned c hc hpos
      have hne : c.name ≠ name := by
        intro heq
        rw [heq, hnobody] at hown
        cases hown
      refine (ownerOf_modifyFirst (fun e he => hfree e he _) (fun e _ => ?_) r.entries).trans hown
      rw [Bool.eq_false_iff]
      exact fun hhold => hne (holds_name hhold).2.symm
    · exact h

/-! ## Revoking and releasing -/

theorem Rows.dropRow {p : Cap → Bool} (hf : ∀ c, (f c).key = (0, 0, noText)) (hg : 0 < grantee)
    (hp : ∀ c, p c = true → c.granteePid = grantee ∧ c.name = name) (hany : r.caps.any p = true) :
    Rows (backendGenerationBump (r.setCaps (modifyFirst p f r.caps)) name) ∧
    ∀ c ∈ modifyFirst p f r.caps, 0 < c.ownerPid → ¬(c.granteePid = grantee ∧ c.name = name) := by
  refine ⟨(h.kept (forall₂_modifyFirst (fun _ => .inl rfl) fun c _ => .inr (hf c))).bump name, ?_⟩
  obtain ⟨l₁, x, l₂, hsplit, hx, -, hmod⟩ := modifyFirst_split f hany
  obtain ⟨hxg, hxn⟩ := hp x hx
  have hshape := h.shape x (hsplit ▸ by simp)
  have hxpos : 0 < x.ownerPid := by omega
  have hsingle := h.single
  rw [hsplit] at hsingle
  obtain ⟨-, hright, hleft⟩ := pairwise_append.mp hsingle
  rw [hmod]
  rintro c hc hpos ⟨hcg, hcn⟩
  rcases mem_append.mp hc with hc | hc
  · exact hleft c hc x mem_cons_self hpos hxpos (by rw [hcg, hcn, hxg, hxn])
  · rcases mem_cons.mp hc with rfl | hc
    · exact absurd (congrArg Prod.fst (hf x)) hpos.ne'
    · exact (pairwise_cons.mp hright).1 c hc hxpos hpos (by rw [hcg, hcn, hxg, hxn])

end

theorem between_iff (hn : nameValid name = true) {c : Cap} :
    c.between name owner grantee = true ↔ c.ownerPid = owner ∧ c.granteePid = grantee ∧ c.name = name := by
  simp only [Cap.between, Bool.and_eq_true, beq_iff_eq, nameEqual_valid hn, and_assoc]

theorem heldBy_iff (hn : nameValid name = true) {c : Cap} :
    c.heldBy name grantee = true ↔ c.granteePid = grantee ∧ c.name = name := by
  simp only [Cap.heldBy, Bool.and_eq_true, beq_iff_eq, nameEqual_valid hn]

theorem revoke_rows (h : Rows r) (live : Identities) (name : CString) (owner grantee : ℤ) :
    Rows (backendRevoke live r name owner grantee).1 ∧
    ((backendRevoke live r name owner grantee).2 = .ok () →
      ∀ c ∈ (backendRevoke live r name owner grantee).1.caps, 0 < c.ownerPid →
        ¬(c.granteePid = grantee ∧ c.name = name)) := by
  have hl := lookup_rows h live name
  unfold backendRevoke
  split
  · exact ⟨h, by simp⟩
  rename_i hargs
  obtain ⟨⟨hn, howner⟩, hg⟩ : (nameValid name = true ∧ 0 < owner) ∧ 0 < grantee := by
    simpa using hargs
  dsimp only
  split
  · exact ⟨hl, by simp⟩
  split
  · rename_i hany
    obtain ⟨hr, hgone⟩ := hl.dropRow (f := Cap.clear) (fun _ => rfl) hg
      (fun c hc => ((between_iff hn).mp hc).2) hany
    exact ⟨hr, fun _ => hgone⟩
  · exact ⟨hl, by simp⟩

theorem release_rows (h : Rows r) (name : CString) (grantee : ℤ) : Rows (backendRelease r name grantee).1 ∧
    ((backendRelease r name grantee).2 = .ok () →
      ∀ c ∈ (backendRelease r name grantee).1.caps, 0 < c.ownerPid →
        ¬(c.granteePid = grantee ∧ c.name = name)) := by
  unfold backendRelease
  split
  · exact ⟨h, by simp⟩
  rename_i hargs
  obtain ⟨hn, hg⟩ : nameValid name = true ∧ 0 < grantee := by simpa using hargs
  split
  · rename_i hany
    obtain ⟨hr, hgone⟩ := h.dropRow (f := Cap.drop) (fun _ => rfl) hg (fun c hc => (heldBy_iff hn).mp hc) hany
    exact ⟨hr, fun _ => hgone⟩
  · exact ⟨h, by simp⟩

theorem clearToken_rows (h : Rows r) (name : CString) (grantee : ℤ) : Rows (backendClearToken r name grantee).1 ∧
    ∀ c ∈ (backendClearToken r name grantee).1.caps, c.works → c ∈ r.caps := by
  unfold backendClearToken
  split
  · exact ⟨h, fun _ hc _ => hc⟩
  split
  · refine ⟨h.kept (forall₂_modifyFirst (fun _ => .inl rfl) fun _ _ => .inl rfl), ?_⟩
    refine modifyFirst_forall (P := fun c => c.works → c ∈ r.caps) (fun c hc _ => hc) ?_
    exact fun c _ _ hw => absurd rfl hw.2
  · exact ⟨h, fun _ hc _ => hc⟩

/-! ## Removing a task -/

theorem backendRemovePid_entries (r : Registry) (pid : ℤ) :
    owners (backendRemovePid r pid).entries = owners r.entries := by
  unfold backendRemovePid
  split
  · rfl
  · exact List.foldlRecOn (motive := fun w : Registry => owners w.entries = owners r.entries) _ _ rfl
      fun w hw c _ => (bump_entries w c.name).trans hw

theorem backendRemovePid_caps (hpid : 0 < pid) (r : Registry) :
    (backendRemovePid r pid).caps = r.caps.map fun c => if c.names pid then c.clear else c := by
  unfold backendRemovePid
  rw [if_neg (by omega)]
  rfl

theorem backendRemovePid_names {r : Registry} {pid : ℤ} (hpid : 0 < pid) :
    ∀ c ∈ (backendRemovePid r pid).caps, c.names pid = false := by
  rw [backendRemovePid_caps hpid]
  refine forall_mem_map.mpr fun c _ => ?_
  split
  · simp [Cap.names, Cap.clear, hpid.ne]
  · rename_i hnames
    exact Bool.eq_false_iff.mpr hnames

theorem removeWatcherPid_watches {r : Registry} {pid : ℤ} (hpid : 0 < pid) :
    ∀ w ∈ (removeWatcherPid r pid).notifier.watches, w.pid ≠ pid := by
  unfold removeWatcherPid
  rw [if_neg (by omega)]
  refine forall_mem_map.mpr fun w _ => ?_
  split
  · exact hpid.ne
  · rename_i hne
    simpa using hne

theorem removeWatcherPid_tables (r : Registry) (pid : ℤ) :
    (removeWatcherPid r pid).entries = r.entries ∧ (removeWatcherPid r pid).caps = r.caps := by
  unfold removeWatcherPid
  split <;> exact ⟨rfl, rfl⟩

theorem backendRemovePid_rows (h : Rows r) (pid : ℤ) : Rows (backendRemovePid r pid) ∧
    (0 < pid → ∀ c ∈ (backendRemovePid r pid).caps, c.ownerPid ≠ pid ∧ c.granteePid ≠ pid) := by
  by_cases hpid : 0 < pid
  · have hcaps := backendRemovePid_caps hpid r
    refine ⟨(h.clearing _).congr hcaps (backendRemovePid_entries r pid), fun _ => ?_⟩
    rw [hcaps]
    refine forall_mem_map.mpr fun a ha => ?_
    split
    · exact ⟨hpid.ne, hpid.ne⟩
    rename_i hnames
    simpa [Cap.names] using hnames
  · have : backendRemovePid r pid = r := if_pos (by omega)
    rw [this]
    exact ⟨h, fun hp => absurd hp hpid⟩

theorem ownerOf_purge {q : ℤ} (hq : q ≠ pid) (h : ownerOf es name = some q) :
    ownerOf (es.map fun e => if e.pid == pid then e.purge else e) name = some q := by
  unfold ownerOf at h ⊢
  induction es with
  | nil => cases h
  | cons e es ih =>
    rw [map_cons, List.find?_cons]
    rw [List.find?_cons] at h
    by_cases hp : e.pid = pid
    · have hpurged : (if (e.pid == pid) = true then e.purge else e).holds name = false := by
        rw [if_pos (by simpa using hp)]
        rfl
      rw [hpurged]
      cases hh : e.holds name with
      | true =>
        rw [hh] at h
        exact absurd (hp.symm.trans (Option.some.inj h)).symm hq
      | false =>
        rw [hh] at h
        exact ih h
    · rw [if_neg (by simpa using hp)]
      cases hh : e.holds name with
      | true =>
        rw [hh] at h
        exact h
      | false =>
        rw [hh] at h
        exact ih h

theorem removePid_rows (h : Rows r) (pid : ℤ) : Rows (serviceRemovePid r pid) ∧
    (0 < pid → ∀ c ∈ (serviceRemovePid r pid).caps, c.ownerPid ≠ pid ∧ c.granteePid ≠ pid) := by
  obtain ⟨hr, hgone⟩ := backendRemovePid_rows h pid
  unfold serviceRemovePid
  split
  · exact ⟨h, fun hp => by omega⟩
  rename_i hpid
  have hgone := hgone (by omega)
  refine ⟨⟨?_, hr.shape, ?_, hr.single⟩, fun _ => hgone⟩
  · refine forall_mem_map.mpr fun a ha => ?_
    split
    · exact ⟨le_rfl, fun _ => rfl⟩
    · exact hr.entries a ha
  · intro c hc hpos
    exact ownerOf_purge (hgone c hc).1 (hr.owned c hc hpos)

/-! ## Granting -/

def newGrant (live : Identities) (name : CString) (ownerPid granteePid : ℤ) (rights sources : UInt32)
    (pre : CString) : Grant :=
  (Cap.stamped live ownerPid granteePid rights sources pre name 0).grant

/-- A grant to a task that has one already covers it, or is covered by it under the same prefix. -/
def mergesWell (r : Registry) (name : CString) (ownerPid granteePid : ℤ) (rights sources : UInt32)
    (pre : CString) : Prop :=
  ∀ c ∈ r.caps, c.between name ownerPid granteePid = true →
    (c.rights ||| rights = rights ∧ c.sources ||| sources = sources) ∨
    (c.rights ||| rights = c.rights ∧ c.sources ||| sources = c.sources ∧ c.pre = pre)

def Adds (g : Grant) (r r' : Registry) : Prop :=
  ∀ c ∈ r'.caps, c.works → c ∈ r.caps ∨ c.grant = g

theorem backendMerge_rows (h : Rows r) (live : Identities) {c : Cap} {pre : CString} (hn : nameValid name = true)
    (hpre : prefixValid pre = true) (hc : r.caps.find? (Cap.between name owner grantee) = some c)
    (hm : mergesWell r name owner grantee rights sources pre) :
    Rows (backendMerge live r c name owner grantee rights sources pre) ∧
    Adds (newGrant live name owner grantee rights sources pre) r
      (backendMerge live r c name owner grantee rights sources pre) := by
  have hmem := mem_of_find?_eq_some hc
  have hbetween := List.find?_some hc
  obtain ⟨ho, hg, hname⟩ := (between_iff hn).mp hbetween
  unfold backendMerge
  split
  · rename_i hchanged
    obtain ⟨hrights, hsources⟩ : c.rights ||| rights = rights ∧ c.sources ||| sources = sources := by
      rcases hm c hmem hbetween with hcovers | ⟨hr, hs, hp⟩
      · exact hcovers
      · rcases hchanged with hch | hch | hch
        · exact absurd hr.symm hch
        · exact absurd hs.symm hch
        · have hsame := prefixEqual_iff.mpr ⟨hp, hp ▸ prefixValid_length hpre⟩
          rw [hsame] at hch
          cases hch
    constructor
    · refine Rows.bump (r := ⟨r.entries, _, r.notifier, _, r.rightTokenNext⟩) ?_ name
      refine (h.kept (forall₂_modifyFirst (fun _ => .inl rfl) fun x hx => .inl ?_)).congr rfl rfl
      cases hx.symm.trans hc
      rw [← ho, ← hg]
      rfl
    · refine modifyFirst_forall (P := fun c => c.works → c ∈ r.caps ∨
        c.grant = newGrant live name owner grantee rights sources pre)
        (fun a ha _ => .inl ha) fun x _ _ _ => .inr ?_
      rw [hrights, hsources, hname]
      rfl
  · exact ⟨h, fun a ha _ => .inl ha⟩

theorem Rows.addRow (h : Rows r) (row : Cap) (ho : 0 < row.ownerPid) (hg : 0 < row.granteePid)
    (hown : ownerOf r.entries row.name = some row.ownerPid)
    (hnew : ∀ c ∈ r.caps, 0 < c.ownerPid → ¬(c.granteePid = row.granteePid ∧ c.name = row.name))
    (hany : (r.caps.any fun c => c.ownerPid == 0) = true) :
    Rows (r.setCaps (modifyFirst (fun c => c.ownerPid == 0) (fun _ => row) r.caps)) := by
  refine ⟨h.entries, modifyFirst_forall h.shape fun _ _ _ => .inl ⟨ho, hg⟩,
    modifyFirst_forall h.owned fun _ _ _ _ => hown, ?_⟩
  obtain ⟨l₁, x, l₂, hsplit, -, -, hmod⟩ := modifyFirst_split (fun _ => row) hany
  have hsingle := h.single
  rw [hsplit] at hsingle hnew
  obtain ⟨hl₁, hl₂, hcross⟩ := pairwise_append.mp hsingle
  simp only [Registry.setCaps, hmod]
  refine pairwise_append.mpr ⟨hl₁, pairwise_cons.mpr ⟨?_, (pairwise_cons.mp hl₂).2⟩, ?_⟩
  · intro b hb _ hpos heq
    obtain ⟨hgb, hnb⟩ := Prod.mk.inj heq
    exact hnew b (by simp [hb]) hpos ⟨hgb.symm, hnb.symm⟩
  · intro a ha b hb hpos hposb
    rcases mem_cons.mp hb with rfl | hb
    · intro heq
      exact hnew a (by simp [ha]) hpos (Prod.mk.inj heq)
    · exact hcross a ha b (mem_cons_of_mem x hb) hpos hposb

theorem backendGrant_rows (h : Rows r) (live : Identities) {pre : CString}
    (hm : mergesWell r name owner grantee rights sources pre) :
    Rows (backendGrant live r name owner grantee rights sources pre).1 ∧
    (((backendGrant live r name owner grantee rights sources pre).2 = .ok () ∧
      Adds (newGrant live name owner grantee rights sources pre) r
        (backendGrant live r name owner grantee rights sources pre).1) ∨
    Fewer r (backendGrant live r name owner grantee rights sources pre).1) := by
  have hl := lookup_rows h live name
  unfold backendGrant
  split
  · exact ⟨h, .inr (.refl r)⟩
  rename_i hargs
  simp only [Bool.or_eq_true, not_or, Bool.not_eq_true', Bool.not_eq_false, decide_eq_true_eq,
    not_le] at hargs
  obtain ⟨⟨⟨⟨⟨hn, howner⟩, hg⟩, -⟩, -⟩, hpre⟩ := hargs
  dsimp only
  split
  · exact ⟨hl, .inr (shrinks_lookup live r name).caps⟩
  rename_i hok
  -- the owner was found, so the lookup changed nothing
  obtain ⟨heq, hown⟩ : (serviceLookup live r name).1 = r ∧ ownerOf r.entries name = some owner := by
    rcases lookup_cases h live name with ⟨pid, hl, hown, -⟩ | ⟨e, hl⟩ | ⟨r', e, hl, -⟩
    · rw [hl] at hok
      simp only [ne_eq, not_not, Except.ok.injEq] at hok
      exact ⟨by rw [hl], hok ▸ hown⟩
    · rw [hl] at hok
      simp at hok
    · rw [hl] at hok
      simp at hok
  rw [heq]
  split
  · rename_i c hc
    obtain ⟨hr, ha⟩ := backendMerge_rows h live hn hpre hc hm
    exact ⟨hr, .inl ⟨rfl, ha⟩⟩
  rename_i hnone
  split
  · rename_i hany
    refine ⟨Rows.bump (r := ⟨r.entries, _, r.notifier, _, r.rightTokenNext⟩) ?_ name, .inl ⟨rfl, ?_⟩⟩
    · refine (h.addRow (Cap.stamped live owner grantee rights sources pre name r.tokenNext.val)
        howner hg hown (fun c hc hpos hkey => ?_) hany).congr rfl rfl
      -- another row of the name would be one of the same owner
      have hsame : c.ownerPid = owner := by
        have hco := h.owned c hc hpos
        rw [show c.name = name from hkey.2, hown] at hco
        exact (Option.some.inj hco).symm
      have hno := List.find?_eq_none.mp hnone c hc
      exact hno ((between_iff hn).mpr ⟨hsame, hkey⟩)
    · refine modifyFirst_forall (P := fun c => c.works → c ∈ r.caps ∨
        c.grant = newGrant live name owner grantee rights sources pre)
        (f := fun _ => Cap.stamped live owner grantee rights sources pre name r.tokenNext.val)
        (fun a ha _ => .inl ha) fun x _ _ _ => .inr (by rfl)
  · exact ⟨h, .inr (.refl r)⟩

def handoffGrants (live : Identities) (r : Registry) (name : CString) (granteePid : ℤ) : Bool :=
  nameEqual name vfsName &&
    match serviceLookup live r vfsVirtualName with
    | (r, .ok _) => (backendGrant live r name granteePid granteePid rightAll sourceAll noText).2 = .ok ()
    | (_, .error _) => false

theorem vfsHandoff_rows (h : Rows r) (live : Identities) (hn : nameValid name = true) (hg : 0 < grantee)
    (hgone : ∀ c ∈ r.caps, 0 < c.ownerPid → c.name ≠ name) : Rows (vfsHandoff live r name grantee) ∧
    ((handoffGrants live r name grantee = true ∧
      Adds (newGrant live name grantee grantee rightAll sourceAll noText) r (vfsHandoff live r name grantee)) ∨
    Fewer r (vfsHandoff live r name grantee)) := by
  unfold vfsHandoff handoffGrants
  split
  · rename_i hvfs
    rcases lookup_cases h live vfsVirtualName with ⟨pid, hl, -⟩ | ⟨e, hl⟩ | ⟨r', e, hl, hr, -⟩
    · rw [hl, hvfs]
      dsimp only
      have hm : mergesWell r name grantee grantee rightAll sourceAll noText := by
        intro c hc hb
        obtain ⟨ho, -, hname⟩ := (between_iff hn).mp hb
        exact absurd hname (hgone c hc (ho ▸ hg))
      obtain ⟨hr, hcase⟩ := backendGrant_rows h live hm
      refine ⟨hr, hcase.imp_left fun ⟨hok, hadds⟩ => ⟨?_, hadds⟩⟩
      rw [hok]
      rfl
    · rw [hl]
      exact ⟨h, .inr (.refl r)⟩
    · have hf := (shrinks_lookup live r vfsVirtualName).caps
      rw [hl] at hf ⊢
      exact ⟨hr, .inr hf⟩
  · exact ⟨h, .inr (.refl r)⟩

theorem handedOver_rows (h : Rows r) (live : Identities) (hn : nameValid name = true) (hg : 0 < grantee) :
    Rows (handedOver live r name grantee) ∧
    ∀ c ∈ (handedOver live r name grantee).caps, 0 < c.ownerPid → c.name ≠ name :=
  h.dropFirst hn (fun _ he => (nameEqual_valid hn).mp he) fun _ => .inr ⟨hg, rfl⟩

theorem grant_rows (h : Rows r) (live : Identities) (name : CString) (owner grantee : ℤ) :
    Rows (serviceGrant live r name owner grantee).1 ∧
    (((serviceGrant live r name owner grantee).1 = r ∧ (serviceGrant live r name owner grantee).2 ≠ .ok ()) ∨
    ∀ c ∈ (serviceGrant live r name owner grantee).1.caps, c.works → (c ∈ r.caps ∧ c.name ≠ name) ∨
      ((serviceGrant live r name owner grantee).2 = .ok () ∧
        handoffGrants live (handedOver live r name grantee) name grantee = true ∧
        c.grant = newGrant live name grantee grantee rightAll sourceAll noText)) := by
  unfold serviceGrant
  split
  · exact ⟨h, .inl ⟨rfl, by simp⟩⟩
  rename_i hargs
  split
  · exact ⟨h, .inl ⟨rfl, by simp⟩⟩
  rename_i hg
  split
  · exact ⟨h, .inl ⟨rfl, by simp⟩⟩
  split
  · exact ⟨h, .inl ⟨rfl, by simp⟩⟩
  have hn : nameValid name = true := by
    simp_all
  obtain ⟨hr, hgone⟩ := handedOver_rows h live hn (not_le.mp hg)
  obtain ⟨hr', hcase⟩ := vfsHandoff_rows hr live hn (not_le.mp hg) hgone
  refine ⟨hr', .inr fun c hc hw => ?_⟩
  have hold : c ∈ (handedOver live r name grantee).caps → c ∈ r.caps ∧ c.name ≠ name := fun hmem =>
    ⟨fewer_handedOver live r name grantee c hmem hw.1, hgone c hmem hw.1⟩
  rcases hcase with ⟨hhand, hadds⟩ | hfewer
  · exact (hadds c hc hw).imp hold fun hnew => ⟨rfl, hhand, hnew⟩
  · exact .inl (hold (hfewer c hc hw.1))

end Mohhdy.Kernel
