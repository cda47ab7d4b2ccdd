import Mohhdy.Kernel.Services
import Mohhdy.Kernel.Mailbox

/-! What a kill that is refused leaves alone. The purges of `sys_kill` come before the check, so it is
only a number that no table is about. -/
namespace Mohhdy.Kernel
set_option autoImplicit false

open Words Tables Runs List

variable {name : CString} {s : System}

def nameValidIn (s : System) (name : CString) : Bool :=
  (s.registry.entries.find? (Entry.holds name)).all (Entry.valid s.live)

def nameServed (s : System) (name : CString) : Bool :=
  (s.registry.entries.find? (Entry.holds name)).all fun e => e.valid s.live && (s.userTask e.pid).isSome

/-- Nothing in the tables is about the number, and the purge of a task finds the two drivers it looks
for, or none. The network driver is looked for after the bridge, which may have started a task. -/
def outOfTables (s : System) (drivers : Drivers) (pid : ℤ) : Prop :=
  collectOwned s.live s.registry.entries pid = [] ∧
  (0 < pid → (∀ c ∈ s.registry.caps, c.names pid = false) ∧
    (∀ w ∈ s.registry.notifier.watches, w.pid ≠ pid) ∧ NoRows s.tasking.spill pid) ∧
  (purgeIsDriver drivers pid [] = true → nameValidIn s ataDriverName = true) ∧
  nameServed (bridgeAfterPurge s drivers (purgeIsDriver drivers pid [])) netDriverName = true

/-! ## A purge that finds nothing -/

theorem lookup_valid {live : Identities} {r : Registry}
    (h : (r.entries.find? (Entry.holds name)).all (fun e => e.valid live) = true) :
    (∃ err, serviceLookup live r name = (r, .error err)) ∨
    ∃ e, r.entries.find? (Entry.holds name) = some e ∧ serviceLookup live r name = (r, .ok e.pid) := by
  unfold serviceLookup
  split
  · exact .inl ⟨_, rfl⟩
  split
  · exact .inl ⟨_, rfl⟩
  rename_i e he
  rw [he, Option.all_some] at h
  rw [if_pos h]
  exact .inr ⟨e, he, rfl⟩

theorem nameServed_valid (h : nameServed s name = true) : nameValidIn s name = true := by
  unfold nameServed at h
  unfold nameValidIn
  cases hf : s.registry.entries.find? (Entry.holds name) with
  | none => rfl
  | some e =>
    rw [hf, Option.all_some, Bool.and_eq_true] at h
    exact h.1

theorem sysServiceLookup_served (h : nameServed s name = true) : (sysServiceLookup s name).1 = s := by
  unfold sysServiceLookup
  rcases lookup_valid (nameServed_valid h) with ⟨err, hl⟩ | ⟨e, he, hl⟩
  · rw [hl]
    rfl
  · have huser : (s.userTask e.pid).isSome = true := by
      rw [nameServed, he, Option.all_some, Bool.and_eq_true] at h
      exact h.2
    rw [hl]
    dsimp only
    rw [if_pos huser]
    rfl

theorem backendRemovePid_unnamed {r : Registry} {pid : ℤ} (h : 0 < pid → ∀ c ∈ r.caps, c.names pid = false) :
    backendRemovePid r pid = r := by
  unfold backendRemovePid
  split
  · rfl
  rename_i hpid
  have hnone := h (by omega)
  have hfilter : r.caps.filter (Cap.names pid) = [] :=
    filter_eq_nil_iff.mpr fun c hc => by simp [hnone c hc]
  have hmap : (r.caps.map fun c => if c.names pid then c.clear else c) = r.caps.map id :=
    map_congr_left fun c hc => by simp [hnone c hc]
  rw [hfilter, hmap, map_id]
  rfl

theorem removeWatcherPid_unnamed {r : Registry} {pid : ℤ}
    (h : 0 < pid → ∀ w ∈ r.notifier.watches, w.pid ≠ pid) : removeWatcherPid r pid = r := by
  unfold removeWatcherPid
  split
  · rfl
  rename_i hpid
  have hmap : (r.notifier.watches.map fun w => if w.pid == pid then { w with pid := 0, name := noText } else w) =
      r.notifier.watches.map id :=
    map_congr_left fun w hw => by simp [h (by omega) w hw]
  rw [hmap, map_id]
  rfl

/-- The bridge may start a driver, which has no place in the tables yet. -/
theorem bridgeAfterPurge_quiet {died : Bool} (drivers : Drivers)
    (h : died = true → nameValidIn s ataDriverName = true) :
    (bridgeAfterPurge s drivers died).registry = s.registry ∧
    (bridgeAfterPurge s drivers died).tasking.spill = s.tasking.spill := by
  unfold bridgeAfterPurge
  split
  · exact ⟨rfl, rfl⟩
  rename_i hdied
  rcases lookup_valid (h (by simpa using hdied)) with ⟨err, hl⟩ | ⟨e, -, hl⟩
  · rw [hl]
    dsimp only
    split
    · exact ⟨rfl, rfl⟩
    refine ⟨rfl, ?_⟩
    unfold kernelStep taskStep
    split
    · dsimp only
      split <;> rfl
    · rfl
  · rw [hl]
    exact ⟨rfl, rfl⟩

theorem purgeTask_quiet {drivers : Drivers} {pid : ℤ} (h : outOfTables s drivers pid) :
    (purgeTask s drivers pid).registry = s.registry ∧
    (purgeTask s drivers pid).tasking.spill = s.tasking.spill := by
  obtain ⟨howned, hrows, hata, hnet⟩ := h
  obtain ⟨hr, hspill⟩ := bridgeAfterPurge_quiet drivers hata
  have hpurge : notifyPurgePid s drivers pid = bridgeAfterPurge s drivers (purgeIsDriver drivers pid []) := by
    simp only [notifyPurgePid, howned]
    exact sysServiceLookup_served hnet
  simp only [purgeTask, hpurge, System.setRegistry, hr, hspill, and_true]
  rw [backendRemovePid_unnamed fun hpid => (hrows hpid).1,
    removeWatcherPid_unnamed fun hpid => (hrows hpid).2.1]

/-! ## A purge that finds something

An entry that is cleared is not filled again, so the purge leaves the number of the taken ones only
when it clears none. -/

def taken (r : Registry) : ℕ := r.entries.countP fun e => e.pid != 0

theorem taken_of_owners {r r' : Registry} (h : owners r'.entries = owners r.entries) : taken r' = taken r := by
  have hcount : ∀ w : Registry, taken w = (owners w.entries).countP fun o => o.1 != 0 := fun w => by
    rw [owners, countP_map]
    rfl
  rw [hcount, hcount, h]

theorem taken_clearFirst {r : Registry} {p : Entry → Bool} {e : Entry} (h : r.entries.find? p = some e)
    (he : e.pid ≠ 0) : taken (r.setEntries (modifyFirst p Entry.clear r.entries)) < taken r := by
  obtain ⟨l₁, l₂, hsplit, -, -, hclear⟩ := modifyFirst_found h Entry.clear
  simp only [taken, Registry.setEntries, hclear]
  rw [hsplit]
  simp [countP_append, Entry.clear, he]

theorem taken_removeName (r : Registry) (name : CString) : taken (backendRemoveName r name) = taken r :=
  taken_of_owners (backendRemoveName_entries r name)

theorem holds_iff {e : Entry} : e.holds name = true ↔ 0 < e.pid ∧ nameEqual e.name name = true := by
  simp [Entry.holds]

theorem taken_lookup (live : Identities) (r : Registry) (hn : nameValid name = true) :
    taken (serviceLookup live r name).1 ≤ taken r ∧
    ((r.entries.find? (Entry.holds name)).all (Entry.valid live) = false →
      taken (serviceLookup live r name).1 < taken r) := by
  unfold serviceLookup
  rw [hn]
  cases hf : r.entries.find? (Entry.holds name) with
  | none => exact ⟨le_rfl, fun h => by cases h⟩
  | some e =>
    have hlt := taken_clearFirst hf (holds_iff.mp (find?_some hf)).1.ne'
    rw [← taken_removeName _ name] at hlt
    cases hv : e.valid live with
    | true => exact ⟨by simp [hv], fun h => by simp [hv] at h⟩
    | false => exact ⟨by simpa [hv] using hlt.le, fun _ => by simpa [hv] using hlt⟩

theorem taken_serviceRemove {live : Identities} {r : Registry} {e : Entry} (hn : nameValid name = true)
    (he : r.entries.find? (Entry.holds name) = some e) (hvalid : e.valid live = true) :
    taken (serviceRemove live r name e.pid).1 < taken r := by
  obtain ⟨hpos, hname⟩ := holds_iff.mp (find?_some he)
  have hfound : r.entries.any (fun a => a.pid == e.pid && nameEqual a.name name && a.valid live) = true :=
    any_eq_true.mpr ⟨e, mem_of_find?_eq_some he, by simp [hname, hvalid]⟩
  obtain ⟨a, ha⟩ := Option.isSome_iff_exists.mp (find?_isSome.mpr (any_eq_true.mp hfound))
  have hsame : a.pid = e.pid := by
    have := find?_some ha
    simp only [Bool.and_eq_true, beq_iff_eq] at this
    exact this.1.1
  simp only [serviceRemove, hn, hpos.not_ge, hfound, Bool.not_true, decide_false, Bool.or_self, Bool.false_eq_true,
    if_false, if_true, taken_removeName]
  exact taken_clearFirst ha (hsame ▸ hpos.ne')

theorem lookup_lost (hn : nameValid name = true) (h : nameValidIn s name = false) :
    ∃ r err, serviceLookup s.live s.registry name = (r, .error err) := by
  unfold serviceLookup
  cases hf : s.registry.entries.find? (Entry.holds name) with
  | none => simp [nameValidIn, hf] at h
  | some e =>
    have hbad : e.valid s.live = false := by simpa [nameValidIn, hf] using h
    simp [hn, hbad]

theorem notifyChange_entries (s : System) (name : CString) (oldPid newPid : ℤ) (reason : ServiceReason) :
    (notifyChange s name oldPid newPid reason).registry.entries = s.registry.entries := by
  unfold notifyChange
  split
  · rfl
  · refine List.foldlRecOn (motive := fun w : System => w.registry.entries = s.registry.entries) _ _ rfl
      fun w hw q _ => ?_
    unfold notifyWatcher
    split
    · exact hw
    split
    · exact hw
    · exact hw

theorem taken_notifyChange (s : System) (name : CString) (oldPid newPid : ℤ) (reason : ServiceReason) :
    taken (notifyChange s name oldPid newPid reason).registry = taken s.registry := by
  rw [taken, notifyChange_entries, taken]

theorem taken_sysServiceLookup (s : System) (hn : nameValid name = true) :
    taken (sysServiceLookup s name).1.registry ≤ taken s.registry ∧
    (nameServed s name = false → taken (sysServiceLookup s name).1.registry < taken s.registry) := by
  by_cases hv : nameValidIn s name = true
  · rcases lookup_valid hv with ⟨err, hl⟩ | ⟨e, he, hl⟩
    all_goals unfold sysServiceLookup; rw [hl]
    · refine ⟨le_rfl, fun hserved => ?_⟩
      unfold serviceLookup at hl
      cases hf : s.registry.entries.find? (Entry.holds name) with
      | none => simp [nameServed, hf] at hserved
      | some e =>
        have hvalid : e.valid s.live = true := by simpa [nameValidIn, hf] using hv
        simp [hn, hf, hvalid] at hl
    dsimp only
    have hvalid : e.valid s.live = true := by simpa [nameValidIn, he] using hv
    split
    · rename_i huser
      exact ⟨le_rfl, fun hserved => by simp [nameServed, he, hvalid, huser] at hserved⟩
    -- the owner is gone, and the entry with it
    have hlt := taken_serviceRemove hn he hvalid
    rw [dropOwner, taken_notifyChange]
    exact ⟨hlt.le, fun _ => hlt⟩
  · have hlt := (taken_lookup s.live s.registry hn).2 (by simpa [nameValidIn] using hv)
    obtain ⟨r, err, hl⟩ := lookup_lost hn (Bool.eq_false_iff.mpr hv)
    rw [hl] at hlt
    unfold sysServiceLookup
    rw [hl]
    exact ⟨hlt.le, fun _ => hlt⟩

theorem taken_bridge (s : System) (drivers : Drivers) (died : Bool) :
    taken (bridgeAfterPurge s drivers died).registry ≤ taken s.registry ∧
    (died = true → nameValidIn s ataDriverName = false →
      taken (bridgeAfterPurge s drivers died).registry < taken s.registry) := by
  have hl := taken_lookup s.live s.registry (show nameValid ataDriverName = true by decide)
  have hreg : died = true → (bridgeAfterPurge s drivers died).registry =
      (serviceLookup s.live s.registry ataDriverName).1 := by
    rintro rfl
    unfold bridgeAfterPurge
    rw [if_neg (by simp)]
    split
    · rename_i heq
      rw [heq]
      rfl
    rename_i heq
    rw [heq]
    split <;> rfl
  cases died with
  | false => exact ⟨le_rfl, fun h => by cases h⟩
  | true =>
    rw [hreg rfl]
    exact ⟨hl.1, fun _ hbad => hl.2 hbad⟩

theorem taken_removePid {s : System} {pid : ℤ} (hpid : 0 < pid) {e : Entry} (he : e ∈ s.registry.entries)
    (hown : e.pid = pid) : taken (removePid s pid).registry < taken s.registry := by
  have hbackend := taken_of_owners (backendRemovePid_entries s.registry pid)
  have hin : pid ∈ (backendRemovePid s.registry pid).entries.map Entry.pid := by
    have howners := congrArg (List.map Prod.fst) (backendRemovePid_entries s.registry pid)
    simp only [owners, map_map] at howners
    rw [show Entry.pid = Prod.fst ∘ fun e : Entry => (e.pid, e.name) from rfl, howners]
    exact mem_map.mpr ⟨e, he, hown⟩
  obtain ⟨a, ha, hsame⟩ := mem_map.mp hin
  obtain ⟨l₁, l₂, hsplit⟩ := append_of_mem ha
  rw [← hbackend]
  simp only [removePid, serviceRemovePid, if_neg (show ¬pid ≤ 0 by omega), taken, Registry.setEntries,
    Registry.setNotifier]
  -- no entry is filled, and the one of the task is cleared
  have hle : ∀ es : List Entry, (es.map fun e => if e.pid == pid then e.purge else e).countP (fun e => e.pid != 0) ≤
      es.countP fun e => e.pid != 0 := by
    intro es
    rw [countP_map]
    refine countP_mono_left fun b _ hb => ?_
    simp only [Function.comp] at hb
    split at hb
    · simp [Entry.purge] at hb
    · exact hb
  rw [hsplit, map_append, map_cons, countP_append, countP_append, countP_cons, countP_cons]
  have h₁ := hle l₁
  have h₂ := hle l₂
  simp only [hsame, beq_self_eq_true, if_true, show a.purge.pid = 0 from rfl, bne_self_eq_false,
    Bool.false_eq_true, if_false, show (pid != 0) = true from by simpa using hpid.ne']
  omega

theorem taken_purge_owned {drivers : Drivers} {pid : ℤ} (hne : collectOwned s.live s.registry.entries pid ≠ []) :
    taken (notifyPurgePid s drivers pid).registry < taken s.registry := by
  obtain ⟨e, he⟩ := exists_mem_of_ne_nil _ hne
  have hpid : 0 < pid := by
    by_contra hle
    exact hne (by rw [collectOwned, if_pos (by omega)])
  have hmem : e ∈ s.registry.entries ∧ e.pid = pid := by
    rw [collectOwned, if_neg (by omega), mem_filter, Bool.and_eq_true, beq_iff_eq] at he
    exact ⟨he.1, he.2.1⟩
  simp only [notifyPurgePid, if_neg fun h => hne (isEmpty_iff.mp h)]
  set told := (collectOwned s.live s.registry.entries pid).foldl
    (fun s e => notifyChange s e.name pid 0 .purged) s
  have hentries : told.registry.entries = s.registry.entries :=
    List.foldlRecOn (motive := fun w : System => w.registry.entries = s.registry.entries) _ _ rfl
      fun w hw a _ => (notifyChange_entries w a.name pid 0 .purged).trans hw
  calc _ ≤ taken (bridgeAfterPurge (removePid told pid) drivers
            (purgeIsDriver drivers pid (collectOwned s.live s.registry.entries pid))).registry :=
          (taken_sysServiceLookup _ (show nameValid netDriverName = true by decide)).1
    _ ≤ taken (removePid told pid).registry := (taken_bridge _ drivers _).1
    _ < taken told.registry := taken_removePid hpid (hentries ▸ hmem.1) hmem.2
    _ = taken s.registry := by rw [taken, hentries, taken]

/-- The purge leaves as many entries as there were only when it has nothing to clear. -/
theorem notifyPurgePid_taken {drivers : Drivers} {pid : ℤ}
    (h : taken s.registry ≤ taken (notifyPurgePid s drivers pid).registry) :
    collectOwned s.live s.registry.entries pid = [] ∧
    (purgeIsDriver drivers pid [] = true → nameValidIn s ataDriverName = true) ∧
    nameServed (bridgeAfterPurge s drivers (purgeIsDriver drivers pid [])) netDriverName = true := by
  have howned : collectOwned s.live s.registry.entries pid = [] := by
    by_contra hne
    exact (taken_purge_owned hne).not_ge h
  simp only [notifyPurgePid, howned, isEmpty_nil, if_true] at h
  obtain ⟨hle, hlost⟩ := taken_bridge s drivers (purgeIsDriver drivers pid [])
  obtain ⟨hle', hlost'⟩ := taken_sysServiceLookup (bridgeAfterPurge s drivers (purgeIsDriver drivers pid []))
    (show nameValid netDriverName = true by decide)
  refine ⟨howned, fun hdied => ?_, ?_⟩
  · by_contra hbad
    have := hlost hdied (Bool.eq_false_iff.mpr hbad)
    omega
  · by_contra hbad
    have := hlost' (Bool.eq_false_iff.mpr hbad)
    omega

theorem purgeTask_found {drivers : Drivers} {pid : ℤ} (hr : (purgeTask s drivers pid).registry = s.registry)
    (hspill : 0 < pid → NoRows s.tasking.spill pid) : outOfTables s drivers pid := by
  have hr' : removeWatcherPid (backendRemovePid (notifyPurgePid s drivers pid).registry pid) pid = s.registry := hr
  obtain ⟨hentries, hcaps⟩ :=
    removeWatcherPid_tables (backendRemovePid (notifyPurgePid s drivers pid).registry pid) pid
  have htaken : taken s.registry = taken (notifyPurgePid s drivers pid).registry := by
    rw [← taken_of_owners (backendRemovePid_entries (notifyPurgePid s drivers pid).registry pid), taken, ← hr',
      hentries, taken]
  obtain ⟨howned, hata, hnet⟩ := notifyPurgePid_taken htaken.le
  refine ⟨howned, fun hpid => ⟨?_, ?_, hspill hpid⟩, hata, hnet⟩
  · rw [← hr', hcaps]
    exact backendRemovePid_names hpid
  · rw [← hr']
    exact removeWatcherPid_watches hpid

/-- A kill that is refused leaves the tables as they were just when no table is about the number and
the drivers it looks for are there. -/
theorem refusedKill_changesNothing_iff (s : System) (caller pid : ℤ) (drivers : Drivers) (err : TaskErr)
    (hrefused : (sysKill s caller pid drivers).2 = .error err) :
    ((sysKill s caller pid drivers).1.registry = s.registry ∧
      (sysKill s caller pid drivers).1.tasking.spill = s.tasking.spill) ↔ outOfTables s drivers pid := by
  have hregistry : (sysKill s caller pid drivers).1.registry = (purgeTask s drivers pid).registry := rfl
  -- the refusal leaves the spill to the purge of its rows
  have hspill : (sysKill s caller pid drivers).1.tasking.spill =
      if pid ≤ 0 then (purgeTask s drivers pid).tasking.spill
      else spillClearPid (purgeTask s drivers pid).tasking.spill pid := by
    simp only [sysKill] at hrefused ⊢
    generalize hT : (if pid ≤ 0 then (purgeTask s drivers pid).tasking
      else (purgeTask s drivers pid).tasking.setSpill (spillClearPid (purgeTask s drivers pid).tasking.spill pid)) = T
      at hrefused ⊢
    rcases taskKill_cases T caller pid with ⟨e, he⟩ | ⟨t, -, hok⟩
    · rw [he, ← hT]
      split <;> rfl
    · rw [hok] at hrefused
      cases hrefused
  rw [hregistry, hspill]
  constructor
  · rintro ⟨hr, hrows⟩
    refine purgeTask_found hr fun hpid => ?_
    rw [← hrows, if_neg (by omega)]
    exact noRows_clear
  · intro h
    obtain ⟨hr, hkept⟩ := purgeTask_quiet h
    refine ⟨hr, ?_⟩
    split
    · exact hkept
    · rename_i hpid
      rw [hkept, spillClearPid_eq (h.2.1 (by omega)).2.2]

def strangers : System := run systemStep System.init twoTasks

theorem refusedKill_changesNothing_iff_stranger : let drivers : Drivers := ⟨[], none⟩
    (sysKill strangers 1 2 drivers).1.registry = strangers.registry ∧
    (sysKill strangers 1 2 drivers).1.tasking.spill = strangers.tasking.spill :=
  (refusedKill_changesNothing_iff strangers 1 2 ⟨[], none⟩ .controlDenied (by decide +kernel)).mpr
    (by unfold outOfTables; decide +kernel)

/-- A task that may not kill another one takes its service away all the same. -/
theorem refusedKill_unregisters : let drivers : Drivers := ⟨[], none⟩
    (sysKill strangers 2 1 drivers).2 = .error .controlDenied ∧
    (strangers.registry.entries.filter fun e => 0 < e.pid).map Entry.pid = [1] ∧
    ((sysKill strangers 2 1 drivers).1.registry.entries.filter fun e => 0 < e.pid) = [] := by
  decide +kernel

end Mohhdy.Kernel
