import Mohhdy.Foundations.Runs
import Mohhdy.Kernel.Names

/-! The table of persistent mounts and its journal (`src/kernel/service_registry.c`).

The journal is a header of four words (magic, version, number of records, sum of the bytes of the
records) and one record of 69 bytes for each active mount. -/
namespace Mohhdy.Kernel
set_option autoImplicit false

open Words Tables Runs List

variable {name pre : CString}

structure Mount where
  (serviceName pathPrefix : CString)
  source : UInt32
  active : Bool
deriving DecidableEq

def Mount.cleared : Mount := ⟨noText, noText, 0, false⟩

def noMounts : List Mount := List.replicate 8 Mount.cleared

def Mount.isAt (name pre : CString) (m : Mount) : Bool :=
  m.active && nameEqual m.serviceName name && prefixEqual m.pathPrefix pre

variable (ms : List Mount)

def mountInsert (name pre : CString) (source : UInt32) : Except ServiceErr (List Mount) :=
  if nameValid name = false ∨ pre = noText ∨ prefixValid pre = false then .error .badName
  else if ms.any (Mount.isAt name pre) then
    .ok (modifyFirst (Mount.isAt name pre) (fun m => { m with source := source }) ms)
  else if ms.any fun m => !m.active then
    .ok (modifyFirst (fun m => !m.active) (fun _ => ⟨name, pre, source, true⟩) ms)
  else .error .full

def persistentMountRemove (name pre : CString) : Except ServiceErr (List Mount) :=
  if nameValid name = false then .error .badName
  else if ms.any (Mount.isAt name pre) then
    .ok (modifyFirst (Mount.isAt name pre)
      (fun m => { m with active := false, serviceName := noText, pathPrefix := noText }) ms)
  else .error .notFound

/-! ## The journal -/

/-- `mount_journal_checksum`. -/
def journalSum (b : List UInt8) : UInt32 := b.foldl (fun sum x => sum + x.toUInt32) 0

/-- `mount_journal_entry_t`. -/
def mountRecord (m : Mount) : List UInt8 :=
  textField 16 m.serviceName ++ (textField 48 m.pathPrefix ++ (le32 m.source ++ [1]))

def mountHeader (body : List UInt8) (count : ℕ) : List UInt8 :=
  le32 0x4A544E4D ++ (le32 1 ++ (le32 (UInt32.ofNat count) ++ le32 (journalSum body)))

def mountJournalExport (cap : ℕ) : Except ServiceErr (List UInt8) :=
  let recs := ms.filter Mount.active
  let need := 16 + recs.length * 69
  if cap < need ∨ 1024 < need then .error .full
  else
    let body := recs.flatMap mountRecord
    .ok (mountHeader body recs.length ++ (body ++ List.replicate (cap - need) 0))

def readMount (b : List UInt8) : Mount :=
  ⟨readText 16 b, readText 48 (b.drop 16), readLe32 (b.drop 64), (b.drop 68).headD 0 ≠ 0⟩

def mountImportLoop : ℕ → List UInt8 → List Mount → List Mount × Except ServiceErr Unit
  | 0, _, ms => (ms, .ok ())
  | n + 1, b, ms =>
    let m := readMount b
    if m.active then
      match mountInsert ms m.serviceName m.pathPrefix m.source with
      | .error _ => (ms, .error .full)
      | .ok ms' => mountImportLoop n (b.drop 69) ms'
    else mountImportLoop n (b.drop 69) ms

def mountHeaderError (buf : List UInt8) : Option ServiceErr :=
  let count := (readLe32 (buf.drop 8)).toNat
  if buf.length < 16 then some .badName
  else if readLe32 buf ≠ 0x4A544E4D ∨ readLe32 (buf.drop 4) ≠ 1 then some .notFound
  else if count = 0 ∨ 8 < count then some .notFound
  else if buf.length < 16 + count * 69 then some .notFound
  else if readLe32 (buf.drop 12) ≠ journalSum ((buf.drop 16).take (count * 69)) then some .notFound
  else none

def mountJournalImport (buf : List UInt8) : List Mount × Except ServiceErr Unit :=
  match mountHeaderError buf with
  | some e => (ms, .error e)
  | none => mountImportLoop (readLe32 (buf.drop 8)).toNat (buf.drop 16) noMounts

/-! ## The tables that adding and removing reach -/

inductive MountOp where
  | add (name pre : CString) (source : UInt32)
  | remove (name pre : CString)

/-- `service_registry_persistent_mount_add` and `service_registry_persistent_mount_remove`; a
call that fails leaves the table alone. -/
def mountStep : MountOp → List Mount
  | .add name pre source => (mountInsert ms name pre source).toOption.getD ms
  | .remove name pre => (persistentMountRemove ms name pre).toOption.getD ms

def mountsOf : List (CString × CString × UInt32) :=
  (ms.filter Mount.active).map fun m => (m.serviceName, m.pathPrefix, m.source)

structure Mount.Ok (m : Mount) : Prop where
  name : nameValid m.serviceName = true
  ne : m.pathPrefix ≠ noText
  pathPrefix : prefixValid m.pathPrefix = true

def Mount.key (m : Mount) : CString × CString := (m.serviceName, m.pathPrefix)

structure MountsOk (ms : List Mount) : Prop where
  length : ms.length = 8
  ok : ∀ m ∈ ms, m.active = true → m.Ok
  distinct : ((ms.filter Mount.active).map Mount.key).Nodup

theorem Mount.isAt_iff {m : Mount} (h : m.active = true → m.Ok) :
    m.isAt name pre = true ↔ m.active = true ∧ m.key = (name, pre) := by
  simp only [Mount.isAt, Bool.and_eq_true, nameEqual_iff, prefixEqual_iff, Mount.key, Prod.mk.injEq]
  constructor
  · rintro ⟨⟨ha, hn, -⟩, hp, -⟩
    exact ⟨ha, hn, hp⟩
  · rintro ⟨ha, hn, hp⟩
    exact ⟨⟨ha, hn, nameValid_length (h ha).name⟩, hp, prefixValid_length (h ha).pathPrefix⟩

variable {l₁ l₂ : List Mount} {x y : Mount}

theorem noMounts_ok : MountsOk noMounts where
  length := rfl
  ok := by
    intro m hm ha
    rw [eq_of_mem_replicate hm] at ha
    exact absurd ha (by decide)
  distinct := nodup_nil

theorem MountsOk.put (h : MountsOk (l₁ ++ x :: l₂)) (hy : y.active = true → y.Ok)
    (hd : (((l₁ ++ y :: l₂).filter Mount.active).map Mount.key).Nodup) : MountsOk (l₁ ++ y :: l₂) where
  length := by simpa using h.length
  ok := by
    intro m hm ha
    rcases mem_append.mp hm with hm | hm
    · exact h.ok m (by simp [hm]) ha
    rcases mem_cons.mp hm with rfl | hm
    · exact hy ha
    · exact h.ok m (by simp [hm]) ha
  distinct := hd

theorem MountsOk.replace (h : MountsOk (l₁ ++ x :: l₂))
    (hkey : y.active = true → x.active = true ∧ y.key = x.key) : MountsOk (l₁ ++ y :: l₂) := by
  refine h.put (fun ha => ?_) ?_
  · obtain ⟨hx, hk⟩ := hkey ha
    obtain ⟨hn, hp⟩ := Prod.mk.inj hk
    obtain ⟨h1, h2, h3⟩ := h.ok x (by simp) hx
    exact ⟨hn ▸ h1, hp ▸ h2, hp ▸ h3⟩
  · have hd := h.distinct
    rw [filter_append, map_append, filter_cons] at hd ⊢
    by_cases hy : y.active = true
    · obtain ⟨hx, hk⟩ := hkey hy
      rw [if_pos hx, map_cons] at hd
      rw [if_pos hy, map_cons, hk]
      exact hd
    · rw [if_neg hy]
      refine hd.sublist (List.Sublist.append_left ?_ _)
      split
      · exact sublist_cons_self _ _
      · exact List.Sublist.refl _

theorem MountsOk.insert (h : MountsOk (l₁ ++ x :: l₂)) (hx : x.active = false) (hy : y.Ok)
    (hnew : ∀ m ∈ l₁ ++ x :: l₂, m.active = true → m.key ≠ y.key) : MountsOk (l₁ ++ y :: l₂) := by
  refine h.put (fun _ => hy) ?_
  have hd := h.distinct
  rw [filter_append, map_append, filter_cons, hx, if_neg Bool.false_ne_true] at hd
  rw [filter_append, map_append, filter_cons]
  split
  · rw [map_cons]
    refine (perm_middle.nodup_iff).mpr (nodup_cons.mpr ⟨?_, hd⟩)
    intro hmem
    rw [← map_append, ← filter_append] at hmem
    obtain ⟨m, hm, hk⟩ := mem_map.mp hmem
    obtain ⟨hm, ha⟩ := mem_filter.mp hm
    refine hnew m ?_ ha hk
    rcases mem_append.mp hm with hm | hm <;> simp [hm]
  · exact hd

theorem MountsOk.mountInsert {ms ms' : List Mount} {source : UInt32}
    (h : MountsOk ms) (hins : mountInsert ms name pre source = .ok ms') : MountsOk ms' := by
  unfold Kernel.mountInsert at hins
  split at hins
  · cases hins
  rename_i hvalid
  simp only [not_or, Bool.not_eq_false] at hvalid
  split at hins
  · rename_i hany
    obtain ⟨l₁, x, l₂, rfl, -, -, hmod⟩ := modifyFirst_split _ hany
    cases hins
    rw [hmod]
    exact h.replace fun ha => ⟨ha, rfl⟩
  rename_i hnone
  split at hins
  · rename_i hany
    obtain ⟨l₁, x, l₂, rfl, hx, -, hmod⟩ := modifyFirst_split _ hany
    cases hins
    rw [hmod]
    refine h.insert (by simpa using hx) ⟨hvalid.1, hvalid.2.1, hvalid.2.2⟩ ?_
    intro m hm ha hk
    exact hnone (any_eq_true.mpr ⟨m, hm, (Mount.isAt_iff (h.ok m hm)).mpr ⟨ha, hk⟩⟩)
  · cases hins

theorem MountsOk.remove {ms ms' : List Mount} (h : MountsOk ms)
    (hrem : persistentMountRemove ms name pre = .ok ms') : MountsOk ms' := by
  unfold persistentMountRemove at hrem
  split at hrem
  · cases hrem
  split at hrem
  · rename_i hany
    obtain ⟨l₁, x, l₂, rfl, -, -, hmod⟩ := modifyFirst_split _ hany
    cases hrem
    rw [hmod]
    exact h.replace fun ha => absurd ha Bool.false_ne_true
  · cases hrem

theorem MountsOk.getD {ms : List Mount} {r : Except ServiceErr (List Mount)} (h : MountsOk ms)
    (hr : ∀ ms', r = .ok ms' → MountsOk ms') : MountsOk (r.toOption.getD ms) := by
  cases r with
  | error e => exact h
  | ok ms' => exact hr ms' rfl

theorem mountStep_ok {ms : List Mount} (h : MountsOk ms) (op : MountOp) : MountsOk (mountStep ms op) := by
  cases op with
  | add name pre source => exact h.getD fun _ => h.mountInsert
  | remove name pre => exact h.getD fun _ => h.remove

/-! ## Reading a journal back -/

theorem Mount.Ok.record_length {m : Mount} (h : m.Ok) : (mountRecord m).length = 69 := by
  simp only [mountRecord, length_append, textField_length (nameValid_length h.name).le,
    textField_length (prefixValid_length h.pathPrefix).le, le32_length, length_singleton]

theorem Mount.Ok.readMount_record {m : Mount} (h : m.Ok) (ha : m.active = true)
    (rest : List UInt8) : readMount (mountRecord m ++ rest) = m := by
  have hn := textField_length (nameValid_length h.name).le
  have hp := textField_length (prefixValid_length h.pathPrefix).le
  have hall : mountRecord m ++ rest = textField 16 m.serviceName ++
      (textField 48 m.pathPrefix ++ (le32 m.source ++ (1 :: rest))) := by
    simp [mountRecord]
  have h16 : (mountRecord m ++ rest).drop 16 = _ := drop_next (m := 0) hall hn
  have h64 : (mountRecord m ++ rest).drop 64 = _ := drop_next h16 hp
  have h68 : (mountRecord m ++ rest).drop 68 = _ := drop_next h64 (le32_length _)
  rw [readMount, h68, h64, h16, hall, readText_textField (nameValid_length h.name),
    readText_textField (prefixValid_length h.pathPrefix), readLe32_le32]
  obtain ⟨sn, pp, so, ac⟩ := m
  cases ha
  rfl

theorem mountInsert_fresh {done : List Mount} {m : Mount} (hm : m.Ok) (ha : m.active = true)
    (hdone : ∀ x ∈ done, x.active = true ∧ x.Ok ∧ x.key ≠ m.key) (k : ℕ) :
    mountInsert (done ++ List.replicate (k + 1) Mount.cleared) m.serviceName m.pathPrefix m.source =
      .ok (done ++ m :: List.replicate k Mount.cleared) := by
  have hnone : (done ++ List.replicate (k + 1) Mount.cleared).any
      (Mount.isAt m.serviceName m.pathPrefix) = false := by
    rw [any_eq_false]
    intro x hx hat
    rcases mem_append.mp hx with hx | hx
    · obtain ⟨-, hok, hne⟩ := hdone x hx
      exact hne ((Mount.isAt_iff fun _ => hok).mp hat).2
    · rw [eq_of_mem_replicate hx] at hat
      exact absurd (Bool.and_eq_true_iff.mp (Bool.and_eq_true_iff.mp hat).1).1 (by decide)
  have hmod : modifyFirst (fun x : Mount => !x.active)
      (fun _ => ⟨m.serviceName, m.pathPrefix, m.source, true⟩)
      (done ++ List.replicate (k + 1) Mount.cleared) = done ++ m :: List.replicate k Mount.cleared := by
    rw [modifyFirst_append _ fun x hx => by simp [(hdone x hx).1], replicate_succ, modifyFirst,
      if_pos (by decide)]
    obtain ⟨sn, pp, so, ac⟩ := m
    cases ha
    rfl
  rw [mountInsert, if_neg (by simp [hm.name, hm.ne, hm.pathPrefix]), hnone,
    if_neg Bool.false_ne_true, if_pos (by simp [replicate_succ, Mount.cleared]), hmod]

theorem mountImportLoop_records (recs done : List Mount) (rest : List UInt8) (k : ℕ)
    (hok : ∀ m ∈ done ++ recs, m.active = true ∧ m.Ok) (hd : ((done ++ recs).map Mount.key).Nodup) :
    mountImportLoop recs.length (recs.flatMap mountRecord ++ rest)
      (done ++ List.replicate (recs.length + k) Mount.cleared) =
      (done ++ recs ++ List.replicate k Mount.cleared, .ok ()) := by
  induction recs generalizing done with
  | nil => simp [mountImportLoop]
  | cons m recs ih =>
    obtain ⟨ha, hm⟩ := hok m (by simp)
    have hdone : ∀ x ∈ done, x.active = true ∧ x.Ok ∧ x.key ≠ m.key := by
      intro x hx
      refine ⟨(hok x (by simp [hx])).1, (hok x (by simp [hx])).2, fun heq => ?_⟩
      rw [map_append, nodup_append] at hd
      exact hd.2.2 x.key (mem_map_of_mem hx) m.key (by simp) heq
    have hins := mountInsert_fresh hm ha hdone (recs.length + k)
    have hlen : recs.length + 1 + k = recs.length + k + 1 := by omega
    rw [flatMap_cons, append_assoc, length_cons, mountImportLoop,
      hm.readMount_record ha, if_pos ha, hlen, hins, drop_left' hm.record_length]
    have hassoc : done ++ m :: recs = done ++ [m] ++ recs := by simp
    rw [hassoc] at hok hd
    simpa using ih (done ++ [m]) hok hd

theorem mountHeaderError_image {image body zeros : List UInt8} {n : ℕ}
    (himage : image = mountHeader body n ++ (body ++ zeros)) (hn8 : n ≤ 8) (hbody : body.length = n * 69) :
    mountHeaderError image = (if n = 0 then some .notFound else none) ∧ (readLe32 (image.drop 8)).toNat = n ∧
      image.drop 16 = body ++ zeros := by
  have hlen : (mountHeader body n).length = 16 := rfl
  -- the header is four words written out, so the reading of each one computes
  have h0 : readLe32 image = 0x4A544E4D := himage ▸ readLe32_bytes _ _
  have h4 : readLe32 (image.drop 4) = 1 := himage ▸ readLe32_bytes _ _
  have h8 : (readLe32 (image.drop 8)).toNat = n :=
    himage ▸ (congrArg UInt32.toNat (readLe32_bytes (UInt32.ofNat n) _)).trans
      (UInt32.toNat_ofNat_of_lt' (hn8.trans_lt (by decide)))
  have h12 : readLe32 (image.drop 12) = journalSum body := himage ▸ readLe32_bytes (journalSum body) _
  have h16 : image.drop 16 = body ++ zeros := himage ▸ drop_left' hlen
  refine ⟨?_, h8, h16⟩
  have htotal : image.length = 16 + n * 69 + zeros.length := by
    rw [himage]
    simp only [length_append, hlen, hbody]
    omega
  have hsum : (image.drop 16).take (n * 69) = body := by
    rw [h16, take_left' hbody]
  rw [mountHeaderError, h8, h0, h4, h12, hsum, if_neg (by omega), if_neg (by simp)]
  split_ifs with hcount hzero hshort hzero hsame hzero
  all_goals first | rfl | omega | exact absurd rfl hsame

/-- What `service_registry_mount_journal_export` writes for a reachable table,
`service_registry_mount_journal_import` reads back over any table exactly if a mount was active. -/
theorem mountJournal_roundTrip (ops : List MountOp) : let ms := run mountStep noMounts ops
    (∃ buf, mountJournalExport ms 1024 = .ok buf) ∧
    ∀ cap buf, mountJournalExport ms cap = .ok buf →
      ((∀ before, ∃ after, mountJournalImport before buf = (after, .ok ()) ∧ mountsOf after = mountsOf ms) ↔
        mountsOf ms ≠ []) := by
  have hstep : ∀ ms op, MountsOk ms → MountsOk (mountStep ms op) := fun _ op h => mountStep_ok h op
  have hinv : MountsOk (run mountStep noMounts ops) := run_invariant_all hstep noMounts_ok
  generalize run mountStep noMounts ops = ms at hinv ⊢
  have hle : (ms.filter Mount.active).length ≤ 8 := hinv.length ▸ length_filter_le _ _
  have hrows : ∀ m ∈ ms.filter Mount.active, m.active = true ∧ m.Ok := by
    intro m hm
    obtain ⟨hm, ha⟩ := mem_filter.mp hm
    exact ⟨ha, hinv.ok m hm ha⟩
  have hbody : ((ms.filter Mount.active).flatMap mountRecord).length =
      (ms.filter Mount.active).length * 69 := by
    rw [length_flatMap, map_congr_left fun m hm => (hrows m hm).2.record_length]
    simp
  have hempty : mountsOf ms = [] ↔ (ms.filter Mount.active).length = 0 := by
    rw [mountsOf, map_eq_nil_iff, length_eq_zero_iff]
  refine ⟨⟨_, if_neg (by omega)⟩, fun cap buf hexp => ?_⟩
  simp only [mountJournalExport] at hexp
  split at hexp
  · cases hexp
  cases hexp
  obtain ⟨hhead, hcount, hdrop⟩ := mountHeaderError_image rfl hle hbody
  rw [Ne, hempty]
  constructor
  · intro hback hzero
    obtain ⟨after, himport, -⟩ := hback ms
    rw [mountJournalImport, hhead, if_pos hzero] at himport
    cases himport
  · intro hpos before
    have hloop := mountImportLoop_records (ms.filter Mount.active) []
      (List.replicate (cap - (16 + (ms.filter Mount.active).length * 69)) 0)
      (8 - (ms.filter Mount.active).length) hrows hinv.distinct
    rw [nil_append, nil_append, Nat.add_sub_cancel' hle] at hloop
    refine ⟨ms.filter Mount.active ++
      List.replicate (8 - (ms.filter Mount.active).length) Mount.cleared, ?_, ?_⟩
    · rw [mountJournalImport, hhead, if_neg hpos, hcount, hdrop]
      exact hloop
    · simp [mountsOf, Mount.cleared]

def vfsName : CString := ⟨[118, 102, 115], by decide⟩
def logName : CString := ⟨[108, 111, 103], by decide⟩
def dataPrefix : CString := ⟨[100, 97, 116, 97, 47], by decide⟩
def logPrefix : CString := ⟨[108, 111, 103, 47], by decide⟩

def twoMounts : List MountOp :=
  [.add vfsName dataPrefix 2, .add logName logPrefix 1, .add vfsName logPrefix 3, .remove logName logPrefix]

theorem mountJournal_roundTrip_twoMounts : ∃ buf after,
    mountJournalExport (run mountStep noMounts twoMounts) 1024 = .ok buf ∧
      mountJournalImport noMounts buf = (after, .ok ()) ∧
      mountsOf after = [(vfsName, dataPrefix, 2), (vfsName, logPrefix, 3)] := by
  have htwo : mountsOf (run mountStep noMounts twoMounts) =
      [(vfsName, dataPrefix, 2), (vfsName, logPrefix, 3)] := by decide +kernel
  obtain ⟨⟨buf, hexp⟩, hback⟩ := mountJournal_roundTrip twoMounts
  obtain ⟨after, himp, hsame⟩ := (hback 1024 buf hexp).mpr (by rw [htwo]; simp) noMounts
  exact ⟨buf, after, hexp, himp, hsame.trans htwo⟩

/-- The journal of an empty table is refused, and the mounts that were in memory stay. -/
theorem emptyMountJournal_refused : let before := run mountStep noMounts [.add vfsName dataPrefix 2]
    let emptied := run mountStep noMounts [.add vfsName dataPrefix 2, .remove vfsName dataPrefix]
    mountsOf emptied = [] ∧
    (mountJournalExport emptied 1024).toOption.map (mountJournalImport before) =
      some (before, .error .notFound) ∧
    mountsOf before = [(vfsName, dataPrefix, 2)] := by
  decide +kernel

end Mohhdy.Kernel
