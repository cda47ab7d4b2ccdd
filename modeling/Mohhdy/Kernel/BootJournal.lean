import Mohhdy.Kernel.Events

/-! The journals a driver hands over at boot: `service_registry_boot_journal_install`.

Each of the two journals is accepted once. The header and the sum are checked before the table in
memory is cleared, the records one by one afterwards. -/
namespace Mohhdy.Kernel
set_option autoImplicit false

open Words Tables Runs List

variable {b buf : List UInt8}

structure Boot where
  mounts : List Mount
  history : History
  (mountPending eventPending : Bool)

/-- The answer is 0 for an imported journal, 1 for an empty or invalid one, -1 for a refused
one. -/
def bootJournalInstall (s : Boot) (which : ℤ) (buf : Option (List UInt8)) : Boot × ℤ :=
  if which = 0 then
    match s.mountPending, buf with
    | true, some b =>
      let (ms, rc) := mountJournalImport s.mounts b
      ({ s with mounts := ms, mountPending := false }, if rc.isOk then 0 else 1)
    | _, _ => (s, -1)
  else
    match s.eventPending, buf with
    | true, some b =>
      let (h, rc) := eventJournalImport s.history b
      ({ s with history := h, eventPending := false }, if rc.isOk then 0 else 1)
    | _, _ => (s, -1)

/-! ## Records -/

def mountRecords : ℕ → List UInt8 → List Mount
  | 0, _ => []
  | n + 1, b => readMount b :: mountRecords n (b.drop 69)

def eventRecords : ℕ → List UInt8 → List NotifyEvent
  | 0, _ => []
  | n + 1, b => readEvent b :: eventRecords n (b.drop 32)

def Mount.recordOk (m : Mount) : Bool :=
  !m.active || (nameValid m.serviceName && m.pathPrefix != noText && prefixValid m.pathPrefix)

def putRecord (ms : List Mount) (m : Mount) : List Mount :=
  if m.active then mountStep ms (.add m.serviceName m.pathPrefix m.source) else ms

theorem countP_replace (l₁ l₂ : List Mount) (x y : Mount) :
    (l₁ ++ y :: l₂).countP Mount.active ≤ (l₁ ++ x :: l₂).countP Mount.active + 1 := by
  simp only [countP_append, countP_cons]
  split <;> omega

theorem mountInsert_room {ms : List Mount} {m : Mount} (hm : m.Ok)
    (hroom : ms.countP Mount.active < ms.length) :
    ∃ ms', mountInsert ms m.serviceName m.pathPrefix m.source = .ok ms' ∧
      ms'.length = ms.length ∧ ms'.countP Mount.active ≤ ms.countP Mount.active + 1 := by
  rw [mountInsert, if_neg (by simp [hm.name, hm.ne, hm.pathPrefix])]
  split
  · rename_i hany
    obtain ⟨l₁, x, l₂, rfl, -, -, hmod⟩ := modifyFirst_split
      (fun x : Mount => { x with source := m.source }) hany
    exact ⟨_, rfl, modifyFirst_length _ _ _, hmod ▸ countP_replace l₁ l₂ x _⟩
  · have hfree : ms.any (fun x => !x.active) = true := by
      by_contra hno
      have hall : ms.countP Mount.active = ms.length := by
        rw [countP_eq_length]
        intro x hx
        by_contra hx'
        exact hno (any_eq_true.mpr ⟨x, hx, by simpa using hx'⟩)
      omega
    obtain ⟨l₁, x, l₂, rfl, -, -, hmod⟩ := modifyFirst_split
      (fun _ : Mount => ⟨m.serviceName, m.pathPrefix, m.source, true⟩) hfree
    exact ⟨_, if_pos hfree, modifyFirst_length _ _ _, hmod ▸ countP_replace l₁ l₂ x _⟩

theorem mountImportLoop_eq {n : ℕ} (ms : List Mount) (hroom : ms.countP Mount.active + n ≤ ms.length) :
    mountImportLoop n b ms = (((mountRecords n b).takeWhile Mount.recordOk).foldl putRecord ms,
      if (mountRecords n b).all Mount.recordOk then .ok () else .error .full) := by
  induction n generalizing b ms with
  | zero => rfl
  | succ n ih =>
    rw [mountImportLoop, mountRecords]
    generalize readMount b = m
    by_cases ha : m.active = true
    · by_cases hm : m.recordOk = true
      · have hok : m.Ok := by
          simp only [Mount.recordOk, ha, Bool.not_true, Bool.false_or, Bool.and_eq_true, bne_iff_ne] at hm
          exact ⟨hm.1.1, hm.1.2, hm.2⟩
        obtain ⟨ms', hins, hlen, hcount⟩ := mountInsert_room hok (by omega : ms.countP Mount.active < ms.length)
        have hput : putRecord ms m = ms' := by
          rw [putRecord, if_pos ha, mountStep, hins]
          rfl
        simp only [ha, if_true, hins, takeWhile_cons_of_pos hm, foldl_cons, hput, all_cons, hm, Bool.true_and]
        exact ih ms' (by omega)
      · have hbad : mountInsert ms m.serviceName m.pathPrefix m.source = .error .badName := by
          refine if_pos ?_
          by_contra hgood
          simp only [not_or, Bool.not_eq_false] at hgood
          exact hm (by simp [Mount.recordOk, hgood])
        simp [ha, hbad, hm]
    · have hm : m.recordOk = true := by simp [Mount.recordOk, ha]
      have hput : putRecord ms m = ms := if_neg ha
      simp only [ha, takeWhile_cons_of_pos hm, foldl_cons, hput, all_cons, hm, Bool.true_and]
      exact ih ms (by omega)

theorem eventImportLoop_eq {n : ℕ} (pre es : List NotifyEvent) (hroom : n ≤ es.length) :
    let good := (eventRecords n b).takeWhile NotifyEvent.recordOk
    eventImportLoop n pre.length b (pre ++ es) = (pre ++ (good ++ es.drop good.length),
      if (eventRecords n b).all NotifyEvent.recordOk then .ok () else .error .notFound) := by
  induction n generalizing b pre es with
  | zero => rfl
  | succ n ih =>
    cases es with
    | nil => cases hroom
    | cons x es =>
      rw [eventImportLoop, eventRecords]
      generalize readEvent b = e
      by_cases he : e.recordOk = true
      · have hset : (pre ++ x :: es).set pre.length e = pre ++ [e] ++ es := by simp
        have hnext := ih (b := b.drop 32) (pre ++ [e]) es (Nat.le_of_succ_le_succ hroom)
        rw [length_append] at hnext
        simp only [hset, takeWhile_cons_of_pos he, all_cons, he, Bool.true_and]
        simpa using hnext
      · simp [he]

theorem mountHeader_count (h : mountHeaderError buf = none) : (readLe32 (buf.drop 8)).toNat ≤ 8 := by
  by_contra hlt
  simp only [mountHeaderError] at h
  rw [if_pos (.inr (by omega) : _ ∨ 8 < (readLe32 (buf.drop 8)).toNat)] at h
  repeat' split at h
  all_goals cases h

theorem eventHeader_count (h : eventHeaderError buf = none) : (readLe32 (buf.drop 8)).toNat ≤ 8 := by
  by_contra hlt
  simp only [eventHeaderError] at h
  rw [if_pos (by omega : 8 < (readLe32 (buf.drop 8)).toNat)] at h
  repeat' split at h
  all_goals cases h

/-! ## Journals that are not installed -/

/-- If the header is accepted, so is every record, or those before the first one that is not are the
table as it was. -/
def MountsHarmless (ms : List Mount) (buf : List UInt8) : Prop :=
  mountHeaderError buf = none →
    let recs := mountRecords (readLe32 (buf.drop 8)).toNat (buf.drop 16)
    recs.all Mount.recordOk = true ∨ (recs.takeWhile Mount.recordOk).foldl putRecord noMounts = ms

def EventsHarmless (h : History) (buf : List UInt8) : Prop :=
  eventHeaderError buf = none →
    let recs := eventRecords (readLe32 (buf.drop 8)).toNat (buf.drop 20)
    let good := recs.takeWhile NotifyEvent.recordOk
    recs.all NotifyEvent.recordOk = true ∨
      ⟨good ++ noEvents.drop good.length, max (readLe32 (buf.drop 12)) h.seqCounter⟩ = h

theorem mountJournalImport_keeps_iff (ms : List Mount) (buf : List UInt8) :
    ((mountJournalImport ms buf).2 ≠ .ok () → (mountJournalImport ms buf).1 = ms) ↔ MountsHarmless ms buf := by
  unfold mountJournalImport MountsHarmless
  cases hhead : mountHeaderError buf with
  | some e => simp
  | none =>
    have hroom : noMounts.countP Mount.active + (readLe32 (buf.drop 8)).toNat ≤ noMounts.length :=
      (Nat.zero_add _).trans_le (mountHeader_count hhead)
    dsimp only
    rw [mountImportLoop_eq noMounts hroom]
    split_ifs with hall <;> simp [hall]

theorem eventJournalImport_keeps_iff (h : History) (buf : List UInt8) :
    ((eventJournalImport h buf).2 ≠ .ok () → (eventJournalImport h buf).1 = h) ↔ EventsHarmless h buf := by
  unfold eventJournalImport EventsHarmless
  cases hhead : eventHeaderError buf with
  | some e => simp
  | none =>
    have hloop := eventImportLoop_eq (b := buf.drop 20) [] noEvents (eventHeader_count hhead)
    rw [nil_append, length_nil] at hloop
    simp only [hloop]
    split_ifs with hall <;> simp [hall]

def SameTable (which : ℤ) (s s' : Boot) : Prop :=
  if which = 0 then s'.mounts = s.mounts else s'.history = s.history

def Boot.Harmless (s : Boot) (which : ℤ) (buf : List UInt8) : Prop :=
  if which = 0 then s.mountPending = true → MountsHarmless s.mounts buf
  else s.eventPending = true → EventsHarmless s.history buf

/-- The journals that leave their table alone when they are not installed are those without a bad
record behind a good header, unless what is read before it happens to be the table. -/
theorem refusedJournal_keeps_table_iff (s : Boot) (which : ℤ) (buf : Option (List UInt8)) :
    ((bootJournalInstall s which buf).2 ≠ 0 → SameTable which s (bootJournalInstall s which buf).1) ↔
      ∀ b ∈ buf, s.Harmless which b := by
  have hanswer (rc : Except ServiceErr Unit) : (if rc.isOk then (0 : ℤ) else 1) ≠ 0 ↔ rc ≠ .ok () := by
    rcases rc with _ | _ <;> simp [Except.isOk, Except.toBool]
  unfold SameTable Boot.Harmless bootJournalInstall
  split_ifs
  · cases buf with
    | none => simp
    | some b =>
      cases s.mountPending with
      | false => simp
      | true =>
        dsimp only
        rw [hanswer, mountJournalImport_keeps_iff]
        simp
  · cases buf with
    | none => simp
    | some b =>
      cases s.eventPending with
      | false => simp
      | true =>
        dsimp only
        rw [hanswer, eventJournalImport_keeps_iff]
        simp

def booted : Boot where
  mounts := run mountStep noMounts [.add vfsName dataPrefix 2]
  history := (notifyRecord ⟨noEvents, 0⟩ vfsName 5 0 7 1).1
  mountPending := true
  eventPending := true

def namelessMount : List UInt8 :=
  let body := mountRecord ⟨noText, dataPrefix, 1, true⟩
  mountHeader body 1 ++ body

def zeroEvent : List UInt8 :=
  let body := eventRecord ⟨0, 0, vfsName, 0, 7, 1, false, false⟩
  eventHeader body 1 4 ++ body

/-- Both are answered with 1, and both have emptied the table by then. -/
theorem badRecord_clears_table : (bootJournalInstall booted 0 (some namelessMount)).2 = 1 ∧
    mountsOf booted.mounts = [(vfsName, dataPrefix, 2)] ∧
    (bootJournalInstall booted 0 (some namelessMount)).1.mounts = noMounts ∧
    (bootJournalInstall booted 1 (some zeroEvent)).2 = 1 ∧
    booted.history.events.any (NotifyEvent.pendingFor 5) = true ∧
    (bootJournalInstall booted 1 (some zeroEvent)).1.history = ⟨noEvents, 4⟩ := by
  decide +kernel

end Mohhdy.Kernel
