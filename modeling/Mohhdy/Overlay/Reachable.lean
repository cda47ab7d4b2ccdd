import Mohhdy.Overlay.Moves

/-! The states the mutators reach, and what a file holds in them. -/
namespace Mohhdy.Overlay
set_option autoImplicit false

open Blocks Chains Runs List

/-- The step makes no path that `ov_normalize` would change again, and a move that is not refused
meets the condition. -/
def KeptBy (ok : Pool → Bytes → Bytes → Prop) (rd : Initrd) (s : State) : Op → Prop
  | .mkdir path | .write path _ | .append path _ => Plain (ovNormalize path)
  | .unlink _ => True
  | .rename src dst | .copy src dst => Plain (ovNormalize dst) ∧
    (moveCheck rd s.pool (ovNormalize src) (ovNormalize dst) = none →
      ok s.pool (ovNormalize src) (ovNormalize dst))

/-- A subtree moves to a place with nothing below it. -/
def Kept : Initrd → State → Op → Prop := KeptBy fun g _ newp => Clear g newp

/-- No subtree moves with a node whose directory only the initrd has. -/
def KeptInside : Initrd → State → Op → Prop := KeptBy fun g oldp _ => ParentsInside g oldp

instance (g : Pool) (oldp : Bytes) : Decidable (ParentsInside g oldp) :=
  inferInstanceAs (Decidable (∀ i ∈ slots, _))

instance (g : Pool) (newp : Bytes) : Decidable (Clear g newp) :=
  inferInstanceAs (Decidable (∀ i ∈ slots, _))

instance {ok : Pool → Bytes → Bytes → Prop} [∀ g p q, Decidable (ok g p q)] (rd : Initrd) (s : State) (op : Op) :
    Decidable (KeptBy ok rd s op) := by
  unfold KeptBy
  split <;> infer_instance

instance (rd : Initrd) (s : State) (op : Op) : Decidable (Kept rd s op) :=
  inferInstanceAs (Decidable (KeptBy _ rd s op))

instance (rd : Initrd) (s : State) (op : Op) : Decidable (KeptInside rd s op) :=
  inferInstanceAs (Decidable (KeptBy _ rd s op))

variable {rd : Initrd} {s s' : State} {cells : List Cell}

theorem KeptInside.kept (h : Inv s cells) (hroot : Rooted rd (entries cells)) {op : Op}
    (hk : KeptInside rd s op) : Kept rd s op := by
  cases op with
  | rename src dst => exact ⟨hk.1, h.clear hroot normalize_tidy hk.1⟩
  | copy src dst => exact ⟨hk.1, h.clear hroot normalize_tidy hk.1⟩
  | _ => exact hk

theorem inv_step (h : Inv s cells) {op : Op} (hk : Kept rd s op) : ∃ cells', Inv (step rd s op) cells' ∧
    (Rooted rd (entries cells) → KeptInside rd s op → Rooted rd (entries cells')) := by
  have hends {s' : State} {r : Except Err ℕ} {new : List Cell} (hrun : op.run rd s = (s', r))
      (hroot : Rooted rd (entries cells) → KeptInside rd s op → Rooted rd (entries new))
      (hinv : Inv s' new) : ∃ cells', Inv (step rd s op) cells' ∧
        (Rooted rd (entries cells) → KeptInside rd s op → Rooted rd (entries cells')) := by
    rw [step, hrun]
    exact ⟨new, hinv, hroot⟩
  cases op with
  | mkdir path =>
    rcases h.mkdir hk with ⟨e, he⟩ | ⟨s', c, hrun, -, -, -, hroot, hinv⟩
    · exact hends he (fun hroot _ => hroot) h
    · exact hends hrun (fun hr _ => hroot hr) hinv
  | write path data =>
    rcases h.write data hk with ⟨e, he⟩ | ⟨s', hrun, -, c, rest, -, -, -, hroot, hinv⟩
    · exact hends he (fun hroot _ => hroot) h
    · exact hends hrun (fun hr _ => hroot hr) hinv
  | append path data =>
    rcases h.append data hk with
      ⟨e, he⟩ | ⟨s', old, hrun, -, -, -, c, rest, -, -, -, hroot, hinv⟩
    · exact hends he (fun hroot _ => hroot) h
    · exact hends hrun (fun hr _ => hroot hr) hinv
  | unlink path =>
    rcases h.unlink path with ⟨e, he⟩ | ⟨s', c, rest, hrun, -, -, hroot, hinv⟩
    · exact hends he (fun hroot _ => hroot) h
    · exact hends hrun (fun hr _ => hroot hr) hinv
  | rename src dst =>
    rcases h.rename hk.1 hk.2 with ⟨r, he, -⟩ | ⟨s', hrun, -, hroot, hinv⟩
    · exact hends he (fun hroot _ => hroot) h
    · exact hends hrun (fun hr hin => hroot hr hin.2) hinv
  | copy src dst =>
    rcases h.copy hk.1 hk.2 with ⟨e, he⟩ | ⟨s', cs, new, hrun, -, -, -, hroot, hinv⟩
    · exact hends he (fun hroot _ => hroot) h
    · exact hends hrun (fun hr hin => hroot hr hin.2) hinv

theorem inv_run (rd : Initrd) (ext : ℕ) {ops : List Op}
    (h : Along (step rd) (Kept rd) (State.init ext) ops) :
    ∃ cells, Inv (run (step rd) (State.init ext) ops) cells := by
  have hstep : ∀ s op, (∃ cells, Inv s cells) → Kept rd s op → ∃ cells, Inv (step rd s op) cells := by
    rintro s op ⟨cells, hinv⟩ hk
    exact (inv_step hinv hk).imp fun _ h => h.1
  exact run_invariant hstep ⟨[], Inv.init ext⟩ h

theorem rooted_run (rd : Initrd) (ext : ℕ) {ops : List Op}
    (h : Along (step rd) (KeptInside rd) (State.init ext) ops) :
    ∃ cells, Inv (run (step rd) (State.init ext) ops) cells ∧ Rooted rd (entries cells) := by
  have hstep : ∀ s op, (∃ cells, Inv s cells ∧ Rooted rd (entries cells)) → KeptInside rd s op →
      ∃ cells, Inv (step rd s op) cells ∧ Rooted rd (entries cells) := by
    rintro s op ⟨cells, hinv, hroot⟩ hk
    exact (inv_step hinv (hk.kept hinv hroot)).imp fun _ h => ⟨h.1, h.2 hroot hk⟩
  exact run_invariant hstep ⟨[], Inv.init ext, by simp [Rooted]⟩ h

/-! ## The tree -/

def ChainFrom (g : Pool) (i : ℕ) (ks : List ℕ) : Prop :=
  i < 288 ∧ (g i).head = true ∧ (g i).isDir = false ∧ Linked (links g) (g i).next ks

/-- The used nodes form a tree of paths and, below its files, chains. -/
structure TreeInv (rd : Initrd) (g : Pool) : Prop where
  distinct : ∀ i < 288, ∀ j < 288, (g i).head = true → (g j).head = true →
    (g i).path = (g j).path → i = j
  normal : ∀ i < 288, (g i).head = true → (g i).path ≠ [] ∧ ovNormalize (g i).path = (g i).path
  parent : ∀ i < 288, (g i).head = true → ovParentIsDir rd g (g i).path = true
  chain : ∀ i < 288, (g i).head = true → (g i).isDir = false → ∃ ks, ChainFrom g i ks ∧
    (i :: ks).Nodup ∧ (∀ k ∈ ks, k < 288 ∧ (g k).used = true ∧ (g k).isContinuation = true) ∧
    (g i).size = ((i :: ks).map fun k => blockLen (g k)).sum
  owner : ∀ k < 288, (g k).used = true → (g k).isContinuation = true →
    ∃! i, ∃ ks, ChainFrom g i ks ∧ k ∈ ks

theorem CellOk.size_eq_sum {g : Pool} {c : Cell} (h : CellOk g c) :
    (g c.head).size = (c.slots.map fun k => blockLen (g k)).sum := by
  rw [h.size, Cell.content, length_flatten, Tables.map_eq_of_forall₂ h.blocks_read fun _ _ hk => hk.1.symm]

theorem Inv.treeInv (h : Inv s cells) (hroot : Rooted rd (entries cells)) : TreeInv rd s.pool where
  distinct := by
    intro i hi j hj hhi hhj heq
    obtain ⟨c, hc, rfl⟩ := (h.rep.head_iff hi).mp hhi
    obtain ⟨c', hc', rfl⟩ := (h.rep.head_iff hj).mp hhj
    rw [(h.rep.ok c hc).path, (h.rep.ok c' hc').path] at heq
    rw [h.eq_of_path hc hc' heq.symm]
  normal := by
    intro i hi hhi
    obtain ⟨c, hc, rfl⟩ := (h.rep.head_iff hi).mp hhi
    rw [(h.rep.ok c hc).path]
    exact ⟨(h.tidy hc).ne_nil, ovNormalize_eq_self (h.tidy hc) (h.plain hc)⟩
  parent := by
    intro i hi hhi
    obtain ⟨c, hc, rfl⟩ := (h.rep.head_iff hi).mp hhi
    rw [(h.rep.ok c hc).path]
    exact (h.parentIsDir_iff (h.tidy hc) (h.plain hc)).mpr (hroot c.entry (mem_map_of_mem hc))
  chain := by
    intro i hi hhi hdir
    obtain ⟨c, hc, rfl⟩ := (h.rep.head_iff hi).mp hhi
    have hok := h.rep.ok c hc
    refine ⟨c.tail, ⟨hi, hhi, hdir, hok.linked⟩, h.rep.slots_nodup hc, ?_, hok.size_eq_sum⟩
    intro k hk
    obtain ⟨b, hb⟩ := hok.tail_contAt hk
    exact ⟨hb.lt, hb.used, hb.isContinuation⟩
  owner := by
    intro k hk hu hcont
    obtain ⟨c, hc, hmem⟩ := mem_flatMap.mp ((h.rep.used k hk).mp hu)
    have hok := h.rep.ok c hc
    have htail : k ∈ c.tail := by
      rcases mem_cons.mp hmem with rfl | htail
      · rw [hok.isContinuation] at hcont
        exact absurd hcont (by simp)
      · exact htail
    have hdir : c.isDir = false := by
      rw [Bool.eq_false_iff]
      intro hdir
      simp [(hok.dir hdir).1] at htail
    refine ⟨c.head, ⟨c.tail, ⟨hok.lt, hok.isHead, hok.isDir.trans hdir, hok.linked⟩, htail⟩, ?_⟩
    rintro j ⟨ks, ⟨hj, hhj, -, hl⟩, hkj⟩
    obtain ⟨c', hc', rfl⟩ := (h.rep.head_iff hj).mp hhj
    -- a slot is in one cell only
    obtain rfl := hl.unique (h.rep.ok c' hc').linked
    rw [h.rep.eq_of_slot hc hc' hmem (mem_cons_of_mem _ hkj)]

/-- In every run whose steps keep paths normalised and directories inside, the tree stays whole. -/
theorem overlay_tree_kept (rd : Initrd) (ext : ℕ) {ops : List Op}
    (h : Along (step rd) (KeptInside rd) (State.init ext) ops) :
    TreeInv rd (run (step rd) (State.init ext) ops).pool := by
  obtain ⟨cells, hinv, hroot⟩ := rooted_run rd ext h
  exact hinv.treeInv hroot

def copyAndUnlink : List Op :=
  [.mkdir [100], .write [100, 47, 102] ⟨List.replicate 385 7, by rw [length_replicate]; omega⟩, .copy [100] [101],
    .unlink [47, 100, 47, 102]]

theorem overlay_tree_kept_copyAndUnlink : (Along (step none) (KeptInside none) (State.init 0) copyAndUnlink) ∧
    TreeInv none (run (step none) (State.init 0) copyAndUnlink).pool := by
  have h : Along (step none) (KeptInside none) (State.init 0) copyAndUnlink := by decide +kernel
  exact ⟨h, overlay_tree_kept none 0 h⟩

/-- The directory `.`, and `/./a` made twice: what `ov_normalize` leaves of it, `./a`, is normalised
again by `ov_find`, which looks for `a`. -/
def dotTwice : List Op := [.mkdir [46], .mkdir [47, 46, 47, 97], .mkdir [47, 46, 47, 97]]

/-- The archive has `d/s/f`; `d` is made in the overlay too, `d/s/x` is written and `d` is renamed
to `e`: `e/s/x` lies in no directory. -/
def renameShadow : List Op :=
  [.mkdir [100], .write [100, 47, 115, 47, 120] ⟨[], by simp⟩, .rename [100] [101]]

theorem dotTwice_and_renameShadow_break_tree :
    ¬ TreeInv none (run (step none) (State.init 0) dotTwice).pool ∧
    ¬ TreeInv (some [([100, 47, 115, 47, 102], [])])
      (run (step (some [([100, 47, 115, 47, 102], [])])) (State.init 0) renameShadow).pool := by
  constructor
  · intro h
    exact absurd (h.distinct 1 (by decide) 2 (by decide) (by decide +kernel) (by decide +kernel)
      (by decide +kernel)) (by decide)
  · intro h
    exact absurd (h.parent 1 (by decide) (by decide +kernel)) (by decide +kernel)

/-! ## Files -/

/-- The path without a leading `./`, leading slashes and trailing slashes, in its full length. -/
def strip (p : Bytes) : Bytes := (skipLead (cString p)).rdropWhile (· = slash)

def ReadsAs (g : Pool) (path d : Bytes) : Prop :=
  ∀ offset max, 0 < max → overlayReadAt g path max offset = .ok ((d.drop offset).take max)

def SameElsewhere (g g' : Pool) (path : Bytes) : Prop :=
  ∀ q, ovNormalize q ≠ ovNormalize path → ∀ offset max,
    overlayReadAt g' q max offset = overlayReadAt g q max offset

/-- What a path holds: the overlay's file or, without one, the initrd's. -/
def contentsOf (rd : Initrd) (s : State) (path : Bytes) : Bytes :=
  (overlayRead s.pool path (overlayFileMax s)).toOption.getD
    ((irdFind rd (ovNormalize path)).elim [] Prod.snd)

section Files
variable {path d : Bytes}

theorem Stored.readsAs (h : Stored rd s cells (ovNormalize path) d s') : ReadsAs s'.pool path d := by
  obtain ⟨-, c, rest, hentry, rfl, -, -, hinv⟩ := h
  obtain ⟨hpath, hdir⟩ := Prod.mk.inj hentry
  intro offset max hmax
  have hc : c ∈ c :: rest := by simp
  rw [hinv.rep.readAt_cell hc (hinv.find_eq hc hpath.symm), Cell.readAt, hdir]
  simp [hmax.ne']

theorem Stored.sameElsewhere (hs : Inv s cells) (h : Stored rd s cells (ovNormalize path) d s') :
    SameElsewhere s.pool s'.pool path := by
  obtain ⟨-, c, rest, hentry, -, hcells, -, hinv⟩ := h
  have hpath : c.path = ovNormalize path := (Prod.mk.inj hentry).1
  intro q hq offset max
  refine readAt_congr hs.rep hinv.rep (fun x hx => (hinv.tidy hx).ne_nil)
    (fun x hx y hy heq => hs.eq_of_path hx hy heq)
    (fun x hx y hy heq => hinv.eq_of_path hx hy heq) ?_ max offset
  intro x hx
  have hxc : x ≠ c := by
    rintro rfl
    exact hq (hx.symm.trans hpath)
  rcases hcells with ⟨rfl, -⟩ | ⟨old, hold, hperm⟩
  · simp [hxc]
  · have hxo : x ≠ old := by
      rintro rfl
      exact hq (hx.symm.trans hold)
    rw [hperm.mem_iff]
    simp [hxc, hxo]

theorem OldContent.eq_contentsOf (hs : Inv s cells)
    (hsmall : ovFind s.pool path = none → ∀ f, irdFind rd (ovNormalize path) = some f →
      f.2.length ≤ overlayFileMax s) {old : Bytes}
    (h : OldContent rd s cells (ovNormalize path) old) :
    old = contentsOf rd s path := by
  rcases h with ⟨c, hc, hentry, rfl⟩ | ⟨habs, hbase⟩
  · obtain ⟨hpath, hdir⟩ := Prod.mk.inj hentry
    rw [contentsOf, hs.read_whole hs.rep hc hc hdir (hs.find_eq hc hpath.symm)]
    rfl
  · have hnone : ovFind s.pool path = none := by
      cases hf : ovFind s.pool path with
      | none => rfl
      | some i =>
        obtain ⟨c, hc, -, hpath⟩ := hs.rep.find_some hf
        exact absurd hpath (habs c hc)
    have hread : overlayRead s.pool path (overlayFileMax s) = .error .notFound := by
      rw [overlayRead, overlayReadAt, hnone, Option.elim_none]
    rw [contentsOf, hread]
    rcases hbase with ⟨f, hf, rfl⟩ | ⟨hird, rfl⟩
    · rw [hf, take_of_length_le (hsmall hnone f hf)]
      rfl
    · have : irdFind rd (ovNormalize path) = none := by
        simpa [initrdIsFile] using hird
      rw [this]
      rfl

end Files

/-- In every state that steps reach which keep paths normalised and move to free places: after a write
that succeeds, the path reads as the data and every path that is normalised to something else reads
as before; after an append, it reads as what it held and the data. -/
theorem written_then_read (rd : Initrd) (ext : ℕ) {ops : List Op} {s : State}
    (h : Along (step rd) (Kept rd) (State.init ext) ops) (hs : s = run (step rd) (State.init ext) ops)
    {path : Bytes} {data : Buffer} (hp : Plain (ovNormalize path)) {s' : State} {n : ℕ} :
    (overlayWrite rd s path data = (s', .ok n) →
      ReadsAs s'.pool path data.bytes ∧ SameElsewhere s.pool s'.pool path) ∧
    (overlayAppend rd s path data = (s', .ok n) →
      (ovFind s.pool path = none → ∀ f, irdFind rd (ovNormalize path) = some f →
        f.2.length ≤ overlayFileMax s) →
      ReadsAs s'.pool path (contentsOf rd s path ++ data.bytes) ∧
        SameElsewhere s.pool s'.pool path) := by
  obtain ⟨cells, hinv⟩ := inv_run rd ext h
  rw [← hs] at hinv
  constructor
  · intro hw
    rcases hinv.write data hp with ⟨e, he⟩ | ⟨s₁, hrun, hstored⟩
    · exact absurd (congrArg Prod.snd (hw.symm.trans he)) (by simp)
    · obtain rfl := congrArg Prod.fst (hw.symm.trans hrun)
      exact ⟨hstored.readsAs, hstored.sameElsewhere hinv⟩
  · intro ha hsmall
    rcases hinv.append data hp with ⟨e, he⟩ | ⟨s₁, old, hrun, hold, -, hstored⟩
    · exact absurd (congrArg Prod.snd (ha.symm.trans he)) (by simp)
    · obtain rfl := congrArg Prod.fst (ha.symm.trans hrun)
      rw [← hold.eq_contentsOf hinv hsmall]
      exact ⟨hstored.readsAs, hstored.sameElsewhere hinv⟩

theorem Res.eq_of_snd {r : Res} {v : Except Err ℕ} (h : r.2 = v) : r = (r.1, v) := by
  rw [← h]

def oneFile : List Op := [.mkdir [100], .write [100, 47, 102] ⟨[1, 2], by decide⟩]

def oneFileState : State := run (step none) (State.init 0) oneFile

theorem written_then_read_oneFile :
    ReadsAs (overlayWrite none oneFileState [100, 47, 103] ⟨[3], by decide⟩).1.pool
      [100, 47, 103] [3] ∧
    ReadsAs (overlayAppend none oneFileState [47, 100, 47, 102] ⟨[3], by decide⟩).1.pool
      [47, 100, 47, 102] (contentsOf none oneFileState [47, 100, 47, 102] ++ [3]) ∧
    contentsOf none oneFileState [47, 100, 47, 102] = [1, 2] := by
  have hrun : Along (step none) (Kept none) (State.init 0) oneFile := by decide +kernel
  have hw : overlayWrite none oneFileState [100, 47, 103] ⟨[3], by decide⟩ =
      ((overlayWrite none oneFileState [100, 47, 103] ⟨[3], by decide⟩).1, .ok 1) :=
    Res.eq_of_snd (by decide +kernel)
  have ha : overlayAppend none oneFileState [47, 100, 47, 102] ⟨[3], by decide⟩ =
      ((overlayAppend none oneFileState [47, 100, 47, 102] ⟨[3], by decide⟩).1, .ok 1) :=
    Res.eq_of_snd (by decide +kernel)
  have hp : Plain (ovNormalize [100, 47, 103]) := by decide
  have hq : Plain (ovNormalize [47, 100, 47, 102]) := by decide
  have hs : oneFileState = run (step none) (State.init 0) oneFile := by rw [oneFileState]
  have h₁ := (written_then_read none 0 hrun hs hp).1 hw
  have h₂ := (written_then_read none 0 hrun hs hq).2 ha
    fun _ f hf => absurd hf (by simp [irdFind])
  exact ⟨h₁.1, h₂.1, by decide +kernel⟩

def longPath (last : UInt8) : Bytes := List.replicate 79 97 ++ [last]

/-- The two long paths are one file. And a write to `/./f`, which finds `f` and stores `./f`,
takes `f` away. -/
theorem longPaths_and_dotPath_interfere : (strip (longPath 99) ≠ strip (longPath 98) ∧
      (overlayWrite none (State.init 0) (longPath 98) ⟨[1], by decide⟩).2 = .ok 1 ∧
      overlayReadAt (State.init 0).pool (longPath 99) 1 0 = .error .notFound ∧
      overlayReadAt (overlayWrite none (State.init 0) (longPath 98) ⟨[1], by decide⟩).1.pool
        (longPath 99) 1 0 = .ok [1]) ∧
    (strip [102] ≠ strip [47, 46, 47, 102] ∧
      overlayReadAt (run (step none) (State.init 0) [.write [102] ⟨[1], by decide⟩]).pool
        [102] 1 0 = .ok [1] ∧
      (overlayWrite none (run (step none) (State.init 0) [.write [102] ⟨[1], by decide⟩])
        [47, 46, 47, 102] ⟨[2], by decide⟩).2 = .ok 1 ∧
      overlayReadAt (overlayWrite none (run (step none) (State.init 0)
        [.write [102] ⟨[1], by decide⟩]) [47, 46, 47, 102] ⟨[2], by decide⟩).1.pool [102] 1 0 =
          .error .notFound) := by
  decide +kernel

/-! ## Moved and copied subtrees -/

def tree (g : Pool) : List (Bytes × Bool × Bytes) :=
  (slots.filter fun i => (g i).head).map fun i =>
    ((g i).path, (g i).isDir, readLoop g (g i).size 0 288 (some i) 0 [])

def moved (oldp newp : Bytes) (e : Bytes × Bool × Bytes) : Bytes × Bool × Bytes :=
  (if ovUnder e.1 oldp then relocate oldp newp e.1 else e.1, e.2)

def Cell.denotes (c : Cell) : Bytes × Bool × Bytes := (c.path, c.isDir, c.content)

theorem Rep.tree_perm {g : Pool} (h : Rep g cells) : (tree g).Perm (cells.map Cell.denotes) := by
  have hheads : (slots.filter fun i => (g i).head).Perm (cells.map Cell.head) := by
    refine (perm_ext_iff_of_nodup (nodup_range.filter _) h.heads_nodup).mpr fun k => ?_
    rw [mem_filter, mem_map]
    constructor
    · rintro ⟨hk, hhead⟩
      exact (h.head_iff (mem_range.mp hk)).mp hhead
    · rintro ⟨c, hc, rfl⟩
      exact ⟨mem_range.mpr (h.ok c hc).lt, (h.ok c hc).isHead⟩
  refine (hheads.map _).trans (List.Perm.of_eq ?_)
  rw [map_map]
  refine map_congr_left fun c hc => ?_
  have hok := h.ok c hc
  have hread : readLoop g c.content.length 0 288 (some c.head) 0 [] = c.content := by
    rw [readLoop_eq hok.linked_ovNext hok.blocks_read (h.slots_length_le hc),
      sliceLoop_eq _ _ _ _ _ (by simp)]
    simp [Cell.content]
  simp only [Function.comp_apply, hok.path, hok.isDir, hok.size, hread, Cell.denotes]

/-- In every run whose steps, the last one too, keep paths normalised and move to free places: a
rename moves exactly the nodes at and below the old path, a copy adds a copy of exactly those at and
below its source, and one that fails changes nothing. -/
theorem subtrees_moved (rd : Initrd) (ext : ℕ) {ops : List Op} {s : State}
    (h : Along (step rd) (Kept rd) (State.init ext) ops) (hs : s = run (step rd) (State.init ext) ops)
    {src dst : Bytes} {s' : State} {r : Except Err ℕ} :
    (Kept rd s (.rename src dst) → overlayRename rd s src dst = (s', r) →
      (∀ n, r = .ok n → ovNormalize src ≠ ovNormalize dst → (tree s'.pool).Perm
        ((tree s.pool).map (moved (ovNormalize src) (ovNormalize dst)))) ∧
      ∀ e, r = .error e → s' = s) ∧
    (Kept rd s (.copy src dst) → overlayCopy rd s src dst = (s', r) →
      (∀ n, r = .ok n → (tree s'.pool).Perm (tree s.pool ++
        ((tree s.pool).filter fun e => ovUnder e.1 (ovNormalize src)).map
          (moved (ovNormalize src) (ovNormalize dst)))) ∧
      ∀ e, r = .error e → s' = s) := by
  obtain ⟨cells, hinv⟩ := inv_run rd ext h
  rw [← hs] at hinv
  have htree := hinv.rep.tree_perm
  constructor
  · rintro ⟨hpl, hclear⟩ hr
    rcases hinv.rename hpl hclear with ⟨r', hrun, hne⟩ | ⟨s₁, hrun, -, -, hinv'⟩
    · obtain ⟨rfl, rfl⟩ := Prod.mk.inj (hr.symm.trans hrun)
      refine ⟨fun n hn hdiff => ?_, fun _ _ => rfl⟩
      obtain ⟨e, he⟩ := hne hdiff
      exact absurd (hn.symm.trans he) (by simp)
    · obtain ⟨rfl, rfl⟩ := Prod.mk.inj (hr.symm.trans hrun)
      refine ⟨fun _ _ _ => ?_, fun e he => absurd he (by simp)⟩
      refine hinv'.rep.tree_perm.trans (List.Perm.trans ?_ (htree.map _).symm)
      rw [map_map, map_map]
      exact List.Perm.refl _
  · rintro ⟨hpl, hclear⟩ hr
    rcases hinv.copy hpl hclear with ⟨e, hrun⟩ | ⟨s₁, cs, new, hrun, -, hcs, hcopies, -, hinv'⟩
    · obtain ⟨rfl, rfl⟩ := Prod.mk.inj (hr.symm.trans hrun)
      exact ⟨fun n hn => absurd hn (by simp), fun _ _ => rfl⟩
    · obtain ⟨rfl, rfl⟩ := Prod.mk.inj (hr.symm.trans hrun)
      refine ⟨fun _ _ => ?_, fun e he => absurd he (by simp)⟩
      have hnew := Tables.map_eq_of_forall₂ hcopies (f := Cell.denotes)
        (k := moved (ovNormalize src) (ovNormalize dst) ∘ Cell.denotes) fun c d hd => by
          simp [Cell.denotes, moved, hd.under, hd.path, hd.isDir, hd.blocks, Cell.content]
      refine hinv'.rep.tree_perm.trans ?_
      rw [map_append, hnew]
      refine htree.symm.append ((hcs.map _).trans ?_)
      rw [← map_map]
      refine List.Perm.map _ ((htree.filter _).trans ?_).symm
      rw [filter_map]
      exact List.Perm.refl _

theorem subtrees_moved_oneFile :
    (tree (overlayCopy none oneFileState [100] [101]).1.pool).Perm (tree oneFileState.pool ++
      ((tree oneFileState.pool).filter fun e => ovUnder e.1 [100]).map (moved [100] [101])) := by
  have hrun : Along (step none) (Kept none) (State.init 0) oneFile := by decide +kernel
  have hs : oneFileState = run (step none) (State.init 0) oneFile := by rw [oneFileState]
  have hr := Res.eq_of_snd (by decide +kernel : (overlayCopy none oneFileState [100] [101]).2 = .ok 0)
  exact ((subtrees_moved none 0 hrun hs).2 (by decide +kernel) hr).1 0 rfl

def dotFile : List Op := [.mkdir [46], .write [47, 46, 47, 102] ⟨[1, 2, 3], by decide⟩]

/-- The copy fails after it has made the directory `q`. -/
theorem dotFile_copied_in_part : let s := run (step none) (State.init 0) dotFile
    (overlayCopy none s [47, 46] [113]).2 = .error .noSpace ∧
    (tree s.pool).length = 2 ∧ (tree (overlayCopy none s [47, 46] [113]).1.pool).length = 3 := by
  decide +kernel

end Mohhdy.Overlay
