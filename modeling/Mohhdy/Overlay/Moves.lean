import Mohhdy.Overlay.Mutators

/-! Renaming and copying a subtree. -/
namespace Mohhdy.Overlay
set_option autoImplicit false

open Blocks List

variable {c : Cell}

def ParentsInside (g : Pool) (oldp : Bytes) : Prop :=
  ∀ i ∈ slots, (g i).head = true → ovUnder (g i).path oldp = true → (g i).path ≠ oldp →
    overlayIsDir g (ovParent (g i).path) = true

def Clear (g : Pool) (newp : Bytes) : Prop :=
  ∀ i ∈ slots, (g i).head = true → ovUnder (g i).path newp = false

section Check
variable {rd : Initrd} {s : State} {cells : List Cell} {oldp newp : Bytes}

structure Checked (rd : Initrd) (g : Pool) (oldp newp : Bytes) : Prop where
  absent : ovFind g newp = none
  noDir : initrdIsDir rd newp = false
  parent : ovParentIsDir rd g newp = true
  outside : ¬ (ovUnder newp oldp && decide ((newp.drop oldp.length).head? = some slash)) = true
  fits : ¬ (slots.any fun i => (g i).head && ovUnder (g i).path oldp &&
    decide (80 ≤ newp.length + ((g i).path.length - oldp.length))) = true

theorem moveCheck_none {g : Pool} (hcheck : moveCheck rd g oldp newp = none) : Checked rd g oldp newp := by
  unfold moveCheck at hcheck
  split_ifs at hcheck with hold hfind hird hpar hunder hfits
  rw [Bool.or_eq_true, not_or] at hird
  exact ⟨by simpa using hfind, by simpa using hird.2, by simpa using hpar, hunder, hfits⟩

theorem Rep.forall_heads {g : Pool} (h : Rep g cells) {P : Bytes → Prop} :
    (∀ i ∈ slots, (g i).head = true → P (g i).path) ↔ ∀ c ∈ cells, P c.path := by
  constructor
  · intro hP c hc
    have hok := h.ok c hc
    exact hok.path ▸ hP c.head (mem_range.mpr hok.lt) hok.isHead
  · intro hP i hi hhead
    obtain ⟨c, hc, rfl⟩ := (h.head_iff (mem_range.mp hi)).mp hhead
    exact (h.ok c hc).path ▸ hP c hc

section
variable (h : Inv s cells)
include h

theorem Inv.clear (hroot : Rooted rd (entries cells)) (hnew : newp ≠ [] → Tidy newp) (hpl : Plain newp)
    (hcheck : moveCheck rd s.pool oldp newp = none) : Clear s.pool newp := by
  have hk := moveCheck_none hcheck
  refine (h.rep.forall_heads (P := fun p => ovUnder p newp = false)).mpr fun c hc => ?_
  by_cases hne : newp = []
  · rw [hne, Bool.eq_false_iff]
    intro hu
    rcases ovUnder_iff.mp hu with h0 | ⟨r, h0⟩
    · exact (h.tidy hc).ne_nil h0
    · exact (h.tidy hc).head (by rw [h0]; rfl)
  · have ht := hnew hne
    exact hroot.not_under h.paths ht hpl (h.absent ht hpl hk.absent) hk.noDir (mem_map_of_mem hc)

theorem Inv.inside (hold : Tidy oldp) (hin : ParentsInside s.pool oldp) : Inside (entries cells) oldp := by
  intro e he hu hne
  obtain ⟨c, hc, rfl⟩ := mem_map.mp he
  have hdir := (h.rep.forall_heads (P := fun p => ovUnder p oldp = true → p ≠ oldp →
    overlayIsDir s.pool (ovParent p) = true)).mp hin c hc hu hne
  refine ((h.overlayIsDir_iff (h.tidy hc) (h.plain hc)).mp hdir).resolve_left ?_
  obtain ⟨r, hr⟩ := (ovUnder_iff.mp hu).resolve_left hne
  rw [show c.path = _ from hr, dirOf_append hold.last]
  simp [hold.ne_nil]

theorem Inv.movable (hold : Tidy oldp) (hnew : Tidy newp) (hpl : Plain newp) (hne : oldp ≠ newp)
    (hcheck : moveCheck rd s.pool oldp newp = none) (hclear : Clear s.pool newp) :
    Movable rd (entries cells) oldp newp := by
  have hk := moveCheck_none hcheck
  refine ⟨hold, hnew, hpl, ?_, (h.parentIsDir_iff hnew hpl).mp hk.parent, ?_, ?_⟩
  · exact forall_mem_map.mpr ((h.rep.forall_heads (P := fun p => ovUnder p newp = false)).mp hclear)
  · rw [Bool.eq_false_iff]
    intro hu
    refine hk.outside ?_
    rw [Bool.and_eq_true]
    refine ⟨hu, ?_⟩
    rcases ovUnder_iff.mp hu with heq | ⟨r, rfl⟩
    · exact absurd heq.symm hne
    · simp
  · intro e he hu
    obtain ⟨c, hc, rfl⟩ := mem_map.mp he
    by_contra hlong
    refine hk.fits (any_eq_true.mpr ⟨c.head, mem_range.mpr (h.rep.ok c hc).lt, ?_⟩)
    rw [(h.rep.ok c hc).isHead, (h.rep.ok c hc).path]
    simp only [Cell.entry] at hu hlong
    simp [hu, not_lt.mp hlong]

end

theorem Movable.target_eq {T : List Entry} (m : Movable rd T oldp newp) {e : Entry} (he : e ∈ T)
    (hu : ovUnder e.1 oldp = true) : target oldp newp e.1 = relocate oldp newp e.1 := by
  have := m.fits e he hu
  refine take_of_length_le ?_
  rw [length_append, length_drop]
  omega

end Check

/-! ## rename -/

def Cell.rename (oldp newp : Bytes) (c : Cell) : Cell :=
  { c with path := if ovUnder c.path oldp then relocate oldp newp c.path else c.path }

section Rename
variable {rd : Initrd} {s : State} {cells : List Cell} {oldp newp : Bytes}

theorem Inv.renamePool (h : Inv s cells) (m : Movable rd (entries cells) oldp newp) :
    Rep (renamePool s.pool oldp newp) (cells.map (Cell.rename oldp newp)) := by
  refine h.rep.mapPath ?_ ?_
  · intro c hc
    have hok := h.rep.ok c hc
    rw [Overlay.renamePool, hok.path]
    by_cases hu : ovUnder c.path oldp = true
    · have htarget : target oldp newp c.path = relocate oldp newp c.path :=
        m.target_eq (e := c.entry) (mem_map_of_mem hc) hu
      rw [if_pos ⟨hok.lt, hok.used, hu⟩, if_pos hu, htarget]
    · rw [if_neg fun hc => hu hc.2.2, if_neg hu, ← hok.path]
  · intro k hk
    refine if_neg ?_
    rintro ⟨hlt, hused, hu⟩
    -- a used node that is no head is a continuation, and has no path
    obtain ⟨c, hc, hmem⟩ := mem_flatMap.mp ((h.rep.used k hlt).mp hused)
    rcases mem_cons.mp hmem with rfl | htail
    · simp [(h.rep.ok c hc).isHead] at hk
    · obtain ⟨b, hb⟩ := (h.rep.ok c hc).tail_contAt htail
      rw [hb.path] at hu
      rcases ovUnder_iff.mp hu with h0 | ⟨r, h0⟩
      · exact m.tidyOld.ne_nil h0.symm
      · simp at h0

theorem Cell.bytes_setPath (c : Cell) (p : Bytes) :
    ({ c with path := p } : Cell).bytes + c.path.length = c.bytes + p.length := by
  simp only [Cell.bytes, Cell.content, ovFileBytes]
  split <;> omega

theorem Cell.rename_bytes (c : Cell) : (c.rename oldp newp).bytes ≤
    c.bytes + if ovUnder c.path oldp then newp.length - oldp.length else 0 := by
  have hpath : (c.rename oldp newp).path.length ≤
      c.path.length + if ovUnder c.path oldp then newp.length - oldp.length else 0 := by
    rw [Cell.rename]
    by_cases hu : ovUnder c.path oldp = true
    · have hlen := congrArg List.length (ovUnder_rest hu).1
      rw [length_append, length_drop] at hlen
      simp only [hu, if_true, relocate, length_append, length_drop]
      omega
    · simp [hu]
  have hbytes : (c.rename oldp newp).bytes + c.path.length =
      c.bytes + (c.rename oldp newp).path.length := c.bytes_setPath _
  omega

theorem entries_rename (cells : List Cell) : entries (cells.map (Cell.rename oldp newp)) =
    (entries cells).map fun e => if ovUnder e.1 oldp then moveEntry oldp newp e else e := by
  rw [entries, entries, map_map, map_map]
  refine map_congr_left fun c _ => ?_
  by_cases hu : ovUnder c.path oldp = true
  · simp [Cell.entry, Cell.rename, moveEntry, hu]
  · simp [Cell.entry, Cell.rename, hu]

theorem Inv.rename (h : Inv s cells) {oldpath newpath : Bytes}
    (hpl : Plain (ovNormalize newpath)) (hclear : moveCheck rd s.pool (ovNormalize oldpath)
      (ovNormalize newpath) = none → Clear s.pool (ovNormalize newpath)) :
    (∃ r, overlayRename rd s oldpath newpath = (s, r) ∧
      (ovNormalize oldpath ≠ ovNormalize newpath → ∃ e, r = .error e)) ∨
    ∃ s', overlayRename rd s oldpath newpath = (s', .ok 0) ∧ s'.extLba = s.extLba ∧
      (Rooted rd (entries cells) → (moveCheck rd s.pool (ovNormalize oldpath) (ovNormalize newpath) = none →
          ParentsInside s.pool (ovNormalize oldpath)) →
        Rooted rd (entries (cells.map (Cell.rename (ovNormalize oldpath) (ovNormalize newpath))))) ∧
      Inv s' (cells.map (Cell.rename (ovNormalize oldpath) (ovNormalize newpath))) := by
  unfold overlayRename
  extract_lets oldp newp
  split
  · exact .inl ⟨_, rfl, fun _ => ⟨_, rfl⟩⟩
  rename_i hempty
  rw [not_or] at hempty
  split
  · exact .inl ⟨_, rfl, fun hne => absurd ‹_› hne⟩
  rename_i hne
  cases hcheck : moveCheck rd s.pool oldp newp with
  | some e => exact .inl ⟨_, rfl, fun _ => ⟨e, rfl⟩⟩
  | none =>
    rw [Option.elim_none]
    split
    · exact .inl ⟨_, rfl, fun _ => ⟨_, rfl⟩⟩
    rename_i hcap
    have m := h.movable (normalize_tidy hempty.1) (normalize_tidy hempty.2) hpl hne hcheck (hclear hcheck)
    have hrep := h.renamePool m
    refine .inr ⟨_, rfl, rfl, fun hroot hin => ?_, hrep, ?_, ?_, ?_, ?_⟩
    · rw [entries_rename]
      exact Rooted.rename m hroot (h.inside m.tidyOld (hin rfl))
    · rw [entries_rename]
      exact PathsOk.rename m h.paths
    · refine forall_mem_map.mpr fun c hc => ?_
      exact h.full c hc
    · refine forall_mem_map.mpr fun c hc => ?_
      exact h.sizes c hc
    · have hgrow : renameGrow s.pool oldp newp =
          (cells.map fun c => if ovUnder c.path oldp then newp.length - oldp.length else 0).sum := by
        rw [renameGrow, h.rep.sum_heads fun k hk => by simp [hk]]
        refine congrArg List.sum (map_congr_left fun c hc => ?_)
        rw [(h.rep.ok c hc).isHead, (h.rep.ok c hc).path, Bool.true_and]
      have hle : ((cells.map (Cell.rename (ovNormalize oldpath) (ovNormalize newpath))).map
          Cell.bytes).sum ≤ (cells.map Cell.bytes).sum + renameGrow s.pool oldp newp := by
        rw [hgrow, map_map, ← sum_map_add]
        exact sum_le_sum fun c _ => Cell.rename_bytes c
      rw [snapshotBytes_eq hrep]
      rw [snapshotBytes_eq h.rep, not_lt] at hcap
      simp only [ovHdr, overlayCapacity] at hcap ⊢
      omega

end Rename

/-! ## copy -/

structure IsCopy (oldp newp : Bytes) (c d : Cell) : Prop where
  under : ovUnder c.path oldp = true
  path : d.path = relocate oldp newp c.path
  isDir : d.isDir = c.isDir
  blocks : d.blocks = c.blocks

def sources (cells : List Cell) (oldp : Bytes) (dirs : Bool) (is : List ℕ) : List Cell :=
  is.filterMap fun i =>
    cells.find? fun c => decide (c.head = i ∧ c.isDir = dirs ∧ ovUnder c.path oldp = true)

section Copy
variable {rd : Initrd} {s : State} {cells done : List Cell} {oldp newp : Bytes} {g : Pool}

theorem CellOk.length_slots (h : CellOk g c) : c.slots.length = c.blocks.length := by
  obtain ⟨b, bs, hb, -, -, hconts⟩ := h.first
  rw [Cell.slots, hb, length_cons, length_cons, hconts.length_eq]

theorem Movable.copy_not_under (m : Movable rd (entries cells) oldp newp) {d : Cell} (hc : c ∈ cells)
    (hd : IsCopy oldp newp c d) :
    ovUnder d.path newp = true ∧ ovUnder d.path oldp = false := by
  refine ⟨hd.path ▸ relocate_under hd.under, ?_⟩
  rw [Bool.eq_false_iff]
  intro hu
  have hnot := m.clear c.entry (mem_map_of_mem hc)
  have hout := m.outside
  rw [Bool.eq_false_iff] at hnot hout
  obtain ⟨hc1, hrest⟩ := ovUnder_rest hd.under
  obtain ⟨hd1, hrest'⟩ := ovUnder_rest hu
  rw [hd.path, relocate] at hd1
  -- one of the two prefixes is a prefix of the other
  rcases append_eq_append_iff.mp hd1 with ⟨u, hold, hdrop⟩ | ⟨u, hnew, hdrop⟩
  · cases u with
    | nil => exact hout (ovUnder_iff.mpr (.inl (by simpa using hold.symm)))
    | cons x u =>
      rw [hdrop, cons_append, List.head?_cons] at hrest
      obtain rfl : x = slash := by simpa using hrest
      refine hnot (ovUnder_iff.mpr (.inr ⟨u ++ c.path.drop oldp.length, ?_⟩))
      rw [Cell.entry]
      conv_lhs => rw [hc1]
      simp [hold]
  · cases u with
    | nil => exact hout (ovUnder_iff.mpr (.inl (by simpa using hnew)))
    | cons x u =>
      rw [hd.path, relocate, hdrop, cons_append, List.head?_cons] at hrest'
      obtain rfl : x = slash := by simpa using hrest'
      exact hout (ovUnder_iff.mpr (.inr ⟨u, hnew⟩))

structure Copying (cells done : List Cell) (oldp newp : Bytes) (g : Pool) : Prop where
  rep : Rep g (cells ++ done)
  copies : ∀ d ∈ done, ∃ c ∈ cells, IsCopy oldp newp c d

theorem Copying.add {d : Cell} {g' : Pool} (hk : Copying cells done oldp newp g) (hc : c ∈ cells)
    (hd : IsCopy oldp newp c d) (hrep : Rep g' (d :: (cells ++ done))) :
    Copying cells (done ++ [d]) oldp newp g' where
  rep := by
    refine hrep.perm ?_
    rw [← append_assoc]
    exact (perm_append_singleton d (cells ++ done)).symm
  copies := forall_mem_append.mpr ⟨hk.copies, forall_mem_singleton.mpr ⟨c, hc, hd⟩⟩

section
variable (h : Inv s cells) (m : Movable rd (entries cells) oldp newp)
  (hk : Copying cells done oldp newp g) (hc : c ∈ cells) (hu : ovUnder c.path oldp = true)
include h m hk hc hu

theorem Inv.find_source : ovFind g c.path = some c.head := by
  refine hk.rep.find_eq (mem_append_left _ hc)
    (ovNormalize_eq_self (h.tidy hc) (h.plain hc)) (h.tidy hc).ne_nil ?_
  intro x hx heq
  rcases mem_append.mp hx with hx | hx
  · exact h.eq_of_path hc hx heq
  · obtain ⟨c', hc', hcopy⟩ := hk.copies x hx
    have hnot := (m.copy_not_under hc' hcopy).2
    rw [heq, hu] at hnot
    exact absurd hnot (by simp)

theorem Inv.copyOne_source (hfree : c.slots.length ≤ ovFreeCount g) :
    ∃ g' d, copyOne oldp newp (overlayFileMax s) c.isDir g c.head = (g', true) ∧
      IsCopy oldp newp c d ∧ Copying cells (done ++ [d]) oldp newp g' := by
  have hmem : c ∈ cells ++ done := mem_append_left _ hc
  have hok := hk.rep.ok c hmem
  have htarget : target oldp newp c.path = relocate oldp newp c.path :=
    m.target_eq (e := c.entry) (mem_map_of_mem hc) hu
  have hskip : ¬ ((g c.head).head = false ∨ (g c.head).isDir ≠ c.isDir ∨
      ovUnder (g c.head).path oldp = false) := by
    rw [hok.isHead, hok.isDir, hok.path, hu]
    simp
  rw [Overlay.copyOne, if_neg hskip, hok.isDir, hok.path, htarget]
  by_cases hdir : c.isDir = true
  · obtain ⟨k, halloc⟩ := ovAlloc_isSome (g := g) (by simp [Cell.slots] at hfree; omega)
    rw [if_pos hdir, halloc, Option.elim_some]
    have hd : IsCopy oldp newp c ⟨k, [], relocate oldp newp c.path, true, [[]]⟩ :=
      ⟨hu, rfl, hdir.symm, (hok.dir hdir).2.symm⟩
    exact ⟨_, _, rfl, hd, hk.add hc hd (hk.rep.addDir halloc _ _)⟩
  · have hfile : c.isDir = false := by simpa using hdir
    have hfull := h.full c hc hfile
    have hread := h.read_whole hk.rep hc hmem hfile (h.find_source m hk hc hu)
    have hroom : ovBlocksFor c.content.length ≤ ovFreeCount g := by
      rwa [hok.length_slots, hfull, length_blocks] at hfree
    obtain ⟨g', d, hrun, ⟨hpath, hddir, hblocks⟩, hrep⟩ := hk.rep.build (relocate oldp newp c.path) hroom
    have hlen : (relocate oldp newp c.path).length ≤ 79 := by
      rw [← htarget, target]
      simp
    rw [take_of_length_le hlen] at hpath
    have hd : IsCopy oldp newp c d :=
      ⟨hu, hpath, hddir.trans hfile.symm, hblocks.trans hfull.symm⟩
    refine ⟨g', d, ?_, hd, hk.add hc hd hrep⟩
    rw [if_neg hdir, hread]
    simp only
    rw [hrun]
    rfl

end

theorem Movable.copyOne_skip (fileMax : ℕ) (m : Movable rd (entries cells) oldp newp)
    (hk : Copying cells done oldp newp g) {dirs : Bool} {i : ℕ} (hi : i < 288)
    (hnone : ∀ c ∈ cells, ¬ (c.head = i ∧ c.isDir = dirs ∧ ovUnder c.path oldp = true)) :
    copyOne oldp newp fileMax dirs g i = (g, true) := by
  refine if_pos ?_
  by_contra hcon
  rw [not_or, not_or, not_not] at hcon
  obtain ⟨hhead, hdir, hu⟩ := hcon
  obtain ⟨x, hx, rfl⟩ := (hk.rep.head_iff hi).mp (by simpa using hhead)
  have hok := hk.rep.ok x hx
  rw [hok.isDir] at hdir
  rw [hok.path] at hu
  rcases mem_append.mp hx with hx | hx
  · exact hnone x hx ⟨rfl, hdir, by simpa using hu⟩
  · obtain ⟨c, hc, hcopy⟩ := hk.copies x hx
    exact hu (m.copy_not_under hc hcopy).2

theorem find_source_spec {dirs : Bool} {i : ℕ}
    (h : (cells.find? fun c => decide (c.head = i ∧ c.isDir = dirs ∧ ovUnder c.path oldp = true)) =
      some c) : c ∈ cells ∧ c.head = i ∧ c.isDir = dirs ∧ ovUnder c.path oldp = true :=
  ⟨mem_of_find?_eq_some h, by simpa using List.find?_some h⟩

theorem Inv.copyLoop_spec (h : Inv s cells) (dirs : Bool) (m : Movable rd (entries cells) oldp newp)
    {is : List ℕ} (his : ∀ i ∈ is, i < 288) (hk : Copying cells done oldp newp g)
    (hfree : ((sources cells oldp dirs is).map fun c => c.slots.length).sum ≤ ovFreeCount g) :
    ∃ g' new, copyLoop oldp newp (overlayFileMax s) dirs is g = (g', true) ∧
      Copying cells (done ++ new) oldp newp g' ∧
      List.Forall₂ (IsCopy oldp newp) (sources cells oldp dirs is) new ∧
      ovFreeCount g' + ((sources cells oldp dirs is).map fun c => c.slots.length).sum =
        ovFreeCount g := by
  induction is generalizing g done with
  | nil => exact ⟨g, [], rfl, by simpa using hk, .nil, rfl⟩
  | cons i is ih =>
    have his' : ∀ i ∈ is, i < 288 := fun j hj => his j (mem_cons_of_mem _ hj)
    cases hfind : cells.find? fun c => decide (c.head = i ∧ c.isDir = dirs ∧
      ovUnder c.path oldp = true) with
    | none =>
      have hsrc : sources cells oldp dirs (i :: is) = sources cells oldp dirs is := by
        simp only [sources, filterMap_cons, hfind]
      have hskip := m.copyOne_skip (overlayFileMax s) hk (his i (by simp)) fun c hc => by
        simpa using List.find?_eq_none.mp hfind c hc
      rw [hsrc] at hfree ⊢
      obtain ⟨g', new, hrun, hk', hcopies⟩ := ih his' hk hfree
      refine ⟨g', new, ?_, hk', hcopies⟩
      rw [Overlay.copyLoop, hskip]
      exact hrun
    | some c =>
      obtain ⟨hc, rfl, rfl, hu⟩ := find_source_spec hfind
      have hsrc : sources cells oldp c.isDir (c.head :: is) = c :: sources cells oldp c.isDir is := by
        simp only [sources, filterMap_cons, hfind]
      rw [hsrc, map_cons, sum_cons] at hfree
      obtain ⟨g₁, d, hone, hcopy, hk₁⟩ := h.copyOne_source m hk hc hu (by omega)
      have hcount : ovFreeCount g₁ + c.slots.length = ovFreeCount g := by
        have h1 := hk.rep.freeCount
        have h2 := hk₁.rep.freeCount
        have hlen : d.slots.length = c.slots.length := by
          rw [(hk₁.rep.ok d (by simp)).length_slots, hcopy.blocks,
            (hk₁.rep.ok c (by simp [hc])).length_slots]
        simp only [flatMap_append, length_append, flatMap_cons, flatMap_nil, append_nil] at h1 h2
        omega
      obtain ⟨g', new, hrun, hk', hcopies, hleft⟩ := ih his' hk₁ (by omega)
      refine ⟨g', d :: new, ?_, by simpa using hk', hsrc ▸ .cons hcopy hcopies, ?_⟩
      · rw [Overlay.copyLoop, hone]
        exact hrun
      · rw [hsrc, map_cons, sum_cons]
        omega

theorem Inv.sources_perm (h : Inv s cells) (oldp : Bytes) (dirs : Bool) : (sources cells oldp dirs slots).Perm
      (cells.filter fun c => decide (c.isDir = dirs) && ovUnder c.path oldp) := by
  have hcells : cells.Nodup := h.rep.heads_nodup.of_map
  have hnodup : (sources cells oldp dirs slots).Nodup := by
    refine List.Nodup.filterMap ?_ nodup_range
    intro i j c hi hj
    rw [← (find_source_spec hi).2.1, (find_source_spec hj).2.1]
  refine (perm_ext_iff_of_nodup hnodup (hcells.filter _)).mpr fun c => ?_
  rw [sources, mem_filterMap, mem_filter]
  constructor
  · rintro ⟨i, -, hfind⟩
    obtain ⟨hc, -, hdir, hu⟩ := find_source_spec hfind
    exact ⟨hc, by simp [hdir, hu]⟩
  · rintro ⟨hc, hsel⟩
    obtain ⟨hdir, hu⟩ : c.isDir = dirs ∧ ovUnder c.path oldp = true := by simpa using hsel
    refine ⟨c.head, mem_range.mpr (h.rep.ok c hc).lt, ?_⟩
    cases hfind : cells.find? fun x => decide (x.head = c.head ∧ x.isDir = dirs ∧
      ovUnder x.path oldp = true) with
    | none => exact absurd (decide_eq_true ⟨rfl, hdir, hu⟩) (List.find?_eq_none.mp hfind c hc)
    | some x =>
      obtain ⟨hx, hhead, -⟩ := find_source_spec hfind
      rw [h.rep.eq_of_head hx hc hhead]

theorem Inv.sources_both (h : Inv s cells) (oldp : Bytes) :
    (sources cells oldp true slots ++ sources cells oldp false slots).Perm
      (cells.filter fun c => ovUnder c.path oldp) := by
  refine ((h.sources_perm oldp true).append (h.sources_perm oldp false)).trans ?_
  have hsplit := filter_append_perm (fun c : Cell => c.isDir)
    (cells.filter fun c => ovUnder c.path oldp)
  simpa using hsplit

def copyCost (oldp newp : Bytes) (c : Cell) : ℕ :=
  if c.isDir then 8 + (newp.length + (c.path.length - oldp.length))
  else ovFileBytes (newp.length + (c.path.length - oldp.length)) c.content.length

theorem IsCopy.bytes {d : Cell} (h : IsCopy oldp newp c d) : d.bytes = copyCost oldp newp c := by
  simp [Cell.bytes, copyCost, h.path, h.isDir, h.blocks, relocate, Cell.content]

section
variable (h : Inv s cells)
include h

theorem Inv.sum_sources {f : ℕ → ℕ} {f' : Cell → ℕ} (hf : ∀ c ∈ cells, f c.head = f' c) :
    (slots.map fun i => if (s.pool i).head && ovUnder (s.pool i).path oldp then f i else 0).sum =
      ((sources cells oldp true slots).map f').sum +
        ((sources cells oldp false slots).map f').sum := by
  rw [h.rep.sum_heads fun k hk => by simp [hk], ← sum_append, ← map_append,
    ((h.sources_both oldp).map f').sum_eq]
  have hstep : (cells.map fun c => if (s.pool c.head).head && ovUnder (s.pool c.head).path oldp then
      f c.head else 0) = cells.map fun c => if ovUnder c.path oldp = true then f' c else 0 := by
    refine map_congr_left fun c hc => ?_
    rw [(h.rep.ok c hc).isHead, (h.rep.ok c hc).path, hf c hc, Bool.true_and]
  rw [hstep, sum_map_ite]
  simp

theorem Inv.copyNodes_eq : copyNodes s.pool oldp =
    ((sources cells oldp true slots).map fun c => c.slots.length).sum +
      ((sources cells oldp false slots).map fun c => c.slots.length).sum := by
  refine h.sum_sources fun c hc => ?_
  have hok := h.rep.ok c hc
  rw [hok.isDir, h.rep.chainLen hc]
  split
  · rename_i hdir
    simp [Cell.slots, (hok.dir hdir).1]
  · rfl

theorem Inv.copyBytes_eq : copyBytes s.pool oldp newp =
    ((sources cells oldp true slots ++ sources cells oldp false slots).map
      (copyCost oldp newp)).sum := by
  rw [map_append, sum_append]
  refine h.sum_sources fun c hc => ?_
  have hok := h.rep.ok c hc
  rw [copyCost, hok.isDir, hok.path, hok.size]

theorem Inv.entries_copied {new : List Cell} (hcopies : List.Forall₂ (IsCopy oldp newp)
      (sources cells oldp true slots ++ sources cells oldp false slots) new) :
    (entries (cells ++ new)).Perm (entries cells ++
      ((entries cells).filter fun e => ovUnder e.1 oldp).map (moveEntry oldp newp)) := by
  have hnew := Tables.map_eq_of_forall₂ hcopies (f := Cell.entry)
    (k := moveEntry oldp newp ∘ Cell.entry) fun c d hd => by
      rw [Cell.entry, hd.path, hd.isDir]
      rfl
  rw [show entries (cells ++ new) = entries cells ++ _ from map_append, hnew, entries,
    filter_map, map_map]
  exact List.Perm.append_left _ ((h.sources_both oldp).map _)

theorem Inv.copied (m : Movable rd (entries cells) oldp newp)
    {new : List Cell} (hk : Copying cells new oldp newp g)
    (hcopies : List.Forall₂ (IsCopy oldp newp)
      (sources cells oldp true slots ++ sources cells oldp false slots) new)
    (hcap : overlaySnapshotBytes s + copyBytes s.pool oldp newp ≤ overlayCapacity s) :
    Inv ⟨g, s.extLba⟩ (cells ++ new) := by
  refine ⟨hk.rep, ?_, ?_, ?_, ?_⟩
  · refine (PathsOk.copy m h.paths).perm (h.entries_copied hcopies).symm
  · refine forall_mem_append.mpr ⟨h.full, fun x hx hdir => ?_⟩
    obtain ⟨c, hc, hcopy⟩ := hk.copies x hx
    rw [Cell.content, hcopy.blocks]
    exact h.full c hc (hcopy.isDir ▸ hdir)
  · refine forall_mem_append.mpr ⟨h.sizes, fun x hx => ?_⟩
    obtain ⟨c, hc, hcopy⟩ := hk.copies x hx
    rw [Cell.content, hcopy.blocks]
    exact h.sizes c hc
  · rw [snapshotBytes_eq hk.rep, map_append, sum_append,
      Tables.map_eq_of_forall₂ hcopies fun _ _ hd => hd.bytes, ← h.copyBytes_eq]
    rw [snapshotBytes_eq h.rep] at hcap
    simp only [ovHdr, overlayCapacity] at hcap ⊢
    omega

theorem Inv.copy {src dst : Bytes} (hpl : Plain (ovNormalize dst))
    (hclear : moveCheck rd s.pool (ovNormalize src) (ovNormalize dst) = none →
      Clear s.pool (ovNormalize dst)) :
    (∃ e, overlayCopy rd s src dst = (s, .error e)) ∨
    ∃ s' cs new, overlayCopy rd s src dst = (s', .ok 0) ∧ s'.extLba = s.extLba ∧
      cs.Perm (cells.filter fun c => ovUnder c.path (ovNormalize src)) ∧
      List.Forall₂ (IsCopy (ovNormalize src) (ovNormalize dst)) cs new ∧
      (Rooted rd (entries cells) → (moveCheck rd s.pool (ovNormalize src) (ovNormalize dst) = none →
          ParentsInside s.pool (ovNormalize src)) → Rooted rd (entries (cells ++ new))) ∧
      Inv s' (cells ++ new) := by
  have hold : ovNormalize src ≠ [] → Tidy (ovNormalize src) := normalize_tidy
  have hnew : ovNormalize dst ≠ [] → Tidy (ovNormalize dst) := normalize_tidy
  simp only [overlayCopy]
  generalize ovNormalize src = oldp at *
  generalize ovNormalize dst = newp at *
  split
  · exact .inl ⟨_, rfl⟩
  rename_i hempty
  rw [not_or] at hempty
  split
  · exact .inl ⟨_, rfl⟩
  rename_i hne
  cases hcheck : moveCheck rd s.pool oldp newp with
  | some e => exact .inl ⟨e, rfl⟩
  | none =>
    rw [Option.elim_none]
    split
    · exact .inl ⟨_, rfl⟩
    rename_i hnodes
    split
    · exact .inl ⟨_, rfl⟩
    rename_i hcap
    rw [not_lt] at hnodes hcap
    have m := h.movable (hold hempty.1) (hnew hempty.2) hpl hne hcheck (hclear hcheck)
    rw [h.copyNodes_eq] at hnodes
    have hslots : ∀ i ∈ slots, i < 288 := fun i hi => mem_range.mp hi
    have hk : Copying cells [] oldp newp s.pool := ⟨by simpa using h.rep, by simp⟩
    obtain ⟨g₁, new₁, hrun₁, hk₁, hcopies₁, hleft⟩ := h.copyLoop_spec true m hslots hk (by omega)
    obtain ⟨g₂, new₂, hrun₂, hk₂, hcopies₂, -⟩ := h.copyLoop_spec false m hslots hk₁ (by omega)
    rw [nil_append] at hk₂
    have hcopies := rel_append hcopies₁ hcopies₂
    refine .inr ⟨⟨g₂, s.extLba⟩, _, new₁ ++ new₂, ?_, rfl, h.sources_both oldp, hcopies, fun hroot hin => ?_,
      h.copied m hk₂ hcopies hcap⟩
    · rw [hrun₁]
      rw [hrun₂]
      rfl
    · exact (Rooted.copy m hroot (h.inside m.tidyOld (hin rfl))).perm (h.entries_copied hcopies).symm

end

end Copy

end Mohhdy.Overlay
