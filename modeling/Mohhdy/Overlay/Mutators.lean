import Mohhdy.Overlay.Contents

/-! What each mutator does to the cells.

The invariant of a state: its pool is a list of cells with different paths, every file is cut into
full blocks, and the image of the state fits its disk area. A mutator that fails changes
nothing; one that succeeds adds, removes, replaces or moves cells. -/
namespace Mohhdy.Overlay
set_option autoImplicit false

open Blocks List

variable {c : Cell} {data want : Bytes}

abbrev entries (cells : List Cell) : List Entry := cells.map Cell.entry

structure Inv (s : State) (cells : List Cell) : Prop where
  rep : Rep s.pool cells
  paths : PathsOk (entries cells)
  full : ∀ c ∈ cells, c.isDir = false → c.blocks = blocks 384 c.content
  sizes : ∀ c ∈ cells, c.content.length ≤ overlayFileMax s
  fits : overlaySnapshotBytes s ≤ overlayCapacity s

theorem overlayFileMax_ne_zero (s : State) : overlayFileMax s ≠ 0 := by
  unfold overlayFileMax
  split <;> omega

section Basic
variable {rd : Initrd} {s : State} {cells cells' : List Cell} {p : Bytes}

theorem mem_paths (hc : c ∈ cells) : c.path ∈ (entries cells).map Prod.fst :=
  mem_map.mpr ⟨c.entry, mem_map_of_mem hc, rfl⟩

theorem Inv.perm (h : Inv s cells) (hp : cells.Perm cells') : Inv s cells' where
  rep := h.rep.perm hp
  paths := h.paths.perm (hp.map _)
  full c hc := h.full c (hp.mem_iff.mpr hc)
  sizes c hc := h.sizes c (hp.mem_iff.mpr hc)
  fits := h.fits

theorem Inv.init (ext : ℕ) : Inv (State.init ext) [] := by
  have hrep : Rep (State.init ext).pool [] :=
    ⟨nodup_nil, fun _ _ => iff_of_false Bool.false_ne_true not_mem_nil, by simp⟩
  refine ⟨hrep, PathsOk.nil, by simp, by simp, ?_⟩
  rw [snapshotBytes_eq hrep, map_nil, sum_nil, ovHdr, overlayCapacity]
  split <;> omega

section
variable (h : Inv s cells) (hc : c ∈ cells)
include h hc

theorem Inv.tidy : Tidy c.path := h.paths.tidy c.entry (mem_map_of_mem hc)

theorem Inv.plain : Plain c.path := h.paths.plain c.entry (mem_map_of_mem hc)

theorem Inv.eq_of_path {c' : Cell} (hc' : c' ∈ cells) (heq : c'.path = c.path) : c' = c := by
  have hnodup := h.paths.nodup
  rw [map_map] at hnodup
  exact inj_on_of_nodup_map hnodup hc' hc heq

theorem Inv.find_eq (hp : ovNormalize p = c.path) : ovFind s.pool p = some c.head :=
  h.rep.find_eq hc hp (h.tidy hc).ne_nil fun _ hx heq => h.eq_of_path hc hx heq

end

theorem ovNormalize_eq_self (ht : Tidy p) (hp : Plain p) : ovNormalize p = p :=
  ht.normalize_eq_self hp (by omega)

section
variable (h : Inv s cells) (ht : Tidy p) (hp : Plain p)
include h ht hp

theorem Inv.overlayIsDir_iff :
    overlayIsDir s.pool (ovParent p) = true ↔ dirOf p = [] ∨ (dirOf p, true) ∈ entries cells := by
  have hnorm : ovNormalize (ovParent p) = dirOf p := normalize_ovParent ht hp (by omega)
  rw [overlayIsDir, hnorm]
  by_cases hd : dirOf p = []
  · simp [hd]
  · have hself := ovNormalize_eq_self (dirOf_tidy ht hd) (dirOf_plain hp hd)
    simp only [hd, decide_false, Bool.false_or, false_or, Option.any_eq_true]
    constructor
    · rintro ⟨i, hi, hdir⟩
      obtain ⟨c, hc, rfl, hpath⟩ := h.rep.find_some hi
      rw [hself] at hpath
      rw [(h.rep.ok c hc).isDir] at hdir
      exact mem_map.mpr ⟨c, hc, by rw [Cell.entry, hpath, hdir]⟩
    · intro hmem
      obtain ⟨c, hc, heq⟩ := mem_map.mp hmem
      obtain ⟨hpath, hdir⟩ := Prod.mk.inj heq
      refine ⟨c.head, h.find_eq hc (hself.trans hpath.symm), ?_⟩
      rw [(h.rep.ok c hc).isDir, hdir]

theorem Inv.parentIsDir_iff :
    ovParentIsDir rd s.pool p = true ↔ DirAt rd (entries cells) (dirOf p) := by
  rw [ovParentIsDir, Bool.or_eq_true, Bool.or_eq_true, DirAt, ← or_assoc, ← h.overlayIsDir_iff ht hp]
  by_cases hd : dirOf p = []
  · simp [(h.overlayIsDir_iff ht hp).mpr (.inl hd)]
  · have hroot : ovParent p ≠ [] := by
      intro hpar
      rw [dirOf, hpar] at hd
      exact hd rfl
    have hnorm : irdNormalize (ovParent p) = irdNormalize (dirOf p) :=
      (normalize_ovParent ht hp (by omega)).trans
        (irdNormalize_eq (dirOf_tidy ht hd) (dirOf_plain hp hd)).symm
    simp [initrdIsDir, hnorm, hroot]

theorem Inv.absent (hf : ovFind s.pool p = none) : p ∉ (entries cells).map Prod.fst := by
  have hself := ovNormalize_eq_self ht hp
  intro hmem
  obtain ⟨e, he, rfl⟩ := mem_map.mp hmem
  obtain ⟨c, hc, rfl⟩ := mem_map.mp he
  exact h.rep.find_none (by rw [hself]; exact ht.ne_nil) hf c hc hself.symm

theorem Inv.found {i : ℕ} (hf : ovFind s.pool p = some i) :
    ∃ c ∈ cells, c.head = i ∧ c.path = p := by
  obtain ⟨c, hc, hi, hpath⟩ := h.rep.find_some hf
  exact ⟨c, hc, hi, hpath.trans (ovNormalize_eq_self ht hp)⟩

end

theorem cellOk_dir {g : Pool} {k : ℕ} (hk : k < 288) (path data : Bytes) :
    CellOk (Function.update g k (dirNode path data)) ⟨k, [], path, true, [[]]⟩ := by
  constructor <;> simp [dirNode, Cell.content, hk]

theorem Rep.addDir {g : Pool} (h : Rep g cells) {k : ℕ} (hk : ovAlloc g = some k) (path data : Bytes) :
    Rep (Function.update g k (dirNode path data)) (⟨k, [], path, true, [[]]⟩ :: cells) := by
  obtain ⟨hlt, hfree⟩ := ovAlloc_spec hk
  refine h.add (cellOk_dir hlt path data) (by simp [Cell.slots]) (by simp [Cell.slots, hfree]) ?_
  intro j hj
  have hne : j ≠ k := by simpa [Cell.slots] using hj
  simp [hne]

end Basic

/-! ## mkdir -/

section Steps
variable {rd : Initrd} {s : State} {cells : List Cell} {path : Bytes}

theorem Inv.mkdir (h : Inv s cells) (hp : Plain (ovNormalize path)) :
    (∃ e, overlayMkdir rd s path = (s, .error e)) ∨
    ∃ s' c, overlayMkdir rd s path = (s', .ok 0) ∧ s'.extLba = s.extLba ∧
      c.entry = (ovNormalize path, true) ∧ c.blocks = [[]] ∧
      (Rooted rd (entries cells) → Rooted rd (entries (c :: cells))) ∧ Inv s' (c :: cells) := by
  unfold overlayMkdir
  extract_lets want
  split
  · exact .inl ⟨_, rfl⟩
  rename_i hne
  split
  · exact .inl ⟨_, rfl⟩
  rename_i hfind
  split
  · exact .inl ⟨_, rfl⟩
  split
  · exact .inl ⟨_, rfl⟩
  rename_i hpar
  split
  · exact .inl ⟨_, rfl⟩
  rename_i hcap
  cases halloc : ovAlloc s.pool with
  | none => exact .inl ⟨_, rfl⟩
  | some k =>
    have ht : Tidy want := normalize_tidy hne
    have htake : want.take 79 = want := take_of_length_le ht.length
    have hrep := h.rep.addDir halloc (want.take 79) (0 :: (s.pool k).data.drop 1)
    have hentry : Cell.entry ⟨k, [], want.take 79, true, [[]]⟩ = (want, true) := by rw [Cell.entry, htake]
    refine .inr ⟨_, _, rfl, rfl, hentry, rfl, fun hroot => ?_, hrep, ?_, ?_, ?_, ?_⟩
    · rw [entries, map_cons, hentry]
      exact hroot.insert ((h.parentIsDir_iff ht hp).mp (by simpa using hpar))
    · have hfind : ovFind s.pool want = none := by simpa using hfind
      rw [entries, map_cons, hentry]
      exact h.paths.insert (h.absent ht hp hfind) ht hp
    · exact forall_mem_cons.mpr ⟨by simp, h.full⟩
    · exact forall_mem_cons.mpr ⟨by simp [Cell.content], h.sizes⟩
    · rw [snapshotBytes_eq hrep]
      rw [snapshotBytes_eq h.rep] at hcap
      simp only [map_cons, sum_cons, Cell.bytes, if_true, htake, ovHdr, overlayCapacity] at hcap ⊢
      omega

/-! ## Storing a file -/

theorem Rep.setPath {g : Pool} (h : Rep g (c :: cells)) (p : Bytes) :
    Rep (Function.update g c.head { g c.head with path := p }) ({ c with path := p } :: cells) := by
  have hne : ∀ x ∈ cells, x.head ≠ c.head := by
    intro x hx heq
    exact (nodup_cons.mp h.heads_nodup).1 (mem_map.mpr ⟨x, hx, heq⟩)
  have hmap : ((c :: cells).map fun x => { x with path := if x.head = c.head then p else x.path }) =
      { c with path := p } :: cells := by
    rw [map_cons, if_pos rfl, map_congr_left fun x hx => by rw [if_neg (hne x hx)], map_id']
  rw [← hmap]
  refine h.mapPath (forall_mem_cons.mpr ⟨by simp, fun x hx => ?_⟩) fun k hk => ?_
  · simp [hne x hx, ← (h.ok x (mem_cons_of_mem _ hx)).path]
  · refine Function.update_of_ne ?_ _ _
    rintro rfl
    simp [(h.ok c (by simp)).isHead] at hk

structure Holds (c : Cell) (want data : Bytes) : Prop where
  path : c.path = want.take 79
  isDir : c.isDir = false
  blocks : c.blocks = blocks 384 data

theorem Rep.build {g : Pool} (h : Rep g cells) (want : Bytes) (hfree : ovBlocksFor data.length ≤ ovFreeCount g) :
    ∃ g' c, ovBuild g want data = (g', some c.head) ∧ Holds c want data ∧ Rep g' (c :: cells) := by
  obtain ⟨g', c, hrun, hpath, hdir, hblocks, hok, hnodup, hunused, hsame⟩ := ovBuild_spec want hfree
  exact ⟨g', c, hrun, ⟨hpath, hdir, hblocks⟩, h.add hok hnodup hunused hsame⟩

-- Stated for every `old`: unfolding `ov_free_chain` on a numeral is slow.
theorem storeBeside_some (old : Option ℕ) (want data : Bytes) (g : Pool) (h : ℕ) :
    storeBeside s old want data (g, some h) = (⟨freeOld g old, s.extLba⟩, .ok data.length) := rfl

theorem storeInPlace_some (data : Bytes) (g : Pool) (h : ℕ) :
    storeInPlace s data (g, some h) = (⟨g, s.extLba⟩, .ok data.length) := rfl

theorem freeOld_none (g : Pool) : freeOld g none = g := by rw [freeOld, Option.elim_none]

theorem freeOld_some (g : Pool) (i : ℕ) : freeOld g (some i) = ovFreeChain g i := by
  rw [freeOld, Option.elim_some]

theorem hideOld_none (g : Pool) (p : Bytes) : hideOld g none p = g := rfl

theorem hideOld_some (g : Pool) (i : ℕ) (p : Bytes) :
    hideOld g (some i) p = Function.update g i { g i with path := p } := rfl

theorem Rep.storeNew (h : Rep s.pool cells) (want : Bytes) (hfree : ovBlocksFor data.length ≤ ovFreeCount s.pool) :
    ∃ g' c, storeChain s none want data = (⟨g', s.extLba⟩, .ok data.length) ∧
      Holds c want data ∧ Rep g' (c :: cells) := by
  obtain ⟨g', c, hrun, hc, hrep⟩ := h.build want hfree
  refine ⟨g', c, ?_, hc, hrep⟩
  rw [storeChain, if_pos hfree, hideOld_none, hrun, storeBeside_some, freeOld_none]

theorem Rep.storeOver {old : Cell} (h : Rep s.pool (old :: cells)) (want : Bytes)
    (hfree : ovBlocksFor data.length ≤ ovFreeCount s.pool + old.slots.length) :
    ∃ g' c, storeChain s (some old.head) want data = (⟨g', s.extLba⟩, .ok data.length) ∧
      Holds c want data ∧ Rep g' (c :: cells) := by
  by_cases hroom : ovBlocksFor data.length ≤ ovFreeCount s.pool
  · have hhidden := h.setPath []
    have hcount : ovFreeCount s.pool =
        ovFreeCount (Function.update s.pool old.head { s.pool old.head with path := [] }) := by
      symm
      exact freeCount_update_same rfl
    obtain ⟨g', c, hrun, hc, hrep⟩ := hhidden.build want (hcount ▸ hroom)
    have hfreed : Rep (ovFreeChain g' old.head) (c :: cells) :=
      (hrep.perm (List.Perm.swap _ _ _)).freeChain
    refine ⟨ovFreeChain g' old.head, c, ?_, hc, hfreed⟩
    rw [storeChain, if_pos hroom, hideOld_some, hrun, storeBeside_some, freeOld_some]
  · have hfreed := h.freeChain
    have hcount : ovBlocksFor data.length ≤ ovFreeCount (ovFreeChain s.pool old.head) := by
      have h1 := h.freeCount
      have h2 := hfreed.freeCount
      rw [flatMap_cons, length_append] at h1
      omega
    obtain ⟨g', c, hrun, hc, hrep⟩ := hfreed.build want hcount
    refine ⟨g', c, ?_, hc, hrep⟩
    rw [storeChain, if_neg hroom, freeOld_some, hrun, storeInPlace_some]

theorem Inv.withFile {t : State} {rest : List Cell}
    (hext : t.extLba = s.extLba) (ht : Tidy want) (hrep : Rep t.pool (c :: rest)) (hc : Holds c want data)
    (hpaths : PathsOk ((want, false) :: entries rest))
    (hfull : ∀ c ∈ rest, c.isDir = false → c.blocks = blocks 384 c.content)
    (hsizes : ∀ c ∈ rest, c.content.length ≤ overlayFileMax s) (hmax : data.length ≤ overlayFileMax s)
    (hfits : ovHdr s + (rest.map Cell.bytes).sum + ovFileBytes want.length data.length ≤
      overlayCapacity s) :
    c.entry = (want, false) ∧ c.content = data ∧ Inv t (c :: rest) := by
  have hpath : c.path = want := by rw [hc.path, take_of_length_le ht.length]
  have hcontent : c.content = data := by
    rw [Cell.content, hc.blocks]
    exact flatten_blocks 384 (by omega) data
  have hentry : c.entry = (want, false) := by rw [Cell.entry, hpath, hc.isDir]
  have hfileMax : overlayFileMax t = overlayFileMax s := by rw [overlayFileMax, overlayFileMax, hext]
  refine ⟨hentry, hcontent, hrep, ?_, ?_, ?_, ?_⟩
  · rw [entries, map_cons, hentry]
    exact hpaths
  · refine forall_mem_cons.mpr ⟨fun _ => ?_, hfull⟩
    rw [hcontent, hc.blocks]
  · rw [hfileMax]
    exact forall_mem_cons.mpr ⟨by rw [hcontent]; exact hmax, hsizes⟩
  · rw [snapshotBytes_eq hrep]
    simp only [map_cons, sum_cons, Cell.bytes, hc.isDir, hpath, hcontent, ovHdr, hext,
      overlayCapacity] at hfits ⊢
    simp only [Bool.false_eq_true, if_false]
    omega

def Stored (rd : Initrd) (s : State) (cells : List Cell) (want data : Bytes) (s' : State) : Prop :=
  s'.extLba = s.extLba ∧ ∃ c rest, c.entry = (want, false) ∧ c.content = data ∧
    ((cells = rest ∧ ∀ x ∈ cells, x.path ≠ want) ∨ ∃ old, old.path = want ∧ cells.Perm (old :: rest)) ∧
    (Rooted rd (entries cells) → Rooted rd (entries (c :: rest))) ∧ Inv s' (c :: rest)

section
variable (h : Inv s cells)
include h

theorem Inv.store (data : Bytes) (ht : Tidy want) (hp : Plain want)
    (hfile : ∀ c ∈ cells, c.path = want → c.isDir = false)
    (hdir : want ∉ (entries cells).map Prod.fst → DirAt rd (entries cells) (dirOf want)) :
    (∃ e, ovStore s want data = (s, .error e)) ∨
    ∃ s', ovStore s want data = (s', .ok data.length) ∧ Stored rd s cells want data s' := by
  unfold ovStore
  extract_lets old bytes
  split
  · exact .inl ⟨_, rfl⟩
  rename_i hmax
  split
  · exact .inl ⟨_, rfl⟩
  rename_i hcap
  split
  · exact .inl ⟨_, rfl⟩
  rename_i hnodes
  rw [not_lt] at hmax hcap hnodes
  have hsum := snapshotBytes_eq h.rep
  refine .inr ?_
  cases hold : ovFind s.pool want with
  | none =>
    simp only [old, bytes, hold, Option.elim_none] at hcap hnodes ⊢
    obtain ⟨g', c, hrun, hc, hrep⟩ := h.rep.storeNew want hnodes
    have habs := h.absent ht hp hold
    obtain ⟨hentry, hcontent, hinv⟩ := Inv.withFile (s := s) (t := ⟨g', s.extLba⟩) rfl ht hrep hc
      (h.paths.insert (e := (want, false)) habs ht hp) h.full h.sizes hmax (by omega)
    refine ⟨_, hrun, rfl, c, cells, hentry, hcontent,
      .inl ⟨rfl, fun x hx heq => habs (heq ▸ mem_paths hx)⟩, fun hroot => ?_, hinv⟩
    rw [entries, map_cons, hentry]
    exact hroot.insert (hdir habs)
  | some i =>
    obtain ⟨o, ho, rfl, hopath⟩ := h.found ht hp hold
    obtain ⟨l, r, rfl⟩ := append_of_mem ho
    have hperm : (l ++ o :: r).Perm (o :: (l ++ r)) := perm_middle
    have hchain := h.rep.chainLen ho
    have hobytes := (h.rep.ok o ho).chainBytes
    have hodir := hfile o ho hopath
    replace h := h.perm hperm
    have hsum := snapshotBytes_eq h.rep
    rw [map_cons, sum_cons] at hsum
    simp only [old, bytes, hold, Option.elim_some, hchain, hobytes] at hcap hnodes ⊢
    obtain ⟨g', c, hrun, hc, hrep⟩ := h.rep.storeOver want hnodes
    have hoentry : o.entry = (want, false) := by rw [Cell.entry, hopath, hodir]
    have hpaths := h.paths
    rw [entries, map_cons, hoentry] at hpaths
    obtain ⟨hentry, hcontent, hinv⟩ := Inv.withFile (s := s) (t := ⟨g', s.extLba⟩) rfl ht hrep hc
      hpaths (fun x hx => h.full x (mem_cons_of_mem _ hx))
      (fun x hx => h.sizes x (mem_cons_of_mem _ hx)) hmax (by omega)
    refine ⟨_, hrun, rfl, c, l ++ r, hentry, hcontent, .inr ⟨o, hopath, hperm⟩, fun hroot => ?_, hinv⟩
    have hsame := hroot.perm (hperm.map Cell.entry)
    rwa [map_cons, hoentry, ← hentry, ← map_cons] at hsame

theorem Inv.isFile (ht : Tidy want) (hp : Plain want)
    (hnd : ¬ ((ovFind s.pool want).any fun i => (s.pool i).isDir) = true) :
    ∀ c ∈ cells, c.path = want → c.isDir = false := by
  intro c hc heq
  have hfind := h.find_eq hc ((ovNormalize_eq_self ht hp).trans heq.symm)
  rw [hfind] at hnd
  rw [← (h.rep.ok c hc).isDir]
  simpa using hnd

theorem Inv.write (data : Buffer) (hp : Plain (ovNormalize path)) :
    (∃ e, overlayWrite rd s path data = (s, .error e)) ∨
    ∃ s', overlayWrite rd s path data = (s', .ok data.bytes.length) ∧
      Stored rd s cells (ovNormalize path) data.bytes s' := by
  unfold overlayWrite
  extract_lets want
  split
  · exact .inl ⟨_, rfl⟩
  rename_i hne
  split
  · exact .inl ⟨_, rfl⟩
  split
  · exact .inl ⟨_, rfl⟩
  rename_i hnd
  split
  · exact .inl ⟨_, rfl⟩
  split
  · exact .inl ⟨_, rfl⟩
  rename_i hpar
  have ht : Tidy want := normalize_tidy hne
  have hdir : want ∉ (entries cells).map Prod.fst → DirAt rd (entries cells) (dirOf want) := by
    intro habs
    refine (h.parentIsDir_iff ht hp).mp ?_
    have hnone : ovFind s.pool want = none := by
      cases hf : ovFind s.pool want with
      | none => rfl
      | some i =>
        obtain ⟨c, hc, -, hpath⟩ := h.found ht hp hf
        exact absurd (hpath ▸ mem_paths hc) habs
    simpa [hnone] using hpar
  exact h.store data.bytes ht hp (h.isFile ht hp hnd) hdir

/-! ## Appending -/

def OldContent (rd : Initrd) (s : State) (cells : List Cell) (want old : Bytes) : Prop :=
  (∃ c ∈ cells, c.entry = (want, false) ∧ c.content = old) ∨
    (∀ c ∈ cells, c.path ≠ want) ∧
      ((∃ f, irdFind rd want = some f ∧ old = f.2.take (overlayFileMax s)) ∨
        (initrdIsFile rd want = false ∧ old = []))

theorem Inv.read_whole {g : Pool} {cells' : List Cell} {p : Bytes} (hrep : Rep g cells') (hc : c ∈ cells)
    (hmem : c ∈ cells') (hdir : c.isDir = false) (hf : ovFind g p = some c.head) :
    overlayRead g p (overlayFileMax s) = .ok c.content := by
  rw [overlayRead, hrep.readAt_cell hmem hf, Cell.readAt, hdir, if_neg Bool.false_ne_true,
    if_neg (overlayFileMax_ne_zero s), drop_zero, take_of_length_le (h.sizes c hc)]

theorem Inv.appendBase (ht : Tidy want) (hp : Plain want)
    {n : ℕ} (hfile : ∀ c ∈ cells, c.path = want → c.isDir = false) {old : Bytes}
    (hbase : appendBase rd s want n = .ok old) :
    OldContent rd s cells want old ∧ old.length ≤ overlayFileMax s ∧
      (want ∉ (entries cells).map Prod.fst → DirAt rd (entries cells) (dirOf want)) := by
  unfold Overlay.appendBase at hbase
  cases hf : ovFind s.pool want with
  | some i =>
    obtain ⟨c, hc, rfl, hpath⟩ := h.found ht hp hf
    rw [hf, Option.elim_some] at hbase
    split at hbase
    · simp at hbase
    rw [h.read_whole h.rep hc hc (hfile c hc hpath) hf] at hbase
    cases hbase
    refine ⟨.inl ⟨c, hc, by rw [Cell.entry, hpath, hfile c hc hpath], rfl⟩, h.sizes c hc,
      fun habs => ?_⟩
    exact absurd (hpath ▸ mem_paths hc) habs
  | none =>
    have habs : ∀ c ∈ cells, c.path ≠ want := by
      have := h.rep.find_none (p := want) (by rw [ovNormalize_eq_self ht hp]; exact ht.ne_nil) hf
      rwa [ovNormalize_eq_self ht hp] at this
    rw [hf, Option.elim_none] at hbase
    split at hbase
    · rename_i hird
      obtain ⟨f, hfind⟩ := Option.isSome_iff_exists.mp hird
      rw [initrdReadInto, if_neg (overlayFileMax_ne_zero s), hfind, Option.map_some, Option.elim_some] at hbase
      cases hbase
      refine ⟨.inr ⟨habs, .inl ⟨f, hfind, rfl⟩⟩, by simp, fun _ => ?_⟩
      by_cases hd : dirOf want = []
      · exact .inl hd
      · exact .inr (.inr (initrdIsDir_dirOf ht hp hird hd))
    · rename_i hird
      split at hbase
      · simp at hbase
      rename_i hpar
      cases hbase
      refine ⟨.inr ⟨habs, .inr ⟨by simpa using hird, rfl⟩⟩, by simp, fun _ => ?_⟩
      exact (h.parentIsDir_iff ht hp).mp (by simpa using hpar)

theorem Inv.append (data : Buffer) (hp : Plain (ovNormalize path)) :
    (∃ e, overlayAppend rd s path data = (s, .error e)) ∨
    ∃ s' old, overlayAppend rd s path data = (s', .ok data.bytes.length) ∧
      OldContent rd s cells (ovNormalize path) old ∧
      old.length + data.bytes.length ≤ overlayFileMax s ∧
      Stored rd s cells (ovNormalize path) (old ++ data.bytes) s' := by
  unfold overlayAppend
  extract_lets want n
  split
  · exact .inl ⟨_, rfl⟩
  rename_i hne
  split
  · exact .inl ⟨_, rfl⟩
  split
  · exact .inl ⟨_, rfl⟩
  rename_i hnd
  have ht : Tidy want := normalize_tidy hne
  have hfile := h.isFile ht hp hnd
  cases hbase : Overlay.appendBase rd s want n with
  | error e => exact .inl ⟨e, rfl⟩
  | ok old =>
    obtain ⟨hold, hlen, hdir⟩ := h.appendBase ht hp hfile hbase
    simp only
    split
    · exact .inl ⟨_, rfl⟩
    rename_i hmax
    -- the buffer and the tables share the address space, so the sum does not wrap
    have hwrap : (old.length + n) % 2 ^ 32 = old.length + n := by
      have := data.fits
      have hle : overlayFileMax s ≤ 65536 := by
        unfold overlayFileMax
        split <;> omega
      exact Nat.mod_eq_of_lt (by omega)
    rw [hwrap, not_lt] at hmax
    rcases h.store (old ++ data.bytes) ht hp hfile hdir with ⟨e, he⟩ | ⟨s', hrun, hstored⟩
    · refine .inl ⟨e, ?_⟩
      rw [he]
      rfl
    · refine .inr ⟨s', old, ?_, hold, hmax, hstored⟩
      rw [hrun]
      rfl

/-! ## unlink -/

theorem Inv.unlink (path : Bytes) : (∃ e, overlayUnlink rd s path = (s, .error e)) ∨
    ∃ s' c rest, overlayUnlink rd s path = (s', .ok 0) ∧ s'.extLba = s.extLba ∧
      cells.Perm (c :: rest) ∧ (Rooted rd (entries cells) → Rooted rd (entries rest)) ∧ Inv s' rest := by
  unfold overlayUnlink
  extract_lets want
  split
  · exact .inl ⟨_, rfl⟩
  cases hf : ovFind s.pool want with
  | none => exact .inl ⟨_, by rw [Option.elim_none]⟩
  | some i =>
    rw [Option.elim_some]
    split
    · exact .inl ⟨_, rfl⟩
    rename_i hkids
    obtain ⟨c, hc, rfl, hpath⟩ := h.rep.find_some hf
    obtain ⟨l, r, rfl⟩ := append_of_mem hc
    have hperm : (l ++ c :: r).Perm (c :: (l ++ r)) := perm_middle
    have hkids : c.isDir = true → ∀ x ∈ l ++ c :: r, dirOf x.path ≠ c.path := by
      intro hdir x hx heq
      have hdne : dirOf x.path ≠ [] := heq ▸ (h.tidy hc).ne_nil
      obtain ⟨t, ht⟩ := eq_dirOf_append hdne
      refine hkids ?_
      rw [(h.rep.ok c hc).isDir, hdir, Bool.true_and, ovHasChildren, any_eq_true]
      refine ⟨x.head, mem_range.mpr (h.rep.ok x hx).lt, ?_⟩
      rw [(h.rep.ok x hx).used, (h.rep.ok x hx).path, ← hpath, if_neg (h.tidy hc).ne_nil, ht, heq]
      simp
    replace h := h.perm hperm
    have hrep := h.rep.freeChain
    refine .inr ⟨_, c, l ++ r, rfl, rfl, hperm, fun hroot => ?_, hrep, ?_, ?_, ?_, ?_⟩
    · refine Rooted.remove (e := c.entry) (hroot.perm (hperm.map _)) fun hdir e he => ?_
      obtain ⟨x, hx, rfl⟩ := mem_map.mp he
      exact hkids hdir x (hperm.mem_iff.mpr (mem_cons_of_mem _ hx))
    · exact PathsOk.remove (e := c.entry) h.paths
    · exact fun x hx => h.full x (mem_cons_of_mem _ hx)
    · exact fun x hx => h.sizes x (mem_cons_of_mem _ hx)
    · have hsum := snapshotBytes_eq h.rep
      have hfits := h.fits
      rw [map_cons, sum_cons] at hsum
      rw [snapshotBytes_eq hrep]
      simp only [ovHdr, overlayCapacity] at hsum hfits ⊢
      omega

end

end Steps

end Mohhdy.Overlay
