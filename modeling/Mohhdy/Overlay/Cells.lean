import Mohhdy.Overlay.Pool
import Mohhdy.Overlay.Tree

/-! The pool as a list of cells.

A cell is a directory or a file with the slots it occupies: the head and the continuation nodes in
the order of the links. `Rep g cells` says that the cells occupy the used slots of `g`, each slot
once. The primitives of the pool (allocate, free a chain, build a chain) add a cell or take one
away and leave the slots of the others alone. -/
namespace Mohhdy.Overlay
set_option autoImplicit false

open Blocks Chains List

variable {k : ℕ}

structure Cell where
  head : ℕ
  tail : List ℕ
  path : Bytes
  isDir : Bool
  blocks : List Bytes

def Cell.slots (c : Cell) : List ℕ := c.head :: c.tail

def Cell.content (c : Cell) : Bytes := c.blocks.flatten

def Cell.entry (c : Cell) : Entry := (c.path, c.isDir)

def Cell.bytes (c : Cell) : ℕ :=
  if c.isDir then 8 + c.path.length else ovFileBytes c.path.length c.content.length

abbrev links (g : Pool) : ℕ → Option ℕ := fun i => (g i).next

structure ContAt (g : Pool) (k : ℕ) (b : Bytes) : Prop where
  lt : k < 288
  used : (g k).used = true
  isContinuation : (g k).isContinuation = true
  path : (g k).path = []
  size : (g k).size = b.length
  data : (g k).data.take b.length = b

structure CellOk (g : Pool) (c : Cell) : Prop where
  lt : c.head < 288
  used : (g c.head).used = true
  isContinuation : (g c.head).isContinuation = false
  isDir : (g c.head).isDir = c.isDir
  path : (g c.head).path = c.path
  size : (g c.head).size = c.content.length
  first : ∃ b bs, c.blocks = b :: bs ∧ b.length = min c.content.length 384 ∧
    (g c.head).data.take b.length = b ∧ List.Forall₂ (ContAt g) c.tail bs
  linked : Linked (links g) (g c.head).next c.tail
  dir : c.isDir = true → c.tail = [] ∧ c.blocks = [[]]

structure Rep (g : Pool) (cells : List Cell) : Prop where
  nodup : (cells.flatMap Cell.slots).Nodup
  used : ∀ k, k < 288 → ((g k).used = true ↔ k ∈ cells.flatMap Cell.slots)
  ok : ∀ c ∈ cells, CellOk g c

section Frame
variable {g g' : Pool} {c : Cell} {cells cells' : List Cell}

theorem ContAt.congr {b : Bytes} (h : ContAt g k b) (heq : g' k = g k) : ContAt g' k b := by
  obtain ⟨h1, h2, h3, h4, h5, h6⟩ := h
  exact ⟨h1, heq ▸ h2, heq ▸ h3, heq ▸ h4, heq ▸ h5, heq ▸ h6⟩

theorem forall₂_contAt_congr {ks : List ℕ} {bs : List Bytes} (h : List.Forall₂ (ContAt g) ks bs)
    (heq : ∀ k ∈ ks, g' k = g k) : List.Forall₂ (ContAt g') ks bs := by
  induction h with
  | nil => exact .nil
  | cons hk _ ih =>
    exact .cons (hk.congr (heq _ (by simp))) (ih fun j hj => heq j (mem_cons_of_mem _ hj))

section
variable (h : CellOk g c)
include h

theorem CellOk.setPath {p : Bytes} (hhead : g' c.head = { g c.head with path := p })
    (htail : ∀ k ∈ c.tail, g' k = g k) : CellOk g' { c with path := p } where
  __ := h
  used := by rw [hhead]; exact h.used
  isContinuation := by rw [hhead]; exact h.isContinuation
  isDir := by rw [hhead]; exact h.isDir
  path := by rw [hhead]
  size := by rw [hhead]; exact h.size
  first := by
    obtain ⟨b, bs, hb, hlen, hdata, hconts⟩ := h.first
    refine ⟨b, bs, hb, hlen, ?_, forall₂_contAt_congr hconts htail⟩
    rw [hhead]
    exact hdata
  linked := by
    rw [hhead]
    exact h.linked.congr fun k hk => by simp only [links, htail k hk]

theorem CellOk.congr (heq : ∀ k ∈ c.slots, g' k = g k) : CellOk g' c := by
  have hhead : g' c.head = { g c.head with path := c.path } := by
    rw [heq _ (by simp [Cell.slots]), ← h.path]
  exact h.setPath hhead fun k hk => heq k (by simp [Cell.slots, hk])

theorem CellOk.tail_contAt (hk : k ∈ c.tail) : ∃ b, ContAt g k b := by
  obtain ⟨b, bs, -, -, -, hconts⟩ := h.first
  obtain ⟨i, hi, rfl⟩ := mem_iff_getElem.mp hk
  exact ⟨_, hconts.get hi (hconts.length_eq ▸ hi)⟩

theorem CellOk.slots_lt (hk : k ∈ c.slots) : k < 288 := by
  rcases mem_cons.mp hk with rfl | hk
  · exact h.lt
  · obtain ⟨b, hb⟩ := h.tail_contAt hk
    exact hb.lt

theorem CellOk.slots_used (hk : k ∈ c.slots) : (g k).used = true := by
  rcases mem_cons.mp hk with rfl | hk
  · exact h.used
  · obtain ⟨b, hb⟩ := h.tail_contAt hk
    exact hb.used

theorem CellOk.isHead : (g c.head).head = true := by
  simp [Node.head, h.used, h.isContinuation]

theorem CellOk.linked_ovNext : Linked (ovNext g) (some c.head) c.slots := by
  have hfilter : ∀ {o : Option ℕ} {ks : List ℕ}, Linked (links g) o ks → (∀ k ∈ ks, k < 288) →
      Linked (ovNext g) (o.filter (· < 288)) ks := by
    intro o ks hl hlt
    induction ks generalizing o with
    | nil => simp [linked_nil.mp hl]
    | cons k ks ih =>
      obtain ⟨rfl, hl⟩ := hl
      have hk := hlt k (by simp)
      exact ⟨by simp [hk], ih hl fun j hj => hlt j (mem_cons_of_mem _ hj)⟩
  exact ⟨rfl, hfilter h.linked fun k hk => h.slots_lt (by simp [Cell.slots, hk])⟩

end

end Frame

section Rep
variable {g g' : Pool} {c : Cell} {cells cells' : List Cell}

theorem Rep.perm (h : Rep g cells) (hp : cells.Perm cells') : Rep g cells' where
  nodup := (hp.flatMap_right _).nodup_iff.mp h.nodup
  used k hk := (h.used k hk).trans (hp.flatMap_right _).mem_iff
  ok c hc := h.ok c (hp.mem_iff.mpr hc)

theorem Rep.slots_nodup (h : Rep g cells) (hc : c ∈ cells) : c.slots.Nodup :=
  (nodup_flatMap.mp h.nodup).1 c hc

theorem Rep.add (h : Rep g cells) (hc : CellOk g' c) (hnodup : c.slots.Nodup)
    (hfree : ∀ k ∈ c.slots, (g k).used = false) (heq : ∀ k, k ∉ c.slots → g' k = g k) :
    Rep g' (c :: cells) := by
  have hdisj : ∀ k ∈ c.slots, k ∉ cells.flatMap Cell.slots := by
    intro k hk hmem
    have := (h.used k (hc.slots_lt hk)).mpr hmem
    rw [hfree k hk] at this
    exact absurd this (by simp)
  refine ⟨?_, ?_, ?_⟩
  · rw [flatMap_cons, nodup_append]
    exact ⟨hnodup, h.nodup, fun a ha b hb hab => hdisj a ha (hab ▸ hb)⟩
  · intro k hk
    rw [flatMap_cons, mem_append]
    by_cases hmem : k ∈ c.slots
    · simp [hmem, hc.slots_used hmem]
    · rw [heq k hmem, h.used k hk]
      simp [hmem]
  · intro x hx
    rcases mem_cons.mp hx with rfl | hx
    · exact hc
    · refine (h.ok x hx).congr fun k hk => heq k fun hmem => ?_
      exact hdisj k hmem (mem_flatMap.mpr ⟨x, hx, hk⟩)

theorem Rep.release (h : Rep g (c :: cells)) (hfree : ∀ k ∈ c.slots, (g' k).used = false)
    (heq : ∀ k, k ∉ c.slots → g' k = g k) : Rep g' cells := by
  have hnodup := h.nodup
  rw [flatMap_cons, nodup_append] at hnodup
  obtain ⟨-, hrest, hdisj⟩ := hnodup
  refine ⟨hrest, ?_, ?_⟩
  · intro k hk
    by_cases hmem : k ∈ c.slots
    · rw [hfree k hmem]
      simp only [Bool.false_eq_true, false_iff]
      exact fun hk => hdisj k hmem k hk rfl
    · rw [heq k hmem, h.used k hk, flatMap_cons, mem_append]
      simp [hmem]
  · intro x hx
    refine (h.ok x (mem_cons_of_mem _ hx)).congr fun k hk => heq k fun hmem => ?_
    exact hdisj k hmem k (mem_flatMap.mpr ⟨x, hx, hk⟩) rfl

theorem Rep.head_iff (h : Rep g cells) (hk : k < 288) : (g k).head = true ↔ ∃ c ∈ cells, c.head = k := by
  constructor
  · intro hh
    obtain ⟨hu, hnc⟩ := Bool.and_eq_true_iff.mp hh
    obtain ⟨c, hc, hmem⟩ := mem_flatMap.mp ((h.used k hk).mp hu)
    rcases mem_cons.mp hmem with rfl | htail
    · exact ⟨c, hc, rfl⟩
    · obtain ⟨b, hb⟩ := (h.ok c hc).tail_contAt htail
      simp [hb.isContinuation] at hnc
  · rintro ⟨c, hc, rfl⟩
    exact (h.ok c hc).isHead

theorem Rep.mapPath (h : Rep g cells) {f : Cell → Bytes}
    (hhead : ∀ c ∈ cells, g' c.head = { g c.head with path := f c })
    (heq : ∀ k, (g k).head = false → g' k = g k) :
    Rep g' (cells.map fun c => { c with path := f c }) := by
  have hslots : (cells.map fun c => { c with path := f c }).flatMap Cell.slots =
      cells.flatMap Cell.slots := by
    rw [flatMap_map]
    rfl
  refine ⟨?_, ?_, ?_⟩
  · rw [hslots]
    exact h.nodup
  · intro k hk
    rw [hslots, ← h.used k hk]
    by_cases hmem : ∃ c ∈ cells, c.head = k
    · obtain ⟨c, hc, rfl⟩ := hmem
      rw [hhead c hc]
    · rw [← h.head_iff hk, Bool.not_eq_true] at hmem
      rw [heq k hmem]
  · refine forall_mem_map.mpr fun c hc => ?_
    refine (h.ok c hc).setPath (hhead c hc) fun k hk => heq k ?_
    obtain ⟨b, hb⟩ := (h.ok c hc).tail_contAt hk
    simp [Node.head, hb.isContinuation]

theorem map_head_sublist (cells : List Cell) : (cells.map Cell.head).Sublist (cells.flatMap Cell.slots) := by
  induction cells with
  | nil => exact List.Sublist.refl _
  | cons c cells ih =>
    exact (ih.trans (sublist_append_right _ _)).cons_cons _

theorem Rep.heads_nodup (h : Rep g cells) : (cells.map Cell.head).Nodup :=
  h.nodup.sublist (map_head_sublist cells)

theorem Rep.eq_of_head (h : Rep g cells) {c c' : Cell} (hc : c ∈ cells) (hc' : c' ∈ cells)
    (heq : c.head = c'.head) : c = c' :=
  inj_on_of_nodup_map h.heads_nodup hc hc' heq

theorem Rep.eq_of_slot (h : Rep g cells) {c c' : Cell} (hc : c ∈ cells) (hc' : c' ∈ cells)
    (hk : k ∈ c.slots) (hk' : k ∈ c'.slots) : c' = c := by
  obtain ⟨l, r, rfl⟩ := append_of_mem hc
  have hnodup := (h.perm perm_middle).nodup
  rw [flatMap_cons, nodup_append] at hnodup
  rcases mem_cons.mp (perm_middle.mem_iff.mp hc') with heq | hmem
  · exact heq
  · exact absurd rfl (hnodup.2.2 k hk k (mem_flatMap.mpr ⟨c', hmem, hk'⟩))

/-! ## Sums over the slots -/

theorem Rep.sum_heads (h : Rep g cells) {f : ℕ → ℕ} (hf : ∀ k, (g k).head = false → f k = 0) :
    (slots.map f).sum = (cells.map fun c => f c.head).sum := by
  have hsub : (cells.map Cell.head).toFinset ⊆ Finset.range 288 := by
    intro k hk
    obtain ⟨c, hc, rfl⟩ := mem_map.mp (mem_toFinset.mp hk)
    exact Finset.mem_range.mpr (h.ok c hc).lt
  calc (slots.map f).sum = ∑ k ∈ Finset.range 288, f k := rfl
    _ = ∑ k ∈ (cells.map Cell.head).toFinset, f k := by
      refine (Finset.sum_subset hsub fun k hk hnot => hf k ?_).symm
      rw [← Bool.not_eq_true, h.head_iff (Finset.mem_range.mp hk)]
      rintro ⟨c, hc, rfl⟩
      exact hnot (mem_toFinset.mpr (mem_map_of_mem hc))
    _ = ((cells.map Cell.head).map f).sum := sum_toFinset f h.heads_nodup
    _ = (cells.map fun c => f c.head).sum := by rw [map_map]; rfl

theorem CellOk.chainBytes (h : CellOk g c) : ovChainBytes (g c.head) = c.bytes := by
  rw [ovChainBytes, Cell.bytes, h.isDir, h.path, h.size]

theorem snapshotBytes_eq {s : State} (h : Rep s.pool cells) :
    overlaySnapshotBytes s = ovHdr s + (cells.map Cell.bytes).sum := by
  rw [overlaySnapshotBytes, h.sum_heads fun k hk => by simp [hk]]
  refine congrArg (fun l => ovHdr s + List.sum l) (map_congr_left fun c hc => ?_)
  rw [if_pos (h.ok c hc).isHead, (h.ok c hc).chainBytes]

theorem Rep.freeCount (h : Rep g cells) : ovFreeCount g + (cells.flatMap Cell.slots).length = 288 := by
  have hperm : (slots.filter fun k => (g k).used).Perm (cells.flatMap Cell.slots) := by
    refine (perm_ext_iff_of_nodup (nodup_range.filter _) h.nodup).mpr ?_
    intro k
    rw [mem_filter]
    constructor
    · rintro ⟨hk, hu⟩
      exact (h.used k (mem_range.mp hk)).mp hu
    · intro hk
      obtain ⟨c, hc, hmem⟩ := mem_flatMap.mp hk
      exact ⟨mem_range.mpr ((h.ok c hc).slots_lt hmem), (h.ok c hc).slots_used hmem⟩
  have hcount : slots.length = slots.countP (fun k => (g k).used) + ovFreeCount g := by
    simpa [ovFreeCount] using length_eq_countP_add_countP (fun k => (g k).used) (l := slots)
  have hlen : slots.length = 288 := length_range
  rw [← hperm.length_eq, ← countP_eq_length_filter]
  omega

end Rep

/-! ## Allocating, freeing and building -/

section Primitives
variable {g : Pool} {c : Cell} {cells : List Cell}

theorem ovAlloc_spec (h : ovAlloc g = some k) : k < 288 ∧ (g k).used = false :=
  ⟨mem_range.mp (mem_of_find?_eq_some h), by simpa using List.find?_some h⟩

theorem ovAlloc_isSome (h : 0 < ovFreeCount g) : ∃ k, ovAlloc g = some k := by
  obtain ⟨k, hk, hfree⟩ := countP_pos_iff.mp h
  exact Option.isSome_iff_exists.mp (List.find?_isSome.mpr ⟨k, hk, hfree⟩)

theorem freeCount_update {n : Node} (hk : k < 288) (hfree : (g k).used = false)
    (hn : n.used = true) : ovFreeCount (Function.update g k n) + 1 = ovFreeCount g := by
  have hperm : slots.Perm (k :: slots.erase k) := perm_cons_erase (mem_range.mpr hk)
  rw [ovFreeCount, ovFreeCount, hperm.countP_eq, hperm.countP_eq, countP_cons, countP_cons]
  have hrest : (slots.erase k).countP (fun i => !(Function.update g k n i).used) =
      (slots.erase k).countP fun i => !(g i).used := by
    refine countP_congr fun i hi => ?_
    have hne : i ≠ k := ((nodup_range.mem_erase_iff).mp hi).1
    simp [hne]
  simp [hrest, hfree, hn]

theorem freeCount_update_same {n : Node} (hn : n.used = (g k).used) :
    ovFreeCount (Function.update g k n) = ovFreeCount g := by
  refine countP_congr fun i _ => ?_
  by_cases hi : i = k
  · subst hi
    simp [hn]
  · simp [hi]

theorem freeLoop_eq {fuel : ℕ} {o : Option ℕ} {ks : List ℕ} (hl : Linked (ovNext g) o ks)
    (hnodup : ks.Nodup) (hf : ks.length < fuel) :
    freeLoop fuel o g = fun k => if k ∈ ks then (g k).blank else g k := by
  induction ks generalizing fuel o g with
  | nil =>
    obtain rfl := linked_nil.mp hl
    cases fuel <;> simp [freeLoop]
  | cons k ks ih =>
    obtain ⟨fuel, rfl⟩ : ∃ f, fuel = f + 1 := ⟨fuel - 1, by simp at hf; omega⟩
    obtain ⟨rfl, hl⟩ := hl
    obtain ⟨hk, hnodup⟩ := nodup_cons.mp hnodup
    have hne : ∀ j ∈ ks, j ≠ k := fun j hj hjk => hk (hjk ▸ hj)
    have hl' : Linked (ovNext (Function.update g k (g k).blank)) (ovNext g k) ks := by
      refine hl.congr fun j hj => ?_
      simp [ovNext, hne j hj]
    rw [freeLoop, Option.elim_some, ih hl' hnodup (by simpa using hf)]
    funext j
    by_cases hj : j ∈ ks
    · simp [hj, hne j hj]
    · by_cases hjk : j = k
      · subst hjk
        simp [hj]
      · simp [hj, hjk]

theorem Rep.slots_length_le (h : Rep g cells) (hc : c ∈ cells) : c.slots.length ≤ 288 := by
  have hsub : c.slots ⊆ slots := fun k hk => mem_range.mpr ((h.ok c hc).slots_lt hk)
  simpa [slots] using ((h.slots_nodup hc).subperm hsub).length_le

theorem Rep.ovFreeChain_eq (h : Rep g cells) (hc : c ∈ cells) :
    ovFreeChain g c.head = fun k => if k ∈ c.slots then (g k).blank else g k :=
  freeLoop_eq (h.ok c hc).linked_ovNext (h.slots_nodup hc)
    (Nat.lt_succ_of_le (h.slots_length_le hc))

theorem Rep.freeChain (h : Rep g (c :: cells)) : Rep (ovFreeChain g c.head) cells := by
  rw [h.ovFreeChain_eq (by simp)]
  refine h.release ?_ ?_
  · intro k hk
    simp [hk, Node.blank]
  · intro k hk
    simp [hk]

theorem Rep.chainLen (h : Rep g cells) (hc : c ∈ cells) : ovChainLen g c.head = c.slots.length := by
  rw [ovChainLen, (h.ok c hc).linked_ovNext.walk_eq (h.slots_length_le hc)]

/-- The loop of `ov_build` after the head: slot `j` is the last one built. The new slots were
free, hold the blocks, and are linked from `j` on. -/
theorem buildLoop_tail {cs : List Bytes} {h j : ℕ} (hcs : cs.length ≤ ovFreeCount g)
    (hj : (g j).used = true) (hnext : (g j).next = none) :
    ∃ g' ks, buildLoop cs (some h) (some j) g = (g', some h) ∧ ks.Nodup ∧
      (∀ k ∈ ks, k < 288 ∧ (g k).used = false) ∧ (∀ k, k ∉ ks → k ≠ j → g' k = g k) ∧
      g' j = { g j with next := ks.head? } ∧ Linked (links g') ks.head? ks ∧
      List.Forall₂ (ContAt g') ks cs := by
  induction cs generalizing g j with
  | nil =>
    refine ⟨g, [], rfl, nodup_nil, by simp, fun _ _ _ => rfl, ?_, rfl, .nil⟩
    rw [List.head?_nil, ← hnext]
  | cons c cs ih =>
    rw [length_cons] at hcs
    obtain ⟨k, hk⟩ := ovAlloc_isSome (g := g) (by omega)
    obtain ⟨hklt, hkfree⟩ := ovAlloc_spec hk
    have hkj : k ≠ j := by
      rintro rfl
      simp [hj] at hkfree
    set node := blockNode (g k) true c with hnode
    set g₁ := Function.update g k node with hg₁
    set g₂ := Function.update g₁ j { g₁ j with next := some k } with hg₂
    have hg₂k : g₂ k = node := by simp [hg₂, hg₁, hkj]
    have hg₂j : g₂ j = { g j with next := some k } := by simp [hg₂, hg₁, Ne.symm hkj]
    have hcount : cs.length ≤ ovFreeCount g₂ := by
      have h1 : ovFreeCount g₁ + 1 = ovFreeCount g := freeCount_update hklt hkfree rfl
      have h2 : ovFreeCount g₂ = ovFreeCount g₁ := freeCount_update_same rfl
      omega
    obtain ⟨g', ks, hrun, hnodup, hfree, hsame, hprev, hlinked, hconts⟩ :=
      ih hcount (by rw [hg₂k]; rfl) (by rw [hg₂k]; rfl)
    have hks : ∀ x ∈ ks, x ≠ k ∧ x ≠ j := by
      intro x hx
      have hxf := (hfree x hx).2
      constructor
      · rintro rfl
        rw [hg₂k] at hxf
        simp [hnode, blockNode] at hxf
      · rintro rfl
        rw [hg₂j] at hxf
        simp [hj] at hxf
    refine ⟨g', k :: ks, ?_, nodup_cons.mpr ⟨fun hx => (hks k hx).1 rfl, hnodup⟩, ?_, ?_, ?_,
      ?_, ?_⟩
    · rw [buildLoop, hk]
      exact hrun
    · intro x hx
      rcases mem_cons.mp hx with rfl | hx
      · exact ⟨hklt, hkfree⟩
      · obtain ⟨hlt, hxf⟩ := hfree x hx
        refine ⟨hlt, ?_⟩
        simpa [hg₂, hg₁, (hks x hx).1, (hks x hx).2] using hxf
    · intro x hx hxj
      rw [mem_cons, not_or] at hx
      rw [hsame x hx.2 hx.1]
      simp [hg₂, hg₁, hx.1, hxj]
    · rw [hsame j (fun hx => (hks j hx).2 rfl) (Ne.symm hkj), hg₂j]
      rfl
    · refine ⟨rfl, ?_⟩
      rw [links, hprev]
      exact hlinked
    · refine .cons ?_ hconts
      constructor <;> simp [hprev, hg₂k, hnode, blockNode, hklt]

theorem ovBuild_spec (want : Bytes) {data : Bytes} (hfree : ovBlocksFor data.length ≤ ovFreeCount g) :
    ∃ g' c, ovBuild g want data = (g', some c.head) ∧ c.path = want.take 79 ∧ c.isDir = false ∧
      c.blocks = blocks 384 data ∧ CellOk g' c ∧ c.slots.Nodup ∧
      (∀ k ∈ c.slots, (g k).used = false) ∧ ∀ k, k ∉ c.slots → g' k = g k := by
  obtain ⟨bs, hbs⟩ := blocks_eq_cons 384 (by omega) data
  have hlen : bs.length + 1 = ovBlocksFor data.length := by
    rw [ovBlocksFor, ← length_blocks, hbs, length_cons]
  obtain ⟨h, hh⟩ := ovAlloc_isSome (g := g) (by omega)
  obtain ⟨hlt, hhfree⟩ := ovAlloc_spec hh
  set b := data.take 384 with hb
  set node := blockNode (g h) false b with hnode
  set g₁ := Function.update g h node with hg₁
  have hg₁h : g₁ h = node := by simp [hg₁]
  have hcount : bs.length ≤ ovFreeCount g₁ := by
    have h1 : ovFreeCount g₁ + 1 = ovFreeCount g := freeCount_update hlt hhfree rfl
    omega
  obtain ⟨g₂, ks, hrun, hnodup, hks, hsame, hprev, hlinked, hconts⟩ :=
    buildLoop_tail (h := h) (j := h) hcount (by rw [hg₁h]; rfl) (by rw [hg₁h]; rfl)
  have hhks : h ∉ ks := by
    intro hx
    have := (hks h hx).2
    rw [hg₁h] at this
    simp [hnode, blockNode] at this
  set g' := Function.update g₂ h { g₂ h with size := data.length, path := want.take 79 } with hg'
  have hg'h : g' h = { node with next := ks.head?, size := data.length, path := want.take 79 } := by
    simp [hg', hprev, hg₁h]
  have hg'k : ∀ k, k ≠ h → g' k = g₂ k := fun k hk => by simp [hg', hk]
  have htail : ∀ k ∈ ks, g' k = g₂ k := fun k hk => hg'k k fun hkh => hhks (hkh ▸ hk)
  refine ⟨g', ⟨h, ks, want.take 79, false, blocks 384 data⟩, ?_, rfl, rfl, rfl, ?_,
    nodup_cons.mpr ⟨hhks, hnodup⟩, ?_, ?_⟩
  · have hloop : buildLoop (blocks 384 data) none none g = (g₂, some h) := by
      rw [hbs, buildLoop, hh]
      exact hrun
    simp [ovBuild, hloop, hg']
  · refine ⟨hlt, ?_, ?_, ?_, ?_, ?_, ?_, ?_, by simp⟩
    · simp [hg'h, hnode, blockNode]
    · simp [hg'h, hnode, blockNode]
    · simp [hg'h, hnode, blockNode]
    · simp [hg'h]
    · simp [hg'h, Cell.content, flatten_blocks 384 (by omega : 0 < 384)]
    · refine ⟨b, bs, hbs, ?_, ?_, forall₂_contAt_congr hconts htail⟩
      · rw [hb, length_take, Cell.content, flatten_blocks 384 (by omega), Nat.min_comm]
      · simp [hg'h, hnode, blockNode]
    · rw [hg'h]
      exact hlinked.congr fun k hk => by simp only [links, htail k hk]
  · intro k hk
    rcases mem_cons.mp hk with rfl | hk
    · exact hhfree
    · have hkf := (hks k hk).2
      have hkh : k ≠ h := fun hkh => hhks (hkh ▸ hk)
      simpa [hg₁, hkh] using hkf
  · intro k hk
    rw [Cell.slots, mem_cons, not_or] at hk
    rw [hg'k k hk.1, hsame k hk.2 hk.1]
    simp [hg₁, hk.1]

end Primitives

end Mohhdy.Overlay
