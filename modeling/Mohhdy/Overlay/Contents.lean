import Mohhdy.Foundations.Tables
import Mohhdy.Overlay.Cells

/-! Finding a path and reading a file, in terms of cells. -/
namespace Mohhdy.Overlay
set_option autoImplicit false

open Blocks Chains

section Find
variable {g g' : Pool} {cells cells' : List Cell} {c : Cell} {p : Bytes}

theorem Rep.find_some (h : Rep g cells) {i : ℕ} (hf : ovFind g p = some i) :
    ∃ c ∈ cells, c.head = i ∧ c.path = ovNormalize p := by
  unfold ovFind at hf
  split at hf
  · simp at hf
  have hi := List.mem_range.mp (List.mem_of_find?_eq_some hf)
  have hfound := List.find?_some hf
  obtain ⟨hhead, hpath⟩ := Bool.and_eq_true_iff.mp hfound
  obtain ⟨c, hc, rfl⟩ := (h.head_iff hi).mp hhead
  exact ⟨c, hc, rfl, by rw [← (h.ok c hc).path]; exact of_decide_eq_true hpath⟩

theorem Rep.find_none (h : Rep g cells) (hne : ovNormalize p ≠ []) (hf : ovFind g p = none) :
    ∀ c ∈ cells, c.path ≠ ovNormalize p := by
  rw [ovFind, if_neg hne, List.find?_eq_none] at hf
  intro c hc heq
  refine hf c.head (List.mem_range.mpr (h.ok c hc).lt) ?_
  rw [(h.ok c hc).isHead, (h.ok c hc).path, heq]
  simp

theorem Rep.find_eq (h : Rep g cells) (hc : c ∈ cells) (hp : ovNormalize p = c.path)
    (hne : c.path ≠ []) (huniq : ∀ x ∈ cells, x.path = c.path → x = c) :
    ovFind g p = some c.head := by
  cases hf : ovFind g p with
  | none => exact absurd hp.symm (h.find_none (hp ▸ hne) hf c hc)
  | some i =>
    obtain ⟨x, hx, rfl, hpath⟩ := h.find_some hf
    rw [huniq x hx (hpath.trans hp)]

/-! ## Reading -/

theorem readLoop_eq {max offset fuel pos : ℕ} {o : Option ℕ} {ks : List ℕ} {bs : List Bytes}
    {out : Bytes} (hl : Linked (ovNext g) o ks)
    (hb : List.Forall₂ (fun k b => blockLen (g k) = b.length ∧ (g k).data.take b.length = b) ks bs)
    (hf : ks.length ≤ fuel) :
    readLoop g max offset fuel o pos out = sliceLoop offset max bs pos out := by
  induction hb generalizing o fuel pos out with
  | nil =>
    obtain rfl := linked_nil.mp hl
    cases fuel <;> simp [readLoop, sliceLoop]
  | cons hk hb ih =>
    obtain ⟨rfl, hl⟩ := hl
    cases fuel with
    | zero => simp at hf
    | succ fuel =>
      rw [readLoop, sliceLoop, Option.elim_some]
      split
      · rfl
      simp only [hk.1, hk.2]
      exact ih hl (by simpa using hf)

theorem CellOk.blocks_read (h : CellOk g c) :
    List.Forall₂ (fun k b => blockLen (g k) = b.length ∧ (g k).data.take b.length = b)
      c.slots c.blocks := by
  obtain ⟨b, bs, hb, hlen, hdata, hconts⟩ := h.first
  rw [hb]
  refine .cons ⟨?_, hdata⟩ (hconts.imp fun k b hk => ⟨?_, hk.data⟩)
  · simp [blockLen, h.isContinuation, h.size, hlen]
  · simp [blockLen, hk.isContinuation, hk.size]

def Cell.readAt (c : Cell) (max offset : ℕ) : Except Err Bytes :=
  if c.isDir then .error .isDir
  else if max = 0 then .error .inval
  else .ok ((c.content.drop offset).take max)

theorem Rep.readAt_cell (h : Rep g cells) (hc : c ∈ cells) (hf : ovFind g p = some c.head)
    (max offset : ℕ) : overlayReadAt g p max offset = c.readAt max offset := by
  have hok := h.ok c hc
  rw [overlayReadAt, hf, Option.elim_some, hok.isDir, hok.size, Cell.readAt]
  split
  · rfl
  split
  · rfl
  split
  · rename_i hle
    rw [List.drop_of_length_le hle, List.take_nil]
  · rw [readLoop_eq hok.linked_ovNext hok.blocks_read (h.slots_length_le hc),
      sliceLoop_eq _ _ _ _ _ (by simp)]
    rfl

theorem readAt_congr (h : Rep g cells) (h' : Rep g' cells') (hpaths : ∀ c ∈ cells', c.path ≠ [])
    (huniq : ∀ c ∈ cells, ∀ x ∈ cells, x.path = c.path → x = c)
    (huniq' : ∀ c ∈ cells', ∀ x ∈ cells', x.path = c.path → x = c)
    (hsame : ∀ c, c.path = ovNormalize p → (c ∈ cells ↔ c ∈ cells')) (max offset : ℕ) :
    overlayReadAt g' p max offset = overlayReadAt g p max offset := by
  cases hf' : ovFind g' p with
  | some i =>
    obtain ⟨c, hc', rfl, hpath⟩ := h'.find_some hf'
    have hc : c ∈ cells := (hsame c hpath).mpr hc'
    have hf : ovFind g p = some c.head := h.find_eq hc hpath.symm (hpaths c hc') (huniq c hc)
    rw [h'.readAt_cell hc' hf', h.readAt_cell hc hf]
  | none =>
    cases hf : ovFind g p with
    | none => simp [overlayReadAt, hf, hf']
    | some i =>
      obtain ⟨c, hc, rfl, hpath⟩ := h.find_some hf
      have hc' : c ∈ cells' := (hsame c hpath).mp hc
      have := h'.find_eq hc' hpath.symm (hpaths c hc') (huniq' c hc')
      rw [hf'] at this
      exact absurd this (by simp)

end Find

end Mohhdy.Overlay
