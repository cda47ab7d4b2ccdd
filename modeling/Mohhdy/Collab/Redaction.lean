import Mohhdy.Collab.Steps

/-! What redaction means for the entries of a ledger.

`store` redacts in place and only what the stored entry affects. Its effect on the entries is a
function of the collection they form: a profile text is erased exactly when some stored
redaction of its origin is later than it (`normalise`). -/
namespace Mohhdy.Collab
set_option autoImplicit false
open List

variable {es : List Entry}

def Ledger.entries (c : Ledger) : List Entry := c.slots.map Slot.e

theorem Ledger.keySet_eq (c : Ledger) : c.keySet = c.entries.map Entry.key := by
  simp [Ledger.keySet, Ledger.entries]

def covered (es : List Entry) (e : Entry) : Bool :=
  es.any fun r => r.type = .redact ∧ r.origin = e.origin ∧ r.lamport > e.lamport

def eraseCovered (es : List Entry) (e : Entry) : Entry :=
  if e.type = .profile ∧ covered es e then e.withText redactedText else e

def normalise (es : List Entry) : List Entry := es.map (eraseCovered es)

def Normal (es : List Entry) : Prop := ∀ e ∈ es, eraseCovered es e = e

theorem covered_iff {e : Entry} : covered es e = true ↔
      ∃ r ∈ es, r.type = .redact ∧ r.origin = e.origin ∧ r.lamport > e.lamport := by
  simp [covered]

theorem covered_congr {fs : List Entry} (h : es.map (fun e => (e.type, e.origin, e.lamport)) =
    fs.map fun e => (e.type, e.origin, e.lamport)) (e : Entry) : covered es e = covered fs e := by
  have hany : ∀ l : List Entry, covered l e =
      (l.map fun e => (e.type, e.origin, e.lamport)).any fun r =>
        r.1 = .redact ∧ r.2.1 = e.origin ∧ r.2.2 > e.lamport := by
    intro l
    simp [covered, any_map, Function.comp_def]
  rw [hany, hany, h]

section
variable (es : List Entry)

theorem covered_withText (e : Entry) (t : Text) :
    covered es (e.withText t) = covered es e := rfl

theorem eraseCovered_header (e : Entry) :
    ∃ t, eraseCovered es e = e.withText t := by
  unfold eraseCovered
  split
  · exact ⟨redactedText, rfl⟩
  · exact ⟨e.text, rfl⟩

theorem normalise_map {β : Type*} (g : Entry → β) (hg : ∀ e t, g (e.withText t) = g e)
    (es : List Entry) : (normalise es).map g = es.map g := by
  unfold normalise
  rw [map_map]
  refine map_congr_left fun e _ => ?_
  obtain ⟨t, ht⟩ := eraseCovered_header es e
  rw [Function.comp_apply, ht, hg]

theorem covered_normalise (e : Entry) : covered (normalise es) e = covered es e :=
  covered_congr (normalise_map _ (fun _ _ => rfl) es) e

theorem normal_normalise : Normal (normalise es) := by
  refine forall_mem_map.mpr fun x _ => ?_
  by_cases h : x.type = .profile ∧ covered es x = true
  · have hx : eraseCovered es x = x.withText redactedText := if_pos h
    rw [hx, eraseCovered]
    split <;> rfl
  · have hx : eraseCovered es x = x := if_neg h
    rw [hx, eraseCovered, covered_normalise, if_neg h]

/-! ## Storing normalises -/

def redactEntry (origin lamport : UInt32) (e : Entry) : Entry :=
  if e.type = .profile ∧ e.origin = origin ∧ e.lamport < lamport then e.withText redactedText
  else e

theorem redact_entries (origin lamport : UInt32) (slots : List Slot) :
    (redact origin lamport slots).map Slot.e =
      (slots.map Slot.e).map (redactEntry origin lamport) := by
  simp only [redact, map_map]
  refine map_congr_left fun sl _ => ?_
  simp only [Function.comp_apply, redactSlot, redactEntry]
  split <;> rfl

theorem covered_append (e x : Entry) :
    covered (es ++ [e]) x = true ↔ covered es x = true ∨
      (e.type = .redact ∧ e.origin = x.origin ∧ e.lamport > x.lamport) := by
  simp [covered]

end

theorem Normal.withText (h : Normal es) {x : Entry} (hx : x ∈ es)
    (hp : x.type = .profile) (hc : covered es x = true) : x.withText redactedText = x := by
  have := h x hx
  rwa [eraseCovered, if_pos ⟨hp, hc⟩] at this

theorem map_eq_normalise {e : Entry} (h : Normal es) {f : Entry → Prop} [DecidablePred f]
    (hf : ∀ x ∈ es ++ [e], x.type = .profile → f x → covered (es ++ [e]) x = true)
    (hes : ∀ x ∈ es, x.type = .profile → covered (es ++ [e]) x = true → f x ∨ covered es x = true)
    (he : e.type = .profile → covered (es ++ [e]) e = true → f e) :
    (es ++ [e]).map (fun x => if x.type = .profile ∧ f x then x.withText redactedText else x) =
      normalise (es ++ [e]) := by
  refine map_congr_left fun x hx => ?_
  simp only [eraseCovered]
  by_cases hfx : x.type = .profile ∧ f x
  · rw [if_pos hfx, if_pos ⟨hfx.1, hf x hx hfx.1 hfx.2⟩]
  · rw [if_neg hfx]
    split
    · rename_i hc
      rcases mem_append.mp hx with hx | hx
      · rcases hes x hx hc.1 hc.2 with h' | h'
        · exact absurd ⟨hc.1, h'⟩ hfx
        · exact (h.withText hx hc.1 h').symm
      · rw [mem_singleton.mp hx] at hc hfx
        exact absurd ⟨hc.1, he hc.1 hc.2⟩ hfx
    · rfl

theorem redactOnStore_entries {slots : List Slot} {sl : Slot} (h : Normal (slots.map Slot.e)) :
    (redactOnStore sl.e (slots ++ [sl])).map Slot.e = normalise (slots.map Slot.e ++ [sl.e]) := by
  have hmap : (slots ++ [sl]).map Slot.e = slots.map Slot.e ++ [sl.e] := by simp
  -- when the new entry is no redaction, what was covered before is what is covered now
  have hold : sl.e.type ≠ .redact → ∀ x, covered (slots.map Slot.e ++ [sl.e]) x = true →
      covered (slots.map Slot.e) x = true := by
    intro ht x hx
    rcases (covered_append _ _ _).mp hx with hx | hx
    · exact hx
    · exact absurd hx.1 ht
  have hid : sl.e.type ≠ .redact → (sl.e.type = .profile → covered (slots.map Slot.e) sl.e ≠ true) →
      (slots ++ [sl]).map Slot.e = normalise (slots.map Slot.e ++ [sl.e]) := by
    intro ht hp
    rw [hmap, ← map_eq_normalise h (f := fun _ => False) (fun _ _ _ hf => hf.elim)
      (fun x _ _ hx => .inr (hold ht x hx)) fun hp' hx => hp hp' (hold ht _ hx)]
    simp
  unfold redactOnStore
  split
  · rename_i ht
    rw [redact_entries, hmap]
    refine map_eq_normalise h (f := fun x => x.origin = sl.e.origin ∧ x.lamport < sl.e.lamport)
      ?_ ?_ ?_
    · intro x _ _ hx
      exact (covered_append _ _ _).mpr (.inr ⟨ht, hx.1.symm, hx.2⟩)
    · intro x _ _ hx
      rcases (covered_append _ _ _).mp hx with hx | hx
      · exact .inr hx
      · exact .inl ⟨hx.2.1.symm, hx.2.2⟩
    · intro hp
      rw [ht] at hp
      cases hp
  · rename_i ht
    split
    · rename_i hp
      cases hl : laterRedact (slots ++ [sl]) sl.e with
      | some r =>
        have hr := List.find?_some hl
        simp only [decide_eq_true_eq] at hr
        have hmem : r.e ∈ slots.map Slot.e ++ [sl.e] := by
          rw [← hmap]
          exact mem_map_of_mem (mem_of_find?_eq_some hl)
        rw [redact_entries, hmap]
        refine map_eq_normalise h (f := fun x => x.origin = sl.e.origin ∧ x.lamport < r.e.lamport)
          ?_ ?_ ?_
        · intro x _ _ hx
          exact covered_iff.mpr ⟨r.e, hmem, hr.1, hr.2.1.trans hx.1.symm, hx.2⟩
        · exact fun x _ _ hx => .inr (hold ht x hx)
        · exact fun _ _ => ⟨rfl, hr.2.2⟩
      | none =>
        refine hid ht fun _ hc => ?_
        obtain ⟨r, hr, hrt, hro, hrl⟩ := covered_iff.mp hc
        obtain ⟨rs, hrs, rfl⟩ := mem_map.mp hr
        have := List.find?_eq_none.mp hl rs (mem_append_left _ hrs)
        simp [hrt, hro, hrl] at this
    · rename_i hp
      exact hid ht fun hp' => absurd hp' hp

theorem storeSlot_entries {c : Ledger} (h : Normal c.entries) (sl : Slot) :
    (storeSlot c sl).entries = normalise (c.entries ++ [sl.e]) :=
  redactOnStore_entries h

theorem storeSlot_keySet (c : Ledger) (sl : Slot) :
    (storeSlot c sl).keySet = c.keySet ++ [sl.e.key] := by
  have h := redactOnStore_map (fun sl => sl.e.key) (fun _ _ => rfl) sl.e (c.slots ++ [sl])
  simpa [Ledger.keySet, storeSlot] using h

theorem storeSlot_nodup {c : Ledger} {sl : Slot} (hn : c.keySet.Nodup)
    (hk : sl.e.key ∉ c.keySet) : (storeSlot c sl).keySet.Nodup := by
  rw [storeSlot_keySet]
  exact nodup_append.mpr ⟨hn, by simp, by
    intro a ha b hb hab
    rw [mem_singleton.mp hb] at hab
    exact hk (hab ▸ ha)⟩

theorem redactedText_sanitise : redactedText.sanitise = redactedText := by decide

end Mohhdy.Collab
