import Mohhdy.Overlay.Path

/-! The tree of paths: what the mutators do to the set of directories and files.

An entry is a path and whether it is a directory. Every path lies in the root, in a directory of
the overlay or in one of the initrd. Renaming and copying move a whole subtree; an entry of it
that lies in a directory only the initrd has would lose its parent, and a later move could put
another entry in the same place. -/
namespace Mohhdy.Overlay
set_option autoImplicit false
open List

variable {p : Bytes}

abbrev Entry := Bytes × Bool

def DirAt (rd : Initrd) (T : List Entry) (d : Bytes) : Prop :=
  d = [] ∨ (d, true) ∈ T ∨ initrdIsDir rd d = true

structure PathsOk (T : List Entry) : Prop where
  nodup : (T.map Prod.fst).Nodup
  tidy : ∀ e ∈ T, Tidy e.1
  plain : ∀ e ∈ T, Plain e.1

def Rooted (rd : Initrd) (T : List Entry) : Prop := ∀ e ∈ T, DirAt rd T (dirOf e.1)

theorem DirAt.mono {rd : Initrd} {T T' : List Entry} {d : Bytes} (h : DirAt rd T d)
    (hsub : (d, true) ∈ T → (d, true) ∈ T') : DirAt rd T' d :=
  h.imp_right (Or.imp_left hsub)

variable {e : Entry}

section Tree
variable {rd : Initrd} {T T' : List Entry}

theorem PathsOk.nil : PathsOk [] := by
  constructor <;> simp

theorem PathsOk.perm (h : PathsOk T) (hp : T.Perm T') : PathsOk T' where
  nodup := (hp.map Prod.fst).nodup_iff.mp h.nodup
  tidy e he := h.tidy e (hp.mem_iff.mpr he)
  plain e he := h.plain e (hp.mem_iff.mpr he)

theorem PathsOk.insert (h : PathsOk T) (hnew : e.1 ∉ T.map Prod.fst) (ht : Tidy e.1)
    (hpl : Plain e.1) : PathsOk (e :: T) where
  nodup := nodup_cons.mpr ⟨hnew, h.nodup⟩
  tidy := forall_mem_cons.mpr ⟨ht, h.tidy⟩
  plain := forall_mem_cons.mpr ⟨hpl, h.plain⟩

theorem PathsOk.remove (h : PathsOk (e :: T)) : PathsOk T where
  nodup := (nodup_cons.mp h.nodup).2
  tidy x hx := h.tidy x (mem_cons_of_mem _ hx)
  plain x hx := h.plain x (mem_cons_of_mem _ hx)

theorem PathsOk.eq_of_path (h : PathsOk T) {e' : Entry} (he : e ∈ T) (he' : e' ∈ T)
    (heq : e.1 = e'.1) : e = e' :=
  inj_on_of_nodup_map h.nodup he he' heq

theorem Rooted.perm (h : Rooted rd T) (hp : T.Perm T') : Rooted rd T' :=
  fun e he => (h e (hp.mem_iff.mpr he)).mono hp.mem_iff.mp

theorem Rooted.insert (h : Rooted rd T) (hd : DirAt rd T (dirOf e.1)) : Rooted rd (e :: T) := by
  intro x hx
  rcases mem_cons.mp hx with rfl | hx
  · exact hd.mono (mem_cons_of_mem _)
  · exact (h x hx).mono (mem_cons_of_mem _)

theorem Rooted.remove (h : Rooted rd (e :: T))
    (hkids : e.2 = true → ∀ x ∈ T, dirOf x.1 ≠ e.1) : Rooted rd T := by
  intro x hx
  refine (h x (mem_cons_of_mem _ hx)).mono fun hmem => ?_
  rcases mem_cons.mp hmem with heq | hmem
  · exact absurd (congrArg Prod.fst heq) (hkids (congrArg Prod.snd heq).symm x hx)
  · exact hmem

theorem dirOf_under {old r : Bytes} (hold : Tidy old) : dirOf (old ++ slash :: r) = old ++ dirOf (slash :: r) ∧
    ovUnder (dirOf (old ++ slash :: r)) old = true := by
  have hdir : dirOf (old ++ slash :: r) = old ++ dirOf (slash :: r) := dirOf_append hold.last
  refine ⟨hdir, ovUnder_iff.mpr ?_⟩
  rcases dirOf_rest r with h0 | ⟨t, h0⟩
  · exact .inl (by rw [hdir, h0, append_nil])
  · exact .inr ⟨t, by rw [hdir, h0]⟩

theorem Rooted.not_under (hroot : Rooted rd T) (h : PathsOk T) {new : Bytes} (ht : Tidy new) (hpl : Plain new)
    (habs : new ∉ T.map Prod.fst) (hrd : initrdIsDir rd new = false) (he : e ∈ T) :
    ovUnder e.1 new = false := by
  -- the directory of an entry under `new` is an entry under `new`, and shorter
  induction hn : e.1.length using Nat.strong_induction_on generalizing e with
  | _ n ih =>
    by_contra hu
    rcases ovUnder_iff.mp (Bool.not_eq_false _ ▸ hu) with heq | ⟨r, hr⟩
    · exact habs (heq ▸ mem_map_of_mem he)
    · obtain ⟨hdir, hunder⟩ := dirOf_under (r := r) ht
      rw [← hr] at hdir hunder
      have hdne : dirOf e.1 ≠ [] := by simp [hdir, ht.ne_nil]
      rcases hroot e he with h0 | hmem | hird
      · exact hdne h0
      · have hlt := dirOf_length_lt (h.tidy e he).ne_nil
        have := ih _ (hn ▸ hlt) hmem rfl
        rw [this] at hunder
        exact absurd hunder (by simp)
      · have hird' : initrdIsDir rd new = true := by
          rcases ovUnder_iff.mp hunder with heq | ⟨t, heq⟩
          · exact heq ▸ hird
          · have htd := dirOf_tidy (h.tidy e he) hdne
            have hpd := dirOf_plain (h.plain e he) hdne
            rw [heq] at htd hpd hird
            exact initrdIsDir_of_append ht hpl htd hpd hird
        rw [hrd] at hird'
        exact absurd hird' (by simp)

/-! ## Moving a subtree -/

def relocate (old new p : Bytes) : Bytes := new ++ p.drop old.length

theorem relocate_append (old new r : Bytes) : relocate old new (old ++ r) = new ++ r := by
  simp [relocate]

variable {old new : Bytes}

theorem relocate_under (h : ovUnder p old = true) : ovUnder (relocate old new p) new = true := by
  rcases ovUnder_iff.mp h with rfl | ⟨r, rfl⟩
  · simp [relocate, ovUnder_self]
  · rw [relocate_append]
    exact ovUnder_iff.mpr (.inr ⟨r, rfl⟩)

theorem relocate_inj {old new q : Bytes} (hp : ovUnder p old = true) (hq : ovUnder q old = true)
    (h : relocate old new p = relocate old new q) : p = q := by
  rw [(ovUnder_rest hp).1, (ovUnder_rest hq).1, append_cancel_left h]

theorem relocate_tidy (ht : Tidy p) (hnew : Tidy new)
    (h : ovUnder p old = true) (hlen : new.length + (p.length - old.length) < 80) :
    Tidy (relocate old new p) := by
  rcases ovUnder_iff.mp h with rfl | ⟨r, rfl⟩
  · simpa [relocate] using hnew
  · rw [relocate_append]
    refine ⟨by simp [hnew.ne_nil], ?_, ?_, ?_, ?_⟩
    · intro hx
      rw [List.head?_append_of_ne_nil _ hnew.ne_nil] at hx
      exact hnew.head hx
    · intro hx
      refine ht.last ?_
      rw [List.getLast?_append_of_ne_nil _ (by simp)] at hx ⊢
      exact hx
    · simp only [length_append, length_cons] at hlen ⊢
      omega
    · intro h0
      rcases mem_append.mp h0 with h0 | h0
      · exact hnew.zero h0
      · exact ht.zero (mem_append_right _ h0)

theorem relocate_plain (hnew : Plain new) (hne : new ≠ [])
    (h : ovUnder p old = true) : Plain (relocate old new p) := by
  rcases ovUnder_iff.mp h with rfl | ⟨r, rfl⟩
  · simpa [relocate] using hnew
  · rw [relocate_append, plain_iff]
    obtain ⟨h1, h2⟩ := plain_iff.mp hnew
    cases new with
    | nil => exact absurd rfl hne
    | cons x xs =>
      constructor
      · simp
      · intro t heq
        obtain ⟨rfl, htail⟩ := List.cons.inj heq
        cases xs with
        | nil => exact h1 rfl
        | cons y ys =>
          obtain ⟨rfl, -⟩ := List.cons.inj htail
          exact h2 ys rfl

theorem dirOf_relocate (hold : Tidy old) (hnew : Tidy new)
    (h : ovUnder p old = true) (hne : p ≠ old) :
    ovUnder (dirOf p) old = true ∧ dirOf (relocate old new p) = relocate old new (dirOf p) := by
  obtain ⟨r, rfl⟩ := (ovUnder_iff.mp h).resolve_left hne
  obtain ⟨hdir, hunder⟩ := dirOf_under (r := r) hold
  refine ⟨hunder, ?_⟩
  rw [relocate_append, dirOf_append hnew.last, hdir, relocate_append]

/-- What both moves of a subtree need: `old` and `new` are normalised, `new` is a place outside
`old` with nothing at or below it, and no path gets too long. -/
structure Movable (rd : Initrd) (T : List Entry) (old new : Bytes) : Prop where
  tidyOld : Tidy old
  tidyNew : Tidy new
  plain : Plain new
  clear : ∀ e ∈ T, ovUnder e.1 new = false
  parent : DirAt rd T (dirOf new)
  outside : ovUnder new old = false
  fits : ∀ e ∈ T, ovUnder e.1 old = true → new.length + (e.1.length - old.length) < 80

def Inside (T : List Entry) (old : Bytes) : Prop :=
  ∀ e ∈ T, ovUnder e.1 old = true → e.1 ≠ old → (dirOf e.1, true) ∈ T

variable {old new : Bytes}

def moveEntry (old new : Bytes) (e : Entry) : Entry := (relocate old new e.1, e.2)

theorem not_under_dirOf (h : ovUnder p old = false) (hd : dirOf p ≠ []) :
    ovUnder (dirOf p) old = false := by
  rw [Bool.eq_false_iff] at h ⊢
  intro hu
  refine h ?_
  obtain ⟨r, hr⟩ := eq_dirOf_append hd
  rcases ovUnder_iff.mp hu with heq | ⟨t, heq⟩
  · exact ovUnder_iff.mpr (.inr ⟨r, heq ▸ hr⟩)
  · exact ovUnder_iff.mpr (.inr ⟨t ++ slash :: r, by rw [heq] at hr; simpa using hr⟩)

section
variable (m : Movable rd T old new)
include m

theorem Movable.relocate_notMem {x : Entry} (hu : ovUnder e.1 old = true) (hx : x ∈ T) :
    relocate old new e.1 ≠ x.1 := by
  intro heq
  have hxu : ovUnder x.1 new = true := heq ▸ relocate_under hu
  rw [m.clear x hx] at hxu
  cases hxu

theorem Movable.parent_moved (hin : Inside T old) (he : e ∈ T) (hu : ovUnder e.1 old = true)
    (hkeep : ∀ d, (d, true) ∈ T → ovUnder d old = false → (d, true) ∈ T')
    (hmove : ∀ d, (d, true) ∈ T → ovUnder d old = true → (relocate old new d, true) ∈ T') :
    DirAt rd T' (dirOf (relocate old new e.1)) := by
  by_cases heq : e.1 = old
  · have hnew : relocate old new e.1 = new := by simp [relocate, heq]
    rw [hnew]
    by_cases hd : dirOf new = []
    · exact .inl hd
    · exact m.parent.mono fun hmem => hkeep _ hmem (not_under_dirOf m.outside hd)
  · obtain ⟨hdu, hdir⟩ := dirOf_relocate m.tidyOld m.tidyNew hu heq
    rw [hdir]
    exact .inr (.inl (hmove _ (hin e he hu heq) hdu))

theorem PathsOk.rename (h : PathsOk T) :
    PathsOk (T.map fun e => if ovUnder e.1 old then moveEntry old new e else e) where
  nodup := by
    rw [map_map]
    refine List.Nodup.map_on ?_ (List.Nodup.of_map _ h.nodup)
    intro x hx y hy heq
    simp only [Function.comp_apply] at heq
    split_ifs at heq with hxu hyu hyu
    · exact h.eq_of_path hx hy (relocate_inj hxu hyu heq)
    · exact absurd heq (m.relocate_notMem hxu hy)
    · exact absurd heq.symm (m.relocate_notMem hyu hx)
    · exact h.eq_of_path hx hy heq
  tidy := by
    refine forall_mem_map.mpr fun x hx => ?_
    split
    · rename_i hu
      exact relocate_tidy (h.tidy x hx) m.tidyNew hu (m.fits x hx hu)
    · exact h.tidy x hx
  plain := by
    refine forall_mem_map.mpr fun x hx => ?_
    split
    · rename_i hu
      exact relocate_plain m.plain m.tidyNew.ne_nil hu
    · exact h.plain x hx

theorem Rooted.rename (h : Rooted rd T) (hin : Inside T old) :
    Rooted rd (T.map fun e => if ovUnder e.1 old then moveEntry old new e else e) := by
  have hkeep : ∀ d, (d, true) ∈ T → ovUnder d old = false →
      (d, true) ∈ T.map fun e => if ovUnder e.1 old then moveEntry old new e else e := by
    intro d hd hu
    exact mem_map.mpr ⟨_, hd, by simp [hu]⟩
  have hmove : ∀ d, (d, true) ∈ T → ovUnder d old = true → (relocate old new d, true) ∈
      T.map fun e => if ovUnder e.1 old then moveEntry old new e else e := by
    intro d hd hu
    exact mem_map.mpr ⟨_, hd, by simp [hu, moveEntry]⟩
  refine forall_mem_map.mpr fun x hx => ?_
  split
  · rename_i hu
    exact m.parent_moved hin hx hu hkeep hmove
  · rename_i hu
    by_cases hd : dirOf x.1 = []
    · exact .inl hd
    · refine (h x hx).mono fun hmem => hkeep _ hmem (not_under_dirOf ?_ hd)
      simpa using hu

theorem PathsOk.copy (h : PathsOk T) :
    PathsOk (T ++ (T.filter fun e => ovUnder e.1 old).map (moveEntry old new)) where
  nodup := by
    rw [map_append, nodup_append]
    refine ⟨h.nodup, ?_, ?_⟩
    · rw [map_map]
      refine List.Nodup.map_on ?_ ((List.Nodup.of_map _ h.nodup).filter _)
      intro x hx y hy heq
      obtain ⟨hx, hxu⟩ := mem_filter.mp hx
      obtain ⟨hy, hyu⟩ := mem_filter.mp hy
      exact h.eq_of_path hx hy (relocate_inj hxu hyu heq)
    · intro p hp q hq heq
      obtain ⟨x, hx, rfl⟩ := mem_map.mp hp
      obtain ⟨e, he, rfl⟩ := mem_map.mp hq
      obtain ⟨y, hy, rfl⟩ := mem_map.mp he
      obtain ⟨-, hyu⟩ := mem_filter.mp hy
      exact m.relocate_notMem hyu hx heq.symm
  tidy := by
    refine forall_mem_append.mpr ⟨h.tidy, forall_mem_map.mpr fun x hx => ?_⟩
    obtain ⟨hx, hu⟩ := mem_filter.mp hx
    exact relocate_tidy (h.tidy x hx) m.tidyNew hu (m.fits x hx hu)
  plain := by
    refine forall_mem_append.mpr ⟨h.plain, forall_mem_map.mpr fun x hx => ?_⟩
    exact relocate_plain m.plain m.tidyNew.ne_nil (mem_filter.mp hx).2

theorem Rooted.copy (h : Rooted rd T) (hin : Inside T old) :
    Rooted rd (T ++ (T.filter fun e => ovUnder e.1 old).map (moveEntry old new)) := by
  intro e he
  rcases mem_append.mp he with he | he
  · exact (h e he).mono (mem_append_left _)
  · obtain ⟨x, hx, rfl⟩ := mem_map.mp he
    obtain ⟨hx, hu⟩ := mem_filter.mp hx
    refine m.parent_moved hin hx hu (fun d hd _ => mem_append_left _ hd) fun d hd hu => ?_
    exact mem_append_right _ (mem_map.mpr ⟨_, mem_filter.mpr ⟨hd, hu⟩, rfl⟩)

end

end Tree

end Mohhdy.Overlay
