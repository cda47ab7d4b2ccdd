import Mohhdy.Foundations.Faults

/-! Loading a program: `elf.c` and what it uses of `vmm.c`.

The loader runs with the rights of the kernel in the directory of the new task. It takes the
addresses and the sizes of the program headers as they are, so whether it stays inside the pages
that it maps is a matter of the file. The model keeps what the loader does to the directory and
where it stores; the allocator is the list of the pages that are still free. -/
namespace Mohhdy.Elf
open Faults List
set_option autoImplicit false

/-! ## The file -/

/-- The bytes from `file_data` on. The loader is not told where the file ends, and a pointer into
it wraps. -/
abbrev Image := UInt32 → UInt8

variable (f : Image)

def Image.le16 (o : UInt32) : UInt32 := (f o).toUInt32 ||| (f (o + 1)).toUInt32 <<< 8

def Image.le32 (o : UInt32) : UInt32 := f.le16 o ||| f.le16 (o + 2) <<< 16

/-- What `elf_load` reads of an `elf32_phdr_t`. -/
structure Phdr where
  (offset vaddr filesz memsz flags : UInt32)

def Image.phdr (o : UInt32) : Phdr where
  offset := f.le32 (o + 4)
  vaddr := f.le32 (o + 8)
  filesz := f.le32 (o + 16)
  memsz := f.le32 (o + 20)
  flags := f.le32 (o + 24)

def Image.segments : List Phdr :=
  ((List.range (f.le16 44).toNat).map fun i => f.le32 28 + 32 * UInt32.ofNat i).filter
    (fun o => f.le32 o = 1) |>.map f.phdr

def elfValidate : Bool :=
  f 0 = 0x7F ∧ f 1 = 0x45 ∧ f 2 = 0x4C ∧ f 3 = 0x46 ∧ f.le16 16 = 2

/-! ## The directory -/

/-- `page_t` -/
structure Page where
  (present rw user : Bool)
  frame : UInt32

/-- The entry of every page number, and which tables the directory has for itself. A table that is
missing has no page that is present. -/
structure Directory where
  page : UInt32 → Page
  isPrivate : UInt32 → Bool

def Directory.kernel (d : Directory) (n : UInt32) : Bool :=
  (d.page n).present && !(d.page n).user

/-- What the loader does to the address space; the source of a store is an offset in the file, or
none where zeros are stored. -/
inductive Access
  | map (page : UInt32)
  | store (addr len : UInt32) (source : Option UInt32)

/-- `frames` are the free pages of the allocator, which never has the page 0 among them. The trace
has the newest access first. -/
structure Loading where
  dir : Directory
  frames : List {p : UInt32 // p ≠ 0}
  trace : List Access

def pmmAllocPage (l : Loading) : Option (UInt32 × Loading) :=
  match l.frames with
  | [] => none
  | p :: frames => some (p.val, { l with frames := frames })

def vmmEnsurePrivateUserTable (l : Loading) (t : UInt32) : Option Loading :=
  if l.dir.isPrivate t then some l
  else (pmmAllocPage l).map fun r =>
    { r.2 with dir := { r.2.dir with isPrivate := Function.update r.2.dir.isPrivate t true } }

def vmmMapPageInDirectory (l : Loading) (phys virt : UInt32) (rw : Bool) : Option Loading :=
  if phys = 0 ∨ virt = 0 then none
  else (vmmEnsurePrivateUserTable l (virt / 4096 / 1024)).map fun l =>
    { l with
      dir := { l.dir with
        page := Function.update l.dir.page (virt / 4096) ⟨true, rw, true, phys / 4096⟩ }
      trace := .map (virt / 4096) :: l.trace }

/-! ## The loader -/

/-- One turn of the loop over the pages of a segment. A page that cannot be mapped is given back,
with what was allocated for its table. -/
def mapPage (rw : Bool) (l : Loading) (a : UInt32) : Except Loading Loading :=
  match pmmAllocPage l with
  | none => .error l
  | some (phys, l') =>
    match vmmMapPageInDirectory l' phys a rw with
    | none => .error l
    | some l' => .ok l'

/-- The values of `page_addr`. Both bounds are multiples of the page size, so the loop ends before
its counter wraps. -/
def Phdr.pages (p : Phdr) : List UInt32 :=
  let start := p.vaddr &&& 0xFFFFF000
  let stop := (p.vaddr + p.memsz + 0xFFF) &&& 0xFFFFF000
  (List.range ((stop.toNat - start.toNat) / 4096)).map fun k => start + 4096 * UInt32.ofNat k

def Phdr.stores (p : Phdr) : List Access :=
  (if p.filesz < p.memsz then [.store (p.vaddr + p.filesz) (p.memsz - p.filesz) none] else []) ++
    if 0 < p.filesz then [.store p.vaddr p.filesz (some p.offset)] else []

def loadSegment (l : Loading) (p : Phdr) : Except Loading Loading := do
  let l ← runAll (mapPage (p.flags &&& 2 ≠ 0)) p.pages l
  .ok { l with trace := p.stores ++ l.trace }

def elfLoad (dir : Directory) (frames : List {p : UInt32 // p ≠ 0}) : UInt32 × Loading :=
  if elfValidate f then
    match runAll loadSegment f.segments ⟨dir, frames, []⟩ with
    | .ok l => (f.le32 24, l)
    | .error l => (0, l)
  else (0, ⟨dir, frames, []⟩)

/-! ## Confinement -/

/-- A page that a user may be given: it is below the range of the kernel, where user pointers end,
and the directory has no page of the kernel there. -/
abbrev Directory.Free (d : Directory) (n : UInt32) : Prop := n < 0xC0000 ∧ d.kernel n = false

/-- Every page that is mapped was free in the directory the loader was given, and every address
that is stored to lies in a page that was mapped before. -/
def Safe (d : Directory) : List Access → Prop
  | [] => True
  | .map n :: t => d.Free n ∧ Safe d t
  | .store a len _ :: t =>
    (∀ k < len.toNat, .map ((a + UInt32.ofNat k) / 4096) ∈ t) ∧ Safe d t

/-- The condition on the program headers, in their order; `m` are the pages of the segments before.
The loader gives up at a segment that begins in page 0. The pages of another one are free, and every
byte of its file and of its memory lies in a page of this segment or of one before it. -/
def Contained (d : Directory) : List UInt32 → List Phdr → Prop
  | _, [] => True
  | m, p :: ps =>
    0 ∈ p.pages ∨ (∀ a ∈ p.pages, d.Free (a / 4096)) ∧ (∀ k < max p.filesz.toNat p.memsz.toNat,
        (p.vaddr + UInt32.ofNat k) / 4096 ∈ m ++ p.pages.map (· / 4096)) ∧
      Contained d (m ++ p.pages.map (· / 4096)) ps

variable {d : Directory} {l : Loading} {t : List Access} {as m : List UInt32} {p : Phdr}

def mapped (as : List UInt32) (t : List Access) : List Access :=
  as.foldl (fun t a => .map (a / 4096) :: t) t

theorem mem_mapped (n : UInt32) : .map n ∈ mapped as t ↔ .map n ∈ t ∨ n ∈ as.map (· / 4096) := by
  induction as generalizing t with
  | nil => simp [mapped]
  | cons a as ih =>
    rw [mapped, foldl_cons, ← mapped, ih]
    simp [or_assoc, or_left_comm]

theorem safe_mapped : Safe d (mapped as t) ↔ (∀ a ∈ as, d.Free (a / 4096)) ∧ Safe d t := by
  induction as generalizing t with
  | nil => simp [mapped]
  | cons a as ih =>
    rw [mapped, foldl_cons, ← mapped, ih, forall_mem_cons]
    simp only [Safe]
    tauto

theorem safe_stores : Safe d (p.stores ++ t) ↔
    (∀ k < max p.filesz.toNat p.memsz.toNat, .map ((p.vaddr + UInt32.ofNat k) / 4096) ∈ t) ∧
      Safe d t := by
  have hcopy : Safe d ((if 0 < p.filesz then [Access.store p.vaddr p.filesz (some p.offset)]
      else []) ++ t) ↔
      (∀ k < p.filesz.toNat, .map ((p.vaddr + UInt32.ofNat k) / 4096) ∈ t) ∧ Safe d t := by
    split
    · rfl
    · have h0 : p.filesz.toNat = 0 := Nat.le_zero.mp (UInt32.le_iff_toNat_le.mp (UInt32.not_lt.mp ‹_›))
      simp [h0]
  unfold Phdr.stores
  rw [append_assoc]
  split
  · have hlt : p.filesz.toNat < p.memsz.toNat := UInt32.lt_iff_toNat_lt.mp ‹_›
    have hlen : (p.memsz - p.filesz).toNat = p.memsz.toNat - p.filesz.toNat :=
      UInt32.toNat_sub_of_le _ _ (UInt32.le_iff_toNat_le.mpr (by omega))
    have hmem : ∀ n, Access.map n ∈ (if 0 < p.filesz then
        [Access.store p.vaddr p.filesz (some p.offset)] else []) ++ t ↔ Access.map n ∈ t := by
      intro n
      split <;> simp
    rw [singleton_append, Safe, hcopy, hlen, max_eq_right (by omega)]
    simp only [hmem]
    constructor
    · rintro ⟨hzero, hcopied, hsafe⟩
      refine ⟨fun k hk => ?_, hsafe⟩
      by_cases hkf : k < p.filesz.toNat
      · exact hcopied k hkf
      · have h := hzero (k - p.filesz.toNat) (by omega)
        have hk' : k = p.filesz.toNat + (k - p.filesz.toNat) := by omega
        rw [hk', UInt32.ofNat_add, UInt32.ofNat_toNat, ← UInt32.add_assoc]
        exact h
    · rintro ⟨hall, hsafe⟩
      refine ⟨fun k hk => ?_, fun k hk => hall k (by omega), hsafe⟩
      have h := hall (p.filesz.toNat + k) (by omega)
      rwa [UInt32.ofNat_add, UInt32.ofNat_toNat, ← UInt32.add_assoc] at h
  · have hle : p.memsz.toNat ≤ p.filesz.toNat := by
      simpa using UInt32.le_iff_toNat_le.mp (UInt32.not_lt.mp ‹_›)
    rw [nil_append, hcopy, max_eq_left hle]

/-! ## Runs -/

theorem mapPage_cases (rw : Bool) (l : Loading) (a : UInt32) :
    (∃ l', mapPage rw l a = .ok l' ∧ a ≠ 0 ∧ l'.trace = .map (a / 4096) :: l.trace ∧
        l.frames.length ≤ l'.frames.length + 2) ∨
      mapPage rw l a = .error l ∧ (a = 0 ∨ l.frames.length < 2) := by
  obtain ⟨dir, frames, trace⟩ := l
  by_cases ha : a = 0
  · right
    cases frames <;> simp [mapPage, pmmAllocPage, vmmMapPageInDirectory, ha]
  cases frames with
  | nil =>
    right
    simp [mapPage, pmmAllocPage]
  | cons phys frames =>
    by_cases hp : dir.isPrivate (a / 4096 / 1024) = true
    · left
      simp [mapPage, pmmAllocPage, vmmMapPageInDirectory, vmmEnsurePrivateUserTable, hp, ha, phys.2]
    · cases frames with
      | nil =>
        right
        simp [mapPage, pmmAllocPage, vmmMapPageInDirectory, vmmEnsurePrivateUserTable, hp, ha]
      | cons table frames =>
        left
        simp [mapPage, pmmAllocPage, vmmMapPageInDirectory, vmmEnsurePrivateUserTable, hp, ha,
          phys.2]

theorem mapPages_cases (rw : Bool) (h0 : 0 ∉ as) : ∃ as' l', as' <+: as ∧
    l'.trace = mapped as' l.trace ∧ (runAll (mapPage rw) as l = .ok l' ∧ as' = as ∧
          l.frames.length ≤ l'.frames.length + 2 * as.length ∨
        runAll (mapPage rw) as l = .error l' ∧ l.frames.length < 2 * as.length) := by
  induction as generalizing l with
  | nil => exact ⟨[], l, prefix_rfl, rfl, .inl ⟨rfl, rfl, le_refl _⟩⟩
  | cons a as ih =>
    obtain ⟨ha, h0⟩ : 0 ≠ a ∧ 0 ∉ as := by simpa using h0
    rw [runAll, length_cons]
    rcases mapPage_cases rw l a with ⟨l', hok, -, htrace, hframes⟩ | ⟨herr, hshort⟩
    · obtain ⟨as', l'', hpre, h, hrun⟩ := ih (l := l') h0
      rw [htrace] at h
      rw [hok]
      refine ⟨a :: as', l'', cons_prefix_cons.mpr ⟨rfl, hpre⟩, h, hrun.imp ?_ ?_⟩
      · rintro ⟨hok, rfl, hle⟩
        exact ⟨hok, rfl, by omega⟩
      · rintro ⟨herr, hlt⟩
        exact ⟨herr, by omega⟩
    · have := hshort.resolve_left (Ne.symm ha)
      rw [herr]
      exact ⟨[], l, nil_prefix, rfl, .inr ⟨rfl, by omega⟩⟩

theorem pages_of_zero (h : 0 ∈ p.pages) : ∃ as, p.pages = 0 :: as := by
  unfold Phdr.pages at h ⊢
  dsimp only at h ⊢
  generalize p.vaddr &&& 0xFFFFF000 = start at *
  generalize (p.vaddr + p.memsz + 0xFFF) &&& 0xFFFFF000 = stop at *
  obtain ⟨k, hk, h⟩ := mem_map.mp h
  rw [mem_range] at hk
  have hstop : stop.toNat < 4294967296 := stop.toNat_lt
  -- the addresses do not wrap, so the one that is 0 is the start itself
  have hzero : start.toNat = 0 := by
    have h := congrArg UInt32.toNat h
    simp only [UInt32.toNat_add, UInt32.toNat_mul, UInt32.toNat_ofNat', UInt32.reduceToNat] at h
    omega
  obtain rfl : start = 0 := UInt32.toNat_inj.mp hzero
  obtain ⟨n, hn⟩ := Nat.exists_eq_succ_of_ne_zero (Nat.ne_zero_of_lt hk)
  rw [hn, range_succ_eq_map]
  exact ⟨_, rfl⟩

theorem loadSegment_cases (l : Loading) (p : Phdr) :
    0 ∈ p.pages ∧ loadSegment l p = .error l ∨ 0 ∉ p.pages ∧ ∃ as l', as <+: p.pages ∧
      (loadSegment l p = .ok l' ∧ l'.trace = p.stores ++ mapped p.pages l.trace ∧
          l.frames.length ≤ l'.frames.length + 2 * p.pages.length ∨
        loadSegment l p = .error l' ∧ l'.trace = mapped as l.trace ∧
          l.frames.length < 2 * p.pages.length) := by
  unfold loadSegment
  by_cases h0 : 0 ∈ p.pages
  · obtain ⟨as, has⟩ := pages_of_zero h0
    have herr : mapPage (p.flags &&& 2 ≠ 0) l 0 = .error l := by
      rcases mapPage_cases (p.flags &&& 2 ≠ 0) l 0 with ⟨l', -, hne, -⟩ | ⟨herr, -⟩
      · exact absurd rfl hne
      · exact herr
    refine .inl ⟨h0, ?_⟩
    rw [has, runAll, herr]
    rfl
  · obtain ⟨as, l', hpre, htrace, hrun⟩ := mapPages_cases (l := l) (p.flags &&& 2 ≠ 0) h0
    refine .inr ⟨h0, ?_⟩
    rcases hrun with ⟨hok, rfl, hle⟩ | ⟨herr, hlt⟩
    · rw [hok]
      refine ⟨_, { l' with trace := p.stores ++ l'.trace }, hpre, .inl ⟨rfl, ?_, hle⟩⟩
      rw [htrace]
    · rw [herr]
      exact ⟨as, l', hpre, .inr ⟨rfl, htrace, hlt⟩⟩

section
variable {ps : List Phdr}

theorem Contained.safe (hc : Contained d m ps) (hm : ∀ n ∈ m, .map n ∈ l.trace)
    (hs : Safe d l.trace) :
    Ends (runAll loadSegment ps l) (fun l' => Safe d l'.trace) fun l' => Safe d l'.trace := by
  induction ps generalizing l m with
  | nil => exact Ends.ok hs
  | cons p ps ih =>
    rw [runAll]
    rcases loadSegment_cases l p with ⟨-, h⟩ | ⟨h0, as, l', hpre, h⟩
    · rw [h]
      exact Ends.error hs
    obtain ⟨hfree, hcover, hc⟩ := Or.resolve_left hc h0
    have hmem : ∀ n ∈ m ++ p.pages.map (· / 4096), .map n ∈ mapped p.pages l.trace := by
      intro n hn
      rw [mem_mapped]
      exact (mem_append.mp hn).imp (hm n) id
    rcases h with ⟨h, ht, -⟩ | ⟨h, ht, -⟩
    · rw [h]
      refine ih hc (fun n hn => ?_) ?_
      · rw [ht]
        exact mem_append_right _ (hmem n hn)
      · rw [ht, safe_stores]
        exact ⟨fun k hk => hmem _ (hcover k hk), safe_mapped.mpr ⟨hfree, hs⟩⟩
    · rw [h]
      refine Ends.error ?_
      rw [ht]
      exact safe_mapped.mpr ⟨fun a ha => hfree a (hpre.subset ha), hs⟩

theorem Contained.of_safe (hm : ∀ n, .map n ∈ l.trace → n ∈ m)
    (hn : 2 * (ps.flatMap Phdr.pages).length ≤ l.frames.length)
    (h : Ends (runAll loadSegment ps l) (fun l' => Safe d l'.trace) fun l' => Safe d l'.trace) :
    Safe d l.trace ∧ Contained d m ps := by
  induction ps generalizing l m with
  | nil => exact ⟨h.1 l rfl, trivial⟩
  | cons p ps ih =>
    rw [flatMap_cons, length_append] at hn
    rw [runAll] at h
    rcases loadSegment_cases l p with ⟨h0, herr⟩ | ⟨-, as, l', -, ⟨hok, ht, hle⟩ | ⟨-, -, hlt⟩⟩
    · rw [herr] at h
      exact ⟨h.2 l rfl, .inl h0⟩
    · rw [hok] at h
      have hmem : ∀ n, .map n ∈ mapped p.pages l.trace → n ∈ m ++ p.pages.map (· / 4096) := by
        intro n hn
        rw [mem_mapped] at hn
        exact mem_append.mpr (hn.imp (hm n) id)
      have hm' : ∀ n, .map n ∈ l'.trace → n ∈ m ++ p.pages.map (· / 4096) := by
        intro n hn
        rw [ht, mem_append] at hn
        refine hmem n (hn.resolve_left fun hst => ?_)
        unfold Phdr.stores at hst
        split at hst <;> split at hst <;> simp at hst
      obtain ⟨hs, hc⟩ := ih hm' (by omega) h
      rw [ht, safe_stores, safe_mapped] at hs
      obtain ⟨hcover, hfree, hs⟩ := hs
      exact ⟨hs, .inr ⟨hfree, fun k hk => hmem _ (hcover k hk), hc⟩⟩
    · omega

end

/-- The loader checks none of it: what it maps and writes is the user's alone exactly when the
program headers say so. -/
theorem load_confined_iff (d : Directory) :
    (elfValidate f = true → ∀ frames, Safe d (elfLoad f d frames).2.trace) ↔
      (elfValidate f = true → Contained d [] f.segments) := by
  refine imp_congr_right fun hf => ⟨fun h => ?_, fun hc frames => ?_⟩
  · let frames : List {p : UInt32 // p ≠ 0} :=
      List.replicate (2 * (f.segments.flatMap Phdr.pages).length) ⟨4096, by decide⟩
    refine (Contained.of_safe (l := ⟨d, frames, []⟩) (by simp) (by simp [frames]) ?_).2
    have hs := h frames
    rw [elfLoad, if_pos hf] at hs
    refine ⟨fun l' hl' => ?_, fun l' hl' => ?_⟩
    · rw [hl'] at hs
      exact hs
    · rw [hl'] at hs
      exact hs
  · have hs := Contained.safe (l := ⟨d, frames, []⟩) hc (by simp) trivial
    rw [elfLoad, if_pos hf]
    cases hx : runAll loadSegment f.segments ⟨d, frames, []⟩ with
    | ok l' => exact hs.1 l' hx
    | error l' => exact hs.2 l' hx

/-! ## A file that writes over the kernel -/

def sharedDirectory (n : UInt32) : Directory where
  page := fun k => if k < n then ⟨true, true, false, k⟩ else ⟨false, false, false, 0⟩
  isPrivate := fun _ => false

def kernelWriter : Image := fun o =>
  (List.lookup o [(0, 0x7F), (1, 0x45), (2, 0x4C), (3, 0x46), (16, 2), (28, 52), (44, 1), (52, 1),
    (62, 0x10), (68, 1)]).getD 0

theorem kernelWriter_overwrites : elfValidate kernelWriter = true ∧
    (elfLoad kernelWriter (sharedDirectory 4096) []).2.trace = [.store 0x100000 1 (some 0)] ∧
    (sharedDirectory 4096).kernel (0x100000 / 4096) = true ∧
    ¬ Safe (sharedDirectory 4096) (elfLoad kernelWriter (sharedDirectory 4096) []).2.trace := by
  have ht : (elfLoad kernelWriter (sharedDirectory 4096) []).2.trace =
      [.store 0x100000 1 (some 0)] := by
    rfl
  refine ⟨by decide, ht, by decide, ?_⟩
  rw [ht]
  exact fun h => absurd (h.1 0 (by decide)) not_mem_nil

end Mohhdy.Elf
