import Mohhdy.Foundations.Tables
import Mohhdy.Overlay.Reachable

/-! Listings of a directory, whole and in pages.

An `os_dirent_t` has room for 63 bytes of a name, a path of the overlay may have 79. A listing cuts
the names and merges the children that are then called the same. -/
namespace Mohhdy.Overlay
set_option autoImplicit false

open Tables Runs List

inductive DirentFlags where
  | file | dir
deriving DecidableEq

/-- `os_dirent_t`. -/
structure Dirent where
  name : Bytes
  size : ℕ
  flags : DirentFlags
deriving DecidableEq

def childName (pre path : Bytes) : Option Bytes :=
  (if pre = [] then some path
  else if pre.isPrefixOf path ∧ (path.drop pre.length).head? = some slash then
    some (path.drop (pre.length + 1))
  else none).filter fun rest => rest ≠ [] ∧ slash ∉ rest

/-- `ov_direct_child` with room for `OS_NAME_MAX` = 64 bytes, the last one a zero. -/
def ovDirectChild (pre path : Bytes) : Option Bytes := (childName pre path).map (List.take 63)

def Node.dirent (n : Node) (name : Bytes) : Dirent :=
  ⟨name, if n.isDir then 0 else n.size, if n.isDir then .dir else .file⟩

def entryOf (pre : Bytes) (n : Node) : Option Dirent :=
  if n.used then (ovDirectChild pre n.path).map n.dirent else none

def listEntry (maxN : ℕ) (out : List Dirent) (d : Dirent) : List Dirent :=
  if maxN ≤ out.length then out
  else if out.any fun e => e.name = d.name then update Dirent.name d.name (fun _ => d) out
  else out ++ [d]

/-- `overlay_listdir`, behind the entries that `out` has. -/
def overlayListdir (g : Pool) (path : Bytes) (out : List Dirent) (maxN : ℤ) : List Dirent :=
  if maxN ≤ 0 then out
  else (slots.filterMap fun i => entryOf (ovNormalize path) (g i)).foldl (listEntry maxN.toNat) out

/-- `overlay_listdir_page`, `none` for its -1. -/
def overlayListdirPage (g : Pool) (path : Bytes) (start : ℕ) (maxN : ℤ) : Option (List Dirent) :=
  if maxN ≤ 0 then none else some (((overlayListdir g path [] 288).drop start).take maxN.toNat)

/-- All pages of `m` entries up to an empty one; `none` if no page is empty in so many calls. -/
def readPages (g : Pool) (path : Bytes) (m : ℤ) : ℕ → ℕ → Option (List Dirent)
  | 0, _ => none
  | calls + 1, start =>
    (overlayListdirPage g path start m).bind fun page =>
      if page = [] then some [] else (readPages g path m calls (start + m.toNat)).map (page ++ ·)

/-- The names and nodes directly below a directory. A continuation has no path and is not there. -/
def children (g : Pool) (path : Bytes) : List (Bytes × Node) :=
  slots.filterMap fun i =>
    if (g i).used then (childName (ovNormalize path) (g i).path).map (·, g i) else none

variable {g : Pool} {path : Bytes} {n : ℕ} {m : ℤ}

/-! ## The loop -/

theorem listEntry_names (n : ℕ) (out : List Dirent) (d : Dirent) :
    (listEntry n out d).map Dirent.name = out.map Dirent.name ∨
    out.length < n ∧ d.name ∉ out.map Dirent.name ∧
      (listEntry n out d).map Dirent.name = out.map Dirent.name ++ [d.name] := by
  unfold listEntry
  split
  · exact .inl rfl
  split
  · exact .inl (replace_map rfl out)
  · rename_i hroom hnew
    refine .inr ⟨not_le.mp hroom, fun hd => hnew ?_, by rw [map_append, map_singleton]⟩
    obtain ⟨e, he, hname⟩ := mem_map.mp hd
    exact any_eq_true.mpr ⟨e, he, decide_eq_true hname⟩

theorem foldl_listEntry {ds out : List Dirent} (h : ((out ++ ds).map Dirent.name).Nodup)
    (hlen : (out ++ ds).length ≤ n) : ds.foldl (listEntry n) out = out ++ ds := by
  induction ds generalizing out with
  | nil => simp
  | cons d ds ih =>
    have hroom : ¬ n ≤ out.length := by
      rw [length_append, length_cons] at hlen
      omega
    have hnew : ¬ (out.any fun e => e.name = d.name) = true := by
      intro hany
      obtain ⟨e, he, heq⟩ := any_eq_true.mp hany
      rw [map_append, nodup_append] at h
      exact h.2.2 _ (mem_map_of_mem he) _ (by simp) (of_decide_eq_true heq)
    have hstep : listEntry n out d = out ++ [d] := by rw [listEntry, if_neg hroom, if_neg hnew]
    rw [append_cons] at h hlen ⊢
    rw [foldl_cons, hstep, ih h hlen]

theorem overlayListdir_eq (g : Pool) (path : Bytes) : overlayListdir g path [] 288 =
    ((children g path).map fun c => c.2.dirent (c.1.take 63)).foldl (listEntry 288) [] := by
  have hmap : ((children g path).map fun c => c.2.dirent (c.1.take 63)) =
      slots.filterMap fun i => entryOf (ovNormalize path) (g i) := by
    rw [children, map_filterMap]
    refine filterMap_congr fun i _ => ?_
    unfold entryOf ovDirectChild
    split <;> simp [Function.comp_def]
  rw [hmap]
  rfl

def Listed (names : List Bytes) : Prop := names.Nodup ∧ names.length ≤ 288 ∧ ∀ x ∈ names, x.length ≤ 63

theorem overlayListdir_names (g : Pool) (path : Bytes) :
    Listed ((overlayListdir g path [] 288).map Dirent.name) := by
  rw [overlayListdir_eq]
  refine List.foldlRecOn (motive := fun out : List Dirent => Listed (out.map Dirent.name)) _ _
    ⟨nodup_nil, Nat.zero_le _, by simp⟩ fun out hout d hd => ?_
  obtain ⟨hnodup, hlen, hshort⟩ := hout
  obtain ⟨c, -, rfl⟩ := mem_map.mp hd
  obtain hsame | ⟨hroom, hnew, happend⟩ := listEntry_names 288 out (c.2.dirent (c.1.take 63))
  · rw [hsame]
    exact ⟨hnodup, hlen, hshort⟩
  · rw [happend]
    refine ⟨hnodup.append (nodup_singleton _) (by simpa using hnew), by simpa using hroom, fun x hx => ?_⟩
    obtain hx | hx := mem_append.mp hx
    · exact hshort x hx
    · rw [mem_singleton.mp hx]
      exact length_take_le _ _

theorem readPages_eq (hm : 0 < m) {calls start : ℕ} (h : (overlayListdir g path [] 288).length - start < calls) :
    readPages g path m calls start = some ((overlayListdir g path [] 288).drop start) := by
  have hpage : ∀ start, overlayListdirPage g path start m =
      some (((overlayListdir g path [] 288).drop start).take m.toNat) := fun _ => if_neg (by omega)
  generalize overlayListdir g path [] 288 = out at h hpage ⊢
  induction calls generalizing start with
  | zero => omega
  | succ calls ih =>
    rw [readPages, hpage, Option.bind_some]
    by_cases hend : out.length ≤ start
    · rw [drop_eq_nil_of_le hend, take_nil, if_pos rfl]
    · have hne : (out.drop start).take m.toNat ≠ [] := by
        rw [Ne, take_eq_nil_iff, drop_eq_nil_iff]
        omega
      rw [if_neg hne, ih (by omega), Option.map_some, ← drop_drop, take_append_drop]

/-- The pages list every child once, under its name and with its kind and its size, exactly if the
children have different names that fit in an entry. -/
theorem listdirPages_complete_iff (g : Pool) (path : Bytes) (m : ℤ) (hm : 0 < m) :
    (∃ ds, readPages g path m 289 0 = some ds ∧ ds.Perm ((children g path).map fun c => c.2.dirent c.1)) ↔
    ((children g path).map Prod.fst).Nodup ∧ ∀ c ∈ children g path, c.1.length ≤ 63 := by
  obtain ⟨hnodup, hlen, hshort⟩ := overlayListdir_names g path
  rw [length_map] at hlen
  have hpages : readPages g path m 289 0 = some (overlayListdir g path [] 288) :=
    readPages_eq hm (by omega)
  have hnames : ((children g path).map fun c => c.2.dirent c.1).map Dirent.name =
      (children g path).map Prod.fst := by
    rw [map_map]
    rfl
  rw [← hnames]
  constructor
  · rintro ⟨ds, hds, hperm⟩
    obtain rfl := Option.some.inj (hpages.symm.trans hds)
    have hperm := hperm.map Dirent.name
    refine ⟨hperm.nodup_iff.mp hnodup, fun c hc => hshort _ (hperm.mem_iff.mpr ?_)⟩
    rw [hnames]
    exact mem_map_of_mem hc
  · rintro ⟨hdistinct, hfit⟩
    have hwhole : ((children g path).map fun c => c.2.dirent (c.1.take 63)) =
        (children g path).map fun c => c.2.dirent c.1 :=
      map_congr_left fun c hc => by rw [take_of_length_le (hfit c hc)]
    have hall : ((children g path).map fun c => c.2.dirent c.1).length ≤ 288 := by
      rw [length_map]
      exact (length_filterMap_le _ _).trans_eq length_range
    rw [overlayListdir_eq, hwhole, foldl_listEntry hdistinct hall] at hpages
    exact ⟨_, hpages, .refl _⟩

def longNames : List Op :=
  [.write (List.replicate 63 97 ++ [98]) ⟨[1], by decide⟩, .mkdir (List.replicate 63 97 ++ [99])]

/-- One child is listed under a name that no child has, two are listed as one. -/
theorem listdirPages_longNames : let g k := (run (step none) (State.init 0) (longNames.take k)).pool
    (children (g 1) [slash]).map Prod.fst = [List.replicate 63 97 ++ [98]] ∧
    readPages (g 1) [slash] 5 289 0 = some [⟨List.replicate 63 97, 1, .file⟩] ∧
    (children (g 2) [slash]).length = 2 ∧
    readPages (g 2) [slash] 5 289 0 = some [⟨List.replicate 63 97, 0, .dir⟩] := by
  decide +kernel

def threeChildren : Pool := (run (step none) (State.init 0)
  [.mkdir [97], .write [98] ⟨[1], by decide⟩, .write [99] ⟨[2, 3], by decide⟩]).pool

/-- The three children are on two pages. -/
theorem listdirPages_threeChildren : ∃ ds, readPages threeChildren [slash] 2 289 0 = some ds ∧
    ds.Perm ((children threeChildren [slash]).map fun c => c.2.dirent c.1) :=
  (listdirPages_complete_iff _ _ 2 (by decide)).mpr (by decide +kernel)

end Mohhdy.Overlay
