import Mohhdy.Foundations.Blocks
import Mohhdy.Foundations.Chains
import Mohhdy.Foundations.Runs
import Mohhdy.Overlay.Path

/-! The node pool of the overlay and its mutators (`src/fs/overlay.c`).

`g_ov` is a function from slots to nodes; the slots are the numbers below `OV_MAX_NODES` = 288 and
`next` is `none` for -1. A block has `OV_DATA_MAX` = 384 bytes, a path buffer 80. Bytes of a block
beyond its size keep their last value. Saving to the disk changes nothing here and is left out. -/
namespace Mohhdy.Overlay
set_option autoImplicit false

open Blocks Chains

inductive Err where
  | notFound | alreadyExists | notDir | isDir | notEmpty | noSpace | inval | isProtected
deriving DecidableEq, Repr

/-- `ov_node_t`. -/
structure Node where
  (used isDir isContinuation : Bool)
  next : Option ℕ
  (path data : Bytes)
  size : ℕ

abbrev Pool := ℕ → Node

def slots : List ℕ := List.range 288

structure State where
  pool : Pool
  extLba : ℕ

def State.init (extLba : ℕ) : State :=
  ⟨fun _ => ⟨false, false, false, none, [], List.replicate 384 0, 0⟩, extLba⟩

variable (rd : Initrd) (s : State) (g : Pool) (path : Bytes)

def ovHdr : ℕ := if s.extLba = 0 then 16 else 32
def overlayCapacity : ℕ := if s.extLba = 0 then 32768 else 98304
def overlayFileMax : ℕ := if s.extLba = 0 then 30720 else 65536

def Node.head (n : Node) : Bool := n.used && !n.isContinuation

def Node.blank (n : Node) : Node :=
  { n with used := false, isDir := false, isContinuation := false, next := none, path := [],
           size := 0 }

def ovNext (i : ℕ) : Option ℕ := (g i).next.filter (· < 288)

def freeLoop : ℕ → Option ℕ → Pool → Pool
  | 0, _, g => g
  | fuel + 1, o, g =>
    o.elim g fun i => freeLoop fuel (ovNext g i) (Function.update g i (g i).blank)

/-- A freed node links nowhere, so the loop frees each slot once and then stops. -/
def ovFreeChain (i : ℕ) : Pool := freeLoop 289 (some i) g

def ovFind : Option ℕ :=
  if ovNormalize path = [] then none
  else slots.find? fun i => (g i).head && decide ((g i).path = ovNormalize path)

def ovAlloc : Option ℕ := slots.find? fun i => !(g i).used

def ovHasChildren : Bool :=
  slots.any fun i => (g i).used &&
    if ovNormalize path = [] then decide ((g i).path ≠ [])
    else (ovNormalize path).isPrefixOf (g i).path &&
      decide (((g i).path.drop (ovNormalize path).length).head? = some slash)

def overlayIsDir : Bool :=
  decide (ovNormalize path = []) || (ovFind g (ovNormalize path)).any fun i => (g i).isDir

def ovParentIsDir : Bool :=
  decide (ovParent path = []) || overlayIsDir g (ovParent path) || initrdIsDir rd (ovParent path)

/-! ## Space -/

def ovBlocksFor (n : ℕ) : ℕ := blockCount 384 n

def ovFileBytes (plen n : ℕ) : ℕ := ovBlocksFor n * 8 + plen + n

def ovChainBytes (n : Node) : ℕ :=
  if n.isDir then 8 + n.path.length else ovFileBytes n.path.length n.size

def ovChainLen (i : ℕ) : ℕ := (walk (ovNext g) 288 (some i)).length

def overlaySnapshotBytes : ℕ :=
  ovHdr s + (slots.map fun i => if (s.pool i).head then ovChainBytes (s.pool i) else 0).sum

def ovFreeCount : ℕ := slots.countP fun i => !(g i).used

/-! ## Chains -/

def blockNode (old : Node) (isContinuation : Bool) (c : Bytes) : Node where
  used := true
  isDir := false
  isContinuation := isContinuation
  next := none
  path := []
  data := c ++ old.data.drop c.length
  size := c.length

def dirNode (path data : Bytes) : Node := ⟨true, true, false, none, path, data, 0⟩

/-- The loop of `ov_build`, over the blocks the data is cut into; `head` and `prev` as in the
source. When no node is left the blocks built so far are given back. -/
def buildLoop : List Bytes → Option ℕ → Option ℕ → Pool → Pool × Option ℕ
  | [], head, _, g => (g, head)
  | c :: cs, head, prev, g =>
    (ovAlloc g).elim (head.elim g (ovFreeChain g), none) fun k =>
      let g := Function.update g k (blockNode (g k) head.isSome c)
      let g := prev.elim g fun j => Function.update g j { g j with next := some k }
      buildLoop cs (head.or (some k)) (some k) g

def ovBuild (want data : Bytes) : Pool × Option ℕ :=
  let (g, head) := buildLoop (blocks 384 data) none none g
  (head.elim g fun h =>
    Function.update g h { g h with size := data.length, path := want.take 79 }, head)

abbrev Res := State × Except Err ℕ

def hideOld (old : Option ℕ) (path : Bytes) : Pool :=
  old.elim g fun i => Function.update g i { g i with path := path }

def freeOld (old : Option ℕ) : Pool := old.elim g (ovFreeChain g)

def storeBeside (old : Option ℕ) (want data : Bytes) (built : Pool × Option ℕ) : Res :=
  built.2.elim (⟨hideOld built.1 old (want.take 79), s.extLba⟩, .error .noSpace) fun _ =>
    (⟨freeOld built.1 old, s.extLba⟩, .ok data.length)

def storeInPlace (data : Bytes) (built : Pool × Option ℕ) : Res :=
  (⟨built.1, s.extLba⟩, built.2.elim (.error .noSpace) fun _ => .ok data.length)

def storeChain (old : Option ℕ) (want data : Bytes) : Res :=
  if ovBlocksFor data.length ≤ ovFreeCount s.pool then
    storeBeside s old want data (ovBuild (hideOld s.pool old []) want data)
  else storeInPlace s data (ovBuild (freeOld s.pool old) want data)

def ovStore (want data : Bytes) : Res :=
  let old := ovFind s.pool want
  let bytes := overlaySnapshotBytes s - old.elim 0 fun i => ovChainBytes (s.pool i)
  if overlayFileMax s < data.length then (s, .error .noSpace)
  else if overlayCapacity s < bytes + ovFileBytes want.length data.length then
    (s, .error .noSpace)
  else if ovFreeCount s.pool + old.elim 0 (ovChainLen s.pool) < ovBlocksFor data.length then
    (s, .error .noSpace)
  else storeChain s old want data

/-! ## Reading -/

def blockLen (n : Node) : ℕ := if n.isContinuation then n.size else min n.size 384

/-- The loop of `overlay_read_at`; an acyclic chain has at most 288 nodes. -/
def readLoop (g : Pool) (max offset : ℕ) : ℕ → Option ℕ → ℕ → Bytes → Bytes
  | 0, _, _, out => out
  | fuel + 1, cur, pos, out =>
    cur.elim out fun i =>
      if max ≤ out.length then out
      else
        let blk := blockLen (g i)
        readLoop g max offset fuel (ovNext g i) (pos + blk)
          (if offset < pos + blk then
            out ++ (((g i).data.take blk).drop (offset - pos)).take (max - out.length)
          else out)

def overlayReadAt (max offset : ℕ) : Except Err Bytes :=
  (ovFind g path).elim (.error .notFound) fun i =>
    if (g i).isDir then .error .isDir
    else if max = 0 then .error .inval
    else if (g i).size ≤ offset then .ok []
    else .ok (readLoop g max offset 288 (some i) 0 [])

def overlayRead (max : ℕ) : Except Err Bytes :=
  overlayReadAt g path max 0

/-! ## The mutators -/

/-- A caller's data: it lies in the 32-bit address space beside `g_ov` (288 nodes of 484 bytes)
and the 65536 bytes of `g_ov_tmp`. -/
structure Buffer where
  bytes : Bytes
  fits : bytes.length ≤ 2 ^ 32 - 204928

def overlayMkdir : Res :=
  let want := ovNormalize path
  if want = [] then (s, .error .alreadyExists)
  else if (ovFind s.pool want).isSome then (s, .error .alreadyExists)
  else if initrdIsFile rd want then (s, .error .alreadyExists)
  else if ovParentIsDir rd s.pool want = false then (s, .error .notDir)
  else if overlayCapacity s < overlaySnapshotBytes s + 8 + want.length then (s, .error .noSpace)
  else
    (ovAlloc s.pool).elim (s, .error .noSpace) fun k =>
      (⟨Function.update s.pool k (dirNode (want.take 79) (0 :: (s.pool k).data.drop 1)),
        s.extLba⟩, .ok 0)

def overlayWrite (data : Buffer) : Res :=
  let want := ovNormalize path
  if want = [] then (s, .error .inval)
  else if overlayFileMax s < data.bytes.length then (s, .error .noSpace)
  else if (ovFind s.pool want).any fun i => (s.pool i).isDir then (s, .error .isDir)
  else if initrdIsDir rd want then (s, .error .isDir)
  else if (ovFind s.pool want).isNone ∧ ovParentIsDir rd s.pool want = false then
    (s, .error .notDir)
  else ovStore s want data.bytes

/-- What `overlay_append` finds to append to: the overlay's file, the initrd's, or nothing. The
sum of the sizes is taken in 32 bits. -/
def appendBase (want : Bytes) (n : ℕ) : Except Err Bytes :=
  (ovFind s.pool want).elim
    (if initrdIsFile rd want then
      (initrdReadInto rd want (overlayFileMax s)).elim (.error .notFound) .ok
    else if ovParentIsDir rd s.pool want = false then .error .notDir
    else .ok [])
    fun i =>
      if overlayFileMax s < ((s.pool i).size + n) % 2 ^ 32 then .error .noSpace
      else overlayRead s.pool want (overlayFileMax s)

def overlayAppend (data : Buffer) : Res :=
  let want := ovNormalize path
  let n := data.bytes.length
  if want = [] then (s, .error .inval)
  else if initrdIsDir rd want then (s, .error .isDir)
  else if (ovFind s.pool want).any fun i => (s.pool i).isDir then (s, .error .isDir)
  else
    match appendBase rd s want n with
    | .error e => (s, .error e)
    | .ok have_ =>
      if overlayFileMax s < (have_.length + n) % 2 ^ 32 then (s, .error .noSpace)
      else
        let (s', rc) := ovStore s want (have_ ++ data.bytes)
        (s', rc.map fun _ => n)

def overlayUnlink : Res :=
  let want := ovNormalize path
  if want = [] then (s, .error .inval)
  else
    (ovFind s.pool want).elim
      (s, .error (if initrdIsFile rd want || initrdIsDir rd want then .isProtected
        else .notFound))
      fun i =>
        if (s.pool i).isDir && ovHasChildren s.pool want then (s, .error .notEmpty)
        else (⟨ovFreeChain s.pool i, s.extLba⟩, .ok 0)

/-- The checks that `overlay_rename` and `overlay_copy` make of their two paths, when these
differ. -/
def moveCheck (oldp newp : Bytes) : Option Err :=
  if (ovFind g oldp).isNone then
    some (if initrdIsFile rd oldp || initrdIsDir rd oldp then .isProtected else .notFound)
  else if (ovFind g newp).isSome then some .alreadyExists
  else if initrdIsFile rd newp || initrdIsDir rd newp then some .alreadyExists
  else if ovParentIsDir rd g newp = false then some .notDir
  else if ovUnder newp oldp && decide ((newp.drop oldp.length).head? = some slash) then
    some .inval
  else if slots.any fun i => (g i).head && ovUnder (g i).path oldp &&
      decide (80 ≤ newp.length + ((g i).path.length - oldp.length)) then some .inval
  else none

def target (oldp newp path : Bytes) : Bytes := (newp ++ path.drop oldp.length).take 79

def renameGrow (oldp newp : Bytes) : ℕ :=
  (slots.map fun i => if (g i).head && ovUnder (g i).path oldp then newp.length - oldp.length
    else 0).sum

def renamePool (oldp newp : Bytes) : Pool := fun i =>
  if i < 288 ∧ (g i).used ∧ ovUnder (g i).path oldp then
    { g i with path := target oldp newp (g i).path }
  else g i

def overlayRename (oldpath newpath : Bytes) : Res :=
  let oldp := ovNormalize oldpath
  let newp := ovNormalize newpath
  if oldp = [] ∨ newp = [] then (s, .error .inval)
  else if oldp = newp then (s, .ok 0)
  else
    (moveCheck rd s.pool oldp newp).elim
      (if overlayCapacity s < overlaySnapshotBytes s + renameGrow s.pool oldp newp then
        (s, .error .noSpace)
      else (⟨renamePool s.pool oldp newp, s.extLba⟩, .ok 0))
      fun e => (s, .error e)

def copyNodes (oldp : Bytes) : ℕ :=
  (slots.map fun i => if (g i).head && ovUnder (g i).path oldp then
    (if (g i).isDir then 1 else ovChainLen g i) else 0).sum

def copyBytes (oldp newp : Bytes) : ℕ :=
  (slots.map fun i => if (g i).head && ovUnder (g i).path oldp then
    (if (g i).isDir then 8 + (newp.length + ((g i).path.length - oldp.length))
      else ovFileBytes (newp.length + ((g i).path.length - oldp.length)) (g i).size) else 0).sum

/-- One node of the loops of `overlay_copy`; `dirs` is the first pass. -/
def copyOne (oldp newp : Bytes) (fileMax : ℕ) (dirs : Bool) (g : Pool) (i : ℕ) : Pool × Bool :=
  if (g i).head = false ∨ (g i).isDir ≠ dirs ∨ ovUnder (g i).path oldp = false then (g, true)
  else if (g i).isDir then
    (ovAlloc g).elim (g, false) fun k =>
      (Function.update g k (dirNode (target oldp newp (g i).path) (g k).data), true)
  else
    match overlayRead g (g i).path fileMax with
    | .error _ => (g, false)
    | .ok bytes =>
      let (g, head) := ovBuild g (target oldp newp (g i).path) bytes
      (g, head.isSome)

def copyLoop (oldp newp : Bytes) (fileMax : ℕ) (dirs : Bool) : List ℕ → Pool → Pool × Bool
  | [], g => (g, true)
  | i :: is, g =>
    let (g, ok) := copyOne oldp newp fileMax dirs g i
    if ok then copyLoop oldp newp fileMax dirs is g else (g, false)

def overlayCopy (src dst : Bytes) : Res :=
  let oldp := ovNormalize src
  let newp := ovNormalize dst
  if oldp = [] ∨ newp = [] then (s, .error .inval)
  else if oldp = newp then (s, .error .alreadyExists)
  else
    (moveCheck rd s.pool oldp newp).elim
      (if ovFreeCount s.pool < copyNodes s.pool oldp then (s, .error .noSpace)
      else if overlayCapacity s < overlaySnapshotBytes s + copyBytes s.pool oldp newp then
        (s, .error .noSpace)
      else
        let (g, ok) := copyLoop oldp newp (overlayFileMax s) true slots s.pool
        if ok = false then (⟨g, s.extLba⟩, .error .noSpace)
        else
          let (g, ok) := copyLoop oldp newp (overlayFileMax s) false slots g
          (⟨g, s.extLba⟩, if ok then .ok 0 else .error .noSpace))
      fun e => (s, .error e)

inductive Op where
  | mkdir (path : Bytes)
  | write (path : Bytes) (data : Buffer)
  | append (path : Bytes) (data : Buffer)
  | unlink (path : Bytes)
  | rename (oldpath newpath : Bytes)
  | copy (src dst : Bytes)

def Op.run : Op → Res
  | .mkdir path => overlayMkdir rd s path
  | .write path data => overlayWrite rd s path data
  | .append path data => overlayAppend rd s path data
  | .unlink path => overlayUnlink rd s path
  | .rename oldpath newpath => overlayRename rd s oldpath newpath
  | .copy src dst => overlayCopy rd s src dst

def step (op : Op) : State := (op.run rd s).1

end Mohhdy.Overlay
