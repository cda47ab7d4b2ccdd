import Mohhdy.Foundations.Tables
import Mohhdy.Foundations.LastWriter

/-! Replicas of the device synchronisation (devsync.c): a last-writer-wins map with tombstones, a version
vector, and the texts in which entries go from one device to another. -/
namespace Mohhdy.Devsync
set_option autoImplicit false

open Tables

/-! ## The map -/

def dsKeys : ℕ := 32
def dsKeyLen : ℕ := 16
def dsValLen : ℕ := 32

abbrev Device := Fin 8

def deviceA : Device := 0
def deviceB : Device := 1

structure Entry where
  (key val : List UInt8)
  clock : UInt32
  dev : Device
  dead : Bool
deriving DecidableEq

structure Replica where
  id : Device
  clock : UInt32
  vv : Device → UInt32
  entries : List Entry

def dsInit (id : Device) : Replica := ⟨id, 0, fun _ => 0, []⟩

def tokenOk (s : List UInt8) (cap : ℕ) : Bool :=
  s ≠ [] ∧ s.length < cap ∧ s.all fun c => 32 < c ∧ c ≤ 126

def wins (a b : Entry) : Prop := b.clock < a.clock ∨ (a.clock = b.clock ∧ b.dev < a.dev)

instance (a b : Entry) : Decidable (wins a b) := inferInstanceAs (Decidable (_ ∨ _))

inductive Applied where
  | applied | ignored | invalid
deriving DecidableEq

variable (r : Replica) (e : Entry)

def Entry.valid : Prop :=
  e.clock ≠ 0 ∧ tokenOk e.key dsKeyLen = true ∧ (e.dead = false → tokenOk e.val dsValLen = true)

instance : Decidable e.valid := inferInstanceAs (Decidable (_ ∧ _))

def Entry.kept : Entry := { e with val := if e.dead then [] else e.val }

/-- The clock and the vector follow the entry before it is known to be stored. -/
def Replica.advance : Replica :=
  { r with
    clock := if r.clock < e.clock then e.clock else r.clock
    vv := if r.vv e.dev < e.clock then Function.update r.vv e.dev e.clock else r.vv }

def Replica.setEntries (entries : List Entry) : Replica := { r with entries := entries }

def Replica.find (key : List UInt8) : Option Entry := lookup Entry.key key r.entries

def dsApply : Replica × Applied :=
  if ¬e.valid then (r, .invalid)
  else
    match r.find e.key with
    | none =>
      if dsKeys ≤ r.entries.length then (r.advance e, .invalid)
      else ((r.advance e).setEntries (r.entries ++ [e.kept]), .applied)
    | some cur =>
      if wins e cur then
        ((r.advance e).setEntries (update Entry.key e.key (fun _ => e.kept) r.entries), .applied)
      else (r.advance e, .ignored)

def Replica.stamped (key val : List UInt8) (dead : Bool) : Entry :=
  ⟨key, if dead then [] else val, r.clock + 1, r.id, dead⟩

def localWrite (key val : List UInt8) (dead : Bool) : Replica × Bool :=
  if tokenOk key dsKeyLen = false then (r, false)
  else if dead = false ∧ tokenOk val dsValLen = false then (r, false)
  else if dead = true ∧ r.find key = none then (r, false)
  else ((dsApply r (r.stamped key val dead)).1, (dsApply r (r.stamped key val dead)).2 = .applied)

def dsSet (key val : List UInt8) : Replica × Bool := localWrite r key val false

def dsDel (key : List UInt8) : Replica × Bool := localWrite r key [] true

/-! ## Texts -/

def fnvStep (h : UInt32) (c : UInt8) : UInt32 := (h ^^^ c.toUInt32) * 16777619

def fnv (s : List UInt8) : UInt32 := s.foldl fnvStep 2166136261

def digitsRev : ℕ → ℕ → List UInt8
  | 0, _ => []
  | n + 1, v => UInt8.ofNat (48 + v % 10) :: if v / 10 = 0 then [] else digitsRev n (v / 10)

def decimal (v : UInt32) : List UInt8 := (digitsRev 10 v.toNat).reverse

def hexChar (d : UInt32) : UInt8 := if d < 10 then d.toUInt8 + 48 else d.toUInt8 + 87

def hexWord (h : UInt32) : List UInt8 :=
  (List.range 8).map fun i => hexChar ((h >>> (28 - 4 * UInt32.ofNat i)) &&& 15)

def put (cap : ℕ) (out : Option (List UInt8)) (s : List UInt8) : Option (List UInt8) :=
  out.bind fun out => if out.length + s.length ≤ cap - 1 then some (out ++ s) else none

def sp : UInt8 := 32
def nl : UInt8 := 10
/-- ds1 -/
def ds1Word : List UInt8 := [100, 115, 49]
def sumWord : List UInt8 := [115, 117, 109, 32]
/-- e -/
def eWord : List UInt8 := [101]

def headerPieces (id : Device) (count : ℕ) : List (List UInt8) :=
  [ds1Word ++ [sp], decimal (UInt32.ofNat id), [sp], decimal (UInt32.ofNat count), [nl]]

def entryPieces : List (List UInt8) :=
  [eWord ++ [sp], decimal e.clock, [sp], decimal (UInt32.ofNat e.dev), if e.dead then [sp, 49, sp] else [sp, 48, sp],
    e.key, [sp], if e.dead then [45] else e.val, [nl]]

def Replica.delta (peer : Option (Device → UInt32)) : List Entry :=
  r.entries.filter fun e => peer.elim true fun vv => vv e.dev < e.clock

def dsExport (peer : Option (Device → UInt32)) (cap : ℕ) : Option (List UInt8) :=
  if cap < 32 then none
  else
    let pieces := headerPieces r.id (r.delta peer).length ++ (r.delta peer).flatMap entryPieces
    (pieces.foldl (put cap) (some [])).bind fun body =>
      [sumWord, hexWord (fnv body), [nl]].foldl (put cap) (some body)

def word (s : List UInt8) (cap : ℕ) : Option (List UInt8 × List UInt8) :=
  let s := s.dropWhile (· = sp)
  let w := s.takeWhile fun c => c ≠ sp ∧ c ≠ nl
  if w.length ≤ cap - 1 then some (w, s.drop w.length) else none

def numLoop : List UInt8 → UInt32 → Option UInt32
  | [], x => some x
  | c :: w, x => if c < 48 ∨ 57 < c ∨ 400000000 < x then none else numLoop w (x * 10 + (c - 48).toUInt32)

def num (w : List UInt8) : Option UInt32 := if w = [] then none else numLoop w 0

def sumAt : Bool → List UInt8 → Option ℕ
  | _, [] => none
  | start, c :: s => if start && sumWord.isPrefixOf (c :: s) then some 0 else (sumAt (c = nl) s).map (· + 1)

def hexValue (c : UInt8) : Option UInt32 :=
  if 48 ≤ c ∧ c ≤ 57 then some (c - 48).toUInt32
  else if 97 ≤ c ∧ c ≤ 102 then some (c - 87).toUInt32
  else none

def hexLoop : ℕ → List UInt8 → UInt32 → Option UInt32
  | 0, _, h => some h
  | n + 1, s, h => (hexValue (s.headD 0)).bind fun d => hexLoop n s.tail ((h <<< 4) ||| d)

def wordCap : ℕ := dsValLen + 2

def numWord (p : List UInt8) : Option (UInt32 × List UInt8) :=
  (word p wordCap).bind fun wp => (num wp.1).map fun x => (x, wp.2)

def parseEntry (p : List UInt8) : Option (Entry × List UInt8) := do
  let (w, p) ← word p wordCap
  guard (w = eWord)
  let (clock, p) ← numWord p
  guard (clock ≠ 0)
  let (dev, p) ← numWord p
  guard (dev.toNat < 8)
  let (dead, p) ← numWord p
  guard (dead ≤ 1)
  let (key, p) ← word p dsKeyLen
  guard (key ≠ [])
  let (val, p) ← word p dsValLen
  guard (val ≠ [])
  guard (p.head? = some nl)
  some (⟨key, if dead = 1 then [] else val, clock, Fin.ofNat 8 dev.toNat, dead = 1⟩, p.tail)

def parseEntries : ℕ → List UInt8 → Option (List Entry × List UInt8)
  | 0, p => some ([], p)
  | n + 1, p => (parseEntry p).bind fun ep => (parseEntries n ep.2).map fun rest => (ep.1 :: rest.1, rest.2)

def parseBody (p : List UInt8) : Option (List Entry × List UInt8) := do
  let (w, p) ← word p wordCap
  guard (w = ds1Word)
  let (id, p) ← numWord p
  guard (id.toNat < 8)
  let (count, p) ← numWord p
  guard (count.toNat ≤ dsKeys)
  parseEntries count.toNat (if p.head? = some nl then p.tail else p)

inductive ImportErr where
  | format | sum
deriving DecidableEq

def dsParse (s : List UInt8) : Except ImportErr (List Entry) :=
  match sumAt true s with
  | none => .error .format
  | some i =>
    match hexLoop 8 (s.drop (i + 4)) 0 with
    | none => .error .format
    | some h =>
      if fnv (s.take i) ≠ h then .error .sum
      else
        match parseBody s with
        | none => .error .format
        | some (batch, p) => if p = s.drop i then .ok batch else .error .format

def applyBatch : Replica → List Entry → ℕ → Replica × Except ImportErr ℕ
  | r, [], applied => (r, .ok applied)
  | r, e :: es, applied =>
    match dsApply r e with
    | (r', .invalid) => (r', .error .format)
    | (r', .ignored) => applyBatch r' es applied
    | (r', .applied) => applyBatch r' es (applied + 1)

def dsImport (text : List UInt8) : Replica × Except ImportErr ℕ :=
  match dsParse (text.takeWhile (· ≠ 0)) with
  | .error e => (r, .error e)
  | .ok batch => applyBatch r batch 0

/-! ## The digest -/

def Entry.digest : UInt32 :=
  if e.dead then 0
  else (e.val.foldl fnvStep (fnvStep (fnv e.key) 0x3D)) * 2654435761 + 1

def dsDigest : UInt32 := r.entries.foldl (fun acc e => acc + e.digest) 0

end Mohhdy.Devsync
