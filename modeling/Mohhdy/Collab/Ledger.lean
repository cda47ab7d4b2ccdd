import Mohhdy.Collab.Entry

/-! A node's ledger (`collab_t`): storing and redacting entries, signatures, and the three
messages of the protocol: an unsigned entry (type 1), a summary (type 2) and a signed entry
(type 3).

The parallel arrays `e`, `status`, `sig`, `th`, `has_sig` are one list of slots. The hash and the
signature scheme are parameters (`Prim`). The send callback and the output callback of the host are
the list of outputs a call returns. -/
namespace Mohhdy.Collab
open Words
set_option autoImplicit false

/-- What the ledger takes from outside: SHA-256 and `csig.c`. -/
structure Prim where
  sha256 : List UInt8 → Block 32
  csigKeypair : Block 32 → Option (Block 20 × Block 128)
  csigSign : Block 20 → List UInt8 → Option (Block 40)
  csigVerify : Block 128 → List UInt8 → Block 40 → Bool
  csigPkValid : Block 128 → Bool

def Prim.permissive : Prim where
  sha256 b := Block.read 32 b
  csigKeypair seed := some (Block.read 20 seed.val, Block.read 128 seed.val)
  csigSign _ msg := some (Block.read 40 msg)
  csigVerify _ _ _ := true
  csigPkValid _ := true

structure Host where
  name : UInt32 → List UInt8

def Host.nameless : Host := ⟨fun _ => []⟩

inductive Out where
  | send (dst : UInt32) (bytes : List UInt8)
  | line (text : List UInt8)
deriving DecidableEq

/-- `collab_field_t`. -/
structure ProfileField where
  (key value : List UInt8)
  shared : Bool
deriving DecidableEq

/-- One index of the parallel arrays of `collab_t`. -/
structure Slot where
  e : Entry
  status : UInt8
  sig : Block 40
  th : Block 32
  hasSig : Bool
deriving DecidableEq

/-- `collab_t`. -/
structure Ledger where
  (self seq lamport : UInt32)
  slots : List Slot
  (dropped duplicates : UInt32)
  profile : List ProfileField
  signing : Bool
  sk : Block 20
  pk : Block 128
  keys : List (UInt32 × Block 128)
  forged : UInt32
deriving DecidableEq

def collabInit (self : UInt32) : Ledger where
  self := self
  seq := 0
  lamport := 0
  slots := []
  dropped := 0
  duplicates := 0
  profile := List.replicate 6 ⟨[], [], false⟩
  signing := false
  sk := Block.zero 20
  pk := Block.zero 128
  keys := []
  forged := 0

/-! ## Storing -/

def redactedText : Text := Text.ofStr (ascii ['[', 'r', 'e', 'd', 'a', 'c', 't', 'e', 'd', ']'])

def redactSlot (origin lamport : UInt32) (sl : Slot) : Slot :=
  if sl.e.type = .profile ∧ sl.e.origin = origin ∧ sl.e.lamport < lamport then
    { sl with e := { sl.e with text := redactedText } }
  else sl

def redact (origin lamport : UInt32) (slots : List Slot) : List Slot :=
  slots.map (redactSlot origin lamport)

variable (P : Prim) (h : Host) (c : Ledger) (e : Entry) (src : UInt32)

/-- `find`: the index of the entry with this key. -/
def find (origin seq : UInt32) : Option ℕ :=
  c.slots.findIdx? fun sl => sl.e.key = (origin, seq)

def laterRedact (slots : List Slot) (e : Entry) : Option Slot :=
  slots.find? fun sl => sl.e.type = .redact ∧ sl.e.origin = e.origin ∧ sl.e.lamport > e.lamport

def redactOnStore (slots : List Slot) : List Slot :=
  if e.type = .redact then redact e.origin e.lamport slots
  else if e.type = .profile then
    match laterRedact slots e with
    | some r => redact e.origin r.e.lamport slots
    | none => slots
  else slots

def Slot.new : Slot := ⟨e, 0, Block.zero 40, Block.zero 32, false⟩

inductive StoreResult where
  | stored | duplicate | full
deriving DecidableEq

def store : StoreResult × Ledger :=
  if (find c e.origin e.seq).isSome then (.duplicate, { c with duplicates := c.duplicates + 1 })
  else if c.slots.length ≥ 96 then (.full, { c with dropped := c.dropped + 1 })
  else (.stored, { c with
    slots := redactOnStore e (c.slots ++ [Slot.new e])
    lamport := if e.lamport > c.lamport then e.lamport else c.lamport })

def setLast (f : Slot → Slot) (c : Ledger) : Ledger :=
  { c with slots := c.slots.modify (c.slots.length - 1) f }

/-! ## Signatures -/

def textHash (t : Text) : Block 32 := P.sha256 t.str

/-- `sign_input`: the 32 header bytes and the hash of the original text. -/
def signInput (th : Block 32) : List UInt8 := encodeHeader e ++ th.val

def collabKeyOf (origin : UInt32) : Option (Block 128) :=
  (c.keys.find? fun k => k.1 = origin).map (·.2)

def bindKey (origin : UInt32) (pk : Block 128) : Bool × Ledger :=
  if (collabKeyOf c origin).isSome then (true, c)
  else if c.keys.length ≥ 8 then (false, c)
  else (true, { c with keys := c.keys ++ [(origin, pk)] })

def collabKeysSet (seed : Block 32) : Bool × Ledger :=
  match P.csigKeypair seed with
  | none => (false, c)
  | some (sk, pk) =>
    let c := { c with sk := sk, pk := pk, signing := true }
    if (collabKeyOf c c.self).isSome then
      (true, { c with keys := c.keys.map fun k => if k.1 = c.self then (k.1, pk) else k })
    else bindKey c c.self pk

/-! ## Messages -/

/-- The bytes `send_entry` sends for a slot: signed when there is a signature and a key for its
origin. -/
def entryMessage (sl : Slot) : List UInt8 :=
  match sl.hasSig, collabKeyOf c sl.e.origin with
  | true, some pk => 3 :: (collabEncode sl.e ++ (sl.th.val ++ (sl.sig.val ++ pk.val)))
  | _, _ => 1 :: collabEncode sl.e

def isRedacted : Bool := e.type = .profile && e.text.str = redactedText.str

/-- The reasons `collab_receive` rejects an entry for. -/
inductive Refusal where
  | unsigned | keyMismatch | badKey | badSignature
deriving DecidableEq, Repr

def Refusal.text : Refusal → List UInt8
  | unsigned => ascii ['u', 'n', 's', 'i', 'g', 'n', 'e', 'd']
  | keyMismatch => ascii ['k', 'e', 'y', '-', 'm', 'i', 's', 'm', 'a', 't', 'c', 'h']
  | badKey => ascii ['b', 'a', 'd', '-', 'k', 'e', 'y']
  | badSignature => ascii ['b', 'a', 'd', '-', 's', 'i', 'g', 'n', 'a', 't', 'u', 'r', 'e']

def lineOf (parts : List (List UInt8)) : List UInt8 := parts.foldl (fun d s => sCat d s 120) []

def reject (why : Refusal) (e : Entry) (src : UInt32) : Ledger × List Out :=
  ({ c with forged := c.forged + 1 },
    [.line (lineOf [ascii ['c', 'o', 'l', 'l', 'a', 'b', ' ', 'r', 'e', 'j', 'e', 'c', 't', ' '],
      why.text, ascii [' '], collabTypeName e.type,
      ascii [' ', 'c', 'l', 'a', 'i', 'm', 'e', 'd', ' ', 'f', 'r', 'o', 'm', ' '],
      h.name e.origin, ascii [' ', 's', 'e', 'q', ' '], decimal e.seq,
      ascii [' ', 'v', 'i', 'a', ' '], h.name src])])

def gotLine : List UInt8 :=
  lineOf ([ascii ['c', 'o', 'l', 'l', 'a', 'b', ' ', 'g', 'o', 't', ' '], collabTypeName e.type,
    ascii [' ', 'f', 'r', 'o', 'm', ' '], h.name e.origin, ascii [' ', 's', 'e', 'q', ' '],
    decimal e.seq] ++
    if e.origin ≠ src then [ascii [' ', 'v', 'i', 'a', ' '], h.name src] else [])

/-- The result of `collab_emit`: a bad argument (`-1`), a store that failed (`-2`), or the
sequence number. -/
inductive EmitResult where
  | badArgs | notStored | emitted (seq : UInt32)
deriving DecidableEq

def emitEntry (type : CE) (peer ref amount aux : UInt32) (text : List UInt8) : Entry :=
  { type := type, origin := c.self, seq := c.seq + 1, lamport := c.lamport + 1, peer := peer,
    ref := ref, amount := amount, aux := aux, text := Text.ofStr text }

/-- The signing step of `collab_emit`, at index `n - 1`. The hash is taken over the text as it
was emitted, even when `store` has just redacted it. -/
def signLast (c : Ledger) : Ledger :=
  if c.signing then
    let th := textHash P e.text
    match P.csigSign c.sk (signInput e th) with
    | some sig => setLast (fun sl => { sl with th := th, sig := sig, hasSig := true }) c
    | none => setLast (fun sl => { sl with th := th }) c
  else c

def sendLast : List Out :=
  match c.slots.getLast? with
  | some sl => [.send 0 (entryMessage c sl)]
  | none => []

def collabEmit (type : UInt8) (peer ref amount aux : UInt32) (text : List UInt8) :
    EmitResult × Ledger × List Out :=
  match CE.ofByte type with
  | none => (.badArgs, c, [])
  | some ty =>
    if c.self = 0 ∨ (cStr text).length ≥ 40 then (.badArgs, c, [])
    else
      let e := emitEntry c ty peer ref amount aux text
      match store c e with
      | (.stored, c) =>
        let c := signLast P e { c with seq := e.seq }
        (.emitted e.seq, c, sendLast c)
      | (_, c) => (.notStored, c, [])

def summaryAdd (acc : List (UInt32 × UInt32)) (e : Entry) : List (UInt32 × UInt32) :=
  let acc := if acc.any (·.1 = e.origin) ∨ acc.length = 8 then acc else acc ++ [(e.origin, 0)]
  acc.map fun m => if m.1 = e.origin ∧ e.seq > m.2 then (m.1, e.seq) else m

/-- The summary `collab_sync` sends: for the first eight origins of the ledger, the largest
sequence number held. -/
def summary : List (UInt32 × UInt32) :=
  (c.slots.map Slot.e).foldl summaryAdd []

def collabSync : List Out :=
  let s := summary c
  [.send 0 (2 :: UInt8.ofNat s.length :: s.flatMap fun m => le32 m.1 ++ le32 m.2)]

def summaryPairs : ℕ → List UInt8 → List (UInt32 × UInt32)
  | 0, _ => []
  | k + 1, b => (readLe32 b, readLe32 (b.drop 4)) :: summaryPairs k (b.drop 8)

def newer (pairs : List (UInt32 × UInt32)) (e : Entry) : Bool :=
  !pairs.any fun m => m.1 = e.origin && e.seq ≤ m.2

def answerSync (b : List UInt8) : List Out :=
  match b with
  | [] => []
  | k :: b =>
    if b.length < k.toNat * 8 then []
    else
      let sent := c.slots.filter fun sl => newer (summaryPairs k.toNat b) sl.e
      sent.map (fun sl => Out.send src (entryMessage c sl)) ++
        [.line (lineOf
          [ascii ['c', 'o', 'l', 'l', 'a', 'b', ' ', 's', 'y', 'n', 'c', ' ', 't', 'o', ' '],
            h.name src, ascii [' ', 's', 'e', 'n', 't', ' '],
            decimal (UInt32.ofNat sent.length)])]

/-- The signed part of a type 3 message: the hash it is checked with (the one it carries only
for a redacted text), the signature and the public key. -/
structure Signed where
  th : Block 32
  sig : Block 40
  pk : Block 128

def signedPart (b : List UInt8) : Signed where
  th := if isRedacted e then Block.read 32 (b.drop 72) else textHash P e.text
  sig := Block.read 40 (b.drop 104)
  pk := Block.read 128 (b.drop 144)

def checkSigned (s : Signed) : Option Refusal :=
  let verified := if P.csigVerify s.pk (signInput e s.th) s.sig then none else some .badSignature
  match collabKeyOf c e.origin with
  | some known => if known ≠ s.pk then some .keyMismatch else verified
  | none => if !P.csigPkValid s.pk then some .badKey else verified

def acceptEntry (signed : Option Signed) : Ledger × List Out :=
  match store c e with
  | (.stored, c) =>
    let c := match signed with
      | some s => setLast (fun sl => { sl with sig := s.sig, th := s.th, hasSig := true }) c
      | none => c
    (c, [.line (gotLine h e src)])
  | (_, c) => (c, [])

def receiveEntry (type : UInt8) (b : List UInt8) : Ledger × List Out :=
  match collabDecode b with
  | none => (c, [])
  | some e =>
    if (find c e.origin e.seq).isSome then ({ c with duplicates := c.duplicates + 1 }, [])
    else if type = 1 then
      if c.signing then reject h c .unsigned e src else acceptEntry h c e src none
    else if b.length < 272 then (c, [])
    else
      let s := signedPart P e b
      match checkSigned P c e s with
      | some why => reject h c why e src
      -- `bind_key` keeps a known key, and does nothing when the table is full
      | none => acceptEntry h (bindKey c e.origin s.pk).2 e src (some s)

def collabReceive (d : List UInt8) : Ledger × List Out :=
  match d with
  | [] => (c, [])
  | type :: b =>
    if type = 1 ∨ type = 3 then receiveEntry P h c src type b
    else if type = 2 then (c, answerSync h c src b)
    else (c, [])

end Mohhdy.Collab
