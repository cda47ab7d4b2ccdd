import Mohhdy.PromptMessage.Vm

/-! The PromptMessage compiler.

`src/userspace/promptmessage.c`, from `tokenize` to `pm_compile`: one pass over the lines that
emits bytecode, patches jumps when their target is known and deletes constants it has folded. The
tokens `t[i..n)` of the source are a list here, and `eol` is the column `col_of` gives behind the
last of them. -/
namespace Mohhdy.PromptMessage
set_option autoImplicit false

def pmSrcMax : ℕ := 4096
def pmCodeMax : ℕ := 4096
def pmPoolMax : ℕ := 2048
def pmVars : ℕ := 16
def pmNameMax : ℕ := 16
def pmTriggers : ℕ := 8
def pmBlocks : ℕ := 8
def pmIncludes : ℕ := 4
def pmToks : ℕ := 48

inductive TokKind
  | word | str | num | op
  deriving DecidableEq, Repr

/-- `pos` is the offset of the text in its line. -/
structure Tok where
  kind : TokKind
  pos : ℕ
  text : Bytes
  num : Int32
  deriving DecidableEq, Repr

inductive BlockKind
  | bIf | bElse | bRepeat | bWhen
  deriving DecidableEq, Repr

structure Block where
  kind : BlockKind
  (jzPatch endPatch : Option ℕ)
  (head slot : ℕ)
  deriving DecidableEq, Repr

/-- `pm_cc_t` with the program it fills; the innermost block first. -/
structure Cc (σ : Type) where
  prog : Program
  includes : ℕ
  host : σ
  blocks : List Block
  (line depth : ℕ)
  (lastPush prevPush : Option ℕ)

inductive Complaint
  | sourceTooLarge | codeTooLarge | tooManyTokens | unterminatedString | numberTooLarge
  | expectedEqOrNe | unexpectedCharacter | valueExpected | stringPoolFull | unknownVariable
  | expectedExists | blocksTooDeep | statementExpected | variableNameExpected
  | badOrTooManyVariables | expectedTo | expectedFile | expectedContent | expectedToFile
  | unexpectedWords | useFileExpected | useInsideLibrary | useNotTopLevel | noLibraryLoader
  | tooManyLibraries | pathTooLong | libraryNotFound | libraryLeavesBlockOpen | expectedThen
  | inlineOpensBlock | tooManyVariables | expectedTimes | whenNotTopLevel | phraseExpected
  | tooManyTriggers | unknownStatement | endWithoutBlock | elseWithoutIf | missingEnd
  deriving DecidableEq, Repr

inductive CcStatus
  | badSource | limit
  deriving DecidableEq, Repr

structure CcError where
  status : CcStatus
  (line col : ℕ)
  msg : Complaint
  deriving DecidableEq, Repr

section
variable {σ : Type}

def ccFail {α : Type} (c : Cc σ) (col : ℕ) (msg : Complaint) : Except CcError α :=
  .error ⟨.badSource, c.line, col, msg⟩

def ccLimit {α : Type} (c : Cc σ) (msg : Complaint) : Except CcError α :=
  .error ⟨.limit, c.line, 1, msg⟩

/-! ## Emitting -/

variable (h : Host σ) (c : Cc σ) (eol : ℕ) (ts : List Tok)

def Cc.setCode (code : Bytes) : Cc σ := { c with prog := { c.prog with code := code } }

def Cc.setPool (pool : Bytes) : Cc σ := { c with prog := { c.prog with pool := pool } }

def Cc.setVars (vars : List Bytes) : Cc σ := { c with prog := { c.prog with vars := vars } }

def Cc.setTriggers (ts : List Trigger) : Cc σ :=
  { c with prog := { c.prog with triggers := ts } }

def Cc.setPushes (last prev : Option ℕ) : Cc σ :=
  { c with lastPush := last, prevPush := prev }

def Cc.setBlocks (bs : List Block) : Cc σ := { c with blocks := bs }

def Cc.setLine (n : ℕ) : Cc σ := { c with line := n }

def Cc.setDepth (n : ℕ) : Cc σ := { c with depth := n }

def emit8 (v : UInt8) (c : Cc σ) : Except CcError (Cc σ) :=
  if c.prog.code.length ≥ pmCodeMax then ccLimit c .codeTooLarge
  else .ok (c.setCode (c.prog.code ++ [v]))

def emit16 (v : ℕ) (c : Cc σ) : Except CcError (Cc σ) := do
  let c ← emit8 (UInt8.ofNat v) c
  emit8 (UInt8.ofNat (v / 256)) c

def emit32 (v : Int32) (c : Cc σ) : Except CcError (Cc σ) := do
  let c ← emit16 (v.toUInt32.toNat % 65536) c
  emit16 (v.toUInt32.toNat / 65536) c

def patch16 (at_ v : ℕ) (c : Cc σ) : Cc σ :=
  c.setCode ((c.prog.code.set at_ (UInt8.ofNat v)).set (at_ + 1) (UInt8.ofNat (v / 256)))

def emitOp (op : Op) (c : Cc σ) : Except CcError (Cc σ) :=
  emit8 op.byte (if op = .pushI then c else c.setPushes none none)

def emitPushi (v : Int32) (c : Cc σ) : Except CcError (Cc σ) := do
  let c' ← emit8 Op.pushI.byte c
  let c' ← emit32 v c'
  .ok (c'.setPushes (some c.prog.code.length) c.lastPush)

/-- The string stands at the front of the pool, with the zero that ends it. The pool's array is
zero behind its last string. -/
def poolMatch (s pool : Bytes) : Bool :=
  (List.range (s.length + 1)).all fun i => pool.getD i 0 = (s ++ [0]).getD i 0

def poolFind (s : Bytes) : Bool → ℕ → Bytes → Option ℕ
  | _, _, [] => none
  | begins, at_, b :: rest =>
    if begins ∧ poolMatch s (b :: rest) then some at_ else poolFind s (b = 0) (at_ + 1) rest

def poolAdd (s : Bytes) (c : Cc σ) : Option (ℕ × Cc σ) :=
  match poolFind s true 0 c.prog.pool with
  | some at_ => some (at_, c)
  | none =>
    if c.prog.pool.length + s.length + 1 > pmPoolMax then none
    else some (c.prog.pool.length, c.setPool (c.prog.pool ++ s ++ [0]))

def varSlot (name : Bytes) (create : Bool) (c : Cc σ) : Option (ℕ × Cc σ) :=
  if name.length = 0 ∨ name.length ≥ pmNameMax then none
  else match c.prog.vars.findIdx? (· = name) with
    | some i => some (i, c)
    | none =>
      if ¬ create ∨ c.prog.vars.length ≥ pmVars then none
      else some (c.prog.vars.length, c.setVars (c.prog.vars ++ [name]))

/-! ## Tokens -/

def tokIs (t : Tok) (w : String) : Bool := t.kind = .word ∧ t.text.map lower = ascii w

def isDigit (ch : UInt8) : Bool := 48 ≤ ch ∧ ch ≤ 57

def isWordChar (ch : UInt8) : Bool :=
  97 ≤ ch ∧ ch ≤ 122 ∨ 65 ≤ ch ∧ ch ≤ 90 ∨ isDigit ch ∨ ch ∈ ascii "_.$/-" ∨ 128 ≤ ch

def readNum (c : Cc σ) : ℕ → ℕ → Bytes → Except CcError (ℕ × ℕ × Bytes)
  | v, i, [] => .ok (v, i, [])
  | v, i, ch :: s =>
    if isDigit ch then
      if v * 10 + (ch.toNat - 48) > 100000000 then ccFail c (i + 1) .numberTooLarge
      else readNum c (v * 10 + (ch.toNat - 48)) (i + 1) s
    else .ok (v, i, ch :: s)

def readTok (i : ℕ) (ch : UInt8) (s : Bytes) : Except CcError (Tok × ℕ × Bytes) :=
  if ch = 34 then
    let text := s.takeWhile (· ≠ 34)
    match s.drop text.length with
    | [] => ccFail c (i + 1) .unterminatedString
    | _ :: rest => .ok (⟨.str, i + 1, text, 0⟩, i + text.length + 2, rest)
  else if isDigit ch then do
    let (v, j, rest) ← readNum c 0 i (ch :: s)
    -- a percent sign belongs to the number
    let j' := if rest.head? = some 37 then j + 1 else j
    .ok (⟨.num, i, (ch :: s).take (j' - i), Int32.ofNat v⟩, j', (ch :: s).drop (j' - i))
  else if ch ∈ ascii "=!<>+" then
    if s.head? = some 61 ∧ ch ≠ 43 then .ok (⟨.op, i, [ch, 61], 0⟩, i + 2, s.drop 1)
    else if ch = 61 ∨ ch = 33 then ccFail c (i + 1) .expectedEqOrNe
    else .ok (⟨.op, i, [ch], 0⟩, i + 1, s)
  else if isWordChar ch then
    let text := (ch :: s).takeWhile isWordChar
    .ok (⟨.word, i, text, 0⟩, i + text.length, (ch :: s).drop text.length)
  else ccFail c (i + 1) .unexpectedCharacter

def tokenize (c : Cc σ) : ℕ → ℕ → ℕ → Bytes → Except CcError (List Tok)
  | 0, _, _, _ => .ok []
  | _, _, _, [] => .ok []
  | n + 1, k, i, ch :: s =>
    if ch = 32 ∨ ch = 9 ∨ ch = 13 then tokenize c n k (i + 1) s
    else if k ≥ pmToks then ccLimit c .tooManyTokens
    else do
      let (t, j, rest) ← readTok c i ch s
      let ts ← tokenize c n (k + 1) j rest
      .ok (t :: ts)

def colOf : List Tok → ℕ
  | [] => eol
  | t :: _ => t.pos + 1

def eolOf : ℕ :=
  match ts.getLast? with
  | none => 1
  | some t => t.pos + t.text.length + 1

def takeWord (w : String) (msg : Complaint) (ts : List Tok) (c : Cc σ) :
    Except CcError (List Tok) :=
  match ts with
  | t :: rest => if tokIs t w then .ok rest else ccFail c (colOf eol ts) msg
  | [] => ccFail c (colOf eol ts) msg

/-! ## Expressions -/

/-- `term := STRING | NUMBER | $var | system.memory` -/
def ccTerm (t : Tok) (c : Cc σ) : Except CcError (Cc σ) :=
  match t.kind with
  | .str =>
    match poolAdd t.text c with
    | none => ccLimit c .stringPoolFull
    | some (at_, c) => do
      let c ← emitOp .pushS c
      emit16 at_ c
  | .num => emitPushi t.num c
  | .word =>
    if t.text.head? = some 36 then
      match varSlot (t.text.drop 1) false c with
      | none => ccFail c (t.pos + 1) .unknownVariable
      | some (slot, c) => do
        let c ← emitOp .load c
        emit8 (UInt8.ofNat slot) c
    else if tokIs t "system.memory" then emitOp .sysMem c
    else ccFail c (t.pos + 1) .valueExpected
  | .op => ccFail c (t.pos + 1) .valueExpected

def foldPair : Option (Int32 × Int32 × Cc σ) :=
  match c.lastPush, c.prevPush with
  | some last, some prev =>
    if last + 5 = c.prog.code.length ∧ prev + 10 = c.prog.code.length then
      some (rd32 c.prog.code (prev + 1), rd32 c.prog.code (last + 1),
        (c.setCode (c.prog.code.take prev)).setPushes none none)
    else none
  | _, _ => none

def isPlus (t : Tok) : Bool := t.kind = .op ∧ t.text.head? = some 43

def ccAdd : Except CcError (Cc σ) :=
  match foldPair c with
  | some (a, b, c) => emitPushi (a + b) c
  | none => emitOp .add c

def ccExprRest (eol : ℕ) : List Tok → Cc σ → Except CcError (List Tok × Cc σ)
  | [], c => .ok ([], c)
  | [t], c => if isPlus t then ccFail c eol .valueExpected else .ok ([t], c)
  | t :: u :: ts, c =>
    if isPlus t then do
      let c ← ccTerm u c
      let c ← ccAdd c
      ccExprRest eol ts c
    else .ok (t :: u :: ts, c)

def ccExpr (c : Cc σ) : Except CcError (List Tok × Cc σ) :=
  match ts with
  | [] => ccFail c eol .valueExpected
  | t :: ts => do
    let c ← ccTerm t c
    ccExprRest eol ts c

def cmpCode (t : Tok) : Option ℕ :=
  if t.kind = .op ∧ t.text = ascii "==" then some 0
  else if t.kind = .op ∧ t.text = ascii "!=" then some 1
  else if t.kind = .op ∧ t.text.head? = some 60 then some (if t.text.length = 2 then 4 else 2)
  else if t.kind = .op ∧ t.text.head? = some 62 then some (if t.text.length = 2 then 5 else 3)
  else if tokIs t "contains" then some 6
  else if tokIs t "is" then some 0
  else none

def ccCmp (op : ℕ) (c : Cc σ) : Except CcError (Cc σ) :=
  match if op = 6 then none else foldPair c with
  | some (a, b, c) => emitPushi (if foldCmp op a b then 1 else 0) c
  | none => do
    let c ← emitOp .cmp c
    emit8 (UInt8.ofNat op) c

def ccCompare (c : Cc σ) : Except CcError (List Tok × Cc σ) := do
  let (r, c) ← ccExpr eol ts c
  match r with
  | [] => .ok ([], c)
  | t :: r' =>
    match cmpCode t with
    | none => .ok (r, c)
    | some op => do
      let (r, c) ← ccExpr eol r' c
      let c ← ccCmp op c
      .ok (r, c)

def ccSimple (eol : ℕ) : List Tok → Cc σ → Except CcError (List Tok × Cc σ)
  | [], c => ccCompare eol [] c
  | t :: ts, c =>
    if tokIs t "not" then do
      let (r, c) ← ccSimple eol ts c
      let c ← emitOp .not c
      .ok (r, c)
    else if tokIs t "file" then do
      let (r, c) ← ccExpr eol ts c
      let r ← takeWord eol "exists" .expectedExists r c
      let c ← emitOp .fExists c
      .ok (r, c)
    else ccCompare eol (t :: ts) c

def ccCondRest (eol : ℕ) : ℕ → List Tok → Cc σ → Except CcError (List Tok × Cc σ)
  | 0, ts, c => .ok (ts, c)
  | _, [], c => .ok ([], c)
  | n + 1, t :: ts, c =>
    if tokIs t "and" ∨ tokIs t "or" then do
      let (r, c) ← ccSimple eol ts c
      let c ← emitOp (if tokIs t "and" then .and else .or) c
      ccCondRest eol n r c
    else .ok (t :: ts, c)

def ccCond (c : Cc σ) : Except CcError (List Tok × Cc σ) := do
  let (r, c) ← ccSimple eol ts c
  ccCondRest eol r.length r c

/-! ## Jumps and blocks -/

def foldJz : Option (Int32 × Cc σ) :=
  match c.lastPush with
  | some last =>
    if last + 5 = c.prog.code.length then
      some (rd32 c.prog.code (last + 1), (c.setCode (c.prog.code.take last)).setPushes none none)
    else none
  | none => none

def emitJump (op : Op) (c : Cc σ) : Except CcError (ℕ × Cc σ) := do
  let c ← emitOp op c
  let c' ← emit16 0 c
  .ok (c.prog.code.length, c')

/-- A constant true condition emits nothing, a constant false one an unconditional jump. -/
def emitJz : Except CcError (Option ℕ × Cc σ) :=
  match foldJz c with
  | some (v, c) =>
    if v ≠ 0 then .ok (none, c)
    else (emitJump .jmp c).map fun r => (some r.1, r.2)
  | none => (emitJump .jz c).map fun r => (some r.1, r.2)

def patchHere (at_ : Option ℕ) (c : Cc σ) : Cc σ :=
  at_.elim c fun a => patch16 a c.prog.code.length c

def ccBlockPush (kind : BlockKind) (jz : Option ℕ) (head slot : ℕ) (c : Cc σ) :
    Except CcError (Cc σ) :=
  if c.blocks.length ≥ pmBlocks then ccLimit c .blocksTooDeep
  else .ok (c.setBlocks (⟨kind, jz, none, head, slot⟩ :: c.blocks))

def ccBlockClose (b : Block) (c : Cc σ) : Except CcError (Cc σ) :=
  match b.kind with
  | .bRepeat => do
    let c ← emitOp .load c
    let c ← emit8 (UInt8.ofNat b.slot) c
    let c ← emitPushi (-1) c
    let c ← emitOp .add c
    let c ← emitOp .store c
    let c ← emit8 (UInt8.ofNat b.slot) c
    let c ← emitOp .jmp c
    let c ← emit16 b.head c
    .ok (patchHere b.jzPatch c)
  | .bWhen => do
    let c ← emitOp .ret c
    .ok (patchHere b.jzPatch c)
  | .bElse => .ok (patchHere b.endPatch c)
  | .bIf => .ok (patchHere b.jzPatch c)

/-! ## Statements -/

def ccEnd (r : List Tok × Cc σ) : Except CcError (Cc σ) :=
  if r.1 = [] then .ok r.2 else ccFail r.2 (colOf eol r.1) .unexpectedWords

def ccPrint (c : Cc σ) : Except CcError (Cc σ) := do
  let (r, c) ← ccExpr eol ts c
  let c ← emitOp .print c
  ccEnd eol (r, c)

def ccSet (c : Cc σ) : Except CcError (Cc σ) :=
  match ts with
  | [] => ccFail c eol .variableNameExpected
  | t :: ts =>
    if t.kind ≠ .word ∨ t.text.head? = some 36 then ccFail c (t.pos + 1) .variableNameExpected
    else match varSlot t.text true c with
      | none => ccFail c (t.pos + 1) .badOrTooManyVariables
      | some (slot, c) => do
        let r ← takeWord eol "to" .expectedTo ts c
        let (r, c) ← ccExpr eol r c
        let c ← emitOp .store c
        let c ← emit8 (UInt8.ofNat slot) c
        ccEnd eol (r, c)

def ccContent (c : Cc σ) : Except CcError (List Tok × Cc σ) :=
  match ts with
  | t :: r =>
    if tokIs t "with" then do
      let r ← takeWord eol "content" .expectedContent r c
      ccExpr eol r c
    else do
      let c ← empty c
      .ok (t :: r, c)
  | [] => do
    let c ← empty c
    .ok ([], c)
where
  empty (c : Cc σ) : Except CcError (Cc σ) :=
    match poolAdd [] c with
    | none => ccLimit c .stringPoolFull
    | some (at_, c) => do
      let c ← emitOp .pushS c
      emit16 at_ c

def ccCreate (c : Cc σ) : Except CcError (Cc σ) := do
  let r ← takeWord eol "file" .expectedFile ts c
  let (r, c) ← ccExpr eol r c
  let (r, c) ← ccContent eol r c
  let c ← emitOp .write c
  ccEnd eol (r, c)

/-- The machine wants the path before the content, so the words behind `to file` are compiled
first. -/
def ccAppend (t : Tok) (ts : List Tok) (c : Cc σ) : Except CcError (Cc σ) :=
  let content := ts.takeWhile (¬ tokIs · "to")
  let rest := ts.drop content.length
  match rest with
  | _ :: f :: path =>
    if tokIs f "file" then do
      let c ← ccExpr eol path c >>= ccEnd eol
      let (r, c) ← ccExpr (eolOf (t :: content)) content c
      let c ← ccEnd eol (r, c)
      emitOp .append c
    else ccFail c (colOf eol rest) .expectedToFile
  | _ => ccFail c (colOf eol rest) .expectedToFile

def ccShow (c : Cc σ) : Except CcError (Cc σ) := do
  let r ← takeWord eol "file" .expectedFile ts c
  let (r, c) ← ccExpr eol r c
  let c ← emitOp .show c
  ccEnd eol (r, c)

def ccExpect (c : Cc σ) : Except CcError (Cc σ) := do
  let (r, c) ← ccCond eol ts c
  let c ← emitOp .expect c
  let c ← emit16 c.line c
  ccEnd eol (r, c)

def ccStop (c : Cc σ) : Except CcError (Cc σ) := do
  let c ← emitOp .halt c
  ccEnd eol (ts, c)

/-- A library's text is given to `lib`, which compiles it in place. -/
def ccUse (lib : Bytes → Cc σ → Except CcError (Cc σ)) (eol : ℕ) (ts : List Tok)
    (c : Cc σ) : Except CcError (Cc σ) :=
  match ts with
  | [t] =>
    if t.kind ≠ .str then ccFail c (t.pos + 1) .useFileExpected
    else if c.depth > 0 then ccFail c 1 .useInsideLibrary
    else if c.blocks ≠ [] then ccFail c 1 .useNotTopLevel
    else match h.readFile with
      | none => ccFail c (t.pos + 1) .noLibraryLoader
      | some read =>
        if c.includes ≥ pmIncludes then ccLimit c .tooManyLibraries
        else if t.text.length ≥ pmValMax then ccFail c (t.pos + 1) .pathTooLong
        else match read c.host (t.text.takeWhile (· ≠ 0)) (pmSrcMax - 1) with
          | (none, _) => ccFail c (t.pos + 1) .libraryNotFound
          | (some src, s) => do
            let c' ← lib (src.take (pmSrcMax - 1))
              { c with host := s, includes := c.includes + 1, depth := 1 }
            let c' := (c'.setDepth c.depth).setLine c.line
            if c'.blocks ≠ [] then ccFail c' 1 .libraryLeavesBlockOpen else .ok c'
  | ts => ccFail c (colOf eol ts) .useFileExpected

def ccInline (inner : List Tok → Cc σ → Except CcError (Cc σ)) (ts : List Tok) (c : Cc σ) :
    Except CcError (Cc σ) := do
  let c' ← inner ts c
  if c'.blocks.length ≠ c.blocks.length then ccFail c' (colOf eol ts) .inlineOpensBlock else .ok c'

def ccIf (inner : List Tok → Cc σ → Except CcError (Cc σ)) (ts : List Tok) (c : Cc σ) :
    Except CcError (Cc σ) := do
  let (r, c) ← ccCond eol ts c
  let r ← takeWord eol "then" .expectedThen r c
  let (jz, c) ← emitJz c
  if r = [] then ccBlockPush .bIf jz 0 0 c
  else do
    let c ← ccInline eol inner r c
    .ok (patchHere jz c)

/-- The name of the counter; no word of a source has a `#`. -/
def counterName : Bytes :=
  [35, UInt8.ofNat (97 + c.blocks.length % 8), UInt8.ofNat (97 + c.depth % 8),
    UInt8.ofNat (97 + c.prog.code.length % 16)]

/-- The guard of a loop, `LOAD slot; PUSHI 0; CMP >; JZ`, which is never folded. -/
def loopGuard (slot : ℕ) (c : Cc σ) : Except CcError (ℕ × Cc σ) := do
  let c ← emitOp .load c
  let c ← emit8 (UInt8.ofNat slot) c
  let c ← emitPushi 0 c
  let c ← emitOp .cmp (c.setPushes none none)
  let c ← emit8 3 c
  emitJump .jz c

def ccRepeat (inner : List Tok → Cc σ → Except CcError (Cc σ)) (ts : List Tok)
    (c : Cc σ) : Except CcError (Cc σ) :=
  match varSlot (counterName c) true c with
  | none => ccLimit c .tooManyVariables
  | some (slot, c) => do
    let (r, c) ← ccExpr eol ts c
    let r ← takeWord eol "times" .expectedTimes r c
    let c ← emitOp .store c
    let c ← emit8 (UInt8.ofNat slot) c
    let head := c.prog.code.length
    let (jz, c) ← loopGuard slot c
    let c ← ccBlockPush .bRepeat (some jz) head slot c
    if r = [] then .ok c
    else do
      let c ← ccInline eol inner r c
      match c.blocks with
      | b :: bs => ccBlockClose b (c.setBlocks bs)
      | [] => ccFail c 1 .endWithoutBlock

def skipSays : List Tok → List Tok
  | t :: u :: ts =>
    if tokIs t "user" then
      if tokIs u "says" ∨ tokIs u "dit" ∨ tokIs u "triggers" then ts else u :: ts
    else t :: u :: ts
  | [t] => if tokIs t "user" then [] else [t]
  | [] => []

def ccWhen (inner : List Tok → Cc σ → Except CcError (Cc σ)) (col : ℕ) (ts : List Tok)
    (c : Cc σ) : Except CcError (Cc σ) :=
  if c.blocks ≠ [] then ccFail c col .whenNotTopLevel
  else match skipSays ts with
    | [] => ccFail c eol .phraseExpected
    | t :: ts =>
      if t.kind ≠ .str then ccFail c (t.pos + 1) .phraseExpected
      else if c.prog.triggers.length ≥ pmTriggers then ccLimit c .tooManyTriggers
      else match poolAdd t.text c with
        | none => ccLimit c .stringPoolFull
        | some (at_, c) => do
          let r ← takeWord eol "then" .expectedThen ts c
          let (jmp, c) ← emitJump .jmp c
          let c := c.setTriggers (c.prog.triggers ++ [⟨at_, c.prog.code.length⟩])
          if r = [] then ccBlockPush .bWhen (some jmp) 0 0 c
          else do
            let c ← ccInline eol inner r c
            let c ← emitOp .ret c
            .ok (patchHere (some jmp) c)

/-- One statement. The number bounds how deep inline statements can nest: each takes words of the
line. -/
def ccStmt (h : Host σ) (lib : Bytes → Cc σ → Except CcError (Cc σ)) (eol : ℕ) :
    ℕ → List Tok → Cc σ → Except CcError (Cc σ)
  | 0, ts, c => ccFail c (colOf eol ts) .statementExpected
  | _, [], c => ccFail c eol .statementExpected
  | n + 1, t :: ts, c =>
    if tokIs t "print" ∨ tokIs t "say" then ccPrint eol ts c
    else if tokIs t "set" then ccSet eol ts c
    else if tokIs t "create" then ccCreate eol ts c
    else if tokIs t "append" then ccAppend eol t ts c
    else if tokIs t "show" then ccShow eol ts c
    else if tokIs t "expect" then ccExpect eol ts c
    else if tokIs t "stop" then ccStop eol ts c
    else if tokIs t "use" then ccUse h lib eol ts c
    else if tokIs t "if" then ccIf eol (ccStmt h lib eol n) ts c
    else if tokIs t "repeat" then ccRepeat eol (ccStmt h lib eol n) ts c
    else if tokIs t "when" then ccWhen eol (ccStmt h lib eol n) (t.pos + 1) ts c
    else ccFail c (t.pos + 1) .unknownStatement

/-! ## Lines and texts -/

def isBlankLine (ls : Bytes) : Bool :=
  match ls.dropWhile fun ch => ch = 32 ∨ ch = 9 with
  | [] => true
  | 13 :: _ => true
  | 35 :: _ => true
  | 47 :: 47 :: _ => true
  | _ => false

def ccElse : Except CcError (Cc σ) :=
  match c.blocks with
  | b :: bs =>
    if b.kind = .bIf then do
      let (end_, c) ← emitJump .jmp c
      .ok ((patchHere b.jzPatch c).setBlocks ({ b with kind := .bElse, endPatch := some end_ } :: bs))
    else ccFail c 1 .elseWithoutIf
  | [] => ccFail c 1 .elseWithoutIf

def ccEndBlock : Except CcError (Cc σ) :=
  match c.blocks with
  | b :: bs => ccBlockClose b (c.setBlocks bs)
  | [] => ccFail c 1 .endWithoutBlock

def ccTokens (lib : Bytes → Cc σ → Except CcError (Cc σ)) (ts : List Tok) (c : Cc σ) :
    Except CcError (Cc σ) :=
  if ts = [] then .ok c
  else if ts.length = 1 ∧ ts.any (tokIs · "end") then ccEndBlock c
  else if ts.length = 1 ∧ ts.any (tokIs · "else") then ccElse c
  else do
    let c ← emitOp .line c
    let c ← emit16 c.line c
    ccStmt h lib (eolOf ts) ts.length ts c

def ccLine (lib : Bytes → Cc σ → Except CcError (Cc σ)) (ls : Bytes) (c : Cc σ) :
    Except CcError (Cc σ) :=
  if isBlankLine ls then .ok c
  else do
    let ts ← tokenize c ls.length 0 0 ls
    ccTokens h lib ts c

def textLines : Bytes → Bytes → List Bytes
  | acc, [] => if acc = [] then [] else [acc]
  | acc, ch :: s => if ch = 10 then acc :: textLines [] s else textLines (acc ++ [ch]) s

/-- Inside a library every line has the number of the line that uses it. -/
def ccLines (h : Host σ) (lib : Bytes → Cc σ → Except CcError (Cc σ)) (base : ℕ) :
    ℕ → List Bytes → Cc σ → Except CcError (Cc σ)
  | _, [], c => .ok c
  | line, ls :: rest, c => do
    let c ← ccLine h lib ls (c.setLine (if c.depth = 0 then line else base))
    ccLines h lib base (line + 1) rest c

def ccCompileText (lib : Bytes → Cc σ → Except CcError (Cc σ)) (src : Bytes)
    (c : Cc σ) : Except CcError (Cc σ) :=
  ccLines h lib c.line 1 (textLines [] src) c

/-- A library cannot use another one: `ccUse` refuses before it reads. -/
def ccLibrary : Bytes → Cc σ → Except CcError (Cc σ) :=
  ccCompileText h fun _ c => ccFail c 1 .useInsideLibrary

def emptyCc (host : σ) : Cc σ := ⟨⟨[], [], [], []⟩, 0, host, [], 0, 0, none, none⟩

def pmCompile (host : σ) (src : Bytes) : Except CcError Program :=
  if src.length > pmSrcMax then .error ⟨.limit, 1, 0, .sourceTooLarge⟩
  else do
    let c ← ccCompileText h (ccLibrary h) src (emptyCc host)
    if c.blocks ≠ [] then ccFail (c.setLine (src.count 10 + 1)) 1 .missingEnd
    else do
      let c ← emitOp .halt c
      .ok c.prog

end

end Mohhdy.PromptMessage
