import Mohhdy.Collab.Entry

/-! The two small languages an entry text can be written in: task specifications
(`collab_task_eval`) and contract programs (`collab_mcl_compile`, `collab_mcl_eval`).

A position in the source text is the suffix that starts there; the character after the end is
the terminating NUL, which no test below accepts. -/
namespace Mohhdy.Collab
set_option autoImplicit false

/-! ## Task specifications -/

def isDigit (c : UInt8) : Bool := 48 ≤ c && c ≤ 57

def parseDigits (r : UInt32) (any : Bool) : List UInt8 → Option UInt32
  | [] => if any then some r else none
  | c :: s =>
    if isDigit c then
      let r' := r * 10 + (c - 48).toUInt32
      if r' > 100000000 then none else parseDigits r' true s
    else none

def parseU (s : List UInt8) : Option UInt32 := parseDigits 0 false s

def trialPrime (i : ℕ) : Bool :=
  !((List.range' 2 i).takeWhile fun j => j * j ≤ i).any fun j => i % j == 0

/-- `collab_task_eval`: `sum N`, `primes N` and `fnv TEXT`. -/
def collabTaskEval (spec : List UInt8) : Option UInt32 :=
  if (ascii ['s', 'u', 'm', ' ']).isPrefixOf spec then
    match parseU (spec.drop 4) with
    | some n => if n > 60000 then none else some (n * (n + 1) / 2)
    | none => none
  else if (ascii ['p', 'r', 'i', 'm', 'e', 's', ' ']).isPrefixOf spec then
    match parseU (spec.drop 7) with
    | some n =>
      if n > 20000 then none
      else some (UInt32.ofNat (((List.range' 2 (n.toNat - 1)).filter trialPrime).length))
    | none => none
  else if (ascii ['f', 'n', 'v', ' ']).isPrefixOf spec ∧ spec.drop 4 ≠ [] then
    some ((spec.drop 4).foldl (fun h c => (h ^^^ c.toUInt32) * 16777619) 2166136261)
  else none

/-! ## Contract programs -/

abbrev Pct := {p : UInt32 // 1 ≤ p ∧ p ≤ 99}

inductive MclAction where
  | pay
  | refund
  | split (pct : Pct)
deriving DecidableEq

inductive MclCond where
  | payee
  | arb
  | sigs (k : UInt32)
  | after (l : UInt32)
deriving DecidableEq

/-- `collab_mcl_clause_t`. -/
structure MclClause where
  action : MclAction
  cond : List MclCond
deriving DecidableEq

/-- `collab_mcl_facts_t`: the distinct sign-offs, the roles and the elapsed ledger time. -/
structure MclFacts where
  signers : List UInt32
  (payee arbiter elapsed : UInt32)
deriving DecidableEq

def mclWs (p : List UInt8) : List UInt8 := p.dropWhile (· == 32)

def isLower (c : UInt8) : Bool := 97 ≤ c && c ≤ 122

/-- `mcl_kw`: the position after the keyword, which no lower case letter may follow. -/
def mclKw (p : List UInt8) (kw : List Char) : Option (List UInt8) :=
  let q := mclWs p
  if (ascii kw).isPrefixOf q then
    let r := q.drop kw.length
    if (r.head?.map isLower).getD false then none else some r
  else none

def mclDigits (r : UInt32) (any : Bool) : List UInt8 → Option (UInt32 × List UInt8)
  | [] => if any then some (r, []) else none
  | c :: s =>
    if isDigit c then
      let r' := r * 10 + (c - 48).toUInt32
      if r' > 1000000 then none else mclDigits r' true s
    else if any then some (r, c :: s) else none

def mclNum (p : List UInt8) : Option (UInt32 × List UInt8) := mclDigits 0 false (mclWs p)

def offset (src p : List UInt8) : ℕ := src.length - p.length

/-- The action of a clause. An error is the 1-based offset of the offending character. -/
def compileAction (src p : List UInt8) : Except ℕ (MclAction × List UInt8) :=
  match mclKw p ['p', 'a', 'y'] with
  | some p => .ok (.pay, p)
  | none =>
    match mclKw p ['r', 'e', 'f', 'u', 'n', 'd'] with
    | some p => .ok (.refund, p)
    | none =>
      match mclKw p ['s', 'p', 'l', 'i', 't'] with
      | some p =>
        match mclNum p with
        | some (pct, p) =>
          if h : 1 ≤ pct ∧ pct ≤ 99 then .ok (.split ⟨pct, h⟩, p) else .error (offset src p + 1)
        | none => .error (offset src p + 1)
      | none => .error (offset src (mclWs p) + 1)

def compileCond (src p : List UInt8) : Except ℕ (MclCond × List UInt8) :=
  match mclKw p ['s', 'i', 'g', 's'] with
  | some p =>
    match mclNum p with
    | some (k, p) => if k = 0 ∨ k > 8 then .error (offset src p) else .ok (.sigs k, p)
    | none => .error (offset src (mclWs p) + 1)
  | none =>
    match mclKw p ['p', 'a', 'y', 'e', 'e'] with
    | some p => .ok (.payee, p)
    | none =>
      match mclKw p ['a', 'r', 'b'] with
      | some p => .ok (.arb, p)
      | none =>
        match mclKw p ['a', 'f', 't', 'e', 'r'] with
        | some p =>
          match mclNum p with
          | some (l, p) => .ok (.after l, p)
          | none => .error (offset src (mclWs p) + 1)
        | none => .error (offset src (mclWs p) + 1)

def condAhead (p : List UInt8) : Bool :=
  (mclKw p ['s', 'i', 'g', 's']).isSome || (mclKw p ['p', 'a', 'y', 'e', 'e']).isSome ||
    (mclKw p ['a', 'r', 'b']).isSome || (mclKw p ['a', 'f', 't', 'e', 'r']).isSome

/-- The conditions of a clause; the first argument is the number of free places of
`COLLAB_MCL_CONDS`. -/
def compileConds : ℕ → (src p : List UInt8) → List MclCond → Except ℕ (List MclCond × List UInt8)
  | 0, src, p, _ => .error (offset src p + 1)
  | room + 1, src, p, acc =>
    match compileCond src p with
    | .error o => .error o
    | .ok (cd, p) =>
      let p := mclWs p
      if p.head? = some 38 then compileConds room src p.tail (acc ++ [cd])
      else if condAhead p then compileConds room src p (acc ++ [cd])
      else .ok (acc ++ [cd], p)

/-- The clauses of a program; the first argument is the number of free places of
`COLLAB_MCL_CLAUSES`. -/
def compileClauses : ℕ → (src p : List UInt8) → List MclClause → Except ℕ (List MclClause)
  | 0, src, p, _ => .error (offset src p + 1)
  | room + 1, src, p, acc =>
    match compileAction src p with
    | .error o => .error o
    | .ok (action, p) =>
      match mclKw p ['i', 'f'] with
      | none => .error (offset src (mclWs p) + 1)
      | some p =>
        match compileConds 3 src p [] with
        | .error o => .error o
        | .ok (cond, p) =>
          let acc := acc ++ [⟨action, cond⟩]
          let p := mclWs p
          if p.head? = some 59 then compileClauses room src p.tail acc
          else match mclKw p ['e', 'l', 's', 'e'] with
            | some p => compileClauses room src p acc
            | none => if p ≠ [] then .error (offset src p + 1) else .ok acc

/-- `collab_mcl_compile`. An error `o` is the return value `-o`. -/
def collabMclCompile (src : List UInt8) : Except ℕ (List MclClause) := compileClauses 3 src src []

def MclCond.holds (f : MclFacts) : MclCond → Bool
  | .payee => f.payee != 0 && f.signers.contains f.payee
  | .arb => f.arbiter != 0 && f.signers.contains f.arbiter
  | .sigs k => UInt32.ofNat f.signers.length ≥ k
  | .after l => f.elapsed ≥ l

/-- `collab_mcl_eval`: the first clause with a condition whose conditions all hold. -/
def collabMclEval (prog : List MclClause) (f : MclFacts) : Option ℕ :=
  prog.findIdx? fun cl => !cl.cond.isEmpty && cl.cond.all (·.holds f)

end Mohhdy.Collab
