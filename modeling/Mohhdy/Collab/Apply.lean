import Mohhdy.Foundations.Tables
import Mohhdy.Collab.Contract

/-! The effect of one entry on the folded state (`apply`) and the contract programs run after
it (`contracts_tick`).

The file-scope tables `g_off`, `g_task`, ... are reset by every fold, so they are fields of the
state here. The counters kept for the reports only (`g_tickets`, `g_answered`, `fired`) are left
out. Pointers into a table are modelled by the key they were found with: `acct` finds the first
account of an id, so two account pointers are equal exactly when their ids are. -/
namespace Mohhdy.Collab
open Tables
set_option autoImplicit false

/-- The status of a folded entry: the reject reasons `k_reasons`, 0 when it was applied. -/
inductive Reason where
  | ok | notJoined | insufficientPoints | unknownRef | capacityFull | badState | notAllowed
  | wrongResult | duplicate | noRatingRight | badAmount | tableFull | bidTooLow | badContract
deriving DecidableEq, Repr

def Reason.code : Reason → UInt8
  | ok => 0 | notJoined => 1 | insufficientPoints => 2 | unknownRef => 3 | capacityFull => 4
  | badState => 5 | notAllowed => 6 | wrongResult => 7 | duplicate => 8 | noRatingRight => 9
  | badAmount => 10 | tableFull => 11 | bidTooLow => 12 | badContract => 13

/-- `collab_account_t`. -/
structure Account where
  id : UInt32
  balance : ℤ
  (ratingSum ratings : UInt32)
  joined : Bool
  shared : List UInt8
deriving DecidableEq

structure Offer where
  (owner seq price cap used : UInt32)
deriving DecidableEq

inductive TaskState where
  | opened | claimed | done | paid | refused | wrong
deriving DecidableEq

structure Task where
  (req seq reward worker result : UInt32)
  state : TaskState
deriving DecidableEq

/-- `prop_t`. -/
structure Proposal where
  (origin seq yes no : UInt32)
  voters : List UInt32
deriving DecidableEq

structure Rating where
  (rater target stars : UInt32)
deriving DecidableEq

structure Ticket where
  (origin seq : UInt32)
  answered : Bool
deriving DecidableEq

inductive EscrowState where
  | opened | released | refunded | disputed | split
deriving DecidableEq

/-- `escrow_t`; `prog` is `none` for a plain escrow. -/
structure Escrow where
  (payer seq payee arbiter amount : UInt32)
  state : EscrowState
  (forPayer forPayee : UInt32)
  voters : List UInt32
  (lamport0 paidPayee : UInt32)
  prog : Option (List MclClause)
  facts : MclFacts
deriving DecidableEq

inductive AuctionState where
  | opened | sold | unsold
deriving DecidableEq

structure Auction where
  (seller seq reserve best bidder : UInt32)
  state : AuctionState
  bids : UInt32
deriving DecidableEq

/-- `collab_state_t` without the digest, together with the tables of the fold. -/
structure State where
  acc : List Account
  (applied rejected : UInt32)
  offers : List Offer
  tasks : List Task
  props : List Proposal
  rights : List (UInt32 × UInt32)
  rates : List Rating
  ticks : List Ticket
  escrows : List Escrow
  auctions : List Auction
deriving DecidableEq

def State.init : State where
  acc := []
  applied := 0
  rejected := 0
  offers := []
  tasks := []
  props := []
  rights := []
  rates := []
  ticks := []
  escrows := []
  auctions := []

/-! ## Table access -/

variable (s : State) (o : Account) (e : Entry)

def acct (id : UInt32) : Option Account := lookup Account.id id s.acc

def setAcct (id : UInt32) (f : Account → Account) : State :=
  { s with acc := update Account.id id f s.acc }

/-- `(int32_t)v`. -/
def i32 (v : UInt32) : ℤ := v.toInt32.toInt

def creditAcc (id : UInt32) (v : ℤ) (acc : List Account) : List Account :=
  update Account.id id (fun a => { a with balance := a.balance + v }) acc

def credit (id : UInt32) (v : ℤ) : State := { s with acc := creditAcc id v s.acc }

def Offer.key (x : Offer) : UInt32 × UInt32 := (x.owner, x.seq)
def Task.key (x : Task) : UInt32 × UInt32 := (x.req, x.seq)
def Proposal.key (x : Proposal) : UInt32 × UInt32 := (x.origin, x.seq)
def Rating.key (x : Rating) : UInt32 × UInt32 := (x.rater, x.target)
def Ticket.key (x : Ticket) : UInt32 × UInt32 := (x.origin, x.seq)
def Escrow.key (x : Escrow) : UInt32 × UInt32 := (x.payer, x.seq)
def Auction.key (x : Auction) : UInt32 × UInt32 := (x.seller, x.seq)

def taskOf (req seq : UInt32) : Option Task := lookup Task.key (req, seq) s.tasks
def escrowOf (payer seq : UInt32) : Option Escrow :=
  lookup Escrow.key (payer, seq) s.escrows
def auctionOf (seller seq : UInt32) : Option Auction :=
  lookup Auction.key (seller, seq) s.auctions

def setTask (req seq : UInt32) (f : Task → Task) : State :=
  { s with tasks := update Task.key (req, seq) f s.tasks }
def setEscrow (payer seq : UInt32) (f : Escrow → Escrow) : State :=
  { s with escrows := update Escrow.key (payer, seq) f s.escrows }
def setAuction (seller seq : UInt32) (f : Auction → Auction) : State :=
  { s with auctions := update Auction.key (seller, seq) f s.auctions }

def hasRight (a b : UInt32) : Bool :=
  s.rights.any fun r => (r.1 == a && r.2 == b) || (r.1 == b && r.2 == a)

def addRight (a b : UInt32) : State :=
  if !hasRight s a b ∧ s.rights.length < 32 then { s with rights := s.rights ++ [(a, b)] } else s

/-! ## Shared profile texts -/

/-- What the stack holds in `seg` behind the segment, in each pass of the loop of one call. -/
abbrev Stale := ℕ → List UInt8

/-- One pass of the copy loop of `profile_put`: the segment `cur` is written into the buffer `seg`,
cut at its `=`, and copied to `out` unless it has the key that is being put.

A segment without `=` (one that an earlier put truncated) gets its `=` where the terminating NUL was,
so the copy runs on into what the buffer held before. -/
def copySegment (key cur stale out : List UInt8) : List UInt8 :=
  let kl := (cur.takeWhile (· != 61)).length
  if cur.take kl = key then out
  else sCat (sCat out ((cur ++ 0 :: stale).set kl 61) 80) [59] 80

/-- The copy loop, character by character: `;` and the end of the text close a segment. The
bound on the segment length is never met, since a shared text has at most 79 bytes. -/
def copySegments (key : List UInt8) (stale : Stale) : ℕ → (shared cur out : List UInt8) → List UInt8
  | i, [], cur, out => if cur = [] then out else copySegment key cur (stale i) out
  | i, c :: shared, cur, out =>
    if c = 59 then copySegments key stale (i + 1) shared [] (copySegment key cur (stale i) out)
    else copySegments key stale i shared (cur ++ [c]) out

/-- `profile_put`. -/
def profilePut (stale : Stale) (shared kv : List UInt8) : List UInt8 :=
  let key := kv.takeWhile (· != 61)
  if key.length = kv.length ∨ key = [] then shared
  else sCat (sCat (copySegments key stale 0 shared [] []) kv 80) [59] 80

/-! ## The entry types -/

def acctCreate (id : UInt32) : State :=
  if (acct s id).isNone ∧ s.acc.length < 8 then
    { s with acc := s.acc ++ [{ id := id, balance := 0, ratingSum := 0, ratings := 0,
                                joined := false, shared := [] }] }
  else s

def applyJoin : Reason × State :=
  let s := acctCreate s e.origin
  match acct s e.origin with
  | none => (.tableFull, s)
  | some o =>
    if o.joined then (.duplicate, s)
    else (.ok, setAcct s e.origin fun a =>
      { a with joined := true, balance := a.balance + 100, shared := [] })

def applyTransfer : Reason × State :=
  match acct s e.peer with
  | none => (.notAllowed, s)
  | some p =>
    if !p.joined ∨ e.peer = e.origin then (.notAllowed, s)
    else if e.amount = 0 ∨ e.amount > 1000000 then (.badAmount, s)
    else if o.balance < i32 e.amount then (.insufficientPoints, s)
    else (.ok, credit (credit s e.origin (-i32 e.amount)) e.peer (i32 e.amount))

def applyOffer : Reason × State :=
  if e.aux = 0 ∨ e.amount > 1000000 ∨ e.text.str = [] then (.badAmount, s)
  else if s.offers.length ≥ 16 then (.tableFull, s)
  else (.ok, { s with offers := s.offers ++
    [{ owner := e.origin, seq := e.seq, price := e.amount, cap := e.aux, used := 0 }] })

def applyReserve : Reason × State :=
  match lookup Offer.key (e.peer, e.ref) s.offers with
  | none => (.unknownRef, s)
  | some x =>
    if e.peer = e.origin then (.notAllowed, s)
    else if x.used ≥ x.cap then (.capacityFull, s)
    else if o.balance < i32 x.price then (.insufficientPoints, s)
    else match acct s e.peer with
      | none => (.unknownRef, s)
      | some _ =>
        let s := credit (credit s e.origin (-i32 x.price)) e.peer (i32 x.price)
        let offers := update Offer.key (e.peer, e.ref) (fun x => { x with used := x.used + 1 })
          s.offers
        (.ok, addRight { s with offers := offers } e.origin e.peer)

def applyTask : Reason × State :=
  if e.amount = 0 ∨ e.amount > 1000000 then (.badAmount, s)
  else match collabTaskEval e.text.str with
    | none => (.badAmount, s)
    | some r =>
      if o.balance < i32 e.amount then (.insufficientPoints, s)
      else if s.tasks.length ≥ 16 then (.tableFull, s)
      else
        let s := credit s e.origin (-i32 e.amount)
        (.ok, { s with tasks := s.tasks ++ [{ req := e.origin, seq := e.seq, reward := e.amount,
                                              worker := 0, result := r, state := .opened }] })

def applyClaim : Reason × State :=
  match taskOf s e.peer e.ref with
  | none => (.unknownRef, s)
  | some t =>
    if t.req = e.origin then (.notAllowed, s)
    else if t.state ≠ .opened then (.badState, s)
    else (.ok, setTask s e.peer e.ref fun t => { t with state := .claimed, worker := e.origin })

def applyDone : Reason × State :=
  match taskOf s e.peer e.ref with
  | none => (.unknownRef, s)
  | some t =>
    if t.worker ≠ e.origin then (.notAllowed, s)
    else if t.state ≠ .claimed then (.badState, s)
    -- the result travels in aux; it decides which of accept and reject is possible
    else (.ok, setTask s e.peer e.ref fun t =>
      { t with state := if e.aux = t.result then .done else .wrong, worker := e.origin })

def applyAccept : Reason × State :=
  match taskOf s e.origin e.ref with
  | none => (.unknownRef, s)
  | some t =>
    if t.state ≠ .done ∧ t.state ≠ .wrong then (.badState, s)
    else if t.state ≠ .done then (.wrongResult, s)
    else match acct s t.worker with
      | none => (.unknownRef, s)
      | some _ =>
        let s := credit s t.worker (i32 t.reward)
        let s := setTask s e.origin e.ref fun t => { t with state := .paid }
        (.ok, addRight s t.req t.worker)

def applyReject : Reason × State :=
  match taskOf s e.origin e.ref with
  | none => (.unknownRef, s)
  | some t =>
    if t.state ≠ .done ∧ t.state ≠ .wrong then (.badState, s)
    else if t.state ≠ .wrong then (.wrongResult, s)
    else
      let s := credit s e.origin (i32 t.reward)
      (.ok, setTask s e.origin e.ref fun t => { t with state := .refused })

def applyRate : Reason × State :=
  if e.amount < 1 ∨ e.amount > 5 then (.badAmount, s)
  else if !hasRight s e.origin e.peer then (.noRatingRight, s)
  else match acct s e.peer with
    | none => (.unknownRef, s)
    | some _ =>
      match lookup Rating.key (e.origin, e.peer) s.rates with
      | some g =>
        let s := setAcct s e.peer fun a =>
          { a with ratingSum := a.ratingSum - g.stars + e.amount }
        let rates := update Rating.key (e.origin, e.peer) (fun g => { g with stars := e.amount })
          s.rates
        (.ok, { s with rates := rates })
      | none =>
        if s.rates.length ≥ 32 then (.tableFull, s)
        else
          let s := setAcct s e.peer fun a =>
            { a with ratingSum := a.ratingSum + e.amount, ratings := a.ratings + 1 }
          (.ok, { s with rates := s.rates ++ [{ rater := e.origin, target := e.peer,
                                                stars := e.amount }] })

def applyPropose : Reason × State :=
  if e.text.str = [] then (.badAmount, s)
  else if s.props.length ≥ 8 then (.tableFull, s)
  else (.ok, { s with props := s.props ++
    [{ origin := e.origin, seq := e.seq, yes := 0, no := 0, voters := [] }] })

def applyVote : Reason × State :=
  match lookup Proposal.key (e.peer, e.ref) s.props with
  | none => (.unknownRef, s)
  | some x =>
    if x.voters.contains e.origin then (.duplicate, s)
    else if x.voters.length ≥ 8 then (.tableFull, s)
    else
      let vote := fun (x : Proposal) =>
        if e.amount ≠ 0 then { x with voters := x.voters ++ [e.origin], yes := x.yes + 1 }
        else { x with voters := x.voters ++ [e.origin], no := x.no + 1 }
      (.ok, { s with props := update Proposal.key (e.peer, e.ref) vote s.props })

def applyTicket : Reason × State :=
  if e.text.str = [] then (.badAmount, s)
  else if s.ticks.length ≥ 16 then (.tableFull, s)
  else (.ok, { s with ticks := s.ticks ++
    [{ origin := e.origin, seq := e.seq, answered := false }] })

def applyAnswer : Reason × State :=
  match lookup Ticket.key (e.peer, e.ref) s.ticks with
  | none => (.unknownRef, s)
  | some _ =>
    if e.peer = e.origin then (.notAllowed, s)
    else
      let ticks := update Ticket.key (e.peer, e.ref) (fun x => { x with answered := true }) s.ticks
      (.ok, { s with ticks := ticks })

/-- The program of a contract entry, `some none` for a plain escrow. A program that asks for the
arbiter's sign-off needs an arbiter. -/
def contractProgram : Option (Option (List MclClause)) :=
  if e.type = .contract then
    match collabMclCompile e.text.str with
    | .error _ => none
    | .ok prog =>
      if (prog.any fun cl => cl.cond.contains .arb) ∧ e.aux = 0 then none else some (some prog)
  else some none

def newEscrow (prog : Option (List MclClause)) : Escrow where
  payer := e.origin
  seq := e.seq
  payee := e.peer
  arbiter := e.aux
  amount := e.amount
  state := .opened
  forPayer := 0
  forPayee := 0
  voters := []
  lamport0 := if prog.isSome then e.lamport else 0
  paidPayee := 0
  prog := prog
  facts := if prog.isSome then ⟨[], e.peer, e.aux, 0⟩ else ⟨[], 0, 0, 0⟩

def applyEscrow : Reason × State :=
  match acct s e.peer with
  | none => (.notAllowed, s)
  | some p =>
    if !p.joined ∨ e.peer = e.origin then (.notAllowed, s)
    else if e.aux ≠ 0 ∧ (e.aux = e.origin ∨ e.aux = e.peer ∨ (acct s e.aux).isNone) then
      (.notAllowed, s)
    else if e.amount = 0 ∨ e.amount > 1000000 then (.badAmount, s)
    else if o.balance < i32 e.amount then (.insufficientPoints, s)
    else if s.escrows.length ≥ 16 then (.tableFull, s)
    else match contractProgram e with
      | none => (.badContract, s)
      | some prog =>
        let s := credit s e.origin (-i32 e.amount)
        (.ok, { s with escrows := s.escrows ++ [newEscrow e prog] })

def applySettle : Reason × State :=
  match escrowOf s e.peer e.ref with
  | none => (.unknownRef, s)
  | some x =>
    if x.state ≠ .opened then (.badState, s)
    else if e.amount ≠ 0 then
      if e.origin ≠ x.payer ∧ e.origin ≠ x.arbiter then (.notAllowed, s)
      else match acct s x.payee with
        | none => (.unknownRef, s)
        | some _ =>
          let s := credit s x.payee (i32 x.amount)
          (.ok, setEscrow s e.peer e.ref fun x => { x with state := .released })
    else
      if e.origin ≠ x.payee ∧ e.origin ≠ x.arbiter then (.notAllowed, s)
      else match acct s x.payer with
        | none => (.unknownRef, s)
        | some _ =>
          let s := credit s x.payer (i32 x.amount)
          (.ok, setEscrow s e.peer e.ref fun x => { x with state := .refunded })

def applyDispute : Reason × State :=
  match escrowOf s e.peer e.ref with
  | none => (.unknownRef, s)
  | some x =>
    if e.origin ≠ x.payer ∧ e.origin ≠ x.payee then (.notAllowed, s)
    else if x.state ≠ .opened then (.badState, s)
    else (.ok, setEscrow s e.peer e.ref fun x => { x with state := .disputed })

def Escrow.addRuling (x : Escrow) (origin amount : UInt32) : Escrow :=
  if amount ≠ 0 then { x with voters := x.voters ++ [origin], forPayer := x.forPayer + 1 }
  else { x with voters := x.voters ++ [origin], forPayee := x.forPayee + 1 }

/-- The decision after a ruling of `origin`: the arbiter's at once, else a majority of the
joined members that are not parties. `some true` is for the payer. -/
def rulingDecided (x : Escrow) (origin amount : UInt32) : Option Bool :=
  if x.arbiter ≠ 0 then
    if origin = x.arbiter then some (amount ≠ 0) else none
  else
    let eligible := UInt32.ofNat
      (s.acc.countP fun a => a.joined && a.id != x.payer && a.id != x.payee)
    let quorum := eligible / 2 + 1
    if x.forPayer ≥ quorum then some true
    else if x.forPayee ≥ quorum then some false
    else none

def applyRuling : Reason × State :=
  match escrowOf s e.peer e.ref with
  | none => (.unknownRef, s)
  | some x =>
    if x.state ≠ .disputed then (.badState, s)
    else if e.origin = x.payer ∨ e.origin = x.payee then (.notAllowed, s)
    else if x.voters.contains e.origin then (.duplicate, s)
    else if x.voters.length ≥ 8 then (.tableFull, s)
    else
      let x := x.addRuling e.origin e.amount
      let s := setEscrow s e.peer e.ref fun x => x.addRuling e.origin e.amount
      match rulingDecided s x e.origin e.amount with
      | none => (.ok, s)
      | some forPayer =>
        let winner := if forPayer then x.payer else x.payee
        match acct s winner with
        -- the vote is already counted when this return is taken
        | none => (.unknownRef, s)
        | some _ =>
          let s := credit s winner (i32 x.amount)
          (.ok, setEscrow s e.peer e.ref fun x =>
            { x with state := if forPayer then .refunded else .released })

def applySignoff : Reason × State :=
  match escrowOf s e.peer e.ref with
  | none => (.unknownRef, s)
  | some x =>
    if x.prog.isNone then (.unknownRef, s)
    else if x.state ≠ .opened then (.badState, s)
    else if e.origin = x.payer then (.notAllowed, s)
    else if x.facts.signers.contains e.origin then (.duplicate, s)
    else if x.facts.signers.length ≥ 8 then (.tableFull, s)
    else (.ok, setEscrow s e.peer e.ref fun x =>
      { x with facts := { x.facts with signers := x.facts.signers ++ [e.origin] } })

def applyAuction : Reason × State :=
  if e.text.str = [] ∨ e.amount = 0 ∨ e.amount > 1000000 then (.badAmount, s)
  else if s.auctions.length ≥ 8 then (.tableFull, s)
  else (.ok, { s with auctions := s.auctions ++
    [{ seller := e.origin, seq := e.seq, reserve := e.amount, best := 0, bidder := 0,
       state := .opened, bids := 0 }] })

def applyBid : Reason × State :=
  match auctionOf s e.peer e.ref with
  | none => (.unknownRef, s)
  | some u =>
    if u.state ≠ .opened then (.badState, s)
    else if e.origin = u.seller then (.notAllowed, s)
    else if e.amount < u.reserve ∨ e.amount ≤ u.best ∨ e.amount > 1000000 then (.bidTooLow, s)
    else if o.balance < i32 e.amount then (.insufficientPoints, s)
    else
      let s := credit s e.origin (-i32 e.amount)
      -- the previous best bidder is repaid; without an account for it `credit` changes nothing
      let s := if u.bidder ≠ 0 then credit s u.bidder (i32 u.best) else s
      (.ok, setAuction s e.peer e.ref fun u =>
        { u with best := e.amount, bidder := e.origin, bids := u.bids + 1 })

def applyClose : Reason × State :=
  match auctionOf s e.origin e.ref with
  | none => (.unknownRef, s)
  | some u =>
    if u.state ≠ .opened then (.badState, s)
    else if u.bidder ≠ 0 then
      let s := credit s e.origin (i32 u.best)
      let s := setAuction s e.origin e.ref fun u => { u with state := .sold }
      (.ok, addRight s u.seller u.bidder)
    else (.ok, setAuction s e.origin e.ref fun u => { u with state := .unsold })

/-- `apply`: every type but a join needs a joined origin. -/
def apply (stale : Stale) (s : State) (e : Entry) : Reason × State :=
  if e.type = .join then applyJoin s e
  else match acct s e.origin with
    | none => (.notJoined, s)
    | some o =>
      if !o.joined then (.notJoined, s)
      else match e.type with
        | .join => (.badState, s)
        | .transfer => applyTransfer s o e
        | .offer => applyOffer s e
        | .reserve => applyReserve s o e
        | .task => applyTask s o e
        | .claim => applyClaim s e
        | .done => applyDone s e
        | .accept => applyAccept s e
        | .reject => applyReject s e
        | .rate => applyRate s e
        | .propose => applyPropose s e
        | .vote => applyVote s e
        | .profile => (.ok, setAcct s e.origin fun a =>
            { a with shared := profilePut stale a.shared e.text.str })
        | .redact => (.ok, setAcct s e.origin fun a => { a with shared := [] })
        | .ticket => applyTicket s e
        | .answer => applyAnswer s e
        | .escrow => applyEscrow s o e
        | .contract => applyEscrow s o e
        | .settle => applySettle s e
        | .dispute => applyDispute s e
        | .ruling => applyRuling s e
        | .signoff => applySignoff s e
        | .auction => applyAuction s e
        | .bid => applyBid s o e
        | .close => applyClose s e

/-! ## Contract programs -/

def settlement (amount : UInt32) : MclAction → UInt32 × EscrowState
  | .pay => (amount, .released)
  | .refund => (0, .refunded)
  | .split pct => (amount * pct / 100, .split)

def tickEscrow (lamport : UInt32) (acc : List Account) (x : Escrow) : List Account × Escrow :=
  match x.prog with
  | none => (acc, x)
  | some prog =>
    if x.state ≠ .opened then (acc, x)
    else
      let elapsed := if lamport ≥ x.lamport0 then lamport - x.lamport0 else 0
      let x := { x with facts := { x.facts with elapsed := elapsed } }
      match (collabMclEval prog x.facts).bind fun k => prog[k]? with
      | none => (acc, x)
      | some cl =>
        if (lookup Account.id x.payee acc).isNone ∨ (lookup Account.id x.payer acc).isNone then
          (acc, x)
        else
          let (paid, state) := settlement x.amount cl.action
          (creditAcc x.payer (i32 (x.amount - paid)) (creditAcc x.payee (i32 paid) acc),
            { x with paidPayee := paid, state := state })

def tickEscrows (lamport : UInt32) : List Account → List Escrow → List Account × List Escrow
  | acc, [] => (acc, [])
  | acc, x :: xs =>
    let (acc, x) := tickEscrow lamport acc x
    let (acc, xs) := tickEscrows lamport acc xs
    (acc, x :: xs)

def contractsTick (lamport : UInt32) : State :=
  let (acc, escrows) := tickEscrows lamport s.acc s.escrows
  { s with acc := acc, escrows := escrows }

end Mohhdy.Collab
