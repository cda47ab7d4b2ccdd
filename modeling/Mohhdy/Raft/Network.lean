import Mohhdy.Foundations.Runs
import Mohhdy.Raft.Handlers

/-! A fixed set of nodes and the Raft messages between them.

The network may lose a message, and it may hold one back for any time, so that messages overtake
each other; it delivers none twice. Each call of a node sees a clock value and send results of
its own. What the other parts of a node do to its key-value table, and when it takes a peer for
up or down, is left open. -/
namespace Mohhdy.Raft
open Runs
set_option autoImplicit false

structure Packet where
  (src dst : ℕ)
  msg : Msg
deriving DecidableEq

structure World where
  node : ℕ → Node
  net : List Packet
  hist : List (ℕ × Mark)

inductive Event where
  | deliver (k : ℕ) (env : Env)
  | drop (k : ℕ)
  | elect (v : ℕ) (env : Env)
  | append (v : ℕ) (key value : List UInt8) (env : Env)
  | compact (v : ℕ)
  | tick (v : ℕ) (env : Env)
  | peerUp (v peer : ℕ) (up : Bool)
  | kvChange (v : ℕ) (kv : List Item)

variable (ids : List ℕ)

def World.init : World where
  node v := Node.init v (ids.filter (· ≠ v))
  net := []
  hist := []

def World.act (w : World) (v : ℕ) (a : Act) : World where
  node := Function.update w.node v a.node
  net := w.net ++ a.sent.map fun m => ⟨v, m.1, m.2⟩
  hist := w.hist ++ a.marks.map fun m => (v, m)

def World.take (w : World) (k : ℕ) : World := { w with net := w.net.eraseIdx k }

def World.call (w : World) (v : ℕ) (f : Node → Act) : World :=
  if v ∈ ids then w.act v (f (w.node v)) else w

def World.step (w : World) : Event → World
  | .deliver k env =>
    match w.net[k]? with
    | none => w
    | some p => (w.take k).call ids p.dst fun n => onRaft env n p.src p.msg
  | .drop k => w.take k
  | .elect v env => w.call ids v (p2pRaftElect env)
  | .append v key value env => w.call ids v fun n => p2pRaftAppend env n key value
  | .compact v => w.call ids v fun n => Act.pure (p2pRaftCompact n)
  | .tick v env => w.call ids v (p2pTick env)
  | .peerUp v peer up => w.call ids v fun n => Act.pure (setPeer n peer fun p => { p with up := up })
  | .kvChange v kv => w.call ids v fun n => Act.pure { n with kv := kv }

def World.after (evs : List Event) : World := run (World.step ids) (World.init ids) evs

/-! ## Calls in sequence -/

theorem act_pure (w : World) (v : ℕ) : w.act v (Act.pure (w.node v)) = w := by
  simp [World.act, Act.pure]

end Mohhdy.Raft
