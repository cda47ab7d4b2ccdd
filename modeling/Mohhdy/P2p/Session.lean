import Mohhdy.Foundations.Tables
import Mohhdy.P2p.Retransmit

/-! The sealed transport of `p2p.c`: peers, session keys, frames sent and received.

The peer table is the list of its used slots, in order: a slot once used is never freed. A
datagram is its fields; one that `on_datagram` cannot parse is `foreign` or `other`, depending on
whether it gets as far as the ring of seen frames. X25519, SHA-256, HMAC and AES-GCM are the fields
of `Prim`. The handlers of sealed frames that carry no user data, the pacing that decides when user
data leaves and the link statistics do not write what is modelled here; what they send is an
operation of its own (`Op.control`), at any moment. -/
namespace Mohhdy.P2p
open Tables
set_option autoImplicit false

abbrev Bytes := List UInt8

def put32 (v : UInt32) : Bytes :=
  [(v >>> 24).toUInt8, (v >>> 16).toUInt8, (v >>> 8).toUInt8, v.toUInt8]

def get32 : Bytes → UInt32
  | a :: b :: c :: d :: _ =>
    (a.toUInt32 <<< 24) ||| (b.toUInt32 <<< 16) ||| (c.toUInt32 <<< 8) ||| d.toUInt32
  | _ => 0

/-! ## Frames -/

structure Header where
  (src dst msgId via : UInt32)
  hops : UInt8
deriving DecidableEq, Repr

/-- The header as authenticated data: relays change the rest. -/
def Header.aad (h : Header) : Header := { h with via := 0, hops := 0 }

/-- The plain text of a sealed frame. A retransmission whose body does not parse, or that carries
another type, has no message. -/
inductive Inner where
  | data (m : Message)
  | rtx (orig : UInt32) (m : Option Message)
  | other (body : Bytes)
deriving DecidableEq, Repr

def Inner.length : Inner → ℕ
  | .data m => m.body.length
  | .rtx _ m => 5 + (m.elim 0 fun m => m.body.length)
  | .other body => body.length

structure Hello where
  (name ip pub : Bytes)
  vector : List (UInt32 × UInt8)
deriving DecidableEq, Repr

inductive Frame (Box : Type) where
  | foreign
  | other (src msgId : UInt32)
  | hello (src msgId : UInt32) (h : Hello) (tag : Bytes)
  | sealed (hdr : Header) (ctr : UInt32) (box : Box)
deriving DecidableEq, Repr

/-- The primitives the transport is built on. A nonce is the sender's id and its counter. -/
structure Prim (Box : Type) where
  sha256 : Bytes → Bytes
  hmacSha256 : Bytes → UInt32 → UInt32 → Hello → Bytes
  x25519PublicKey : Bytes → Option Bytes
  x25519SharedSecret : Bytes → Bytes → Option Bytes
  aes128GcmEncrypt : Bytes → Bytes → UInt32 × UInt32 → Header → Inner → Option Box
  aes128GcmDecrypt : Bytes → Bytes → UInt32 × UInt32 → Header → Box → Option Inner

/-! ## State -/

/-- `p2p_peer_t` of a slot in use. `cost` is what `p2p_calc_link_cost` gives for it. -/
structure Peer where
  id : UInt32
  name : Bytes
  (up blocked keyed : Bool)
  (ip mac pub key iv : Bytes)
  (txCounter rxCounter : UInt32)
  neighbors : List (UInt32 × UInt8)
  cost : UInt32
  rtx : Rtx

/-- A slot after `mzero`, with the fields `on_hello` then sets. -/
def Peer.new (id : UInt32) (blocked : Bool) : Peer where
  id := id
  name := []
  up := false
  blocked := blocked
  keyed := false
  ip := []
  mac := []
  pub := []
  key := []
  iv := []
  txCounter := 0
  rxCounter := 0
  neighbors := List.replicate 6 (0, 0)
  cost := 0
  rtx := p2pRtxInit

/-- The fields of `p2p_node_t` the transport uses. `seen` has the last 32 entries of the ring. -/
structure Node where
  id : UInt32
  (name ip pub secret netkey : Bytes)
  up : Bool
  msgId : UInt32
  peers : List Peer
  seen : List (UInt32 × UInt32)
  shapeQ : List (Option (UInt32 × Message))

def Node.zero : Node where
  id := 0
  name := []
  ip := []
  pub := []
  secret := []
  netkey := []
  up := false
  msgId := 0
  peers := []
  seen := []
  shapeQ := List.replicate 8 none

structure Call where
  (key iv : Bytes)
  nonce : UInt32 × UInt32
  peer : UInt32
  inner : Inner
deriving DecidableEq, Repr

structure Delivery where
  (src orig : UInt32)
  msg : Message
deriving DecidableEq, Repr

structure Out (Box : Type) where
  node : Node
  calls : List Call
  frames : List (Frame Box)
  delivered : List Delivery

variable {Box : Type}

def Out.pure (n : Node) : Out Box := ⟨n, [], [], []⟩

def Out.andThen (o : Out Box) (f : Node → Out Box) : Out Box :=
  let o' := f o.node
  ⟨o'.node, o.calls ++ o'.calls, o.frames ++ o'.frames, o.delivered ++ o'.delivered⟩

def byId (n : Node) (id : UInt32) : Option Peer := n.peers.find? (·.id == id)

def p2pFind (n : Node) (name : Bytes) : Option Peer := n.peers.find? (·.name == name)

def setPeer (n : Node) (id : UInt32) (f : Peer → Peer) : Node :=
  { n with peers := modifyFirst (·.id == id) f n.peers }

/-! ## Keys -/

def keyLabel : Bytes := [109, 111, 104, 104, 100, 121, 45, 112, 50, 112, 45, 118, 49]

def netLabel : Bytes := [109, 111, 104, 104, 100, 121, 45, 112, 50, 112, 45, 110, 101, 116]

def sessionIds (a b : UInt32) : Bytes :=
  put32 (if a < b then a else b) ++ put32 (if a < b then b else a)

variable (P : Prim Box) (n : Node) (p : Peer) (mac : Bytes)

/-- `derive`. A failed exchange and a low-order point leave the old key in an unkeyed slot. -/
def derive : Peer :=
  match P.x25519SharedSecret n.secret p.pub with
  | none => { p with keyed := false }
  | some shared =>
    if shared.all (· == 0) then { p with keyed := false }
    else
      let d := P.sha256 (keyLabel ++ n.netkey ++ shared ++ sessionIds n.id p.id)
      { p with
        key := d.take 16
        iv := (d.drop 16).take 4
        keyed := true
        txCounter := 0
        rxCounter := 0
        rtx := p2pRtxInit }

/-! ## Routes -/

/-- The body of the loop of `p2p_route_find`: least cost, best hop and hops so far. -/
def routeStep (dest : UInt32) (acc : UInt32 × UInt32 × UInt32) (p : Peer) :
    UInt32 × UInt32 × UInt32 :=
  if !p.up || p.blocked then acc
  else if p.id = dest then
    if acc.2.2 > 1 ∨ p.cost < acc.1 then (p.cost, 0, 1) else acc
  else
    p.neighbors.foldl (fun acc nb =>
      if nb.1 = dest ∧ nb.2 ≠ 0 ∧ nb.2 ≤ 2 then
        let c := p.cost + 15 * nb.2.toUInt32
        let hc := nb.2.toUInt32 + 1
        if hc < acc.2.2 ∨ (hc = acc.2.2 ∧ c < acc.1) then (c, p.id, hc) else acc
      else acc) acc

def p2pRouteFind (dest : UInt32) : Option UInt32 :=
  if dest = 0 then none
  else
    let best := (n.peers.foldl (routeStep dest) (0xffffffff, 0xffffffff, 0xff)).2.1
    if best = 0xffffffff then none else some best

/-- The second half of `route`: the direct link, else the first neighbor that lists the peer. -/
def routeFallback : UInt32 :=
  if p.up && !p.blocked then 0
  else
    match n.peers.find? fun r => r.up && !r.blocked && r.id != p.id &&
      r.neighbors.any (·.1 == p.id) with
    | some r => r.id
    | none => 0xffffffff

def route : UInt32 :=
  match p2pRouteFind n p.id with
  | none => routeFallback n p
  | some nh =>
    if nh = 0 then 0
    else
      match byId n nh with
      | some r => if r.up && !r.blocked then r.id else routeFallback n p
      | none => routeFallback n p

def reachHops : UInt8 :=
  if p.blocked then 0
  else if p.up then 1
  else
    n.peers.foldl (fun best r =>
      if !r.up || r.blocked || r.id == p.id then best
      else
        r.neighbors.foldl (fun best nb =>
          if nb.1 = p.id ∧ nb.2 ≠ 0 ∧ nb.2 < 3 then
            if best = 0 ∨ nb.2 + 1 < best then nb.2 + 1 else best
          else best) best) 0

/-! ## Sending -/

def sendHello : Out Box :=
  let vector := (n.peers.map fun p => (p.id, reachHops n p)).filter (·.2 != 0)
  let h : Hello := ⟨n.name, n.ip, n.pub, vector⟩
  let id := n.msgId + 1
  ⟨{ n with msgId := id }, [], [.hello n.id id h (P.hmacSha256 n.netkey n.id id h)], []⟩

def keepCopy (dst ctr : UInt32) : Inner → Node
  | .data m => setPeer n dst fun p => { p with rtx := p2pRtxKeep p.rtx ctr m }
  | _ => n

/-- `seal_send`. The counter has moved when the encryption is tried. -/
def sealSend (dst : UInt32) (inner : Inner) : Out Box :=
  match byId n dst with
  | none => .pure n
  | some p =>
    if !p.keyed then .pure n
    else if inner.length + 1 + 24 + 4 + 16 > 600 then .pure n
    else if route n p = 0xffffffff then .pure n
    else
      let hdr : Header := ⟨n.id, p.id, n.msgId + 1, route n p, 3⟩
      let ctr := p.txCounter + 1
      let n' := setPeer { n with msgId := n.msgId + 1 } dst fun p => { p with txCounter := ctr }
      let call : Call := ⟨p.key, p.iv, (n.id, ctr), p.id, inner⟩
      match P.aes128GcmEncrypt p.key p.iv (n.id, ctr) hdr.aad inner with
      | none => ⟨n', [call], [], []⟩
      | some box => ⟨keepCopy n' dst ctr inner, [call], [.sealed hdr ctr box], []⟩

def shapeEnqueue (dst : UInt32) (m : Message) : Node :=
  if m.body.length > 404 then n
  else
    match n.shapeQ.findIdx? (·.isNone) with
    | none => n
    | some i => { n with shapeQ := n.shapeQ.set i (some (dst, m)) }

/-- `p2p_send_text`; `admitted` is the answer of `admit`. -/
def p2pSendText (name text : Bytes) (issue : ℕ) (admitted : Bool) : Out Box :=
  match p2pFind n name with
  | none => .pure n
  | some p =>
    if !n.up then .pure n
    else if text.length > 255 then .pure n
    else
      let m : Message := ⟨.msg, UInt8.ofNat text.length :: text, issue⟩
      if admitted then sealSend P n p.id (.data m) else .pure (shapeEnqueue n p.id m)

def putOne (body : Bytes) (issue : ℕ) (admitted : UInt32 → Bool) (paced : Bool) (n : Node)
    (p : Peer) : Out Box :=
  let m : Message := ⟨.put, body, issue⟩
  if !p.keyed || !p.up then .pure n
  else if admitted p.id then sealSend P n p.id (.data m)
  else if paced then .pure (shapeEnqueue n p.id m)
  else .pure n

/-- `p2p_put` after the local write; `body` is the encoded item. -/
def p2pPut (body : Bytes) (issue : ℕ) (admitted : UInt32 → Bool) (paced : Bool) : Out Box :=
  if !n.up then .pure n
  else n.peers.foldl (fun o p => o.andThen fun n => putOne P body issue admitted paced n p) (.pure n)

def shapeDrain (i : ℕ) (admitted : Bool) : Out Box :=
  match n.shapeQ[i]? with
  | some (some (dst, m)) =>
    if !(byId n dst).any (·.keyed) then .pure { n with shapeQ := n.shapeQ.set i none }
    else if !admitted then .pure n
    else (sealSend P n dst (.data m)).andThen fun n => .pure { n with shapeQ := n.shapeQ.set i none }
  | _ => .pure n

def rtxExpire (dst ctr : UInt32) (sent : Bool) : Out Box :=
  match byId n dst with
  | none => .pure n
  | some p =>
    let n' := setPeer n dst fun p => { p with rtx := (p2pRtxLost p.rtx ctr).1 }
    match (p2pRtxLost p.rtx ctr).2 with
    | none => .pure n'
    | some (i, s) =>
      let o := sealSend P n' dst (.rtx s.orig (some s.msg))
      if sent && !o.frames.isEmpty then
        { o with node := setPeer o.node dst fun p =>
            { p with rtx := p2pRtxResent p.rtx i p.txCounter } }
      else o

/-! ## Receiving -/

/-- The peer table with a slot for `src`: its own, that of a peer of the same name that is down,
or a free one. -/
def slotFor (src : UInt32) (name : Bytes) : Option (List Peer) :=
  let free := if n.peers.length < 6 then some (n.peers ++ [Peer.new src false]) else none
  match byId n src with
  | some _ => some n.peers
  | none =>
    match p2pFind n name with
    | none => free
    | some old =>
      if old.up then free
      else some (modifyFirst (·.name == name) (fun old => Peer.new src old.blocked) n.peers)

def greet (h : Hello) (p : Peer) : Peer :=
  if p.blocked then p
  else
    let p := { p with name := h.name, ip := h.ip, mac := mac }
    let p := if !p.keyed || p.pub != h.pub then derive P n { p with pub := h.pub } else p
    { p with
      neighbors := ((h.vector.map fun (nb : UInt32 × UInt8) => if nb.1 = n.id then (nb.1, 0) else nb) ++
        List.replicate 6 (0, 0)).take 6
      up := true }

def onHello (src msgId : UInt32) (h : Hello) (tag : Bytes) : Node :=
  if h.vector.length > 6 ∨ tag ≠ P.hmacSha256 n.netkey src msgId h then n
  else
    match slotFor n src h.name with
    | none => n
    | some peers => setPeer { n with peers := peers } src (greet P n mac h)

/-- `on_sealed` for user data: an original is delivered once. -/
def onSealed (inner : Inner) : Out Box :=
  let deliver (orig : UInt32) (m : Message) : Out Box :=
    let n' := setPeer n p.id fun p => { p with rtx := (p2pRtxAccept p.rtx orig).1 }
    ⟨n', [], [], if (p2pRtxAccept p.rtx orig).2 then [⟨p.id, orig, m⟩] else []⟩
  match inner with
  | .data m => deliver p.rxCounter m
  | .rtx orig (some m) => deliver orig m
  | _ => .pure n

def relay (hdr : Header) (ctr : UInt32) (box : Box) : Out Box :=
  match byId n hdr.dst, p2pRouteFind n hdr.dst with
  | some d, some nh =>
    match if nh = 0 then some d else byId n nh with
    | some r =>
      if hdr.via = n.id ∧ hdr.hops > 0 ∧ r.up = true ∧ r.blocked = false ∧ r.id ≠ hdr.src ∧
          r.mac ≠ mac then
        ⟨n, [], [.sealed { hdr with via := nh, hops := hdr.hops - 1 } ctr box], []⟩
      else .pure n
    | none => .pure n
  | _, _ => .pure n

def openSealed (hdr : Header) (ctr : UInt32) (box : Box) : Out Box :=
  match byId n hdr.src with
  | none => .pure n
  | some p =>
    if !p.keyed then .pure n
    else
      match P.aes128GcmDecrypt p.key p.iv (hdr.src, ctr) hdr.aad box with
      | none => .pure n
      | some inner =>
        if ctr ≤ p.rxCounter then .pure n
        else
          onSealed (setPeer n p.id fun p => { p with rxCounter := ctr })
            { p with rxCounter := ctr } inner

def seen (n : Node) (src id : UInt32) : Bool := (src, id) ∈ n.seen && (src != 0 || id != 0)

def remember (src id : UInt32) : Node :=
  { n with seen := (n.seen ++ [(src, id)]).drop (n.seen.length - 31) }

def screen (src id : UInt32) : Option Node :=
  if src = n.id then none
  else if n.peers.any fun p => p.blocked && p.mac == mac then none
  else if seen n src id then none
  else some (remember n src id)

def onDatagram : Frame Box → Out Box
  | .foreign => .pure n
  | .other src id => .pure ((screen n mac src id).getD n)
  | .hello src id h tag =>
    match screen n mac src id with
    | none => .pure n
    | some n' => .pure (onHello P n' mac src id h tag)
  | .sealed hdr ctr box =>
    match screen n mac hdr.src hdr.msgId with
    | none => .pure n
    | some n' => if hdr.dst ≠ n.id then relay n' mac hdr ctr box else openSealed P n' hdr ctr box

/-! ## Public functions -/

/-- `p2p_up`, the four steps of `p2p_up_step`. A failed third step leaves what the first two did. -/
def p2pUp (name ip netkey seed : Bytes) : Out Box :=
  if name = [] ∨ name.length ≥ 12 ∨ netkey.length < 8 then .pure n
  else
    let secret := P.sha256 (seed ++ name)
    let base := { Node.zero with name := name, ip := ip, secret := secret
                                 netkey := P.sha256 (netLabel ++ netkey) }
    match P.x25519PublicKey secret with
    | none => .pure base
    | some pub =>
      sendHello P { base with pub := pub, id := get32 (P.sha256 pub) ||| 1, up := true }

def p2pDown : Node := { n with secret := List.replicate 32 0, up := false }

def p2pBlock (name : Bytes) (blocked : Bool) : Node :=
  { n with peers := modifyFirst (·.name == name) (fun p => { p with blocked := blocked }) n.peers }

/-- What a node does, one call at a time. `p2p_tick` is a sequence of these; it and the frames it
receives need a node that is up. -/
inductive Op (Box : Type) where
  | up (name ip netkey seed : Bytes)
  | down
  | hello
  | datagram (mac : Bytes) (f : Frame Box)
  | sendText (name text : Bytes) (issue : ℕ) (admitted : Bool)
  | put (body : Bytes) (issue : ℕ) (admitted : UInt32 → Bool) (paced : Bool)
  | drain (i : ℕ) (admitted : Bool)
  | expire (dst ctr : UInt32) (sent : Bool)
  | acked (dst ctr : UInt32)
  | control (dst : UInt32) (body : Bytes)
  | peerDown (id : UInt32)
  | linkCost (id cost : UInt32)
  | block (name : Bytes) (blocked : Bool)
  | flowReset

def Op.run : Op Box → Out Box
  | .up name ip netkey seed => p2pUp P n name ip netkey seed
  | .down => .pure (p2pDown n)
  | .hello => sendHello P n
  | .datagram mac f => if n.up then onDatagram P n mac f else .pure n
  | .sendText name text issue admitted => p2pSendText P n name text issue admitted
  | .put body issue admitted paced => p2pPut P n body issue admitted paced
  | .drain i admitted => shapeDrain P n i admitted
  | .expire dst ctr sent => rtxExpire P n dst ctr sent
  | .acked dst ctr => .pure (setPeer n dst fun p => { p with rtx := p2pRtxAcked p.rtx ctr })
  | .control dst body => sealSend P n dst (.other body)
  | .peerDown id => .pure (setPeer n id fun p => { p with up := false })
  | .linkCost id cost => .pure (setPeer n id fun p => { p with cost := cost })
  | .block name blocked => .pure (p2pBlock n name blocked)
  | .flowReset => .pure { n with peers := n.peers.map fun p => { p with rtx := p2pRtxInit } }

end Mohhdy.P2p
