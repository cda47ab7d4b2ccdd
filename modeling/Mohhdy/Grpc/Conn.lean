import Mohhdy.Foundations.Faults
import Mohhdy.Grpc.Wire

/-! The HTTP/2 connection engine of `src/userspace/grpcwire.c`, `gw_conn_init` to `gw_conn_feed`.

An operation that fails has often changed the connection before; a failure therefore carries the
connection as it is left. The flow-control windows are signed C integers: they are kept as
integers here, and the list `values` holds every value one of them has taken, so that a proof
can say that none was out of range.

The other ghost fields say what the windows stand for. A stream and the connection each count
the DATA bytes sent (`sent`) and received (`got`), the window increments received (`credit`)
and those given out (`granted`); `sends` and `receipts` are the DATA frames of both directions,
each with the totals and the limits at the moment it passed. -/
namespace Mohhdy.Grpc
open Texts
set_option autoImplicit false

inductive StreamState
  | free
  | receiving
  | sending
  | done
  deriving DecidableEq, Repr

/-- A DATA frame: the bytes up to and with it on the connection and on its stream, and the
limits that held for them then. -/
structure Transfer where
  (connTotal connLimit streamTotal streamLimit : ℤ)
  deriving DecidableEq

def Transfer.Within (t : Transfer) : Prop :=
  t.connTotal ≤ t.connLimit ∧ t.streamTotal ≤ t.streamLimit

/-- `gw_h2stream_t` -/
structure Stream where
  id : ℕ
  state : StreamState
  path : Bytes
  valid : Bool
  body : Bytes
  (recvWin sendWin : ℤ)
  pend : Bytes
  poff : ℕ
  trailer : Bytes
  (httpStatus grpcStatus : ℤ)
  (message grpcMessage : Bytes)
  (credit sent granted got : ℕ)
  deriving DecidableEq

/-- `gw_conn_t` -/
structure Conn where
  (server prefaceOk : Bool)
  settingsSeen : ℕ
  (localInit peerInit connSend connRecv : ℤ)
  (lastStream nextStream : ℕ)
  goaway : Bool
  streams : List Stream
  (served credit sent granted got : ℕ)
  (sends receipts : List Transfer)
  values : List ℤ
  deriving DecidableEq

/-- `gw_handler_t`: what it answers to a path and a payload. It may keep a state of its own, so
the answer also depends on how often it was called before. -/
abbrev Handler := ℕ → Bytes → Bytes → ℤ × Bytes

/-- What an operation of the engine returns, or the error it reports and the connection it
leaves. -/
abbrev Res (α : Type) := Except (GwErr × Conn) α

def onConn {α : Type} (c : Conn) (x : Except GwErr α) : Res α := x.mapError (·, c)

def winDefault : ℤ := 65535
def winMax : ℤ := 0x7FFFFFFF

/-! ## Slots -/

def freeStream : Stream :=
  ⟨0, .free, [], false, [], 0, 0, [], 0, [], 0, 0, [], [], 0, 0, 0, 0⟩

def gwConnInit (server : Bool) (initWindow : Int32) : Conn :=
  let w := if 0 < initWindow.toInt then initWindow.toInt else winDefault
  ⟨server, false, 0, w, winDefault, winDefault, winDefault, 0, 1, false,
    List.replicate 8 freeStream, 0, 0, 0, 0, 0, [], [], []⟩

def slotWhere (p : Stream → Bool) : List Stream → Option (ℕ × Stream)
  | [] => none
  | s :: l => if p s then some (0, s) else (slotWhere p l).map fun x => (x.1 + 1, x.2)

variable (h : Option Handler) (c : Conn) (s : Stream) (f : Frame)

def gwConnStream (id : ℕ) : Option (ℕ × Stream) :=
  slotWhere (fun s => s.state ≠ .free ∧ s.id = id) c.streams

/-- `stream_new`: the first free slot, cleared. Its state stays 0 until the caller sets it, so
nothing is written before. -/
def streamNew (id : ℕ) : Option (ℕ × Stream) :=
  (slotWhere (fun s => s.state = .free) c.streams).map fun x =>
    (x.1, { freeStream with
      id := id, recvWin := c.localInit, sendWin := c.peerInit, httpStatus := -1,
      grpcStatus := -1 })

namespace Conn

def setSlot (i : ℕ) (s : Stream) : Conn :=
  { c with streams := c.streams.set i s, values := s.sendWin :: s.recvWin :: c.values }

def setConnSend (v : ℤ) : Conn := { c with connSend := v, values := v :: c.values }

def setConnRecv (v : ℤ) : Conn := { c with connRecv := v, values := v :: c.values }

end Conn

/-! ## Frames the engine writes -/

def windowUpdate (stream inc : ℕ) : Frame :=
  ⟨h2WindowUpdate, 0, stream, bigEndian 4 (inc % 2 ^ 31)⟩

/-- `settings_frame`: the initial window, and on the server the number of streams. -/
def settingsFrame : Frame :=
  ⟨h2Settings, 0, 0,
    bigEndian 2 4 ++ bigEndian 4 c.localInit.toNat ++
      if c.server then bigEndian 2 3 ++ bigEndian 4 8 else []⟩

/-! ## Sending -/

def Stream.afterSend (k : ℕ) : Stream :=
  { s with poff := s.poff + k, sendWin := s.sendWin - k, sent := s.sent + k }

def Conn.afterSend (c : Conn) (i : ℕ) (s : Stream) (k : ℕ) : Conn :=
  let c := (c.setConnSend (c.connSend - k)).setSlot i (s.afterSend k)
  { c with
    sent := c.sent + k,
    sends := ⟨c.sent + k, winDefault + c.credit, s.sent + k, c.peerInit + s.credit⟩ :: c.sends }

/-- The inner loop of `flush`: the DATA of one stream, as far as the windows and the buffer
allow. `true` when the buffer is full. Every turn sends at least one byte. -/
def flushData (cap i : ℕ) : ℕ → Conn → Stream → Bytes → Res (Conn × Stream × Bytes × Bool)
  | 0, c, s, out => .ok (c, s, out, false)
  | n + 1, c, s, out =>
    if s.poff < s.pend.length then
      let avail := min c.connSend s.sendWin
      let room := cap - out.length - 9
      if avail ≤ 0 then .ok (c, s, out, false)
      else if room = 0 then .ok (c, s, out, true)
      else do
        let k := min (min (s.pend.length - s.poff) avail.toNat) room
        let fl := if c.server = false ∧ s.poff + k = s.pend.length then flagEndStream else 0
        let b ← onConn c (gwH2FramePut (cap - out.length)
          ⟨h2Data, fl, s.id, (s.pend.drop s.poff).take k⟩)
        flushData cap i n (c.afterSend i s k) (s.afterSend k) (out ++ b)
    else .ok (c, s, out, false)

/-- The loop of `flush` over the slots: the DATA of a stream, and on the server its trailers
once the DATA is out. -/
def flushSlots (cap : ℕ) : List ℕ → Conn → Bytes → Res (Conn × Bytes)
  | [], c, out => .ok (c, out)
  | i :: is, c, out =>
    match c.streams[i]? with
    | none => flushSlots cap is c out
    | some s =>
      if s.state = .sending then do
        let (c, s, out, full) ← flushData cap i (s.pend.length - s.poff) c s out
        if full then .ok (c, out)
        else if s.poff < s.pend.length then flushSlots cap is c out
        else if c.server = false then
          flushSlots cap is (c.setSlot i { s with state := .receiving }) out
        else if s.trailer = [] then
          flushSlots cap is (c.setSlot i { s with state := .free }) out
        else
          match gwH2FramePut (cap - out.length)
            ⟨h2Headers, flagEndHeaders ||| flagEndStream, s.id, s.trailer⟩ with
          | .error _ => .ok (c, out)
          | .ok b => flushSlots cap is (c.setSlot i { s with state := .free }) (out ++ b)
      else flushSlots cap is c out

def flush (cap : ℕ) : Res (Conn × Bytes) :=
  flushSlots cap (List.range 8) c []

/-! ## Calls of the application -/

def kPreface : Bytes := ascii "PRI * HTTP/2.0\r\n\r\nSM\r\n\r\n"

def gwConnStart (cap : ℕ) : Res (Conn × Bytes) :=
  if cap < 24 ∨ c.server then .error (.format, c)
  else do
    let b ← onConn c (gwH2FramePut (cap - 24) (settingsFrame c))
    .ok ({ c with prefaceOk := true }, kPreface ++ b)

def gwConnCall (service method payload : Bytes) (cap : ℕ) : Res (Conn × Bytes) :=
  if c.server ∨ c.prefaceOk = false ∨ c.goaway then .error (.proto, c)
  else
    match streamNew c c.nextStream with
    | none => .error (.limit, c)
    | some (i, s) => do
      let hb ← onConn c (reqBlock 256 service method)
      let out ← onConn c (gwH2FramePut cap ⟨h2Headers, flagEndHeaders, s.id, hb⟩)
      let pend ← onConn c (lpmMessage 200 payload)
      let c := { c.setSlot i { s with pend := pend, state := .sending } with
        nextStream := c.nextStream + 2 }
      let (c, b) ← flush c (cap - out.length)
      .ok (c, out ++ b)

def gwConnGoaway (cap : ℕ) : Res (Conn × Bytes) := do
  let b ← onConn c (gwH2FramePut cap
    ⟨h2Goaway, 0, 0, bigEndian 4 (if c.server then c.lastStream else 0) ++ bigEndian 4 0⟩)
  .ok (c, b)

/-! ## Completed requests and responses -/

def bodyText (body : Bytes) : Except GwErr (Option Bytes) := do
  gwPbGetString (← gwLpmGet body) 1 160

def statusText (gst : ℕ) : Bytes :=
  if 10 ≤ gst then [UInt8.ofNat (48 + gst / 10), UInt8.ofNat (48 + gst % 10)]
  else [UInt8.ofNat (48 + gst)]

def responseHeaders : List (Bytes × Bytes) :=
  [(ascii ":status", ascii "200"), (ascii "content-type", ascii "application/grpc")]

def responseTrailers (gst : ℕ) (reply : Bytes) : List (Bytes × Bytes) :=
  (ascii "grpc-status", statusText gst) ::
    if gst = 0 then [] else [(ascii "grpc-message", reply)]

def requestPayload (body : Bytes) : Except GwErr Bytes := do
  if body = [] then .ok []
  else return (← bodyText body).getD []

def answer (payload : Bytes) : ℤ × Bytes :=
  match h with
  | none => (12, [])
  | some h => ((h c.served s.path payload).1, (cstr (h c.served s.path payload).2).take 159)

def serveComplete (i : ℕ) (s : Stream) (cap : ℕ) : Res (Conn × Bytes) :=
  if s.valid = false then .error (.format, c)
  else do
    let payload ← onConn c (requestPayload s.body)
    let (gst, reply) := answer h c s payload
    let c := { c with served := c.served + 1 }
    let hb ← onConn c (hdrBlock 128 responseHeaders)
    let out ← onConn c (gwH2FramePut cap ⟨h2Headers, flagEndHeaders, s.id, hb⟩)
    let s := { s with pend := [], poff := 0 }
    let c := c.setSlot i s
    let pend ← onConn c (if gst = 0 then lpmMessage 200 reply else .ok [])
    let s := { s with pend := pend }
    let c := c.setSlot i s
    let gst := if gst < 0 ∨ 16 < gst then 13 else gst.toNat
    let trailer ← onConn c (hdrBlock 96 (responseTrailers gst reply))
    .ok (c.setSlot i { s with trailer := trailer, state := .sending }, out)

def callComplete : Stream :=
  let message :=
    if s.body = [] then s.message
    else
      match bodyText s.body with
      | .ok (some t) => t
      | _ => s.message
  { s with
    message := if s.grpcMessage = [] then message else s.grpcMessage.take 159,
    state := .done }

/-! ## Received frames -/

def Stream.shift (delta : ℤ) : Stream := { s with sendWin := s.sendWin + delta }

def shiftStreams (delta : ℤ) : List ℕ → Conn → Res Conn
  | [], c => .ok c
  | i :: is, c =>
    match c.streams[i]? with
    | none => shiftStreams delta is c
    | some s =>
      if s.state = .receiving ∨ s.state = .sending then
        if 0 < delta ∧ winMax - delta < s.sendWin then .error (.flow, c)
        else shiftStreams delta is (c.setSlot i (s.shift delta))
      else shiftStreams delta is c

def settingsLoop : Bytes → Conn → Res Conn
  | a :: b :: v₁ :: v₂ :: v₃ :: v₄ :: rest, c =>
    if ofBigEndian [a, b] = 4 then
      let v := ofBigEndian [v₁, v₂, v₃, v₄]
      if winMax < v then .error (.flow, c)
      else do
        let c ← shiftStreams (v - c.peerInit) (List.range 8) c
        settingsLoop rest { c with peerInit := v }
    else settingsLoop rest c
  | _, c => .ok c

def onSettings (cap : ℕ) : Res (Conn × Bytes) :=
  if f.stream ≠ 0 then .error (.proto, c)
  else if f.flags &&& flagEndStream ≠ 0 then
    if f.payload ≠ [] then .error (.format, c) else .ok (c, [])
  else if f.payload.length % 6 ≠ 0 then .error (.format, c)
  else do
    let c ← settingsLoop f.payload c
    let c := { c with settingsSeen := c.settingsSeen + 1 }
    let b ← onConn c (gwH2FramePut cap ⟨h2Settings, flagEndStream, 0, []⟩)
    .ok (c, b)

def Stream.credited (inc : ℕ) : Stream :=
  { s with sendWin := s.sendWin + inc, credit := s.credit + inc }

def Conn.credited (inc : ℕ) : Conn :=
  { c.setConnSend (c.connSend + inc) with credit := c.credit + inc }

def onWindowUpdate : Res Conn :=
  if f.payload.length ≠ 4 then .error (.format, c)
  else
    let inc : ℕ := ofBigEndian f.payload % 2 ^ 31
    if inc = 0 then .error (.proto, c)
    else if f.stream = 0 then
      if 0 < c.connSend ∧ winMax - inc < c.connSend then .error (.flow, c)
      else .ok (c.credited inc)
    else
      match gwConnStream c f.stream with
      | none => .ok c
      | some (i, s) =>
        if s.state = .done then .ok c
        else if 0 < s.sendWin ∧ winMax - inc < s.sendWin then .error (.flow, c)
        else .ok (c.setSlot i (s.credited inc))

def onPing (cap : ℕ) : Res (Conn × Bytes) :=
  if f.stream ≠ 0 then .error (.proto, c)
  else if f.payload.length ≠ 8 then .error (.format, c)
  else if f.flags &&& flagEndStream ≠ 0 then .ok (c, [])
  else do
    let b ← onConn c (gwH2FramePut cap ⟨h2Ping, flagEndStream, 0, f.payload⟩)
    .ok (c, b)

def onRstStream : Res Conn :=
  if f.stream = 0 ∨ f.payload.length ≠ 4 then .error (.proto, c)
  else
    match gwConnStream c f.stream with
    | none => .ok c
    | some (i, s) =>
      if c.server then .ok (c.setSlot i { s with state := .free })
      else if s.state = .done then .ok c
      else .ok (c.setSlot i { s with grpcStatus := -1, state := .done })

def onRequest (p : Bytes) (cap : ℕ) : Res (Conn × Bytes) :=
  if f.stream % 2 = 0 ∨ f.stream ≤ c.lastStream then .error (.proto, c)
  else
    let c := { c with lastStream := f.stream }
    match streamNew c f.stream with
    | none => do
      let b ← onConn c (gwH2FramePut cap ⟨h2RstStream, 0, f.stream, bigEndian 4 7⟩)
      .ok (c, b)
    | some (i, s) => do
      let hs ← onConn c (gwHpackDecode p 12)
      let valid := hdrFind hs (ascii ":method") = some (ascii "POST") ∧
        hdrFind hs (ascii "content-type") = some (ascii "application/grpc") ∧
        (hdrFind hs (ascii ":path")).isSome
      let s := { s with
        valid := valid, path := ((hdrFind hs (ascii ":path")).getD []).take 63,
        state := .receiving }
      let c := c.setSlot i s
      if f.flags &&& flagEndStream ≠ 0 then serveComplete h c i s cap else .ok (c, [])

def leadingNumber (v : Bytes) : ℤ :=
  (v.takeWhile fun x => 48 ≤ x.toNat ∧ x.toNat ≤ 57).foldl (fun n x => n * 10 + (x.toNat - 48)) 0

def Stream.header (e : Bytes × Bytes) : Stream :=
  if e.1 = ascii ":status" then { s with httpStatus := leadingNumber e.2 }
  else if e.1 = ascii "grpc-status" then { s with grpcStatus := leadingNumber e.2 }
  else if e.1 = ascii "grpc-message" ∧ e.2 ≠ [] then { s with grpcMessage := e.2.take 63 }
  else s

def onResponse (p : Bytes) : Res Conn :=
  match gwConnStream c f.stream with
  | none => .error (.proto, c)
  | some (i, s) =>
    if s.state = .done then .error (.proto, c)
    else do
      let hs ← onConn c (gwHpackDecode p 12)
      let s := hs.foldl Stream.header s
      .ok (c.setSlot i (if f.flags &&& flagEndStream ≠ 0 then callComplete s else s))

def onHeaders (cap : ℕ) : Res (Conn × Bytes) :=
  if f.stream = 0 then .error (.proto, c)
  else if f.flags &&& flagEndHeaders = 0 then .error (.format, c)
  else do
    let p ← onConn c (stripPadding f.flags f.payload true)
    if c.server then onRequest h c f p cap
    else do
      let c ← onResponse c f p
      .ok (c, [])

def Stream.taken (n : ℕ) : Stream :=
  { s with recvWin := s.recvWin - n, got := s.got + n }

def Conn.taken (c : Conn) (i : ℕ) (s : Stream) (n : ℕ) : Conn :=
  let c := (c.setConnRecv (c.connRecv - n)).setSlot i (s.taken n)
  { c with
    got := c.got + n,
    receipts := ⟨c.got + n, winDefault + c.granted, s.got + n, c.localInit + s.granted⟩ ::
      c.receipts }

def Conn.grantBack (n : ℕ) : Conn :=
  { c.setConnRecv (c.connRecv + n) with granted := c.granted + n }

def Stream.grantBack (n : ℕ) : Stream :=
  { s with recvWin := s.recvWin + n, granted := s.granted + n }

/-- The WINDOW_UPDATE frames for a DATA frame of `n` bytes; the stream's own is left out when
the frame ends it. -/
def giveBack (i : ℕ) (s : Stream) (n : ℕ) (last : Prop) [Decidable last] (cap : ℕ) :
    Res (Conn × Stream × Bytes) :=
  if n = 0 then .ok (c, s, [])
  else do
    let b ← onConn c (gwH2FramePut cap (windowUpdate 0 n))
    let c := c.grantBack n
    if last then .ok (c, s, b)
    else do
      let b' ← onConn c (gwH2FramePut (cap - b.length) (windowUpdate s.id n))
      let s := s.grantBack n
      .ok (c.setSlot i s, s, b ++ b')

def onData (cap : ℕ) : Res (Conn × Bytes) :=
  if f.stream = 0 then .error (.proto, c)
  else
    match gwConnStream c f.stream with
    | none => .error (.proto, c)
    | some (i, s) =>
      if s.state = .done ∨ c.server ∧ s.state ≠ .receiving then .error (.proto, c)
      else
        let n := f.payload.length
        let c := c.taken i s n
        let s := s.taken n
        if c.connRecv < 0 ∨ s.recvWin < 0 then .error (.flow, c)
        else do
          let p ← onConn c (stripPadding f.flags f.payload false)
          if 200 < s.body.length + p.length then .error (.limit, c)
          else do
            let s := { s with body := s.body ++ p }
            let c := c.setSlot i s
            let (c, s, out) ← giveBack c i s n (f.flags &&& flagEndStream ≠ 0) cap
            if f.flags &&& flagEndStream = 0 then .ok (c, out)
            else if c.server then do
              let (c, b) ← serveComplete h c i s (cap - out.length)
              .ok (c, out ++ b)
            else .ok (c.setSlot i (callComplete s), out)

def frame (cap : ℕ) : Res (Conn × Bytes) :=
  if c.settingsSeen = 0 ∧ f.kind ≠ h2Settings then .error (.proto, c)
  else if f.kind = h2Settings then onSettings c f cap
  else if f.kind = h2WindowUpdate then do
    let c ← onWindowUpdate c f
    .ok (c, [])
  else if f.kind = h2Ping then onPing c f cap
  else if f.kind = h2Goaway then
    if f.stream ≠ 0 then .error (.proto, c) else .ok ({ c with goaway := true }, [])
  else if f.kind = h2RstStream then do
    let c ← onRstStream c f
    .ok (c, [])
  else if f.kind = h2Continuation then .error (.format, c)
  else if f.kind = h2Headers then onHeaders h c f cap
  else if f.kind = h2Data then onData h c f cap
  else .ok (c, [])

/-! ## Feeding -/

/-- `preface_check`: `none` while the preface is not complete. -/
def prefaceCheck (b : Bytes) : Except GwErr (Option Bytes) :=
  if b.take 24 ≠ kPreface.take b.length then .error .format
  else if b.length < 24 then .ok none
  else .ok (some (b.drop 24))

/-- The loop of `gw_conn_feed`: whole frames while 160 bytes of the buffer are left. Every frame
is longer than one byte. -/
def feedLoop (h : Option Handler) (cap : ℕ) : ℕ → Conn → Bytes → Bytes → Res (Conn × Bytes × Bytes)
  | 0, c, rest, out => .ok (c, rest, out)
  | n + 1, c, rest, out =>
    if 160 ≤ cap - out.length then
      match gwH2FrameGet rest with
      | none => .ok (c, rest, out)
      | some (f, rest) => do
        let (c, b) ← frame h c f (cap - out.length)
        feedLoop h cap n c rest (out ++ b)
    else .ok (c, rest, out)

def feedFrames (input out : Bytes) (cap : ℕ) : Res (Conn × Bytes × Bytes) := do
  let (c, rest, out) ← feedLoop h cap input.length c input out
  let (c, b) ← flush c (cap - out.length)
  .ok (c, rest, out ++ b)

def gwConnFeed (input : Bytes) (cap : ℕ) : Res (Conn × Bytes × Bytes) :=
  if c.server ∧ c.prefaceOk = false then do
    match ← onConn c (prefaceCheck input) with
    | none => .ok (c, input, [])
    | some rest =>
      if cap < 64 then .error (.limit, c)
      else do
        let c := { c with prefaceOk := true }
        let out ← onConn c (gwH2FramePut cap (settingsFrame c))
        feedFrames h c rest out cap
  else feedFrames h c input [] cap

/-! ## Runs -/

inductive Call
  | start (cap : ℕ)
  | call (service method payload : Bytes) (cap : ℕ)
  | feed (input : Bytes) (cap : ℕ)
  | goaway (cap : ℕ)

def leaves {α : Type} : Res (Conn × α) → Conn
  | .ok r => r.1
  | .error e => e.2

/-- A refused call of the application does not end a run; a `gw_conn_feed` that reports an error
does. -/
def step : Call → Res Conn
  | .start cap => .ok (leaves (gwConnStart c cap))
  | .call service method payload cap => .ok (leaves (gwConnCall c service method payload cap))
  | .feed input cap => Prod.fst <$> gwConnFeed h c input cap
  | .goaway cap => .ok (leaves (gwConnGoaway c cap))

end Mohhdy.Grpc
