import Mohhdy.Foundations.Texts

/-! The encodings of `src/userspace/grpcwire.c`: protobuf fields, the gRPC length-prefixed message,
HTTP/2 frames and the HPACK subset.

A writer of the source gets a buffer and its size, and fails with `GW_ERR_LIMIT` at the first part
that does not fit. The parts are written one behind the other, so it fails exactly when the whole
does not fit: `fits` says that once. A reader returns what it read and the bytes behind it. -/
namespace Mohhdy.Grpc
open Texts
set_option autoImplicit false

/-- The error codes, without `GW_OK`. -/
inductive GwErr
  | short
  | limit
  | format
  | flow
  | proto
  deriving DecidableEq, Repr

variable (cap : ℕ) (b : Bytes)

def fits : Except GwErr Bytes :=
  if b.length ≤ cap then .ok b else .error .limit

/-! ## Protobuf -/

def varintLoop : ℕ → ℕ → Bytes
  | 0, _ => []
  | n + 1, v =>
    if v / 128 = 0 then [UInt8.ofNat (v % 128)]
    else UInt8.ofNat (v % 128 + 128) :: varintLoop n (v / 128)

def gwVarintPut (v : ℕ) : Bytes := varintLoop 5 v

def varintRead : ℕ → ℕ → Bytes → Except GwErr (ℕ × Bytes)
  | i, _, [] => .error (if 5 ≤ i then .format else .short)
  | i, r, b :: rest =>
    if 5 ≤ i then .error .format
    else
      let r' := r + b.toNat % 128 * 2 ^ (7 * i)
      if b.toNat < 128 then
        if i = 4 ∧ 15 < b.toNat then .error .format else .ok (r', rest)
      else varintRead (i + 1) r' rest

def gwVarintGet : Except GwErr (ℕ × Bytes) := varintRead 0 0 b

def gwPbPutString (field : ℕ) (s : Bytes) : Bytes :=
  gwVarintPut (field * 8 + 2) ++ gwVarintPut s.length ++ s

inductive PbValue
  | varint (v : ℕ)
  | string (data : Bytes)

/-- The loop of `pb_find`; every turn reads at least one byte, so the length bounds them. -/
def pbFindLoop (field : ℕ) : ℕ → Bytes → Except GwErr (Option PbValue)
  | _, [] => .ok none
  | 0, _ => .ok none
  | n + 1, b@(_ :: _) => do
    let (key, rest) ← gwVarintGet b
    match key % 8 with
    | 0 =>
      let (v, rest) ← gwVarintGet rest
      if key / 8 = field then .ok (some (.varint v)) else pbFindLoop field n rest
    | 1 => if rest.length < 8 then .error .short else pbFindLoop field n (rest.drop 8)
    | 2 =>
      let (v, rest) ← gwVarintGet rest
      if rest.length < v then .error .short
      else if key / 8 = field then .ok (some (.string (rest.take v)))
      else pbFindLoop field n (rest.drop v)
    | 5 => if rest.length < 4 then .error .short else pbFindLoop field n (rest.drop 4)
    | _ => .error .format

def pbFind (field : ℕ) : Except GwErr (Option PbValue) :=
  pbFindLoop field b.length b

/-- `gw_pb_get_string`: the text of the field, `none` when it is absent. -/
def gwPbGetString (field cap : ℕ) : Except GwErr (Option Bytes) := do
  match ← pbFind b field with
  | none => .ok none
  | some (.varint _) => .error .format
  | some (.string d) => if cap ≤ d.length then .error .limit else .ok (some (cstr d))

/-! ## Length-prefixed message -/

def gwLpmPut (msg : Bytes) : Except GwErr Bytes :=
  fits cap (0 :: bigEndian 4 msg.length ++ msg)

def gwLpmGet : Except GwErr Bytes :=
  if b.length < 5 then .error .short
  else if b.head? ≠ some 0 then .error .format
  else
    let n := ofBigEndian ((b.drop 1).take 4)
    if b.length - 5 < n then .error .short else .ok ((b.drop 5).take n)

/-! ## Frames -/

structure Frame where
  (kind flags : UInt8)
  stream : ℕ
  payload : Bytes
  deriving DecidableEq

def h2Data : UInt8 := 0
def h2Headers : UInt8 := 1
def h2RstStream : UInt8 := 3
def h2Settings : UInt8 := 4
def h2Ping : UInt8 := 6
def h2Goaway : UInt8 := 7
def h2WindowUpdate : UInt8 := 8
def h2Continuation : UInt8 := 9

/-- `GW_H2_FLAG_END_STREAM`, and `GW_H2_FLAG_ACK` on the control frames. -/
def flagEndStream : UInt8 := 1
def flagEndHeaders : UInt8 := 4
def flagPadded : UInt8 := 8
def flagPriority : UInt8 := 32

def Frame.bytes (f : Frame) : Bytes :=
  bigEndian 3 f.payload.length ++ f.kind :: f.flags :: bigEndian 4 (f.stream % 2 ^ 31) ++ f.payload

def gwH2FramePut (f : Frame) : Except GwErr Bytes :=
  if 16384 < f.payload.length then .error .limit else fits cap f.bytes

/-- `gw_h2_frame_get`: the frame and the bytes behind it, `none` while it is not complete
(`GW_ERR_SHORT`, its only error). -/
def gwH2FrameGet : Option (Frame × Bytes) :=
  if b.length < 9 then none
  else
    let n := ofBigEndian (b.take 3)
    if b.length - 9 < n then none
    else some
      (⟨b.getD 3 0, b.getD 4 0, ofBigEndian ((b.drop 5).take 4) % 2 ^ 31, (b.drop 9).take n⟩,
        b.drop (9 + n))

/-! ## HPACK -/

def kStatic : List (Bytes × Bytes) :=
  [(":authority", ""), (":method", "GET"), (":method", "POST"), (":path", "/"),
    (":path", "/index.html"), (":scheme", "http"), (":scheme", "https"), (":status", "200"),
    (":status", "204"), (":status", "206"), (":status", "304"), (":status", "400"),
    (":status", "404"), (":status", "500"), ("accept-charset", ""),
    ("accept-encoding", "gzip, deflate"), ("accept-language", ""), ("accept-ranges", ""),
    ("accept", ""), ("access-control-allow-origin", ""), ("age", ""), ("allow", ""),
    ("authorization", ""), ("cache-control", ""), ("content-disposition", ""),
    ("content-encoding", ""), ("content-language", ""), ("content-length", ""),
    ("content-location", ""), ("content-range", ""), ("content-type", ""), ("cookie", ""),
    ("date", ""), ("etag", ""), ("expect", ""), ("expires", ""), ("from", ""), ("host", ""),
    ("if-match", ""), ("if-modified-since", ""), ("if-none-match", ""), ("if-range", ""),
    ("if-unmodified-since", ""), ("last-modified", ""), ("link", ""), ("location", ""),
    ("max-forwards", ""), ("proxy-authenticate", ""), ("proxy-authorization", ""), ("range", ""),
    ("referer", ""), ("refresh", ""), ("retry-after", ""), ("server", ""), ("set-cookie", ""),
    ("strict-transport-security", ""), ("transfer-encoding", ""), ("user-agent", ""),
    ("vary", ""), ("via", ""), ("www-authenticate", "")].map fun e => (ascii e.1, ascii e.2)

def hpIntLoop : ℕ → ℕ → Bytes
  | 0, v => [UInt8.ofNat v]
  | n + 1, v =>
    if 128 ≤ v then UInt8.ofNat (v % 128 + 128) :: hpIntLoop n (v / 128) else [UInt8.ofNat v]

/-- `hp_int_put`: a number in the low bits of a first byte, and behind it when they are too
few. -/
def hpIntPut (bits : ℕ) (first : UInt8) (v : ℕ) : Bytes :=
  let most := 2 ^ bits - 1
  if v < most then [first ||| UInt8.ofNat v]
  else (first ||| UInt8.ofNat most) :: hpIntLoop 5 (v - most)

def hpIntRead : ℕ → ℕ → Bytes → Except GwErr (ℕ × Bytes)
  | _, _, [] => .error .short
  | m, r, b :: rest =>
    if 21 < m then .error .format
    else
      let r' := r + b.toNat % 128 * 2 ^ m
      if b.toNat < 128 then .ok (r', rest) else hpIntRead (m + 7) r' rest

def hpIntGet (bits : ℕ) : Bytes → Except GwErr (ℕ × Bytes)
  | [] => .error .short
  | b :: rest =>
    let most := 2 ^ bits - 1
    let r := b.toNat % 2 ^ bits
    if r < most then .ok (r, rest) else hpIntRead 0 r rest

def hpStrPut (s : Bytes) : Bytes := hpIntPut 7 0 s.length ++ s

/-- `gw_hpack_put`: an entry of the static table, or a literal whose name may be one. -/
def gwHpackPut (name value : Bytes) : Bytes :=
  match kStatic.findIdx? fun e => e.1 = name ∧ e.2 ≠ [] ∧ e.2 = value with
  | some i => hpIntPut 7 0x80 (i + 1)
  | none =>
    match kStatic.findIdx? fun e => e.1 = name with
    | some i => hpIntPut 4 0 (i + 1) ++ hpStrPut value
    | none => hpIntPut 4 0 0 ++ hpStrPut name ++ hpStrPut value

def hpStrGet : Bytes → Except GwErr (Bytes × Bytes)
  | [] => .error .short
  | b :: rest =>
    if 128 ≤ b.toNat then .error .format
    else do
      let (l, rest) ← hpIntGet 7 (b :: rest)
      if rest.length < l then .error .short
      else if cap ≤ l then .error .limit
      else .ok (cstr (rest.take l), rest.drop l)

def hpName (idx : ℕ) (b : Bytes) : Except GwErr (Bytes × Bytes) :=
  if idx = 0 then hpStrGet 32 b
  else
    match kStatic[idx - 1]? with
    | none => .error .format
    | some e => .ok (e.1.take 31, b)

def hpackLoop (most : ℕ) : ℕ → ℕ → Bytes → Except GwErr (List (Bytes × Bytes))
  | _, _, [] => .ok []
  | 0, _, _ => .ok []
  | n + 1, count, b@(x :: _) =>
    if most ≤ count then .error .limit
    else if 128 ≤ x.toNat then do
      let (idx, rest) ← hpIntGet 7 b
      if idx = 0 then .error .format
      else
        match kStatic[idx - 1]? with
        | none => .error .format
        | some e => ((e.1.take 31, e.2.take 63) :: ·) <$> hpackLoop most n (count + 1) rest
    else if x.toNat / 32 = 1 then do
      -- a table size update, read and dropped
      let (_, rest) ← hpIntGet 5 b
      hpackLoop most n count rest
    else do
      let (idx, rest) ← hpIntGet (if x.toNat / 64 = 1 then 6 else 4) b
      let (name, rest) ← hpName idx rest
      let (value, rest) ← hpStrGet 64 rest
      ((name, value) :: ·) <$> hpackLoop most n (count + 1) rest

def gwHpackDecode (most : ℕ) : Except GwErr (List (Bytes × Bytes)) :=
  hpackLoop most b.length 0 b

def hdrFind (h : List (Bytes × Bytes)) (name : Bytes) : Option Bytes :=
  (h.find? fun e => e.1 = name).map (·.2)

def hdrBlock (kv : List (Bytes × Bytes)) : Except GwErr Bytes :=
  fits cap (kv.flatMap fun e => gwHpackPut e.1 e.2)

/-- The path of a request in an array of 64 bytes, `"/" service "/" method` as far as it fits.
The second slash is dropped when it would stand in the last place. -/
def reqPath (service method : Bytes) : Bytes :=
  let p := ascii "/" ++ service.take 61
  let p := if p.length < 62 then p ++ ascii "/" else p
  p ++ method.take (63 - p.length)

def reqBlock (service method : Bytes) : Except GwErr Bytes :=
  hdrBlock cap
    [(ascii ":method", ascii "POST"), (ascii ":scheme", ascii "http"),
      (ascii ":path", reqPath service method), (ascii ":authority", ascii "mohhdy"),
      (ascii "content-type", ascii "application/grpc"), (ascii "te", ascii "trailers")]

/-- `lpm_message`: field 1 of a protobuf message inside a length-prefixed message. -/
def lpmMessage (text : Bytes) : Except GwErr Bytes := do
  gwLpmPut cap (← fits 192 (gwPbPutString 1 text))

/-- `strip_padding`: the payload without the padding and the priority fields. -/
def stripPadding (flags : UInt8) (p : Bytes) (priorityOk : Bool) : Except GwErr Bytes := do
  let (pad, p) ← (if flags &&& flagPadded ≠ 0 then
    match p with
    | [] => .error .format
    | x :: rest => .ok (x.toNat, rest)
    else .ok (0, p))
  let p ← (if priorityOk ∧ flags &&& flagPriority ≠ 0 then
    if p.length < 5 then .error .format else .ok (p.drop 5)
    else .ok p)
  if p.length < pad then .error .proto else .ok (p.take (p.length - pad))

end Mohhdy.Grpc
