import Mohhdy.Foundations.Words

/-! TCP connections (net_tcp.c): reading a segment, and what a connection takes from it. -/
namespace Mohhdy.Net
set_option autoImplicit false

/-! ## Segments -/

def get16 (b : List UInt8) : UInt16 := (b.getD 0 0).toUInt16 <<< 8 ||| (b.getD 1 0).toUInt16

def get32 (b : List UInt8) : UInt32 :=
  (b.getD 0 0).toUInt32 <<< 24 ||| (b.getD 1 0).toUInt32 <<< 16 ||| (b.getD 2 0).toUInt32 <<< 8 |||
    (b.getD 3 0).toUInt32

def put32 (v : UInt32) : List UInt8 :=
  [(v >>> 24).toUInt8, (v >>> 16).toUInt8, (v >>> 8).toUInt8, v.toUInt8]

theorem get32_put32 (v : UInt32) (rest : List UInt8) : get32 (put32 v ++ rest) = v := by
  apply UInt32.toBitVec_inj.mp
  ext i hi
  simp [get32, put32, -UInt32.toUInt32_toUInt8]
  grind

def tcpHeaderSize : ℕ := 20

def flagSyn : UInt8 := 0x02
def flagRst : UInt8 := 0x04
def flagAck : UInt8 := 0x10

def hasFlag (flags flag : UInt8) : Bool := flags &&& flag ≠ 0

/-- A segment as read. `payload` is what stands behind its header, of which `payloadLength` bytes count. -/
structure View where
  (sourcePort destinationPort : UInt16)
  (sequence acknowledgment : UInt32)
  flags : UInt8
  payload : List UInt8
  payloadLength : UInt16
  covered : payloadLength.toNat ≤ payload.length
deriving DecidableEq

def View.data (v : View) : List UInt8 := v.payload.take v.payloadLength.toNat

inductive ParseErr where
  | short | header | port
deriving DecidableEq

/-- The length is that of the segment: callers give a 16-bit one. -/
def tcpParse (segment : List UInt8) : Except ParseErr View :=
  if segment.length < tcpHeaderSize then .error .short
  else
    let headerWords := segment.getD 12 0 >>> 4
    let headerSize := headerWords.toNat * 4
    if headerWords < 5 ∨ segment.length < headerSize then .error .header
    else if get16 segment = 0 ∨ get16 (segment.drop 2) = 0 then .error .port
    else .ok {
      sourcePort := get16 segment
      destinationPort := get16 (segment.drop 2)
      sequence := get32 (segment.drop 4)
      acknowledgment := get32 (segment.drop 8)
      flags := segment.getD 13 0 &&& 0x3f
      payload := segment.drop headerSize
      payloadLength := UInt16.ofNat (segment.length - headerSize)
      covered := by
        rw [UInt16.toNat_ofNat', List.length_drop]
        exact Nat.mod_le _ _ }

/-! ## Connections -/

inductive TcpState where
  | closed | synSent | established | finWait1 | finWait2 | closeWait | lastAck | listen | synReceived
deriving DecidableEq

structure Connection where
  (localPort remotePort : UInt16)
  (localSequence remoteSequence : UInt32)
  pendingPayload : Option (List UInt8)
  pendingLength : UInt16
  (retransmitCount retransmitLimit : UInt8)
  receiveWindow : UInt16
  state : TcpState
deriving DecidableEq

inductive TcpErr where
  | state | refused | order
deriving DecidableEq

variable (c : Connection) (v : View)

def Connection.between : Prop :=
  v.sourcePort = c.remotePort ∧ v.destinationPort = c.localPort

instance : Decidable (c.between v) :=
  inferInstanceAs (Decidable (_ ∧ _))

def Connection.afterData (length : UInt16) : Connection :=
  { c with
    remoteSequence := c.remoteSequence + length.toUInt32
    receiveWindow := c.receiveWindow - length }

def connectionAcceptData : Except TcpErr (Connection × UInt16) :=
  if c.state ≠ .established then .error .state
  else if ¬c.between v ∨ hasFlag v.flags flagAck = false ∨ v.sequence ≠ c.remoteSequence ∨
      v.acknowledgment > c.localSequence ∨ v.payloadLength > c.receiveWindow then .error .refused
  else .ok (c.afterData v.payloadLength, v.payloadLength)

/-- The segment is for this connection, next in its stream and within the window. -/
structure Connection.Takes (c : Connection) (v : View) : Prop where
  established : c.state = .established
  between : c.between v
  flag : hasFlag v.flags flagAck = true
  next : v.sequence = c.remoteSequence
  ack : v.acknowledgment ≤ c.localSequence
  window : v.payloadLength ≤ c.receiveWindow

theorem connectionAcceptData_cases : (¬c.Takes v ∧ ∃ e, connectionAcceptData c v = .error e) ∨
    (c.Takes v ∧ connectionAcceptData c v = .ok (c.afterData v.payloadLength, v.payloadLength)) := by
  unfold connectionAcceptData
  split_ifs with hstate hguard
  · exact .inl ⟨fun h => hstate h.established, _, rfl⟩
  · refine .inl ⟨fun h => ?_, _, rfl⟩
    rcases hguard with hb | hf | hs | ha | hw
    · exact hb h.between
    · exact absurd h.flag (by simp [hf])
    · exact hs h.next
    · exact UInt32.not_lt.mpr h.ack ha
    · exact UInt16.not_lt.mpr h.window hw
  · simp only [not_or, not_not, gt_iff_lt, UInt16.not_lt, UInt32.not_lt, Bool.not_eq_false] at hstate hguard
    obtain ⟨hb, hf, hs, ha, hw⟩ := hguard
    exact .inr ⟨⟨hstate, hb, hf, hs, ha, hw⟩, rfl⟩

def connectionAcceptSyn : Except TcpErr Connection :=
  if c.state ≠ .listen ∨ v.sourcePort = 0 ∨ v.destinationPort ≠ c.localPort ∨
      hasFlag v.flags flagSyn = false ∨ hasFlag v.flags flagAck = true then .error .state
  else .ok { c with remotePort := v.sourcePort, remoteSequence := v.sequence + 1, state := .synReceived }

inductive SegmentClass where
  | inOrder | foreign | duplicate | future | overlap
deriving DecidableEq

def Connection.start : ℤ := (v.sequence - c.remoteSequence).toBitVec.toInt

def connectionClassifySegment : SegmentClass :=
  if ¬c.between v then .foreign
  else if c.state ≠ .established then .inOrder
  else if hasFlag v.flags flagRst = true then .inOrder
  else if hasFlag v.flags flagSyn = true then .duplicate
  else if c.start v = 0 then .inOrder
  else if 0 < c.start v then .future
  else if c.start v + v.payloadLength.toNat ≤ 0 then .duplicate
  else .overlap

def View.trimmed (delta sequence : UInt32) (h : delta < v.payloadLength.toUInt32) : View :=
  { v with
    payload := v.payload.drop delta.toNat
    payloadLength := (v.payloadLength.toUInt32 - delta).toUInt16
    sequence := sequence
    covered := by
      have hlt : delta.toNat < v.payloadLength.toNat := by simpa [UInt32.lt_iff_toNat_lt] using h
      have hc := v.covered
      rw [UInt32.toNat_toUInt16, UInt32.toNat_sub_of_le _ _ (UInt32.le_of_lt h), List.length_drop,
        UInt16.toNat_toUInt32]
      exact (Nat.mod_le _ _).trans (by omega) }

def connectionTrimSegment : Except TcpErr View :=
  if connectionClassifySegment c v ≠ .overlap then .error .refused
  else
    let delta := c.remoteSequence - v.sequence
    if delta = 0 then .error .order
    else if h : delta < v.payloadLength.toUInt32 then .ok (v.trimmed delta c.remoteSequence h)
    else .error .order

def Connection.clearPending : Connection :=
  { c with pendingPayload := none, pendingLength := 0, retransmitCount := 0, retransmitLimit := 0 }

def Connection.setState (state : TcpState) : Connection := { c with state := state }

def Connection.settle : Connection := if c.pendingLength ≠ 0 then c.clearPending else c

def Connection.establish : Connection :=
  { c with localSequence := c.localSequence + 1, state := .established }

def connectionAcceptAck : Except TcpErr Connection :=
  if c.state ≠ .established ∧ c.state ≠ .finWait1 ∧ c.state ≠ .synReceived then .error .state
  else if ¬c.between v ∨ hasFlag v.flags flagAck = false then .error .refused
  else if c.state = .synReceived then
    if v.sequence ≠ c.remoteSequence ∨ v.acknowledgment ≠ c.localSequence + 1 then .error .order
    else .ok c.establish
  else if v.acknowledgment > c.localSequence then .error .refused
  else if c.pendingLength ≠ 0 ∧ v.acknowledgment < c.localSequence then .error .order
  else if c.state = .finWait1 ∧ v.acknowledgment = c.localSequence then
    .ok (c.settle.setState .finWait2)
  else .ok c.settle

end Mohhdy.Net
