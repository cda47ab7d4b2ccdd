import Mohhdy.Net.Tls
import Mohhdy.Foundations.Buffers
import Mohhdy.Foundations.Runs

/-! A socket (net_socket.c): a connection with a buffer of 4 KiB between the segments that come in and the
reader. -/
namespace Mohhdy.Net
set_option autoImplicit false

open Words Buffers List

def rxCapacity : ℕ := 4096

/-- The buffer holds what came in up to `receiveLength`, and the reader has had it up to `receiveOffset`. -/
structure Slot where
  used : Bool
  connection : Connection
  receiveBuffer : Block rxCapacity
  (receiveLength receiveOffset : UInt16)
  offset_le : receiveOffset.toNat ≤ receiveLength.toNat
  length_le : receiveLength.toNat ≤ rxCapacity

namespace Slot

variable (s : Slot)

def held : List UInt8 := Buffers.held s.receiveBuffer.val s.receiveOffset.toNat s.receiveLength.toNat

theorem length_held : s.held.length = s.receiveLength.toNat - s.receiveOffset.toNat := by
  have hlen := s.receiveBuffer.property
  have hle := s.length_le
  rw [held, Buffers.held, length_take, length_drop]
  omega

def setConnection (c : Connection) : Slot := { s with connection := c }

@[simp] theorem setConnection_held (c : Connection) : (s.setConnection c).held = s.held := rfl

def available : UInt16 := UInt16.ofNat rxCapacity - s.receiveLength

theorem toNat_available : s.available.toNat = rxCapacity - s.receiveLength.toNat := by
  have h := s.length_le
  rw [available, UInt16.toNat_sub_of_le _ _ (UInt16.le_iff_toNat_le.mpr h)]
  rfl

theorem toNat_push {accepted : UInt16} (h : accepted ≤ s.available) :
    (s.receiveLength + accepted).toNat = s.receiveLength.toNat + accepted.toNat ∧
      s.receiveLength.toNat + accepted.toNat ≤ rxCapacity := by
  have hle := s.length_le
  rw [UInt16.le_iff_toNat_le, toNat_available] at h
  rw [UInt16.toNat_add]
  simp only [rxCapacity] at *
  omega

def push (payload : List UInt8) (accepted : UInt16) (h : accepted ≤ s.available) : Slot where
  used := s.used
  connection := s.connection
  receiveBuffer := ⟨copyIn (payload.getD · 0) s.receiveLength.toNat accepted.toNat s.receiveBuffer.val, by
    rw [length_copyIn, s.receiveBuffer.property]⟩
  receiveLength := s.receiveLength + accepted
  receiveOffset := s.receiveOffset
  offset_le := by
    rw [(s.toNat_push h).1]
    exact s.offset_le.trans (Nat.le_add_right _ _)
  length_le := by
    rw [(s.toNat_push h).1]
    exact (s.toNat_push h).2

theorem held_push (payload : List UInt8) (accepted : UInt16) (h : accepted ≤ s.available)
    (hlen : accepted.toNat ≤ payload.length) :
    (s.push payload accepted h).held = s.held ++ payload.take accepted.toNat := by
  have hroom := s.toNat_push h
  have hbytes : (List.range accepted.toNat).map (fun i => payload.getD i 0) = payload.take accepted.toNat := by
    refine ext_getElem (by simp [hlen]) fun i hi _ => ?_
    simp only [length_map, length_range] at hi
    rw [getElem_map, getElem_range, getElem_take, getD_eq_getElem _ _ (by omega)]
  rw [held, ← hbytes]
  simp only [push, hroom.1]
  exact held_copyIn _ s.offset_le (by rw [s.receiveBuffer.property]; exact hroom.2)

theorem toNat_pop {amount : UInt16} (h : amount ≤ s.receiveLength - s.receiveOffset) :
    (s.receiveOffset + amount).toNat = s.receiveOffset.toNat + amount.toNat ∧
      (s.receiveLength - (s.receiveOffset + amount)).toNat =
        s.receiveLength.toNat - (s.receiveOffset + amount).toNat ∧
      s.receiveOffset.toNat + amount.toNat ≤ s.receiveLength.toNat := by
  have hle := s.offset_le
  have hlt := s.receiveLength.toNat_lt
  rw [UInt16.le_iff_toNat_le, UInt16.toNat_sub_of_le _ _ (UInt16.le_iff_toNat_le.mpr hle)] at h
  have hsum : (s.receiveOffset + amount).toNat = s.receiveOffset.toNat + amount.toNat := by
    rw [UInt16.toNat_add]
    omega
  refine ⟨hsum, UInt16.toNat_sub_of_le _ _ (UInt16.le_iff_toNat_le.mpr ?_), ?_⟩
  · rw [hsum]
    omega
  · omega

def emptied : Slot :=
  { s with receiveLength := 0, receiveOffset := 0, offset_le := le_rfl, length_le := Nat.zero_le _ }

@[simp] theorem held_emptied : s.emptied.held = [] := by simp [emptied, held, Buffers.held]

def pop (amount : UInt16) (h : amount ≤ s.receiveLength - s.receiveOffset) : Slot :=
  let offset := s.receiveOffset + amount
  if offset = s.receiveLength then s.emptied
  else if 0 < offset then
    { s with
      receiveBuffer := ⟨moveDown 0 offset.toNat (s.receiveLength - offset).toNat s.receiveBuffer.val, by
        rw [length_moveDown, s.receiveBuffer.property]⟩
      receiveLength := s.receiveLength - offset
      receiveOffset := 0
      offset_le := Nat.zero_le _
      length_le := by
        rw [(s.toNat_pop h).2.1]
        exact (Nat.sub_le _ _).trans s.length_le }
  else s

theorem held_pop (amount : UInt16) (h : amount ≤ s.receiveLength - s.receiveOffset) :
    (List.range amount.toNat).map (fun i => s.receiveBuffer.val.getD (s.receiveOffset.toNat + i) 0) ++
      (s.pop amount h).held = s.held := by
  obtain ⟨hsum, hrest, hle⟩ := s.toNat_pop h
  have hsize : s.receiveLength.toNat ≤ s.receiveBuffer.val.length := by
    rw [s.receiveBuffer.property]
    exact s.length_le
  have hleft : (s.pop amount h).held =
      Buffers.held s.receiveBuffer.val (s.receiveOffset.toNat + amount.toNat) s.receiveLength.toNat := by
    simp only [pop]
    split_ifs with hall hmoved
    · -- everything was read
      rw [held_emptied, ← hsum, hall]
      simp [Buffers.held]
    · have h0 : 0 < (s.receiveOffset + amount).toNat := by simpa [UInt16.lt_iff_toNat_lt] using hmoved
      simp only [held, hrest, UInt16.toNat_zero]
      rw [held_moveDown 0 h0 (by omega) hsize, hsum]
    · have h0 : (s.receiveOffset + amount).toNat = 0 := by
        simpa [UInt16.lt_iff_toNat_lt] using hmoved
      rw [held, show s.receiveOffset.toNat + amount.toNat = s.receiveOffset.toNat by omega]
  rw [hleft]
  exact held_split _ hle hsize 0

end Slot

/-! ## Calls -/

inductive SocketErr where
  | badArgument | notConnected | bufferSmall | protocol
deriving DecidableEq

def feedData (s : Slot) (v : View) : Slot × Except SocketErr Unit :=
  if s.available < v.payloadLength then (s, .error .bufferSmall)
  else
    match connectionAcceptData s.connection v with
    | .error _ => (s, .error .protocol)
    | .ok (c, accepted) =>
      if h : accepted ≤ s.available then ((s.push v.payload accepted h).setConnection c, .ok ())
      else (s.setConnection c, .error .bufferSmall)

def socketFeed (s : Slot) (segment : List UInt8) : Slot × Except SocketErr Unit :=
  if s.used = false then (s, .error .badArgument)
  else
    match tcpParse segment with
    | .error _ => (s, .error .protocol)
    | .ok v =>
      if s.connection.state = .listen then
        match connectionAcceptSyn s.connection v with
        | .error _ => (s, .error .protocol)
        | .ok c => (s.setConnection c, .ok ())
      else if s.connection.state = .synReceived then
        match connectionAcceptAck s.connection v with
        | .error _ => (s, .error .protocol)
        | .ok c => if v.payloadLength = 0 then (s.setConnection c, .ok ()) else feedData (s.setConnection c) v
      else feedData s v

def Connection.reopen (c : Connection) (amount : UInt16) : Connection :=
  if 0 < amount then { c with receiveWindow := UInt16.ofNat (min 0xffff (c.receiveWindow.toNat + amount.toNat)) }
  else c

def Slot.amount (s : Slot) (capacity : UInt16) : UInt16 :=
  if s.receiveLength - s.receiveOffset < capacity then s.receiveLength - s.receiveOffset else capacity

theorem Slot.amount_le (s : Slot) (capacity : UInt16) : s.amount capacity ≤ s.receiveLength - s.receiveOffset := by
  unfold Slot.amount
  split_ifs with h
  · exact UInt16.le_refl _
  · exact UInt16.not_lt.mp h

def socketReceive (s : Slot) (capacity : UInt16) : Slot × Except SocketErr (List UInt8) :=
  if s.used = false then (s, .error .badArgument)
  else
    let amount := s.amount capacity
    let bytes := (List.range amount.toNat).map fun i => s.receiveBuffer.val.getD (s.receiveOffset.toNat + i) 0
    ((s.pop amount (s.amount_le capacity)).setConnection (s.connection.reopen amount), .ok bytes)

def socketReceiveTls (s : Slot) (session : TlsSession) (v : View) (plaintextCapacity : UInt16) :
    Slot × Except SocketErr (TlsSession × TlsRecord) :=
  if s.used = false then (s, .error .badArgument)
  else if s.connection.state ≠ .established then (s, .error .notConnected)
  else
    match connectionAcceptTlsAesGcm s.connection session v plaintextCapacity with
    | .error _ => (s, .error .protocol)
    | .ok (c, session', out) => (s.setConnection c, .ok (session', out))

/-! ## What a call does to a socket that is established -/

theorem feedData_cases (s : Slot) (v : View) :
    (∃ e, feedData s v = (s, .error e)) ∨ (s.connection.Takes v ∧
      ∃ h, feedData s v = ((s.push v.payload v.payloadLength h).setConnection
        (s.connection.afterData v.payloadLength), .ok ())) := by
  unfold feedData
  split_ifs with hroom
  · exact .inl ⟨_, rfl⟩
  · rcases connectionAcceptData_cases s.connection v with ⟨-, e, he⟩ | ⟨htakes, hok⟩
    · rw [he]
      exact .inl ⟨_, rfl⟩
    · have hfits : v.payloadLength ≤ s.available := UInt16.not_lt.mp hroom
      refine .inr ⟨htakes, hfits, ?_⟩
      simp only [hok, dif_pos hfits]

theorem socketFeed_cases {s : Slot} (hs : s.connection.state = .established) (segment : List UInt8) :
    (∃ e, socketFeed s segment = (s, .error e)) ∨ ∃ v, tcpParse segment = .ok v ∧ s.connection.Takes v ∧
      ∃ h, socketFeed s segment = ((s.push v.payload v.payloadLength h).setConnection
        (s.connection.afterData v.payloadLength), .ok ()) := by
  unfold socketFeed
  split
  · exact .inl ⟨_, rfl⟩
  · cases hv : tcpParse segment with
    | error e => exact .inl ⟨_, rfl⟩
    | ok v =>
      simp only [hs, reduceCtorEq, if_false]
      rcases feedData_cases s v with he | htaken
      · exact .inl he
      · exact .inr ⟨v, rfl, htaken⟩

theorem socketFeed_of_takes {s : Slot} {segment : List UInt8} {v : View} (hused : s.used = true)
    (hv : tcpParse segment = .ok v) (ht : s.connection.Takes v) (hfits : v.payloadLength ≤ s.available) :
    socketFeed s segment = ((s.push v.payload v.payloadLength hfits).setConnection
      (s.connection.afterData v.payloadLength), .ok ()) := by
  rcases connectionAcceptData_cases s.connection v with ⟨hno, -⟩ | ⟨-, hok⟩
  · exact absurd ht hno
  · simp only [socketFeed, hused, hv, ht.established, feedData, hok, if_neg (UInt16.not_lt.mpr hfits), dif_pos hfits]
    rfl

theorem socketReceive_all {s : Slot} {capacity : UInt16} (hused : s.used = true)
    (h : s.receiveLength - s.receiveOffset = capacity) :
    socketReceive s capacity = (s.emptied.setConnection (s.connection.reopen capacity), .ok s.held) := by
  have hamount : s.amount capacity = capacity := by
    rw [Slot.amount, h, if_neg (UInt16.lt_irrefl _)]
  have hpop : s.pop (s.amount capacity) (s.amount_le capacity) = s.emptied := by
    refine if_pos ?_
    rw [hamount, ← h, UInt16.add_comm, UInt16.sub_add_cancel]
  have hheld := s.held_pop (s.amount capacity) (s.amount_le capacity)
  rw [hpop, Slot.held_emptied, append_nil] at hheld
  simp only [socketReceive, hused, hpop, hheld]
  rw [hamount]
  rfl

theorem socketReceive_spec (s : Slot) (capacity : UInt16) :
    ∃ bytes : List UInt8, ∃ amount : UInt16, (socketReceive s capacity).2.toOption.getD [] = bytes ∧
      bytes.length = amount.toNat ∧ bytes ++ (socketReceive s capacity).1.held = s.held ∧
      (socketReceive s capacity).1.connection = s.connection.reopen amount := by
  unfold socketReceive
  split_ifs
  · exact ⟨[], 0, rfl, rfl, rfl, rfl⟩
  · refine ⟨_, s.amount capacity, rfl, by simp [Except.toOption], ?_, rfl⟩
    exact s.held_pop _ (s.amount_le capacity)

@[simp] theorem Connection.reopen_state (c : Connection) (amount : UInt16) : (c.reopen amount).state = c.state := by
  unfold Connection.reopen
  split_ifs <;> rfl

@[simp] theorem Connection.reopen_remoteSequence (c : Connection) (amount : UInt16) :
    (c.reopen amount).remoteSequence = c.remoteSequence := by
  unfold Connection.reopen
  split_ifs <;> rfl

def freshSlot : Slot :=
  ⟨true, ⟨1, 2, 5, 7, none, 0, 0, 0, 65535, .established⟩, Block.zero rxCapacity, 0, 0, le_rfl, Nat.zero_le _⟩

/-! ## Steps -/

inductive SocketOp where
  | feed (segment : List UInt8)
  | receive (capacity : UInt16)
  | receiveTls (session : TlsSession) (v : View) (plaintextCapacity : UInt16)

structure Reading where
  slot : Slot
  got : List UInt8

def Reading.step (r : Reading) : SocketOp → Reading
  | .feed segment => ⟨(socketFeed r.slot segment).1, r.got⟩
  | .receive capacity =>
    ⟨(socketReceive r.slot capacity).1, r.got ++ (socketReceive r.slot capacity).2.toOption.getD []⟩
  | .receiveTls session v plaintextCapacity => ⟨(socketReceiveTls r.slot session v plaintextCapacity).1, r.got⟩

end Mohhdy.Net
