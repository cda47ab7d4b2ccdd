import Mohhdy.Net.Socket

/-! The stream that a socket delivers. A position in the stream is known by its sequence number, which comes
round every 4 GiB. -/
namespace Mohhdy.Net
set_option autoImplicit false

open Runs List

variable {n : ℕ} {r : Reading} (stream : ℕ → UInt8)

def streamUpTo (n : ℕ) : List UInt8 := (List.range n).map stream

/-- The segment is cut from the stream at position `k`, which the number `initial` starts. -/
def View.cutAt (v : View) (stream : ℕ → UInt8) (initial : UInt32) (k : ℕ) : Prop :=
  v.sequence = initial + UInt32.ofNat k ∧ v.data = (List.range v.payloadLength.toNat).map fun i => stream (k + i)

def SocketOp.cut (initial : UInt32) : SocketOp → Prop
  | .feed segment => ∀ v, tcpParse segment = .ok v → ∃ k, v.cutAt stream initial k
  | .receive _ => True
  | .receiveTls _ _ _ => False

def Reading.position (s : Slot) (r : Reading) : ℕ := r.got.length + r.slot.held.length - s.held.length

/-- In addition no segment is from another round of the sequence numbers than the byte that is next. -/
def sameRound (s : Slot) (r : Reading) : SocketOp → Prop
  | .feed segment => ∀ v, tcpParse segment = .ok v → ∃ k, v.cutAt stream s.connection.remoteSequence k ∧
    (k % 2 ^ 32 = r.position s % 2 ^ 32 → k = r.position s)
  | .receive _ => True
  | .receiveTls _ _ _ => False

/-- The reader has had, or will have next, the stream up to the number the connection is at. -/
structure Delivered (stream : ℕ → UInt8) (s : Slot) (r : Reading) : Prop where
  established : r.slot.connection.state = .established
  bytes : ∃ n, r.got ++ r.slot.held = s.held ++ streamUpTo stream n ∧
    r.slot.connection.remoteSequence = s.connection.remoteSequence + UInt32.ofNat n

theorem streamUpTo_add (n m : ℕ) :
    streamUpTo stream (n + m) = streamUpTo stream n ++ (List.range m).map fun i => stream (n + i) := by
  simp [streamUpTo, range_add]

theorem Delivered.position {stream : ℕ → UInt8} {s : Slot}
    (h : r.got ++ r.slot.held = s.held ++ streamUpTo stream n) : r.position s = n := by
  have hlen := congrArg List.length h
  simp only [length_append, streamUpTo, length_map, length_range] at hlen
  unfold Reading.position
  omega

theorem ofNat_inj_mod {k : ℕ} {a : UInt32} (h : a + UInt32.ofNat k = a + UInt32.ofNat n) :
    k % 2 ^ 32 = n % 2 ^ 32 := by
  have := congrArg UInt32.toNat ((UInt32.add_right_inj a).mp h)
  simpa using this

theorem Delivered.step {stream : ℕ → UInt8} {s : Slot} (op : SocketOp) (h : Delivered stream s r)
    (hop : sameRound stream s r op) : Delivered stream s (r.step op) := by
  obtain ⟨hs, n, hbytes, hnext⟩ := h
  cases op with
  | feed segment =>
    rcases socketFeed_cases hs segment with ⟨e, he⟩ | ⟨v, hv, htakes, hfits, hok⟩
    · simp only [Reading.step, he]
      exact ⟨hs, n, hbytes, hnext⟩
    · obtain ⟨k, ⟨hseq, hdata⟩, hround⟩ := hop v hv
      rw [Delivered.position hbytes] at hround
      have hk : k = n := hround (ofNat_inj_mod (by rw [← hseq, htakes.next, hnext]))
      subst hk
      simp only [Reading.step, hok]
      refine ⟨hs, k + v.payloadLength.toNat, ?_, ?_⟩
      · rw [Slot.setConnection_held, Slot.held_push _ _ _ _ v.covered, ← append_assoc, hbytes, streamUpTo_add,
          ← hdata, append_assoc]
        rfl
      · have hadd : UInt32.ofNat (k + v.payloadLength.toNat) = UInt32.ofNat k + v.payloadLength.toUInt32 := by
          have hlen : UInt32.ofNat v.payloadLength.toNat = v.payloadLength.toUInt32 := by
            apply UInt32.toNat_inj.mp
            simp
          rw [UInt32.ofNat_add, hlen]
        simp only [Slot.setConnection, Connection.afterData, hnext]
        rw [hadd, UInt32.add_assoc]
  | receive capacity =>
    obtain ⟨bytes, amount, hgot, -, hheld, hconn⟩ := socketReceive_spec r.slot capacity
    simp only [Reading.step, hgot]
    refine ⟨by rw [hconn, Connection.reopen_state, hs], n, ?_, ?_⟩
    · rw [append_assoc, hheld, hbytes]
    · rw [hconn, Connection.reopen_remoteSequence, hnext]
  | receiveTls session v capacity => exact absurd hop not_false

/-- Segments of the same round are delivered in order, each byte once; a segment that is refused leaves the
socket as it is. -/
theorem stream_delivered (s : Slot) (hs : s.connection.state = .established)
    (ops : List SocketOp) (h : Along Reading.step (sameRound stream s) ⟨s, []⟩ ops) :
    let r := run Reading.step ⟨s, []⟩ ops
    (∃ n, r.got ++ r.slot.held = s.held ++ streamUpTo stream n ∧
      r.slot.connection.remoteSequence = s.connection.remoteSequence + UInt32.ofNat n) ∧
    ∀ segment e, (socketFeed r.slot segment).2 = .error e → (socketFeed r.slot segment).1 = r.slot := by
  have hstart : Delivered stream s ⟨s, []⟩ := ⟨hs, 0, by simp [streamUpTo], by simp⟩
  have hr := run_invariant (fun r op hr hop => hr.step op hop) hstart h
  refine ⟨hr.bytes, fun segment e he => ?_⟩
  rcases socketFeed_cases hr.established segment with ⟨e', he'⟩ | ⟨v, -, -, _, hok⟩
  · rw [he']
  · rw [hok] at he
    cases he

/-! ## Segments of one byte -/

def byteSegment (sequence : UInt32) (b : UInt8) : List UInt8 :=
  [0, 2, 0, 1] ++ (put32 sequence ++ [0, 0, 0, 5, 0x50, 0x10, 0, 0, 0, 0, 0, 0, b])

theorem tcpParse_byte (sequence : UInt32) (b : UInt8) :
    tcpParse (byteSegment sequence b) = .ok ⟨2, 1, sequence, 5, flagAck, [b], 1, le_rfl⟩ := by
  have hseq : get32 ((byteSegment sequence b).drop 4) = sequence := get32_put32 sequence _
  have hlen : (byteSegment sequence b).length = 21 := rfl
  have hwords : (byteSegment sequence b).getD 12 0 = 0x50 := rfl
  have hsource : get16 (byteSegment sequence b) = 2 := by
    change get16 [0, 2] = 2
    decide
  have hdest : get16 ((byteSegment sequence b).drop 2) = 1 := by
    change get16 [0, 1] = 1
    decide
  have hack : get32 ((byteSegment sequence b).drop 8) = 5 := by
    change get32 [0, 0, 0, 5] = 5
    decide
  have hflags : (byteSegment sequence b).getD 13 0 = flagAck := rfl
  have hsize : ((0x50 : UInt8) >>> 4).toNat * 4 = 20 := by decide
  have hpayload : (byteSegment sequence b).drop 20 = [b] := rfl
  simp only [tcpParse, hlen, hwords, hsource, hdest, hseq, hack, hflags, hsize, hpayload]
  rfl

theorem byteSegment_cutAt {stream : ℕ → UInt8} {b : UInt8} (k : ℕ) (hb : b = stream k) (v : View)
    (hv : tcpParse (byteSegment (7 + UInt32.ofNat k) b) = .ok v) : v.cutAt stream 7 k := by
  rw [tcpParse_byte] at hv
  cases hv
  exact ⟨rfl, by simp [View.data, hb]⟩

theorem byteSegment_sameRound {stream : ℕ → UInt8} {b : UInt8} (k : ℕ) (hb : b = stream k) (hk : k < 2 ^ 32)
    (hr : r.position freshSlot < 2 ^ 32) :
    sameRound stream freshSlot r (.feed (byteSegment (7 + UInt32.ofNat k) b)) := by
  intro v hv
  refine ⟨k, byteSegment_cutAt k hb v hv, fun hmod => ?_⟩
  rwa [Nat.mod_eq_of_lt hk, Nat.mod_eq_of_lt hr] at hmod

def hiStream (k : ℕ) : UInt8 := if k = 0 then 104 else 105

/-- The second byte comes too early, the first one twice, and after a call that reads the second one again. -/
def disorder : List SocketOp :=
  [.feed (byteSegment 8 105), .feed (byteSegment 7 104), .feed (byteSegment 7 104), .receive 1,
    .feed (byteSegment 8 105)]

theorem stream_delivered_disorder : let r := run Reading.step ⟨freshSlot, []⟩ disorder
    r.got ++ r.slot.held = [104, 105] ∧
    (∃ n, r.got ++ r.slot.held = freshSlot.held ++ streamUpTo hiStream n ∧
      r.slot.connection.remoteSequence = freshSlot.connection.remoteSequence + UInt32.ofNat n) ∧
    ∀ segment e, (socketFeed r.slot segment).2 = .error e → (socketFeed r.slot segment).1 = r.slot := by
  refine ⟨by decide +kernel, stream_delivered hiStream freshSlot rfl _ ⟨?_, ?_, ?_, trivial, ?_, trivial⟩⟩
  · exact byteSegment_sameRound 1 rfl (by decide) (by decide +kernel)
  · exact byteSegment_sameRound 0 rfl (by decide) (by decide +kernel)
  · exact byteSegment_sameRound 0 rfl (by decide) (by decide +kernel)
  · exact byteSegment_sameRound 1 rfl (by decide) (by decide +kernel)

/-! ## The second round -/

abbrev zeroByte (sequence : UInt32) : List UInt8 := byteSegment sequence 0

def roundLength : ℕ := 2 ^ 32

def secondRound (k : ℕ) : UInt8 := if k = roundLength then 1 else 0

def lap (k : ℕ) : List SocketOp := [.feed (zeroByte (7 + UInt32.ofNat k)), .receive 1]

def lapsAndCopy : List SocketOp := (List.range roundLength).flatMap lap ++ [.feed (zeroByte 7)]

def lapped (n : ℕ) : Connection := ⟨1, 2, 5, 7 + UInt32.ofNat n, none, 0, 0, 0, 65535, .established⟩

structure Ready (n : ℕ) (r : Reading) : Prop where
  used : r.slot.used = true
  connection : r.slot.connection = lapped n
  length : r.slot.receiveLength = 0
  offset : r.slot.receiveOffset = 0
  got : r.got = List.replicate n 0

theorem Ready.held (h : Ready n r) : r.slot.held = [] := by
  apply eq_nil_of_length_eq_zero
  rw [r.slot.length_held, h.length]
  exact Nat.zero_sub _

theorem Ready.feed (h : Ready n r) : ∃ hfits, socketFeed r.slot (zeroByte (7 + UInt32.ofNat n)) =
      ((r.slot.push [0] 1 hfits).setConnection ((lapped n).afterData 1), .ok ()) := by
  have hfits : (1 : UInt16) ≤ r.slot.available := by
    rw [Slot.available, h.length]
    decide
  have htakes : r.slot.connection.Takes ⟨2, 1, 7 + UInt32.ofNat n, 5, flagAck, [0], 1, by decide⟩ := by
    rw [h.connection]
    exact ⟨rfl, ⟨rfl, rfl⟩, (by decide : hasFlag flagAck flagAck = true), rfl, by simp [lapped], by simp [lapped]⟩
  refine ⟨hfits, ?_⟩
  rw [socketFeed_of_takes h.used (tcpParse_byte _ _) htakes hfits, h.connection]

theorem reopen_lapped (n : ℕ) : ((lapped n).afterData 1).reopen 1 = lapped (n + 1) := by
  have hnext : 7 + UInt32.ofNat n + (1 : UInt16).toUInt32 = 7 + UInt32.ofNat (n + 1) := by
    rw [UInt32.ofNat_add, UInt32.add_assoc]
    rfl
  simp only [Connection.afterData, lapped, hnext]
  rfl

theorem Ready.lap (h : Ready n r) : Ready (n + 1) (run Reading.step r (lap n)) := by
  obtain ⟨hfits, hfeed⟩ := h.feed
  have hreceive : socketReceive ((r.slot.push [0] 1 hfits).setConnection ((lapped n).afterData 1)) 1 =
      (((r.slot.push [0] 1 hfits).setConnection ((lapped n).afterData 1)).emptied.setConnection (lapped (n + 1)),
        .ok [0]) := by
    rw [socketReceive_all (by exact h.used), Slot.setConnection_held, Slot.held_push _ _ _ _ (by simp), h.held]
    · rw [← reopen_lapped]
      rfl
    · simp only [Slot.setConnection, Slot.push, h.length, h.offset]
      decide
  simp only [Net.lap, run_cons, run_nil, Reading.step, hfeed, hreceive]
  exact ⟨h.used, rfl, rfl, rfl, by simp [Except.toOption, h.got, replicate_succ']⟩

theorem Ready.copied (h : Ready n r) : (r.step (.feed (zeroByte (7 + UInt32.ofNat n)))).got ++
      (r.step (.feed (zeroByte (7 + UInt32.ofNat n)))).slot.held = List.replicate n 0 ++ [0] := by
  obtain ⟨hfits, hfeed⟩ := h.feed
  simp only [Reading.step, hfeed, Slot.setConnection_held]
  rw [Slot.held_push _ _ _ _ (by simp), h.held, h.got]
  rfl

theorem Ready.laps (n : ℕ) : Ready n (run Reading.step ⟨freshSlot, []⟩ ((List.range n).flatMap Net.lap)) := by
  induction n with
  | zero => exact ⟨rfl, by simp [freshSlot, lapped], rfl, rfl, rfl⟩
  | succ n ih =>
    rw [range_succ, flatMap_append, flatMap_singleton, run_append]
    exact ih.lap

/-- With the copy the reader gets a byte that the stream does not have in that place. -/
theorem copy_delivered : (∀ op ∈ lapsAndCopy, op.cut secondRound freshSlot.connection.remoteSequence) ∧
    let r := run Reading.step ⟨freshSlot, []⟩ lapsAndCopy
    ¬∃ n, r.got ++ r.slot.held = freshSlot.held ++ streamUpTo secondRound n ∧
      r.slot.connection.remoteSequence = freshSlot.connection.remoteSequence + UInt32.ofNat n := by
  refine ⟨?_, ?_⟩
  · intro op hop
    rcases mem_append.mp hop with hop | hop
    · obtain ⟨k, hk, hop⟩ := mem_flatMap.mp hop
      rcases mem_pair.mp hop with rfl | rfl
      · exact fun v hv => ⟨k, byteSegment_cutAt k (if_neg (mem_range.mp hk).ne).symm v hv⟩
      · trivial
    · rw [mem_singleton.mp hop]
      exact fun v hv => ⟨0, byteSegment_cutAt 0 rfl v hv⟩
  · have hround : (7 : UInt32) = 7 + UInt32.ofNat roundLength := by decide
    have hcopied := (Ready.laps roundLength).copied
    rw [← hround] at hcopied
    intro r hr
    obtain ⟨n, hbytes, -⟩ := hr
    have hrun : r = (run Reading.step ⟨freshSlot, []⟩ ((List.range roundLength).flatMap lap)).step
        (.feed (zeroByte 7)) := run_append
    rw [hrun, hcopied, show freshSlot.held = [] from rfl, nil_append] at hbytes
    have hlen : n = roundLength + 1 := by
      have := congrArg List.length hbytes
      simpa [streamUpTo] using this.symm
    rw [hlen, streamUpTo_add] at hbytes
    have hlast := (append_inj' hbytes rfl).2
    simp [secondRound] at hlast

end Mohhdy.Net
