import Mohhdy.Net.Socket

/-! The receive window of a socket. Data takes from it what the reader gives back, but for records that are
opened on the way: these never pass through the buffer, and nobody gives their bytes back. -/
namespace Mohhdy.Net
set_option autoImplicit false

open Words Runs

def Slot.conserves (s : Slot) : Prop := s.connection.receiveWindow.toNat + s.held.length = 65535

instance (s : Slot) : Decidable s.conserves := inferInstanceAs (Decidable (_ = _))

def View.wholeRecord (v : View) : Prop := (tlsRecordParseStream v.data).map Prod.snd = some v.payloadLength

/-- A record is opened on the way: the connection takes its segment and the session its text. -/
def opens (s : Slot) : SocketOp → Prop
  | .receiveTls session v plaintextCapacity => s.used = true ∧ v.wholeRecord ∧ s.connection.Takes v ∧
    (sessionOpen session v.data plaintextCapacity).isSome = true
  | _ => False

theorem acceptTls_cases (c : Connection) (session : TlsSession) (v : View) (capacity : UInt16) :
    (¬(v.wholeRecord ∧ c.Takes v ∧ (sessionOpen session v.data capacity).isSome = true) ∧
      ∃ e, connectionAcceptTlsAesGcm c session v capacity = .error e) ∨
    ((v.wholeRecord ∧ c.Takes v ∧ (sessionOpen session v.data capacity).isSome = true) ∧
      ∃ out, connectionAcceptTlsAesGcm c session v capacity = .ok (c.afterData v.payloadLength, out)) := by
  unfold connectionAcceptTlsAesGcm View.wholeRecord
  cases hparse : tlsRecordParseStream v.data with
  | none => exact .inl ⟨by simp, _, rfl⟩
  | some rc =>
    obtain ⟨record, consumed⟩ := rc
    simp only [Option.map_some, Option.some.injEq]
    split_ifs with hlen
    · exact .inl ⟨fun h => hlen h.1, _, rfl⟩
    · rw [not_not] at hlen
      rcases connectionAcceptData_cases c v with ⟨hno, e, he⟩ | ⟨htakes, hok⟩
      · rw [he]
        exact .inl ⟨fun h => hno h.2.1, _, rfl⟩
      · simp only [hok, ← hlen, ne_eq, not_true, if_false]
        cases hopen : sessionOpen session v.data capacity with
        | none => exact .inl ⟨by simp, _, rfl⟩
        | some out => exact .inr ⟨⟨trivial, htakes, rfl⟩, out, rfl⟩

theorem receiveTls_cases (s : Slot) (session : TlsSession) (v : View) (capacity : UInt16) :
    (¬opens s (.receiveTls session v capacity) ∧ (socketReceiveTls s session v capacity).1 = s) ∨
    (opens s (.receiveTls session v capacity) ∧ s.connection.Takes v ∧ v.wholeRecord ∧
      (socketReceiveTls s session v capacity).1 = s.setConnection (s.connection.afterData v.payloadLength)) := by
  unfold socketReceiveTls
  split_ifs with hused hstate
  · exact .inl ⟨fun h => by simp [opens, hused] at h, rfl⟩
  · exact .inl ⟨fun h => hstate h.2.2.1.established, rfl⟩
  · rw [Bool.not_eq_false] at hused
    rcases acceptTls_cases s.connection session v capacity with ⟨hno, e, he⟩ | ⟨hyes, out, hok⟩
    · rw [he]
      exact .inl ⟨fun h => hno h.2, rfl⟩
    · rw [hok]
      exact .inr ⟨⟨hused, hyes⟩, hyes.2.1, hyes.1, rfl⟩

theorem View.wholeRecord.pos {v : View} (h : v.wholeRecord) : 0 < v.payloadLength.toNat := by
  unfold View.wholeRecord tlsRecordParseStream at h
  split_ifs at h with hlen
  · simp at h
  simp only at h
  split_ifs at h with htotal
  · simp at h
  · rw [Option.map_map, Option.map_eq_some_iff] at h
    obtain ⟨record, hrecord, htaken⟩ := h
    simp only [Function.comp_apply] at htaken
    have hheader : ¬(v.data.take v.payloadLength.toNat).length < 5 := by
      intro hshort
      rw [htaken, tlsRecordParse, if_pos (.inl hshort)] at hrecord
      cases hrecord
    rw [List.length_take] at hheader
    omega

theorem afterData_window {c : Connection} {v : View} (h : c.Takes v) :
    (c.afterData v.payloadLength).receiveWindow.toNat + v.payloadLength.toNat = c.receiveWindow.toNat := by
  have hle := UInt16.le_iff_toNat_le.mp h.window
  simp only [Connection.afterData, UInt16.toNat_sub_of_le _ _ h.window]
  omega

theorem conserves_feed {s : Slot} (hs : s.connection.state = .established) (segment : List UInt8)
    (h : s.conserves) : (socketFeed s segment).1.conserves := by
  rcases socketFeed_cases hs segment with ⟨e, he⟩ | ⟨v, -, htakes, hfits, hok⟩
  · rw [he]
    exact h
  · have hwindow := afterData_window htakes
    rw [hok]
    simp only [Slot.conserves, Slot.setConnection_held, s.held_push _ _ hfits v.covered, List.length_append,
      List.length_take, min_eq_left v.covered] at h ⊢
    simp only [Slot.setConnection]
    omega

theorem reopen_window (c : Connection) (amount : UInt16) (h : c.receiveWindow.toNat + amount.toNat ≤ 65535) :
    (c.reopen amount).receiveWindow.toNat = c.receiveWindow.toNat + amount.toNat := by
  unfold Connection.reopen
  split_ifs with hpos
  · simp only [UInt16.toNat_ofNat', min_eq_right h]
    omega
  · have h0 : amount.toNat = 0 := by simpa [UInt16.lt_iff_toNat_lt] using hpos
    omega

theorem conserves_receive {s : Slot} (capacity : UInt16) (h : s.conserves) :
    (socketReceive s capacity).1.conserves := by
  obtain ⟨bytes, amount, -, hlen, hheld, hconn⟩ := socketReceive_spec s capacity
  have hsum : bytes.length + (socketReceive s capacity).1.held.length = s.held.length := by
    rw [← List.length_append, hheld]
  unfold Slot.conserves at h ⊢
  rw [hconn, reopen_window _ _ (by omega)]
  omega

theorem conserves_step {r : Reading} (op : SocketOp) (hs : r.slot.connection.state = .established)
    (h : r.slot.conserves) : (r.step op).slot.conserves ↔ ¬opens r.slot op := by
  cases op with
  | feed segment => exact iff_of_true (conserves_feed hs segment h) not_false
  | receive capacity => exact iff_of_true (conserves_receive capacity h) not_false
  | receiveTls session v capacity =>
    rcases receiveTls_cases r.slot session v capacity with ⟨hno, hsame⟩ | ⟨hyes, htakes, hwhole, hgone⟩
    · refine iff_of_true ?_ hno
      simp only [Reading.step, hsame]
      exact h
    · refine iff_of_false ?_ (not_not_intro hyes)
      have hwindow := afterData_window htakes
      have hpos := hwhole.pos
      simp only [Reading.step, hgone, Slot.conserves, Slot.setConnection_held] at h ⊢
      simp only [Slot.setConnection]
      omega

theorem established_step {r : Reading} (op : SocketOp) (hs : r.slot.connection.state = .established) :
    (r.step op).slot.connection.state = .established := by
  cases op with
  | feed segment =>
    rcases socketFeed_cases hs segment with ⟨e, he⟩ | ⟨v, -, -, hfits, hok⟩
    · simp only [Reading.step, he, hs]
    · simp only [Reading.step, hok]
      exact hs
  | receive capacity =>
    obtain ⟨-, amount, -, -, -, hconn⟩ := socketReceive_spec r.slot capacity
    simp only [Reading.step, hconn, Connection.reopen_state, hs]
  | receiveTls session v capacity =>
    rcases receiveTls_cases r.slot session v capacity with ⟨-, hsame⟩ | ⟨-, -, -, hgone⟩
    · simp only [Reading.step, hsame, hs]
    · simp only [Reading.step, hgone]
      exact hs

/-- The window is conserved all along exactly in the runs that open no record on the way. -/
theorem window_conserved_iff (s : Slot) (hs : s.connection.state = .established)
    (hwindow : s.connection.receiveWindow = 65535) (hempty : s.held = []) (ops : List SocketOp) :
    (∀ pre, pre <+: ops → (run Reading.step ⟨s, []⟩ pre).slot.conserves) ↔
      Along Reading.step (fun r op => ¬opens r.slot op) ⟨s, []⟩ ops := by
  have hstart : s.conserves := by
    rw [Slot.conserves, hwindow, hempty]
    rfl
  have hkeeps : ∀ (r : Reading) op, r.slot.connection.state = .established →
      (r.step op).slot.connection.state = .established := fun _ op => established_step op
  exact run_prefix_iff hkeeps (fun _ op => conserves_step op) hs hstart

def oneByte : List UInt8 := [0, 2, 0, 1, 0, 0, 0, 7, 0, 0, 0, 5, 0x50, 0x10, 0, 0, 0, 0, 0, 0, 42]

theorem window_conserved_receive :
    freshSlot.held = [] ∧ ∀ pre, pre <+: [SocketOp.feed oneByte, SocketOp.receive 16] →
      (run Reading.step ⟨freshSlot, []⟩ pre).slot.conserves :=
  ⟨rfl, (window_conserved_iff freshSlot rfl rfl rfl _).mpr ⟨not_false, not_false, trivial⟩⟩

def zeroSession : TlsSession := ⟨Block.zero 16, Block.zero 4, 0⟩

def emptyRecord : List UInt8 :=
  [23, 3, 3, 0, 24, 0, 0, 0, 0, 0, 0, 0, 0, 221, 104, 139, 80, 247, 139, 235, 185, 180, 68, 101, 192, 156,
    105, 111, 132]

/-- The window never gets back what the record took. -/
theorem record_leaks : let s := (run Reading.step ⟨freshSlot, []⟩
      [.receiveTls zeroSession ⟨2, 1, 7, 5, flagAck, emptyRecord, 29, by decide⟩ 0]).slot
    s.held = [] ∧ s.connection.receiveWindow = 65506 := by
  decide +kernel

end Mohhdy.Net
