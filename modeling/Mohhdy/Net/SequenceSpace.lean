import Mohhdy.Net.Tcp

/-! Sequence numbers are places on a circle: what a connection does with a segment should not depend on
where on it the two streams start. Equalities and distances do not, plain comparisons do. -/
namespace Mohhdy.Net
set_option autoImplicit false

/-- The streams start later: the own one, which the peer acknowledges, by `a`, the peer's by `b`. -/
def Connection.shift (a b : UInt32) (c : Connection) : Connection :=
  { c with localSequence := c.localSequence + a, remoteSequence := c.remoteSequence + b }

def View.shift (a b : UInt32) (v : View) : View :=
  { v with sequence := v.sequence + b, acknowledgment := v.acknowledgment + a }

structure ShiftInvariant (a b : UInt32) (c : Connection) (v : View) : Prop where
  data : connectionAcceptData (c.shift a b) (v.shift a b) =
    (connectionAcceptData c v).map fun r => (r.1.shift a b, r.2)
  ack : connectionAcceptAck (c.shift a b) (v.shift a b) = (connectionAcceptAck c v).map (Connection.shift a b)
  classify : connectionClassifySegment (c.shift a b) (v.shift a b) = connectionClassifySegment c v
  trim : connectionTrimSegment (c.shift a b) (v.shift a b) = (connectionTrimSegment c v).map (View.shift a b)

/-! ## Circles -/

def carriesTogether (a x y : UInt32) : Prop := x = y ∨ (2 ^ 32 ≤ x.toNat + a.toNat ↔ 2 ^ 32 ≤ y.toNat + a.toNat)

theorem carriesTogether_iff (a x y : UInt32) : carriesTogether a x y ↔ (x + a > y + a ↔ x > y) := by
  have hx := x.toNat_lt
  have hy := y.toNat_lt
  have ha := a.toNat_lt
  simp only [carriesTogether, gt_iff_lt, UInt32.lt_iff_toNat_lt, UInt32.toNat_add, ← UInt32.toNat_inj]
  omega

theorem shift_sub (x y b : UInt32) : x + b - (y + b) = x - y := by
  apply UInt32.toBitVec_inj.mp
  simp only [UInt32.toBitVec_sub, UInt32.toBitVec_add]
  bv_omega

/-! ## Functions that only measure distances -/

variable (a b : UInt32) (c : Connection) (v : View)

@[simp] theorem View.shift_payloadLength : (v.shift a b).payloadLength = v.payloadLength := rfl
@[simp] theorem View.shift_flags : (v.shift a b).flags = v.flags := rfl
@[simp] theorem View.shift_sequence : (v.shift a b).sequence = v.sequence + b := rfl
@[simp] theorem View.shift_acknowledgment : (v.shift a b).acknowledgment = v.acknowledgment + a := rfl
@[simp] theorem Connection.shift_state : (c.shift a b).state = c.state := rfl
@[simp] theorem Connection.shift_localSequence : (c.shift a b).localSequence = c.localSequence + a := rfl
@[simp] theorem Connection.shift_remoteSequence : (c.shift a b).remoteSequence = c.remoteSequence + b := rfl
@[simp] theorem Connection.shift_receiveWindow : (c.shift a b).receiveWindow = c.receiveWindow := rfl
@[simp] theorem Connection.shift_pendingLength : (c.shift a b).pendingLength = c.pendingLength := rfl

@[simp] theorem between_shift : (c.shift a b).between (v.shift a b) ↔ c.between v := Iff.rfl

theorem start_shift : (c.shift a b).start (v.shift a b) = c.start v := by
  simp only [Connection.start, Connection.shift, View.shift, shift_sub]

theorem classify_shift :
    connectionClassifySegment (c.shift a b) (v.shift a b) = connectionClassifySegment c v := by
  simp only [connectionClassifySegment, start_shift, between_shift]
  rfl

theorem trim_shift :
    connectionTrimSegment (c.shift a b) (v.shift a b) = (connectionTrimSegment c v).map (View.shift a b) := by
  have hdelta : (c.shift a b).remoteSequence - (v.shift a b).sequence = c.remoteSequence - v.sequence :=
    shift_sub _ _ _
  simp only [connectionTrimSegment, classify_shift, hdelta, View.shift_payloadLength]
  split_ifs <;> rfl

/-! ## Functions that compare acknowledgments -/

def comparesAck : Prop :=
  (c.state = .established ∨ c.state = .finWait1) ∧ c.between v ∧ hasFlag v.flags flagAck = true

def comparesAlike : Prop := v.acknowledgment + a > c.localSequence + a ↔ v.acknowledgment > c.localSequence

theorem afterData_shift (length : UInt16) :
    (c.shift a b).afterData length = (c.afterData length).shift a b := by
  simp only [Connection.afterData, Connection.shift, UInt32.add_assoc, UInt32.add_comm b]

theorem settle_shift : (c.shift a b).settle = c.settle.shift a b := by
  by_cases h : c.pendingLength ≠ 0
  · rw [Connection.settle, Connection.settle, if_pos h, if_pos (by exact h)]
    rfl
  · rw [Connection.settle, Connection.settle, if_neg h, if_neg (by exact h)]

theorem establish_shift : (c.shift a b).establish = c.establish.shift a b := by
  simp only [Connection.establish, Connection.shift, UInt32.add_assoc, UInt32.add_comm a]

theorem data_shift (h : comparesAck c v → comparesAlike a c v) :
    connectionAcceptData (c.shift a b) (v.shift a b) =
      (connectionAcceptData c v).map fun r => (r.1.shift a b, r.2) := by
  by_cases hstate : c.state = .established
  · by_cases hours : c.between v ∧ hasFlag v.flags flagAck = true
    · have hack : v.acknowledgment + a > c.localSequence + a ↔ v.acknowledgment > c.localSequence :=
        h ⟨.inl hstate, hours⟩
      simp only [connectionAcceptData, Connection.shift_state, View.shift_sequence, View.shift_acknowledgment,
        Connection.shift_remoteSequence, Connection.shift_localSequence, View.shift_payloadLength,
        Connection.shift_receiveWindow, View.shift_flags, between_shift, hack, ne_eq,
        UInt32.add_left_inj, afterData_shift]
      split_ifs <;> rfl
    · rw [not_and_or, Bool.not_eq_true] at hours
      simp only [connectionAcceptData, Connection.shift_state, View.shift_flags, between_shift, ← or_assoc, hours,
        true_or, if_true, ne_eq, hstate, not_true, if_false, Except.map]
  · simp only [connectionAcceptData, Connection.shift_state, ne_eq, hstate, not_false_iff, if_true, Except.map]

theorem comparesAlike.lt {a : UInt32} {c : Connection} {v : View} (h : comparesAlike a c v) :
    v.acknowledgment + a < c.localSequence + a ↔ v.acknowledgment < c.localSequence := by
  have hx := v.acknowledgment.toNat_lt
  have hy := c.localSequence.toNat_lt
  simp only [comparesAlike, gt_iff_lt, UInt32.lt_iff_toNat_lt, UInt32.toNat_add] at h ⊢
  omega

theorem ack_shift (h : comparesAck c v → comparesAlike a c v) :
    connectionAcceptAck (c.shift a b) (v.shift a b) = (connectionAcceptAck c v).map (Connection.shift a b) := by
  have hnext : v.acknowledgment + a = c.localSequence + a + 1 ↔ v.acknowledgment = c.localSequence + 1 := by
    rw [UInt32.add_assoc, UInt32.add_comm a, ← UInt32.add_assoc, UInt32.add_left_inj]
  by_cases hours : c.between v ∧ hasFlag v.flags flagAck = true
  · by_cases hcompared : c.state = .established ∨ c.state = .finWait1
    · have hack := h ⟨hcompared, hours⟩
      have hgt : v.acknowledgment + a > c.localSequence + a ↔ v.acknowledgment > c.localSequence := hack
      simp only [connectionAcceptAck, Connection.shift_state, View.shift_flags, between_shift, View.shift_sequence,
        View.shift_acknowledgment, Connection.shift_remoteSequence, Connection.shift_localSequence, ne_eq,
        UInt32.add_left_inj, hnext, establish_shift, Connection.shift_pendingLength, hgt, hack.lt, settle_shift]
      split_ifs <;> rfl
    · rw [not_or] at hcompared
      by_cases hsyn : c.state = .synReceived
      · simp only [connectionAcceptAck, Connection.shift_state, View.shift_flags, between_shift,
          View.shift_sequence, View.shift_acknowledgment, Connection.shift_remoteSequence,
          Connection.shift_localSequence, ne_eq, UInt32.add_left_inj, hnext, establish_shift, hsyn, not_true,
          and_false, if_false, if_true]
        split_ifs <;> rfl
      · have hnone : c.state ≠ .established ∧ c.state ≠ .finWait1 ∧ c.state ≠ .synReceived :=
          ⟨hcompared.1, hcompared.2, hsyn⟩
        rw [connectionAcceptAck, connectionAcceptAck, if_pos (by exact hnone), if_pos hnone]
        rfl
  · rw [not_and_or, Bool.not_eq_true] at hours
    simp only [connectionAcceptAck, Connection.shift_state, View.shift_flags, between_shift, hours, if_true]
    split_ifs <;> rfl

theorem comparesAck.refused_iff {c : Connection} {v : View} (h : comparesAck c v) :
    connectionAcceptAck c v = .error .refused ↔ v.acknowledgment > c.localSequence := by
  obtain ⟨hstate, hbetween, hflag⟩ := h
  have hreached : ¬(c.state ≠ .established ∧ c.state ≠ .finWait1 ∧ c.state ≠ .synReceived) := by tauto
  have hsyn : c.state ≠ .synReceived := by
    rcases hstate with hs | hs <;> simp [hs]
  have hours : ¬(¬c.between v ∨ hasFlag v.flags flagAck = false) := by simp [hbetween, hflag]
  rw [connectionAcceptAck, if_neg hreached, if_neg hours, if_neg hsyn]
  split_ifs <;> simp_all

/-- The shift shows exactly where an acknowledgment is compared that wraps apart from the own number. -/
theorem shiftInvariant_iff :
    ShiftInvariant a b c v ↔ (comparesAck c v → carriesTogether a v.acknowledgment c.localSequence) := by
  rw [carriesTogether_iff]
  constructor
  · intro h hcompared
    have hshifted : comparesAck (c.shift a b) (v.shift a b) := hcompared
    rw [← hcompared.refused_iff, ← View.shift_acknowledgment a b, ← Connection.shift_localSequence a b,
      ← hshifted.refused_iff, h.ack]
    cases connectionAcceptAck c v <;> simp [Except.map]
  · intro h
    exact ⟨data_shift a b c v h, ack_shift a b c v h, classify_shift a b c v, trim_shift a b c v⟩

def atEnd : Connection := ⟨1, 2, 0xffffffff, 7, none, 0, 0, 0, 65535, .established⟩

def lateAck : View := ⟨2, 1, 7, 0xfffffffe, flagAck, [5], 1, by decide⟩

/-- One number further on the same segment is refused. -/
theorem atEnd_refuses : ¬ShiftInvariant 1 0 atEnd lateAck := by
  intro h
  exact absurd h.data (by decide)

end Mohhdy.Net
