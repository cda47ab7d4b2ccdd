import Mohhdy.Grpc.Conn

/-! Flow control of the connection engine.

Every window is the balance of its counters: the send window of a stream is the initial window
of the peer and the increments received, less the bytes sent; a receive window is what was given
out less what came in. Each operation keeps the balances (`Kept`) as long as it reports no
error. The connection a failed operation leaves may have lost the balance of a receive window
or of some of the streams that SETTINGS shifts, but not what was sent before (`Safe`). -/
namespace Mohhdy.Grpc
open Texts Faults List
set_option autoImplicit false

variable {c : Conn} {i id n : ℕ} {s : Stream} {server : Bool} {own peer : ℤ}

def InRange (v : ℤ) : Prop := -2147483648 ≤ v ∧ v ≤ 2147483647

instance (v : ℤ) : Decidable (InRange v) := inferInstanceAs (Decidable (_ ∧ _))

def Stream.Active (s : Stream) : Prop := s.state = .receiving ∨ s.state = .sending

/-- The counters of an open stream: `peer` and `own` are the initial windows of both sides. -/
structure Stream.Balanced (server : Bool) (peer own : ℤ) (s : Stream) : Prop where
  send : s.sendWin = peer + s.credit - s.sent
  sendMax : s.sendWin ≤ winMax
  recv : s.recvWin = own + s.granted - s.got
  recvPos : 0 ≤ s.recvWin
  granted : s.granted ≤ s.got
  sentMax : s.sent ≤ 200
  pendMax : s.pend.length ≤ 200
  sending : s.state = .sending → s.sent = s.poff ∧ s.poff ≤ s.pend.length
  idle : server = true → s.state = .receiving → s.sent = 0

def Stream.Ranged (s : Stream) : Prop := InRange s.sendWin ∧ InRange s.recvWin

/-- What holds of every connection, also of one that a failed operation leaves. -/
structure Safe (c : Conn) : Prop where
  sent : (c.sent : ℤ) ≤ winDefault + c.credit
  sends : ∀ t ∈ c.sends, t.Within
  values : ∀ v ∈ c.values, InRange v

structure Counted (c : Conn) : Prop extends Safe c where
  connSend : c.connSend = winDefault + c.credit - c.sent
  connSendMax : c.connSend ≤ winMax
  connRecv : c.connRecv = winDefault + c.granted - c.got
  connRecvPos : 0 ≤ c.connRecv
  granted : c.granted ≤ c.got
  localInit : 0 < c.localInit ∧ c.localInit ≤ winMax
  peerInit : 0 ≤ c.peerInit ∧ c.peerInit ≤ winMax
  receipts : ∀ t ∈ c.receipts, t.Within
  slots : c.streams.length = 8
  ranges : ∀ s ∈ c.streams, s.Ranged

structure Kept (c : Conn) : Prop extends Counted c where
  streams : ∀ s ∈ c.streams, s.Active → s.Balanced c.server c.peerInit c.localInit

abbrev Left (e : GwErr × Conn) : Prop := Safe e.2

abbrev Keeps {α : Type} (x : Res (Conn × α)) : Prop := Ends x (fun r => Kept r.1) Left

abbrev Stays {α : Type} (x : Res (Conn × α)) : Prop := Ends x (fun r => Kept r.1) fun e => Kept e.2

theorem Stays.leaves {α : Type} {x : Res (Conn × α)} (h : Stays x) : Kept (leaves x) := by
  cases x with
  | ok r => exact h.1 r rfl
  | error e => exact h.2 e rfl

section
variable {α β : Type} {x : Except GwErr α} {fault : GwErr × Conn → Prop}

theorem onConn_ends {post : α → Prop} (hfault : ∀ e, fault (e, c)) (hpost : ∀ a, x = .ok a → post a) :
    Ends (onConn c x) post fault := by
  cases x with
  | ok a => exact Ends.ok (hpost a rfl)
  | error e => exact Ends.error (hfault e)

theorem onConn_bind {f : α → Res β} {post : β → Prop} (hfault : ∀ e, fault (e, c))
    (hf : ∀ a, Ends (f a) post fault) : Ends (onConn c x >>= f) post fault := by
  cases x with
  | ok a => exact hf a
  | error e => exact Ends.error (hfault e)

theorem Kept.onConn {f : α → Res β} {post : β → Prop} (h : Kept c) (hf : ∀ a, Ends (f a) post Left) :
    Ends (Grpc.onConn c x >>= f) post Left :=
  onConn_bind (fun _ => h.toSafe) hf

end

theorem Kept.guard {α : Type} {p : Prop} [Decidable p] {x : Res α} {e : GwErr} {post : α → Prop} (h : Kept c)
    (hx : ¬p → Ends x post Left) : Ends (if p then .error (e, c) else x) post Left :=
  Ends.guard h.toSafe hx

/-! ## Slots -/

theorem slotWhere_spec {p : Stream → Bool} {l : List Stream}
    (h : slotWhere p l = some (i, s)) : l[i]? = some s ∧ p s = true := by
  induction l generalizing i with
  | nil => cases h
  | cons t l ih =>
    rw [slotWhere] at h
    split at h
    · cases h
      exact ⟨rfl, ‹_›⟩
    · obtain ⟨⟨j, u⟩, hj, he⟩ := Option.map_eq_some_iff.mp h
      cases he
      exact ⟨by simpa using (ih hj).1, (ih hj).2⟩

theorem gwConnStream_spec (h : gwConnStream c id = some (i, s)) :
    c.streams[i]? = some s ∧ s ∈ c.streams ∧ s.state ≠ .free ∧ s.id = id := by
  obtain ⟨hget, hp⟩ := slotWhere_spec h
  simp only [decide_eq_true_eq] at hp
  exact ⟨hget, mem_of_getElem? hget, hp⟩

theorem Stream.active_of (hfree : s.state ≠ .free) (hdone : s.state ≠ .done) : s.Active := by
  rw [Stream.Active]
  cases hs : s.state <;> simp_all

theorem streamNew_spec (h : streamNew c id = some (i, s)) : s = { freeStream with
      id := id, recvWin := c.localInit, sendWin := c.peerInit, httpStatus := -1,
      grpcStatus := -1 } := by
  obtain ⟨x, -, hx⟩ := Option.map_eq_some_iff.mp h
  cases hx
  rfl

theorem Stream.Balanced.ranged
    (h : s.Balanced server peer own) (hpeer : 0 ≤ peer) (hown : own ≤ winMax) : s.Ranged := by
  have h₁ := h.send
  have h₂ := h.sendMax
  have h₃ := h.recv
  have h₄ := h.recvPos
  have h₅ := h.granted
  have h₆ := h.sentMax
  simp only [winMax] at *
  refine ⟨⟨?_, ?_⟩, ?_, ?_⟩ <;> omega

abbrev Conn.Balances (c : Conn) (s : Stream) : Prop := s.Balanced c.server c.peerInit c.localInit

theorem Kept.balanced (h : Kept c) (hs : s ∈ c.streams) (ha : s.Active) : c.Balances s :=
  h.streams s hs ha

theorem mem_setSlot {t : Stream} (h : t ∈ (c.setSlot i s).streams) : t ∈ c.streams ∨ t = s :=
  mem_or_eq_of_mem_set h

theorem Counted.setSlot (h : Counted c) (i : ℕ) (hs : s.Ranged) : Counted (c.setSlot i s) where
  __ := h
  values := forall_mem_cons.mpr ⟨hs.1, forall_mem_cons.mpr ⟨hs.2, h.values⟩⟩
  slots := (length_set ..).trans h.slots
  ranges t ht := by
    rcases mem_setSlot ht with ht | rfl
    · exact h.ranges t ht
    · exact hs

theorem Kept.setSlot (h : Kept c) (i : ℕ) (hr : s.Ranged)
    (hs : s.Active → c.Balances s) : Kept (c.setSlot i s) := by
  refine ⟨h.toCounted.setSlot i hr, ?_⟩
  intro t ht hact
  rcases mem_setSlot ht with ht | rfl
  · exact h.streams t ht hact
  · exact hs hact

theorem Kept.setBalanced (h : Kept c) (i : ℕ) (hs : c.Balances s) : Kept (c.setSlot i s) :=
  h.setSlot i (hs.ranged h.peerInit.1 h.localInit.2) fun _ => hs

/-! ## Sending -/

theorem Kept.afterSend (h : Kept c) (i k : ℕ) (hs : c.Balances s) (hsend : s.state = .sending)
    (hconn : (k : ℤ) ≤ c.connSend) (hwin : (k : ℤ) ≤ s.sendWin) (hk : k ≤ s.pend.length - s.poff) :
    c.Balances (s.afterSend k) ∧ Kept (c.afterSend i s k) := by
  have hpoff := hs.sending hsend
  have hmax := hs.pendMax
  have hbal : c.Balances (s.afterSend k) := by
    refine { hs with send := ?_, sendMax := ?_, sentMax := ?_, sending := ?_, idle := ?_ }
    · have := hs.send
      simp only [Stream.afterSend]
      omega
    · have := hs.sendMax
      simp only [Stream.afterSend]
      omega
    · simp only [Stream.afterSend]
      omega
    · intro _
      simp only [Stream.afterSend]
      omega
    · intro _ hr
      have : s.state = .receiving := hr
      rw [hsend] at this
      cases this
  refine ⟨hbal, ?_⟩
  have hcs := h.connSend
  have hss := hs.send
  have hbase := h.setBalanced i hbal
  refine { hbase with sent := ?_, sends := ?_, values := ?_, connSend := ?_, connSendMax := ?_ }
  · simp only [Conn.afterSend, Conn.setSlot, Conn.setConnSend]
    omega
  · refine forall_mem_cons.mpr ⟨⟨?_, ?_⟩, h.sends⟩
    · simp only [Conn.setSlot, Conn.setConnSend]
      omega
    · simp only [Conn.setSlot, Conn.setConnSend]
      omega
  · intro v hv
    have hhigh := h.connSendMax
    simp only [Conn.afterSend, Conn.setSlot, Conn.setConnSend, mem_cons] at hv
    rcases hv with rfl | rfl | rfl | hv
    · exact (hbal.ranged h.peerInit.1 h.localInit.2).1
    · exact (hbal.ranged h.peerInit.1 h.localInit.2).2
    · simp only [winMax] at hhigh
      constructor <;> omega
    · exact h.values v hv
  · simp only [Conn.afterSend, Conn.setSlot, Conn.setConnSend]
    omega
  · have := h.connSendMax
    simp only [Conn.afterSend, Conn.setSlot, Conn.setConnSend]
    omega

def Flushing (c : Conn) (r : Conn × Stream × Bytes × Bool) : Prop :=
  Kept r.1 ∧ r.1.server = c.server ∧ r.2.1.state = .sending ∧
    r.1.Balances r.2.1

theorem flushData_ends (cap i n : ℕ) (out : Bytes) (hc : Kept c)
    (hs : c.Balances s) (hsend : s.state = .sending) :
    Ends (flushData cap i n c s out) (Flushing c) fun e => Kept e.2 := by
  induction n generalizing c s out with
  | zero => exact Ends.ok ⟨hc, rfl, hsend, hs⟩
  | succ n ih =>
    have hstay : ∀ b, Flushing c (c, s, out, b) := fun _ => ⟨hc, rfl, hsend, hs⟩
    refine Ends.ite (fun hpend => ?_) fun _ => Ends.ok (hstay _)
    refine Ends.ite (fun _ => Ends.ok (hstay _)) fun havail => ?_
    refine Ends.ite (fun _ => Ends.ok (hstay _)) fun hroom => ?_
    refine onConn_bind (fun _ => hc) fun b => ?_
    obtain ⟨hbal, hkept⟩ := hc.afterSend i
      (min (min (s.pend.length - s.poff) (min c.connSend s.sendWin).toNat)
        (cap - out.length - 9)) hs hsend (by omega) (by omega) (by omega)
    exact ih (out ++ b) hkept hbal hsend

theorem flushSlots_ends (cap : ℕ) (is : List ℕ) (out : Bytes) (hc : Kept c) :
    Stays (flushSlots cap is c out) := by
  induction is generalizing c out with
  | nil => exact Ends.ok hc
  | cons i is ih =>
    simp only [flushSlots]
    cases hget : c.streams[i]? with
    | none => exact ih out hc
    | some s =>
      refine Ends.ite (fun hsend => ?_) fun _ => ih out hc
      have hs := hc.balanced (mem_of_getElem? hget) (.inr hsend)
      refine Ends.bind (flushData_ends cap i _ out hc hs hsend) ?_
      rintro ⟨c', s', out', full⟩ ⟨hc', -, hsend', hs'⟩
      have hrange := hs'.ranged hc'.peerInit.1 hc'.localInit.2
      -- a stream leaves the sending state with its windows as they are
      have hfree : Kept (c'.setSlot i { s' with state := .free }) :=
        hc'.setSlot i hrange fun hact => by cases hact <;> contradiction
      refine Ends.ite (fun _ => Ends.ok hc') fun _ => ?_
      refine Ends.ite (fun _ => ih out' hc') fun _ => ?_
      refine Ends.ite (fun hclient => ?_) fun _ => ?_
      · refine ih out' (hc'.setBalanced i ?_)
        refine { hs' with sending := (by intro h; cases h), idle := ?_ }
        intro hserver
        have hclient' : c'.server = false := hclient
        rw [hclient'] at hserver
        cases hserver
      refine Ends.ite (fun _ => ih out' hfree) fun _ => ?_
      split
      · exact Ends.ok hc'
      · exact ih _ hfree

theorem flush_ends (cap : ℕ) (hc : Kept c) : Stays (flush c cap) :=
  flushSlots_ends cap (List.range 8) [] hc

/-! ## Requests and responses -/

theorem fits_length {cap : ℕ} {b r : Bytes} (h : fits cap b = .ok r) : r.length ≤ cap := by
  rw [fits] at h
  split at h
  · cases h
    assumption
  · cases h

theorem lpmMessage_length {cap : ℕ} {text r : Bytes} (h : lpmMessage cap text = .ok r) : r.length ≤ cap := by
  rw [lpmMessage] at h
  cases hpb : fits 192 (gwPbPutString 1 text) with
  | error e =>
    rw [hpb] at h
    cases h
  | ok pb =>
    rw [hpb] at h
    exact fits_length h

theorem Stream.Balanced.withPend (h : s.Balanced true peer own)
    (hrecv : s.state = .receiving) (pend : Bytes) (hp : pend.length ≤ 200) :
    Stream.Balanced true peer own { s with pend := pend, poff := 0 } := by
  refine { h with pendMax := hp, sending := ?_ }
  intro hsend
  have hstate : s.state = .sending := hsend
  rw [hrecv] at hstate
  cases hstate

theorem replyBody_length (gst : ℤ) (reply p : Bytes)
    (h : (if gst = 0 then lpmMessage 200 reply else .ok []) = .ok p) : p.length ≤ 200 := by
  split at h
  · exact lpmMessage_length h
  cases h
  exact Nat.zero_le _

variable (h : Option Handler)

theorem serveComplete_ends (i : ℕ) (cap : ℕ)
    (hc : Kept c) (hserver : c.server = true) (hrecv : s.state = .receiving)
    (hs : s.Balanced true c.peerInit c.localInit) :
    Keeps (serveComplete h c i s cap) := by
  have hsent : s.sent = 0 := hs.idle rfl hrecv
  refine hc.guard fun _ => ?_
  refine hc.onConn fun payload => ?_
  have hc' : Kept { c with served := c.served + 1 } := { hc with }
  refine hc'.onConn fun hb => ?_
  refine hc'.onConn fun out => ?_
  have hempty := hs.withPend hrecv [] (Nat.zero_le _)
  have hc₁ := hc'.setBalanced i (hserver.symm ▸ hempty)
  refine Ends.bind (onConn_ends (fun _ => hc₁.toSafe) (replyBody_length _ _)) ?_
  intro pend hpend
  have hfull := hs.withPend hrecv pend hpend
  have hc₂ := hc₁.setBalanced i (hserver.symm ▸ hfull)
  refine hc₂.onConn fun trailer => ?_
  refine Ends.ok (hc₂.setBalanced i ?_)
  exact { hs with
    pendMax := hpend
    sending := fun _ => ⟨hsent, Nat.zero_le _⟩
    idle := fun _ hstate => by cases hstate }

/-! ## SETTINGS -/

/-- While SETTINGS shifts the streams, a stream still to come has the old initial window and
the others the new one. -/
structure Shifting (old new : ℤ) (is : List ℕ) (c : Conn) : Prop extends Counted c where
  old_eq : c.peerInit = old
  streams : ∀ (j : ℕ) (s : Stream), c.streams[j]? = some s → s.Active →
    s.Balanced c.server (if j ∈ is then old else new) c.localInit

theorem Stream.Balanced.shift {delta : ℤ}
    (h : s.Balanced server peer own) (hmax : ¬(0 < delta ∧ winMax - delta < s.sendWin)) :
    (s.shift delta).Balanced server (peer + delta) own := by
  refine { h with send := ?_, sendMax := ?_ }
  · have := h.send
    simp only [Stream.shift]
    omega
  · have := h.sendMax
    simp only [Stream.shift]
    omega

theorem getElem?_setSlot {j : ℕ} {t : Stream}
    (h : (c.setSlot i s).streams[j]? = some t) : j = i ∧ t = s ∨ j ≠ i ∧ c.streams[j]? = some t := by
  have h' : (c.streams.set i s)[j]? = some t := h
  rw [List.getElem?_set] at h'
  split at h'
  · split at h'
    · cases h'
      exact .inl ⟨‹i = j›.symm, rfl⟩
    · cases h'
  · exact .inr ⟨fun he => ‹¬i = j› he.symm, h'⟩

theorem shiftStreams_ends {old new : ℤ} (hnew : 0 ≤ new) {is : List ℕ} (hnodup : is.Nodup) (h : Shifting old new is c) :
    Ends (shiftStreams (new - old) is c) (Shifting old new []) Left := by
  induction is generalizing c with
  | nil => exact Ends.ok h
  | cons i is ih =>
    obtain ⟨hi, hnodup'⟩ := nodup_cons.mp hnodup
    simp only [shiftStreams]
    -- a slot that is not open counts as shifted
    have hskip : (∀ s, c.streams[i]? = some s → ¬s.Active) → Shifting old new is c := by
      intro hnone
      refine { h with streams := ?_ }
      intro j s hj hact
      have hne : j ≠ i := by
        rintro rfl
        exact hnone s hj hact
      have hbal := h.streams j s hj hact
      simpa only [mem_cons, hne, false_or] using hbal
    cases hget : c.streams[i]? with
    | none =>
      refine ih hnodup' (hskip ?_)
      intro s hs
      rw [hget] at hs
      cases hs
    | some s =>
      refine Ends.ite (fun hact => ?_) fun hact => ?_
      · refine Ends.guard h.toSafe fun hmax => ?_
        have hbal := h.streams i s hget hact
        rw [if_pos mem_cons_self] at hbal
        have hshift := hbal.shift hmax
        rw [add_sub_cancel] at hshift
        have hcounted := h.toCounted.setSlot i (hshift.ranged hnew h.localInit.2)
        refine ih hnodup' ⟨hcounted, h.old_eq, ?_⟩
        intro j t hj hact'
        rcases getElem?_setSlot hj with ⟨rfl, rfl⟩ | ⟨hne, hj'⟩
        · rw [if_neg hi]
          exact hshift
        · have hbal' := h.streams j t hj' hact'
          simp only [mem_cons, hne, false_or] at hbal'
          exact hbal'
      · refine ih hnodup' (hskip ?_)
        intro t ht
        rw [hget] at ht
        cases ht
        exact hact

theorem initialWindow_ends (h : Kept c) {v : ℕ} (hv : (v : ℤ) ≤ winMax) :
    Ends (shiftStreams (v - c.peerInit) (List.range 8) c)
      (fun c' => Kept { c' with peerInit := v }) Left := by
  have hslots : ∀ j s, c.streams[j]? = some s → j ∈ List.range 8 := by
    intro j s hj
    have hlt := (List.getElem?_eq_some_iff.mp hj).1
    rw [h.slots] at hlt
    exact mem_range.mpr hlt
  have hstart : Shifting c.peerInit v (List.range 8) c := by
    refine ⟨h.toCounted, rfl, ?_⟩
    intro j s hj hact
    rw [if_pos (hslots j s hj)]
    exact h.streams s (mem_of_getElem? hj) hact
  refine (shiftStreams_ends (Int.natCast_nonneg v) nodup_range hstart).mono ?_ fun _ he => he
  intro c' hc'
  refine { hc' with peerInit := ⟨Int.natCast_nonneg v, hv⟩, streams := ?_ }
  intro s hs hact
  obtain ⟨j, hj⟩ := List.getElem?_of_mem hs
  have hbal := hc'.streams j s hj hact
  rwa [if_neg not_mem_nil] at hbal

theorem settingsLoop_ends (p : Bytes) (hc : Kept c) : Ends (settingsLoop p c) Kept Left := by
  fun_induction settingsLoop p c with
  | case1 => exact Ends.error hc.toSafe
  | case2 a b v₁ v₂ v₃ v₄ rest c hkey v hv ih =>
    refine Ends.bind (initialWindow_ends hc (not_lt.mp hv)) ?_
    intro c' hc'
    exact ih c' hc'
  | case3 a b v₁ v₂ v₃ v₄ rest c hkey ih => exact ih hc
  | case4 => exact Ends.ok hc

variable (f : Frame)

theorem onSettings_ends (cap : ℕ) (hc : Kept c) : Keeps (onSettings c f cap) := by
  refine hc.guard fun _ => ?_
  refine Ends.ite (fun _ => ?_) fun _ => ?_
  · exact hc.guard fun _ => Ends.ok hc
  refine hc.guard fun _ => ?_
  refine Ends.bind (settingsLoop_ends f.payload hc) ?_
  intro c' hc'
  have hseen : Kept { c' with settingsSeen := c'.settingsSeen + 1 } := { hc' with }
  exact hseen.onConn fun _ => Ends.ok hseen

/-! ## The other frames -/

theorem Stream.Balanced.credited {inc : ℕ} (h : s.Balanced server peer own) (hinc : (inc : ℤ) ≤ winMax)
    (hmax : ¬(0 < s.sendWin ∧ winMax - inc < s.sendWin)) :
    (s.credited inc).Balanced server peer own := by
  refine { h with send := ?_, sendMax := ?_ }
  · have := h.send
    simp only [Stream.credited]
    omega
  · simp only [Stream.credited]
    omega

theorem Kept.credited (h : Kept c) {inc : ℕ} (hinc : (inc : ℤ) ≤ winMax)
    (hmax : ¬(0 < c.connSend ∧ winMax - inc < c.connSend)) : Kept (c.credited inc) := by
  have hsend := h.connSend
  have hsent := h.sent
  refine { h with sent := ?_, values := ?_, connSend := ?_, connSendMax := ?_ }
  · simp only [Conn.credited, Conn.setConnSend]
    omega
  · refine forall_mem_cons.mpr ⟨?_, h.values⟩
    simp only [winMax] at *
    constructor <;> omega
  · simp only [Conn.credited, Conn.setConnSend]
    omega
  · simp only [Conn.credited, Conn.setConnSend]
    omega

theorem onWindowUpdate_ends (hc : Kept c) : Ends (onWindowUpdate c f) Kept Left := by
  have hinc : ((ofBigEndian f.payload % 2 ^ 31 : ℕ) : ℤ) ≤ winMax := by
    have := Nat.mod_lt (ofBigEndian f.payload) (show 0 < 2 ^ 31 by decide)
    simp only [winMax]
    omega
  refine hc.guard fun _ => ?_
  refine hc.guard fun _ => ?_
  refine Ends.ite (fun _ => ?_) fun _ => ?_
  · refine hc.guard fun hmax => ?_
    exact Ends.ok (hc.credited hinc hmax)
  cases hget : gwConnStream c f.stream with
  | none => exact Ends.ok hc
  | some x =>
    obtain ⟨i, s⟩ := x
    obtain ⟨-, hmem, hfree, -⟩ := gwConnStream_spec hget
    refine Ends.ite (fun _ => Ends.ok hc) fun hdone => ?_
    refine hc.guard fun hmax => ?_
    have hs := hc.balanced hmem (Stream.active_of hfree hdone)
    exact Ends.ok (hc.setBalanced i (hs.credited hinc hmax))

theorem onPing_ends (cap : ℕ) (hc : Kept c) : Keeps (onPing c f cap) := by
  refine hc.guard fun _ => ?_
  refine hc.guard fun _ => ?_
  refine Ends.ite (fun _ => Ends.ok hc) fun _ => ?_
  exact hc.onConn fun _ => Ends.ok hc

theorem onRstStream_ends (hc : Kept c) : Ends (onRstStream c f) Kept Left := by
  refine hc.guard fun _ => ?_
  cases hget : gwConnStream c f.stream with
  | none => exact Ends.ok hc
  | some x =>
    obtain ⟨i, s⟩ := x
    obtain ⟨-, hmem, -, -⟩ := gwConnStream_spec hget
    have hrange := hc.ranges s hmem
    refine Ends.ite (fun _ => Ends.ok (hc.setSlot i hrange ?_)) fun _ => ?_
    · rintro (h | h) <;> cases h
    refine Ends.ite (fun _ => Ends.ok hc) fun _ => Ends.ok (hc.setSlot i hrange ?_)
    rintro (h | h) <;> cases h

theorem Kept.fresh (h : Kept c) (hs : streamNew c id = some (i, s)) (server : Bool) :
    s.Balanced server c.peerInit c.localInit := by
  rw [streamNew_spec hs]
  refine ⟨?_, h.peerInit.2, ?_, h.localInit.1.le, le_rfl, Nat.zero_le _, Nat.zero_le _, ?_, ?_⟩
  · simp [freeStream]
  · simp [freeStream]
  · intro hsend
    cases hsend
  · intro _ hrecv
    cases hrecv

theorem onRequest_ends (p : Bytes) (cap : ℕ) (hc : Kept c) (hserver : c.server = true) :
    Keeps (onRequest h c f p cap) := by
  simp only [onRequest]
  refine hc.guard fun _ => ?_
  have hlast : Kept { c with lastStream := f.stream } := { hc with }
  cases hnew : streamNew { c with lastStream := f.stream } f.stream with
  | none =>
    exact hlast.onConn fun _ => Ends.ok hlast
  | some x =>
    obtain ⟨i, s⟩ := x
    refine hlast.onConn fun hs => ?_
    have hfresh := hlast.fresh hnew true
    have hsent : s.sent = 0 := by rw [streamNew_spec hnew]; rfl
    have hbal : ∀ (valid : Bool) (path : Bytes), Stream.Balanced true c.peerInit c.localInit
        { s with valid := valid, path := path, state := .receiving } := by
      intro valid path
      exact { hfresh with idle := fun _ _ => hsent, sending := fun hsend => by cases hsend }
    rw [← hserver] at hbal
    exact Ends.ite
      (fun _ => serveComplete_ends h i cap (hlast.setBalanced i (hbal _ _)) hserver rfl
        (hserver ▸ hbal _ _))
      fun _ => Ends.ok (hlast.setBalanced i (hbal _ _))

theorem Stream.header_balanced (e : Bytes × Bytes)
    (h : s.Balanced server peer own) : (s.header e).Balanced server peer own := by
  unfold Stream.header
  split_ifs
  · exact { h with }
  · exact { h with }
  · exact { h with }
  · exact h

theorem foldl_header_balanced (hs : List (Bytes × Bytes)) (h : s.Balanced server peer own) :
    (hs.foldl Stream.header s).Balanced server peer own := by
  induction hs generalizing s with
  | nil => exact h
  | cons e hs ih => exact ih (Stream.header_balanced e h)

theorem callComplete_done (s : Stream) : ¬(callComplete s).Active := by
  rintro (h | h) <;> cases h

theorem onResponse_ends (p : Bytes) (hc : Kept c) : Ends (onResponse c f p) Kept Left := by
  simp only [onResponse]
  cases hget : gwConnStream c f.stream with
  | none => exact Ends.error hc.toSafe
  | some x =>
    obtain ⟨i, s⟩ := x
    obtain ⟨-, hmem, hfree, -⟩ := gwConnStream_spec hget
    refine hc.guard fun hdone => ?_
    refine hc.onConn fun hs => ?_
    have hbal := foldl_header_balanced hs (hc.balanced hmem (Stream.active_of hfree hdone))
    refine Ends.ok ?_
    split
    · exact hc.setSlot i (hbal.ranged hc.peerInit.1 hc.localInit.2)
        fun hact => absurd hact (callComplete_done _)
    · exact hc.setBalanced i hbal

theorem onHeaders_ends (cap : ℕ) (hc : Kept c) : Keeps (onHeaders h c f cap) := by
  refine hc.guard fun _ => ?_
  refine hc.guard fun _ => ?_
  refine hc.onConn fun p => ?_
  refine Ends.ite (onRequest_ends h f p cap hc) fun _ => ?_
  exact Ends.bind (onResponse_ends f p hc) fun _ hc' => Ends.ok hc'

/-! ## DATA -/

theorem Safe.taken (h : Kept c) (i : ℕ) (hs : c.Balances s) (hn : n < 2 ^ 24) : Safe (c.taken i s n) := by
  refine ⟨h.sent, h.sends, ?_⟩
  intro v hv
  have hrecv := h.connRecvPos
  have hcount := h.connRecv
  have hgrant := h.granted
  have hpos := hs.recvPos
  have hrange := hs.ranged h.peerInit.1 h.localInit.2
  simp only [Conn.taken, Conn.setSlot, Conn.setConnRecv, mem_cons] at hv
  rcases hv with rfl | rfl | rfl | hv
  · exact hrange.1
  · have hmax := hrange.2.2
    simp only [Stream.taken]
    constructor <;> omega
  · simp only [winDefault] at hcount
    constructor <;> omega
  · exact h.values v hv

theorem Kept.taken (h : Kept c) (i : ℕ) (hs : c.Balances s) (hn : n < 2 ^ 24)
    (hconn : 0 ≤ (c.taken i s n).connRecv) (hwin : 0 ≤ (s.taken n).recvWin) :
    c.Balances (s.taken n) ∧ Kept (c.taken i s n) := by
  have hrecv := hs.recv
  have hcount := h.connRecv
  have hgrant := h.granted
  have hgrant' := hs.granted
  have hbal : c.Balances (s.taken n) := by
    refine { hs with recv := ?_, recvPos := hwin, granted := ?_ }
    · simp only [Stream.taken]
      omega
    · simp only [Stream.taken]
      omega
  refine ⟨hbal, ?_⟩
  have hbase := h.setBalanced i hbal
  simp only [Conn.taken, Conn.setSlot, Conn.setConnRecv] at hconn
  simp only [Stream.taken] at hwin
  refine { hbase with
    toSafe := Safe.taken h i hs hn, connRecv := ?_, connRecvPos := hconn, granted := ?_, receipts := ?_ }
  · simp only [Conn.taken, Conn.setSlot, Conn.setConnRecv]
    omega
  · simp only [Conn.taken, Conn.setSlot, Conn.setConnRecv]
    omega
  · refine forall_mem_cons.mpr ⟨⟨?_, ?_⟩, h.receipts⟩
    · simp only [Conn.setSlot, Conn.setConnRecv]
      omega
    · simp only [Conn.setSlot, Conn.setConnRecv]
      omega

theorem Stream.Balanced.grantBack (h : s.Balanced server peer own) (hn : s.granted + n ≤ s.got) :
    (s.grantBack n).Balanced server peer own := by
  have hrecv := h.recv
  have hpos := h.recvPos
  refine { h with recv := ?_, recvPos := ?_, granted := hn }
  · simp only [Stream.grantBack]
    omega
  · simp only [Stream.grantBack]
    omega

theorem Kept.grantBack (h : Kept c) (hn : c.granted + n ≤ c.got) : Kept (c.grantBack n) := by
  have hrecv := h.connRecv
  have hpos := h.connRecvPos
  refine { h with values := ?_, connRecv := ?_, connRecvPos := ?_, granted := hn }
  · refine forall_mem_cons.mpr ⟨?_, h.values⟩
    simp only [winDefault] at hrecv
    constructor <;> omega
  · simp only [Conn.grantBack, Conn.setConnRecv]
    omega
  · simp only [Conn.grantBack, Conn.setConnRecv]
    omega

theorem giveBack_ends (i : ℕ) (n : ℕ) (last : Prop) [Decidable last]
    (cap : ℕ) (hc : Kept c) (hs : c.Balances s)
    (hn : c.granted + n ≤ c.got) (hn' : s.granted + n ≤ s.got) : Ends (giveBack c i s n last cap)
      (fun r => Kept r.1 ∧ r.1.server = c.server ∧ r.2.1.state = s.state ∧
        r.1.Balances r.2.1) Left := by
  refine Ends.ite (fun _ => Ends.ok ⟨hc, rfl, rfl, hs⟩) fun _ => ?_
  refine hc.onConn fun b => ?_
  have hc' := hc.grantBack hn
  refine Ends.ite (fun _ => Ends.ok ⟨hc', rfl, rfl, hs⟩) fun _ => ?_
  refine hc'.onConn fun b' => ?_
  have hs' := hs.grantBack hn'
  exact Ends.ok ⟨hc'.setBalanced i hs', rfl, rfl, hs'⟩

theorem onData_ends (cap : ℕ) (hc : Kept c) (hlen : f.payload.length < 2 ^ 24) :
    Keeps (onData h c f cap) := by
  refine hc.guard fun _ => ?_
  cases hget : gwConnStream c f.stream with
  | none => exact Ends.error hc.toSafe
  | some x =>
    obtain ⟨i, s⟩ := x
    obtain ⟨-, hmem, hfree, -⟩ := gwConnStream_spec hget
    refine hc.guard fun hstate => ?_
    rw [not_or] at hstate
    have hs := hc.balanced hmem (Stream.active_of hfree hstate.1)
    refine Ends.guard (Safe.taken hc i hs hlen) fun hwin => ?_
    rw [not_or, not_lt, not_lt] at hwin
    obtain ⟨hbal, hc₁⟩ := hc.taken i hs hlen hwin.1 hwin.2
    refine hc₁.onConn fun p => ?_
    refine hc₁.guard fun _ => ?_
    have hbody : ∀ b, c.Balances
        { s.taken f.payload.length with body := b } := fun _ => { hbal with }
    have hgrant := hc.granted
    have hgrant' := hs.granted
    refine Ends.bind (giveBack_ends i _ _ cap (hc₁.setBalanced i (hbody _)) (hbody _) ?_ ?_) ?_
    · simp only [Conn.taken, Conn.setSlot, Conn.setConnRecv]
      omega
    · simp only [Stream.taken]
      omega
    rintro ⟨c', s', out⟩ ⟨hc', hserver, hsame, hs'⟩
    refine Ends.ite (fun _ => Ends.ok hc') fun _ => ?_
    refine Ends.ite (fun hsrv => ?_) fun _ => ?_
    · have hsrv' : c.server = true := hserver.symm.trans hsrv
      have hrecv : s.state = .receiving := by
        by_contra hne
        exact hstate.2 ⟨hsrv', hne⟩
      have htrue : c'.server = true := hsrv
      exact Ends.bind
        (serveComplete_ends h i _ hc' hsrv (hsame.trans hrecv) (htrue ▸ hs'))
        fun r hr => Ends.ok hr
    · exact Ends.ok (hc'.setSlot i (hs'.ranged hc'.peerInit.1 hc'.localInit.2)
        fun hact => absurd hact (callComplete_done _))

/-! ## Calls -/

theorem frame_ends (cap : ℕ) (hc : Kept c) (hlen : f.payload.length < 2 ^ 24) :
    Keeps (frame h c f cap) := by
  unfold frame
  refine hc.guard fun _ => ?_
  refine Ends.ite (fun _ => onSettings_ends f cap hc) fun _ => ?_
  refine Ends.ite (fun _ => (onWindowUpdate_ends f hc).bind fun _ hc' => Ends.ok hc') fun _ => ?_
  refine Ends.ite (fun _ => onPing_ends f cap hc) fun _ => ?_
  refine Ends.ite (fun _ => ?_) fun _ => ?_
  · exact hc.guard fun _ => Ends.ok { hc with }
  refine Ends.ite (fun _ => (onRstStream_ends f hc).bind fun _ hc' => Ends.ok hc') fun _ => ?_
  refine hc.guard fun _ => ?_
  refine Ends.ite (fun _ => onHeaders_ends h f cap hc) fun _ => ?_
  exact Ends.ite (fun _ => onData_ends h f cap hc hlen) fun _ => Ends.ok hc

theorem foldl_bytes_lt (b : Bytes) (a : ℕ) : b.foldl (fun v x => v * 256 + x.toNat) a < (a + 1) * 256 ^ b.length := by
  induction b generalizing a with
  | nil => simp
  | cons x b ih =>
    have hx := x.toNat_lt
    calc (x :: b).foldl (fun v x => v * 256 + x.toNat) a
        < (a * 256 + x.toNat + 1) * 256 ^ b.length := ih _
      _ ≤ (a + 1) * 256 * 256 ^ b.length := by
          apply Nat.mul_le_mul_right
          omega
      _ = (a + 1) * 256 ^ (x :: b).length := by
          rw [length_cons, pow_succ]
          ring

theorem gwH2FrameGet_length {b rest : Bytes} {f : Frame} (h : gwH2FrameGet b = some (f, rest)) :
    f.payload.length < 2 ^ 24 := by
  simp only [gwH2FrameGet] at h
  split at h
  · cases h
  split at h
  · cases h
  cases h
  have hlt : ofBigEndian (b.take 3) < (0 + 1) * 256 ^ (b.take 3).length := foldl_bytes_lt _ 0
  have hle : (256 : ℕ) ^ (b.take 3).length ≤ 256 ^ 3 := Nat.pow_le_pow_right (by decide) (by simp)
  have htake : ((b.drop 9).take (ofBigEndian (b.take 3))).length ≤ ofBigEndian (b.take 3) := by
    simp
  change ((b.drop 9).take (ofBigEndian (b.take 3))).length < 2 ^ 24
  omega

theorem feedLoop_ends (cap n : ℕ) (rest out : Bytes) (hc : Kept c) : Keeps (feedLoop h cap n c rest out) := by
  induction n generalizing c rest out with
  | zero => exact Ends.ok hc
  | succ n ih =>
    refine Ends.ite (fun _ => ?_) fun _ => Ends.ok hc
    cases hget : gwH2FrameGet rest with
    | none => exact Ends.ok hc
    | some x =>
      obtain ⟨f, rest'⟩ := x
      exact (frame_ends h f _ hc (gwH2FrameGet_length hget)).bind fun r hr => ih rest' _ hr

theorem feedFrames_ends (input out : Bytes) (cap : ℕ) (hc : Kept c) : Keeps (feedFrames h c input out cap) :=
  (feedLoop_ends h cap input.length input out hc).bind fun _ hr =>
    ((flush_ends _ hr).mono (fun _ hr => hr) fun _ he => he.toSafe).bind fun _ hr' => Ends.ok hr'

theorem gwConnFeed_ends (input : Bytes) (cap : ℕ) (hc : Kept c) : Keeps (gwConnFeed h c input cap) := by
  refine Ends.ite (fun _ => ?_) fun _ => feedFrames_ends h input [] cap hc
  refine hc.onConn fun r => ?_
  cases r with
  | none => exact Ends.ok hc
  | some rest =>
    refine hc.guard fun _ => ?_
    have hpreface : Kept { c with prefaceOk := true } := { hc with }
    refine hpreface.onConn fun out => ?_
    exact feedFrames_ends h rest out cap hpreface

theorem gwConnCall_ends (service method payload : Bytes) (cap : ℕ) (hc : Kept c) :
    Stays (gwConnCall c service method payload cap) := by
  refine Ends.guard hc fun hclient => ?_
  cases hnew : streamNew c c.nextStream with
  | none => exact Ends.error hc
  | some x =>
    obtain ⟨i, s⟩ := x
    refine onConn_bind (fun _ => hc) fun hb => ?_
    refine onConn_bind (fun _ => hc) fun out => ?_
    refine Ends.bind (onConn_ends (fun _ => hc) fun _ => lpmMessage_length) ?_
    intro pend hpend
    have hfresh := hc.fresh hnew c.server
    have hsent : s.sent = 0 ∧ s.poff = 0 := by
      rw [streamNew_spec hnew]
      exact ⟨rfl, rfl⟩
    have hset : Kept (c.setSlot i { s with pend := pend, state := .sending }) := by
      exact hc.setBalanced i { hfresh with
        pendMax := hpend
        sending := fun _ => ⟨hsent.1.trans hsent.2.symm, hsent.2.trans_le (Nat.zero_le _)⟩
        idle := fun _ hstate => by cases hstate }
    exact Ends.bind (flush_ends _ { hset with }) fun r hr => Ends.ok hr

theorem gwConnStart_ends (cap : ℕ) (hc : Kept c) : Stays (gwConnStart c cap) :=
  Ends.guard hc fun _ => onConn_bind (fun _ => hc) fun _ => Ends.ok { hc with }

theorem step_ends (c : Conn) (a : Call) (hc : Kept c) : Ends (step h c a) Kept Left := by
  cases a with
  | start cap => exact Ends.ok (gwConnStart_ends cap hc).leaves
  | call service method payload cap =>
    exact Ends.ok (gwConnCall_ends service method payload cap hc).leaves
  | feed input cap =>
    have hfeed := gwConnFeed_ends h input cap hc
    rw [step]
    cases hx : gwConnFeed h c input cap with
    | ok r => exact Ends.ok (hfeed.1 r hx)
    | error e => exact Ends.error (hfeed.2 e hx)
  | goaway cap =>
    have hgone : Stays (gwConnGoaway c cap) := onConn_bind (fun _ => hc) fun _ => Ends.ok hc
    exact Ends.ok hgone.leaves

theorem init_kept (server : Bool) (w : Int32) : Kept (gwConnInit server w) := by
  have hw := w.toInt_lt
  have hfree : ∀ s ∈ (gwConnInit server w).streams, s = freeStream := fun s hs =>
    eq_of_mem_replicate hs
  refine ⟨⟨⟨by simp [gwConnInit, winDefault], ?_, ?_⟩, ?_, by simp [gwConnInit, winDefault, winMax],
    ?_, by simp [gwConnInit, winDefault], le_rfl, ?_, by simp [gwConnInit, winDefault, winMax], ?_,
    rfl, ?_⟩, ?_⟩
  · intro t ht
    cases ht
  · intro v hv
    cases hv
  · simp [gwConnInit]
  · simp [gwConnInit]
  · simp only [gwConnInit, winDefault, winMax]
    split <;> omega
  · intro t ht
    cases ht
  · intro s hs
    rw [hfree s hs]
    exact ⟨by decide, by decide⟩
  · intro s hs hact
    rw [hfree s hs] at hact
    rcases hact with h | h <;> cases h

def session (h : Option Handler) (server : Bool) (w : Int32) (calls : List Call) : Res Conn :=
  runAll (step h) calls (gwConnInit server w)

theorem session_ends (server : Bool) (w : Int32) (calls : List Call) :
    Ends (session h server w calls) Kept Left :=
  runAll_ends (step_ends h) (init_kept server w) calls

/-- Flow control over a whole session, whatever the peer sends and the application calls. Up to
and with a `gw_conn_feed` that reports an error, the bytes sent keep to the window of the connection, every
DATA frame sent keeps to both windows as they are when it is sent, and no window leaves the range
of an `int`. While no error is reported, no increment has carried a window past its maximum, and
every DATA frame received kept to both windows given out. -/
theorem session_windows (h : Option Handler) (server : Bool) (w : Int32) (calls : List Call) :
    (∀ c, (session h server w calls = .ok c ∨ ∃ e, session h server w calls = .error (e, c)) →
      (c.sent : ℤ) ≤ 65535 + c.credit ∧ (∀ t ∈ c.sends, t.Within) ∧ ∀ v ∈ c.values, InRange v) ∧
    ∀ c, session h server w calls = .ok c → (65535 : ℤ) + c.credit - c.sent ≤ 2147483647 ∧
      (∀ s ∈ c.streams, s.Active → c.peerInit + s.credit - s.sent ≤ 2147483647) ∧
      ∀ t ∈ c.receipts, t.Within := by
  obtain ⟨hok, herr⟩ := session_ends h server w calls
  constructor
  · intro c hc
    have hsafe : Safe c := by
      rcases hc with hc | ⟨e, he⟩
      · exact (hok c hc).toSafe
      · exact herr (e, c) he
    exact ⟨hsafe.sent, hsafe.sends, hsafe.values⟩
  · intro c hc
    have hkept := hok c hc
    refine ⟨?_, ?_, hkept.receipts⟩
    · have hmax := hkept.connSendMax
      rw [hkept.connSend] at hmax
      exact hmax
    · intro s hs hact
      have hbal := hkept.balanced hs hact
      have hmax := hbal.sendMax
      rw [hbal.send] at hmax
      exact hmax

def shrinkingPeer : List Call :=
  [.start 64, .call (ascii "s") (ascii "m") (ascii "hello") 400,
    .feed (Frame.bytes ⟨h2Settings, 0, 0, [0, 4, 0, 0, 0, 0]⟩) 400]

def initialWindow (n : UInt8) : Call := .feed (Frame.bytes ⟨h2Settings, 0, 0, [0, 4, 0, 0, 0, n]⟩) 400

/-- Two streams wait behind an initial window of zero; the peer opens the second one to the utmost,
so that its next initial window does not fit there and is an error, after the first stream got it. -/
def halfApplied : List Call :=
  [.start 64, initialWindow 0, .call (ascii "s") (ascii "m") (replicate 120 97) 400,
    .call (ascii "s") (ascii "m") (ascii "hello") 400,
    .feed (Frame.bytes ⟨h2WindowUpdate, 0, 3, [0x7f, 0xff, 0xff, 0xff]⟩) 400, initialWindow 100]

def goOn (c : Conn) (a : Call) : Conn := leaves ((·, ()) <$> step none c a)

/-- The window of a stream is below zero after the peer lowers its initial window: more was sent on
the stream than the initial window of now and the increments allow. After an error of
`gw_conn_feed` even a new DATA frame passes the limit: the same SETTINGS again opens the first
stream once more, beyond any initial window that the peer has given. -/
theorem shrinkingPeer_overdrawn : (∃ c, session none false 0 shrinkingPeer = .ok c ∧
      ∃ s ∈ c.streams, s.Active ∧ c.peerInit + s.credit < s.sent) ∧
    (session none false 0 halfApplied).isOk = false ∧
    ∃ t ∈ ((halfApplied ++ [initialWindow 100, .call [] [] [] 400]).foldl goOn (gwConnInit false 0)).sends,
      100 < t.streamTotal ∧ ¬t.Within := by
  refine ⟨?_, by decide +kernel, by unfold Transfer.Within; decide +kernel⟩
  have hrun : (match session none false 0 shrinkingPeer with
      | .ok c => c.streams.any fun s =>
          decide (s.state = .receiving) && decide (c.peerInit + s.credit < s.sent)
      | .error _ => false) = true := by decide +kernel
  cases hc : session none false 0 shrinkingPeer with
  | error e =>
    rw [hc] at hrun
    cases hrun
  | ok c =>
    rw [hc] at hrun
    obtain ⟨s, hs, hboth⟩ := any_eq_true.mp hrun
    rw [Bool.and_eq_true, decide_eq_true_iff, decide_eq_true_iff] at hboth
    exact ⟨c, rfl, s, hs, .inl hboth.1, hboth.2⟩

end Mohhdy.Grpc
