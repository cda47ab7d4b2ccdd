import Mohhdy.Foundations.Runs
import Mohhdy.Net.Tcp

/-! The flow of one peer (`p2p_flow.c`): the datagrams in flight, their acknowledgments and losses,
and the rate at which the peer is paced.

An unused slot of `pkt[32]` is `none`: no function reads what is left in it. Counters that are only
reported are left out, and so are the receiver's pending acknowledgments. -/
namespace Mohhdy.P2p
set_option autoImplicit false
open List Runs Net

structure FlowPkt where
  (ctr sentUs deliveredAt bytes : UInt32)

structure Flow where
  pkt : List (Option FlowPkt)
  (sent acked lost inflight delivered : UInt32)
  sample : List UInt32
  (nsample samplePos : ℕ)
  (btlBps srttUs capBps paceCapBps : UInt32)

def p2pFlowInit : Flow where
  pkt := .replicate 32 none
  sent := 0
  acked := 0
  lost := 0
  inflight := 0
  delivered := 0
  sample := .replicate 8 0
  nsample := 0
  samplePos := 0
  btlBps := 0
  srttUs := 0
  capBps := 0
  paceCapBps := 0

variable (f : Flow)

def atLeast (lo r : UInt32) : UInt32 := if r < lo then lo else r

def atMost (hi r : UInt32) : UInt32 := if hi < r then hi else r

def p2pFlowLossTimeoutUs : UInt32 :=
  atMost 3000000 (atLeast 400000 (if f.srttUs ≠ 0 then f.srttUs * 4 else 1000000))

def paceFloorBps : UInt32 := 1000
def paceCeilBps : UInt32 := 8000000

def capped (cap r : UInt32) : UInt32 := if cap = 0 then r else atMost cap r

def p2pFlowRate : UInt32 :=
  if f.btlBps = 0 then 0
  else
    let r := f.btlBps / 4 * 5 + f.btlBps % 4 * 5 / 4
    atMost paceCeilBps (atLeast paceFloorBps (capped f.paceCapBps (capped f.capBps r)))

def oldestSlot (pkt : List (Option FlowPkt)) : ℕ :=
  (pkt.zipIdx.foldl (fun (best : ℕ × Option FlowPkt) x =>
    match x.1, best.2 with
    | some k, some o => if 0x80000000 ≤ k.sentUs - o.sentUs then (x.2, x.1) else best
    | _, _ => best) (0, pkt.headD none)).1

def p2pFlowOnSend (ctr bytes nowUs : UInt32) : Flow :=
  let k : FlowPkt := ⟨ctr, nowUs, f.delivered, atMost 0xffff bytes⟩
  match f.pkt.findIdx? (·.isNone) with
  | some i => { f with pkt := f.pkt.set i (some k), inflight := f.inflight + 1, sent := f.sent + 1 }
  | none =>
    { f with
      pkt := f.pkt.set (oldestSlot f.pkt) (some k)
      lost := f.lost + 1
      inflight := f.inflight - 1 + 1
      sent := f.sent + 1 }

def takeSample (bps : UInt32) : Flow :=
  let sample := f.sample.set f.samplePos bps
  let nsample := if f.nsample < 8 then f.nsample + 1 else f.nsample
  { f with
    sample
    nsample
    samplePos := (f.samplePos + 1) % 8
    btlBps := (sample.take nsample).foldl max 0
    capBps := if f.capBps ≠ 0 ∧ f.capBps < bps then 0 else f.capBps }

/-- `0` for an acknowledged datagram, `1` for a repeated or late one, `-1` before any was sent. -/
def p2pFlowOnAck (ctr nowUs : UInt32) : Flow × ℤ :=
  match f.pkt.findIdx? (·.any (·.ctr = ctr)), f.pkt.reduceOption.find? (·.ctr = ctr) with
  | some i, some k =>
    let rtt := atLeast 1 (nowUs - k.sentUs)
    let delivered := f.delivered + k.bytes
    let bytes := atMost 4000000 (delivered - k.deliveredAt)
    let f := takeSample { f with
      srttUs := if f.srttUs ≠ 0 then (f.srttUs * 7 + rtt) / 8 else rtt
      delivered } (bytes * 1000 / atLeast 1 (rtt / 1000))
    ({ f with pkt := f.pkt.set i none, inflight := f.inflight - 1, acked := f.acked + 1 }, 0)
  | _, _ => (f, if f.sent = 0 then -1 else 1)

def expired (nowUs : UInt32) (k : FlowPkt) : Bool := p2pFlowLossTimeoutUs f ≤ nowUs - k.sentUs

def p2pFlowExpire (nowUs : UInt32) : Flow :=
  let n := f.pkt.countP (·.any (expired f nowUs))
  let f := { f with
    pkt := f.pkt.map (·.filter fun k => !expired f nowUs k)
    inflight := f.inflight - .ofNat n
    lost := f.lost + .ofNat n }
  if n = 0 ∨ p2pFlowRate f = 0 then f
  else { f with capBps := atLeast paceFloorBps (p2pFlowRate f * 7 / 8) }

def ackCounters (body : List UInt8) : Option (List UInt32) :=
  let n := (body.headD 0).toNat
  if body = [] ∨ n < 1 ∨ 8 < n ∨ body.length ≠ 1 + 4 * n then none
  else some ((range n).map fun i => get32 (body.drop (1 + 4 * i)))

def p2pFlowApplyAcks (body : List UInt8) (nowUs : UInt32) : Flow :=
  ((ackCounters body).getD []).foldl (fun f ctr => (p2pFlowOnAck f ctr nowUs).1) f

/-! ## The balance of a flow -/

inductive FlowOp where
  | send (ctr bytes nowUs : UInt32)
  | acks (body : List UInt8) (nowUs : UInt32)
  | expire (nowUs : UInt32)

def flowStep (f : Flow) : FlowOp → Flow
  | .send ctr bytes nowUs => p2pFlowOnSend f ctr bytes nowUs
  | .acks body nowUs => p2pFlowApplyAcks f body nowUs
  | .expire nowUs => p2pFlowExpire f nowUs

structure Flow.Balanced : Prop where
  slots : f.pkt.length = 32
  inflight : f.inflight = .ofNat (f.pkt.countP (·.isSome))
  sent : f.sent = f.acked + f.lost + f.inflight

variable {f}

theorem Flow.Balanced.send (h : f.Balanced) (ctr bytes nowUs : UInt32) :
    (p2pFlowOnSend f ctr bytes nowUs).Balanced := by
  have hsent := h.sent
  unfold p2pFlowOnSend
  generalize FlowPkt.mk ctr nowUs f.delivered (atMost 0xffff bytes) = k
  split
  · rename_i i hi
    obtain ⟨hlt, hnone, -⟩ := findIdx?_eq_some_iff_getElem.mp hi
    refine ⟨by simpa using h.slots, ?_, by dsimp only; grind⟩
    have hcount : (f.pkt.set i (some k)).countP (·.isSome) = f.pkt.countP (·.isSome) + 1 := by
      rw [countP_set hlt]
      simp_all
    rw [hcount, UInt32.ofNat_add, ← h.inflight]
    rfl
  · rename_i hfull
    have hall : ∀ o ∈ f.pkt, o.isSome = true := by simpa using hfull
    have hset : ∀ o ∈ f.pkt.set (oldestSlot f.pkt) (some k), o.isSome = true := by
      intro o ho
      obtain ho | rfl := mem_or_eq_of_mem_set ho
      · exact hall o ho
      · rfl
    refine ⟨by simpa using h.slots, ?_, by dsimp only; grind⟩
    rw [countP_eq_length.mpr hset, length_set, ← countP_eq_length.mpr hall, ← h.inflight]
    exact UInt32.sub_add_cancel _ _

theorem Flow.Balanced.ack (h : f.Balanced) (ctr nowUs : UInt32) :
    (p2pFlowOnAck f ctr nowUs).1.Balanced := by
  have hsent := h.sent
  unfold p2pFlowOnAck
  split
  · rename_i i k hi _
    obtain ⟨hlt, hany, -⟩ := findIdx?_eq_some_iff_getElem.mp hi
    have hsome : f.pkt[i].isSome = true := by
      cases hk : f.pkt[i] <;> simp_all
    have hpos : 0 < f.pkt.countP (·.isSome) := countP_pos_iff.mpr ⟨_, getElem_mem hlt, hsome⟩
    have hcount : (f.pkt.set i none).countP (·.isSome) + 1 = f.pkt.countP (·.isSome) := by
      rw [countP_set hlt, if_pos hsome]
      simp only [Option.isSome_none, Bool.false_eq_true, if_false]
      omega
    refine ⟨by simpa [takeSample] using h.slots, ?_, by simp only [takeSample]; grind⟩
    rw [h.inflight, ← hcount, UInt32.ofNat_add]
    exact UInt32.add_sub_cancel _ _
  · exact h

theorem Flow.Balanced.acks (h : f.Balanced) (body : List UInt8) (nowUs : UInt32) :
    (p2pFlowApplyAcks f body nowUs).Balanced := by
  unfold p2pFlowApplyAcks
  induction (ackCounters body).getD [] generalizing f with
  | nil => exact h
  | cons ctr rest ih => exact ih (h.ack ctr nowUs)

theorem countP_expired (expired : FlowPkt → Bool) (pkt : List (Option FlowPkt)) :
    (pkt.map (·.filter fun k => !expired k)).countP (·.isSome) + pkt.countP (·.any expired) =
      pkt.countP (·.isSome) := by
  induction pkt with
  | nil => rfl
  | cons o pkt ih =>
    rw [map_cons, countP_cons, countP_cons, countP_cons, ← ih]
    cases o with
    | none => simp
    | some k => cases hk : expired k <;> simp [hk] <;> omega

theorem Flow.Balanced.expire (h : f.Balanced) (nowUs : UInt32) :
    (p2pFlowExpire f nowUs).Balanced := by
  have hsent := h.sent
  have hkept : f.inflight - .ofNat (f.pkt.countP (·.any (expired f nowUs))) =
      .ofNat ((f.pkt.map (·.filter fun k => !expired f nowUs k)).countP (·.isSome)) := by
    rw [h.inflight, ← countP_expired (expired f nowUs), UInt32.ofNat_add]
    exact UInt32.add_sub_cancel _ _
  unfold p2pFlowExpire
  dsimp only
  split <;> exact ⟨by simpa using h.slots, hkept, by dsimp only; grind⟩

theorem Flow.Balanced.step (h : f.Balanced) (op : FlowOp) : (flowStep f op).Balanced := by
  cases op with
  | send ctr bytes nowUs => exact h.send ctr bytes nowUs
  | acks body nowUs => exact h.acks body nowUs
  | expire nowUs => exact h.expire nowUs

/-! ## The rate -/

theorem atMost_le (hi r : UInt32) : atMost hi r ≤ hi ∧ atMost hi r ≤ r := by
  unfold atMost
  split <;> grind

theorem capped_le (cap r : UInt32) : capped cap r ≤ r ∧ (cap ≠ 0 → capped cap r ≤ cap) := by
  unfold capped
  split <;> simp_all [atMost_le]

theorem p2pFlowRate_bounds (f : Flow) (hr : p2pFlowRate f ≠ 0) :
    paceFloorBps ≤ p2pFlowRate f ∧ p2pFlowRate f ≤ paceCeilBps ∧
      (paceFloorBps < f.capBps → p2pFlowRate f ≤ f.capBps) := by
  unfold p2pFlowRate at hr ⊢
  split at hr
  · exact absurd rfl hr
  · rw [if_neg (by assumption)]
    generalize f.btlBps / 4 * 5 + f.btlBps % 4 * 5 / 4 = r
    have hloss := capped_le f.capBps r
    have hpace := capped_le f.paceCapBps (capped f.capBps r)
    simp only [atMost, atLeast, paceFloorBps, paceCeilBps]
    grind

/-- Forged and repeated acknowledgments, evictions and timeouts close a slot once each. -/
theorem flow_balanced (ops : List FlowOp) : let f := run flowStep p2pFlowInit ops
    f.inflight.toNat = f.pkt.countP (·.isSome) ∧ f.inflight ≤ 32 ∧
      f.sent = f.acked + f.lost + f.inflight ∧
      (p2pFlowRate f ≠ 0 → paceFloorBps ≤ p2pFlowRate f ∧ p2pFlowRate f ≤ paceCeilBps ∧
        (paceFloorBps < f.capBps → p2pFlowRate f ≤ f.capBps)) := by
  have h : (run flowStep p2pFlowInit ops).Balanced :=
    run_invariant_all (fun f op h => h.step op) ⟨rfl, rfl, rfl⟩
  generalize run flowStep p2pFlowInit ops = f at h
  have hle : f.pkt.countP (·.isSome) ≤ 32 := h.slots ▸ countP_le_length
  have hnat : f.inflight.toNat = f.pkt.countP (·.isSome) := by
    rw [h.inflight]
    exact UInt32.toNat_ofNat_of_lt' (hle.trans_lt (by decide))
  exact ⟨hnat, UInt32.le_iff_toNat_le.mpr (hnat ▸ hle), h.sent, p2pFlowRate_bounds _⟩

end Mohhdy.P2p
