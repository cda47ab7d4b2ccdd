import Mohhdy.Collab.Fold

/-! Points are conserved by the fold.

What an account does not hold is locked in a task, an escrow or an auction. The worth of a state
is the sum of the four; joining adds the grant to it and nothing else changes it. The invariant
also keeps every amount that is ever locked within the range where the signed and the unsigned
reading of it agree, and an account for the best bidder of every auction. -/
namespace Mohhdy.Collab
open Tables
open List hiding lookup
set_option autoImplicit false

variable {req seller : UInt32} {v : ℤ} {f : Account → Account} {seq : UInt32}
  {id payer : UInt32} {acc : List Account}

/-! ## Worth -/

def Task.locked (t : Task) : ℤ :=
  if t.state = .paid ∨ t.state = .refused then 0 else t.reward.toNat

def Escrow.locked (x : Escrow) : ℤ :=
  if x.state = .opened ∨ x.state = .disputed then x.amount.toNat else 0

def Auction.locked (u : Auction) : ℤ := if u.state = .opened then u.best.toNat else 0

def worth (s : State) : ℤ :=
  total Account.balance s.acc + total Task.locked s.tasks + total Escrow.locked s.escrows +
    total Auction.locked s.auctions

structure AuctionOk (acc : List Account) (u : Auction) : Prop where
  best : u.best ≤ 1000000
  none : u.bidder = 0 → u.best = 0
  some : u.bidder ≠ 0 → u.bidder ∈ acc.map Account.id

structure Wf (s : State) : Prop where
  acc : ∀ a ∈ s.acc, 0 ≤ a.balance ∧ a.joined = true
  offers : ∀ x ∈ s.offers, x.price ≤ 1000000
  tasks : ∀ t ∈ s.tasks, t.reward ≤ 1000000
  escrows : ∀ x ∈ s.escrows, x.amount ≤ 1000000
  auctions : ∀ u ∈ s.auctions, AuctionOk s.acc u

structure Sound (s : State) : Prop extends Wf s where
  worth_eq : worth s = 100 * s.acc.length

theorem sound_init : Sound State.init where
  acc := by simp [State.init]
  offers := by simp [State.init]
  tasks := by simp [State.init]
  escrows := by simp [State.init]
  auctions := by simp [State.init]
  worth_eq := rfl

theorem i32_eq {v : UInt32} (h : v ≤ 1000000) : i32 v = v.toNat := by
  have hn : v.toNat ≤ 1000000 := by simpa using UInt32.le_iff_toNat_le.mp h
  have hi : i32 v = v.toBitVec.toInt := rfl
  rw [hi, BitVec.toInt_eq_toNat_of_lt]
  · rfl
  · change 2 * v.toNat < 2 ^ 32
    omega

/-! ## Credits -/

@[simp] theorem creditAcc_length (id : UInt32) (v : ℤ) (acc : List Account) :
    (creditAcc id v acc).length = acc.length := modifyFirst_length _ _ _

@[simp] theorem creditAcc_ids (id : UInt32) (v : ℤ) (acc : List Account) :
    (creditAcc id v acc).map Account.id = acc.map Account.id := by
  apply update_map
  exact fun _ => rfl

theorem lookup_creditAcc (id j : UInt32) (v : ℤ) (acc : List Account) :
    lookup Account.id j (creditAcc id v acc) =
      if j = id then (lookup Account.id j acc).map (fun a => { a with balance := a.balance + v })
      else lookup Account.id j acc := by
  apply lookup_update
  exact fun _ => rfl

theorem creditAcc_isSome (id j : UInt32) (v : ℤ) (acc : List Account) :
    (lookup Account.id j (creditAcc id v acc)).isSome = (lookup Account.id j acc).isSome := by
  rw [lookup_creditAcc]
  split <;> simp

theorem creditAcc_total (h : (lookup Account.id id acc).isSome) :
    total Account.balance (creditAcc id v acc) = total Account.balance acc + v := by
  obtain ⟨a, ha⟩ := Option.isSome_iff_exists.mp h
  rw [creditAcc, total_update ha]
  dsimp only
  omega

theorem creditAcc_funds (hf : ∀ a ∈ acc, 0 ≤ a.balance ∧ a.joined = true)
    (hv : ∀ a, lookup Account.id id acc = some a → 0 ≤ a.balance + v) :
    ∀ a ∈ creditAcc id v acc, 0 ≤ a.balance ∧ a.joined = true :=
  modifyFirst_forall hf fun x hx hx' => ⟨hv x hx, hx'.2⟩

variable {s : State}

theorem acct_credit_isSome (s : State) (id j : UInt32) (v : ℤ) :
    (acct (credit s id v) j).isSome = (acct s j).isSome := creditAcc_isSome id j v s.acc

theorem AuctionOk.of_ids {acc' : List Account} {u : Auction} (h : AuctionOk acc u)
    (hids : ∀ i, i ∈ acc.map Account.id → i ∈ acc'.map Account.id) : AuctionOk acc' u :=
  ⟨h.best, h.none, fun hb => hids _ (h.some hb)⟩

theorem Wf.credit (h : Wf s)
    (hv : ∀ a, acct s id = some a → 0 ≤ a.balance + v) : Wf (credit s id v) where
  acc := creditAcc_funds h.acc hv
  __ := h
  auctions := fun u hu => (h.auctions u hu).of_ids fun i hi => by
    rw [Collab.credit, creditAcc_ids]
    exact hi

structure Short (d : ℤ) (s : State) : Prop extends Wf s where
  worth_eq : worth s + d = 100 * s.acc.length

variable {d : ℤ}

theorem Sound.short (h : Sound s) : Short 0 s := ⟨h.toWf, (Int.add_zero _).trans h.worth_eq⟩

theorem Short.sound (h : Short d s) (hd : d = 0) : Sound s := ⟨h.toWf, by simpa [hd] using h.worth_eq⟩

theorem Short.credit (h : Short d s) (hid : (acct s id).isSome)
    (hv : ∀ a, acct s id = some a → 0 ≤ a.balance + v) : Short (d - v) (credit s id v) := by
  refine ⟨h.toWf.credit hv, ?_⟩
  have hs := h.worth_eq
  have ht := creditAcc_total (v := v) hid
  simp only [worth, Collab.credit, creditAcc_length] at hs ⊢
  omega

theorem Short.payIn (h : Short d s) (hid : (acct s id).isSome) (hv : 0 ≤ v) : Short (d - v) (Collab.credit s id v) := by
  refine h.credit hid fun a ha => ?_
  have := (h.acc a (lookup_mem ha)).1
  omega

theorem Short.payOut {o : Account} (h : Short d s) (ho : acct s id = some o) (hv : v ≤ o.balance) :
    Short (d + v) (Collab.credit s id (-v)) := by
  rw [← Int.sub_neg]
  refine h.credit (by rw [ho]; rfl) fun a ha => ?_
  cases ho.symm.trans ha
  omega

theorem Wf.setAcct (h : Wf s) (hid : ∀ a, (f a).id = a.id) (hb : ∀ a, (f a).balance = a.balance)
    (hj : ∀ a, (f a).joined = a.joined) : Wf (setAcct s id f) where
  acc := modifyFirst_forall h.acc fun x _ hx => by rw [hb, hj]; exact hx
  __ := h
  auctions := fun u hu => (h.auctions u hu).of_ids fun i hi => by
    rw [Collab.setAcct, update_map _ _ hid]
    exact hi

theorem worth_setAcct (hb : ∀ a, (f a).balance = a.balance) : worth (setAcct s id f) = worth s := by
  have := total_modifyFirst_same (p := fun a => a.id = id) s.acc hb
  simp only [worth, Collab.setAcct, update, this]

/-! ## Records -/

theorem Short.setTask {f : Task → Task} {t : Task} (h : Short d s) (ht : taskOf s req seq = some t)
    (hf : ∀ t, (f t).reward = t.reward) : Short (d + t.locked - (f t).locked) (setTask s req seq f) where
  __ := h
  tasks := modifyFirst_forall h.tasks fun x _ hx => by rw [hf]; exact hx
  worth_eq := by
    have hs := h.worth_eq
    have := total_update (w := Task.locked) (f := f) ht
    simp only [worth, Collab.setTask] at hs ⊢
    omega

theorem Short.setEscrow {f : Escrow → Escrow} {x : Escrow} (h : Short d s) (hx : escrowOf s payer seq = some x)
    (hf : ∀ x, (f x).amount = x.amount) : Short (d + x.locked - (f x).locked) (setEscrow s payer seq f) where
  __ := h
  escrows := modifyFirst_forall h.escrows fun x _ hx => by rw [hf]; exact hx
  worth_eq := by
    have hs := h.worth_eq
    have := total_update (w := Escrow.locked) (f := f) hx
    simp only [worth, Collab.setEscrow] at hs ⊢
    omega

theorem Short.setAuction {f : Auction → Auction} {u : Auction} (h : Short d s) (hu : auctionOf s seller seq = some u)
    (hf : ∀ u, AuctionOk s.acc u → AuctionOk s.acc (f u)) :
    Short (d + u.locked - (f u).locked) (setAuction s seller seq f) where
  __ := h
  auctions := modifyFirst_forall h.auctions fun u _ hu => hf u hu
  worth_eq := by
    have hs := h.worth_eq
    have := total_update (w := Auction.locked) (f := f) hu
    simp only [worth, Collab.setAuction] at hs ⊢
    omega

/-- The frame of the invariant: it reads the prices of the offers and nothing of the
proposals, rights, ratings, tickets and counters. -/
theorem Sound.frame {s s' : State} (h : Sound s) (hacc : s'.acc = s.acc)
    (hoffers : ∀ x ∈ s'.offers, x.price ≤ 1000000) (htasks : s'.tasks = s.tasks)
    (hescrows : s'.escrows = s.escrows) (hauctions : s'.auctions = s.auctions) : Sound s' where
  acc := by rw [hacc]; exact h.acc
  offers := hoffers
  tasks := by rw [htasks]; exact h.tasks
  escrows := by rw [hescrows]; exact h.escrows
  auctions := by rw [hauctions, hacc]; exact h.auctions
  worth_eq := by
    have := h.worth_eq
    simp only [worth, hacc, htasks, hescrows, hauctions] at this ⊢
    exact this

theorem Sound.addRight (h : Sound s) (a b : UInt32) : Sound (addRight s a b) := by
  unfold Collab.addRight
  split
  · exact h.frame rfl h.offers rfl rfl rfl
  · exact h

/-! ## The entry types

In each lemma the case that changes the state is the named one; a rejected entry leaves the
state as it was. -/

variable (stale : Stale)

section Entries

variable {s : State} {o : Account} {e : Entry}

theorem acct_isSome_of_eq {a : Account} (h : acct s id = some a) : (acct s id).isSome := by
  rw [h]; rfl

theorem Sound.pay {src dst : UInt32} (h : Sound s) (hs : acct s src = some o)
    (hd : (acct s dst).isSome) (h0 : 0 ≤ v) (hv : v ≤ o.balance) :
    Sound (credit (credit s src (-v)) dst v) := by
  have hd' : (acct (credit s src (-v)) dst).isSome := by rw [acct_credit_isSome]; exact hd
  exact ((h.short.payOut hs hv).payIn hd' h0).sound (by omega)

theorem amount_in_range {v : UInt32} (h : ¬(v = 0 ∨ v > 1000000)) : v ≤ 1000000 := by
  have h2 : ¬ v > 1000000 := fun hv => h (.inr hv)
  exact UInt32.not_lt.mp h2

section
variable (h : Sound s)
include h

theorem applyTransfer_sound (ho : acct s e.origin = some o) : Sound (applyTransfer s o e).2 := by
  fun_cases applyTransfer s o e
  case case5 p hp _ hamt hcov =>
    have hr := i32_eq (amount_in_range hamt)
    exact h.pay ho (acct_isSome_of_eq hp) (by omega) (by omega)
  all_goals exact h

theorem applyOffer_sound : Sound (applyOffer s e).2 := by
  fun_cases applyOffer s e
  case case3 hargs _ =>
    have hprice : e.amount ≤ 1000000 := UInt32.not_lt.mp fun hv => hargs (.inr (.inl hv))
    refine h.frame rfl ?_ rfl rfl rfl
    exact forall_mem_append.mpr ⟨h.offers, forall_mem_singleton.mpr hprice⟩
  all_goals exact h

theorem applyReserve_sound (ho : acct s e.origin = some o) : Sound (applyReserve s o e).2 := by
  fun_cases applyReserve s o e
  case case6 x hx _ _ hcov p hp _ offers =>
    have hr := i32_eq (h.offers x (lookup_mem hx))
    have hpay := h.pay ho (acct_isSome_of_eq hp) (v := i32 x.price) (by omega) (by omega)
    apply Sound.addRight
    refine hpay.frame rfl ?_ rfl rfl rfl
    exact modifyFirst_forall h.offers fun _ _ hy => hy
  all_goals exact h

theorem applyTask_sound (ho : acct s e.origin = some o) : Sound (applyTask s o e).2 := by
  fun_cases applyTask s o e
  case case5 hamt r _ hcov _ s1 =>
    have hrange := amount_in_range hamt
    have hr := i32_eq hrange
    have hw := h.short.payOut ho (v := i32 e.amount) (by omega)
    refine ⟨⟨hw.acc, hw.offers, ?_, hw.escrows, hw.auctions⟩, ?_⟩
    · exact forall_mem_append.mpr ⟨h.tasks, forall_mem_singleton.mpr hrange⟩
    · have hs := hw.worth_eq
      simp only [worth, s1, total_append, total_cons, total_nil, Task.locked, reduceCtorEq, or_self,
        if_false] at hs ⊢
      omega
  all_goals exact h

theorem applyClaim_sound : Sound (applyClaim s e).2 := by
  fun_cases applyClaim s e
  case case4 t ht _ hst =>
    have hst : t.state = .opened := by simpa using hst
    exact Short.sound (h.short.setTask ht fun _ => rfl) (by simp [Task.locked, hst])
  all_goals exact h

theorem applyDone_sound : Sound (applyDone s e).2 := by
  fun_cases applyDone s e
  case case4 t ht _ hst =>
    have hst : t.state = .claimed := by simpa using hst
    refine Short.sound (h.short.setTask ht fun _ => rfl) ?_
    by_cases hr : e.aux = t.result <;> simp [Task.locked, hst, hr]
  all_goals exact h

theorem applyAccept_sound : Sound (applyAccept s e).2 := by
  fun_cases applyAccept s e
  case case5 t ht _ hst p hp s1 s2 =>
    have hr := i32_eq (h.tasks t (lookup_mem ht))
    have hw := h.short.payIn (acct_isSome_of_eq hp) (v := i32 t.reward) (by omega)
    have hst : t.state = .done := by simpa using hst
    apply Sound.addRight
    exact Short.sound (hw.setTask (t := t) ht fun _ => rfl) (by simp [Task.locked, hst, hr])
  all_goals exact h

theorem applyReject_sound (ho : acct s e.origin = some o) : Sound (applyReject s e).2 := by
  fun_cases applyReject s e
  case case4 t ht _ hst s1 =>
    have hr := i32_eq (h.tasks t (lookup_mem ht))
    have hw := h.short.payIn (acct_isSome_of_eq ho) (v := i32 t.reward) (by omega)
    have hst : t.state = .wrong := by simpa using hst
    exact Short.sound (hw.setTask (t := t) ht fun _ => rfl) (by simp [Task.locked, hst, hr])
  all_goals exact h

theorem Sound.setAcct (hid : ∀ a, (f a).id = a.id) (hb : ∀ a, (f a).balance = a.balance)
    (hj : ∀ a, (f a).joined = a.joined) : Sound (setAcct s id f) := by
  refine ⟨h.toWf.setAcct hid hb hj, ?_⟩
  rw [worth_setAcct hb, h.worth_eq]
  simp [Collab.setAcct, update]

theorem applyRate_sound : Sound (applyRate s e).2 := by
  fun_cases applyRate s e
  case case4 s1 _ | case6 s1 =>
    have hs : Sound s1 := h.setAcct (fun _ => rfl) (fun _ => rfl) (fun _ => rfl)
    exact hs.frame rfl hs.offers rfl rfl rfl
  all_goals exact h

theorem applyPropose_sound : Sound (applyPropose s e).2 := by
  fun_cases applyPropose s e
  all_goals exact h.frame rfl h.offers rfl rfl rfl

theorem applyVote_sound : Sound (applyVote s e).2 := by
  fun_cases applyVote s e
  all_goals exact h.frame rfl h.offers rfl rfl rfl

theorem applyTicket_sound : Sound (applyTicket s e).2 := by
  fun_cases applyTicket s e
  all_goals exact h.frame rfl h.offers rfl rfl rfl

theorem applyAnswer_sound : Sound (applyAnswer s e).2 := by
  fun_cases applyAnswer s e
  all_goals exact h.frame rfl h.offers rfl rfl rfl

theorem applyEscrow_sound (ho : acct s e.origin = some o) : Sound (applyEscrow s o e).2 := by
  fun_cases applyEscrow s o e
  case case8 p _ _ _ hamt hcov _ prog _ s1 =>
    have hrange := amount_in_range hamt
    have hr := i32_eq hrange
    have hw := h.short.payOut ho (v := i32 e.amount) (by omega)
    refine ⟨⟨hw.acc, hw.offers, hw.tasks, ?_, hw.auctions⟩, ?_⟩
    · exact forall_mem_append.mpr ⟨h.escrows, forall_mem_singleton.mpr hrange⟩
    · have hs := hw.worth_eq
      simp only [worth, s1, total_append, total_cons, total_nil, Escrow.locked, newEscrow, true_or,
        if_true] at hs ⊢
      omega
  all_goals exact h

theorem Sound.settle {x : Escrow} {st : EscrowState}
    (hx : escrowOf s payer seq = some x) (hopen : x.state = .opened ∨ x.state = .disputed)
    (hid : (acct s id).isSome) (hst : ¬ (st = .opened ∨ st = .disputed)) :
    Sound (setEscrow (credit s id (i32 x.amount)) payer seq fun x => { x with state := st }) := by
  have hr := i32_eq (h.escrows x (lookup_mem hx))
  have hw := h.short.payIn hid (v := i32 x.amount) (by omega)
  refine Short.sound (hw.setEscrow (x := x) hx fun _ => rfl) ?_
  simp [Escrow.locked, if_pos hopen, if_neg hst, hr]

theorem applySettle_sound : Sound (applySettle s e).2 := by
  fun_cases applySettle s e
  case case5 x hx hst _ _ p hp s1 | case8 x hx hst _ _ p hp s1 =>
    have hst : x.state = .opened := by simpa using hst
    exact h.settle hx (.inl hst) (acct_isSome_of_eq hp) (by simp)
  all_goals exact h

theorem applyDispute_sound : Sound (applyDispute s e).2 := by
  fun_cases applyDispute s e
  case case4 x hx _ hst =>
    exact Short.sound (h.short.setEscrow hx fun _ => rfl) (by simp [Escrow.locked, not_not.mp hst])
  all_goals exact h

end

@[simp] theorem addRuling_amount (x : Escrow) (origin amount : UInt32) :
    (x.addRuling origin amount).amount = x.amount := by
  unfold Escrow.addRuling
  split <;> rfl

@[simp] theorem addRuling_state (x : Escrow) (origin amount : UInt32) :
    (x.addRuling origin amount).state = x.state := by
  unfold Escrow.addRuling
  split <;> rfl

theorem addRuling_key (x : Escrow) (origin amount : UInt32) :
    (x.addRuling origin amount).key = x.key := by
  unfold Escrow.addRuling
  split <;> rfl

section
variable (h : Sound s)
include h

theorem applyRuling_sound : Sound (applyRuling s e).2 := by
  have hvote : ∀ x, escrowOf s e.peer e.ref = some x →
      Sound (Collab.setEscrow s e.peer e.ref fun x => x.addRuling e.origin e.amount) := fun x hx =>
    Short.sound (h.short.setEscrow hx fun x => addRuling_amount x _ _) (by simp [Escrow.locked])
  fun_cases applyRuling s e
  case case6 x hx _ _ _ _ _ _ _ | case7 x hx _ _ _ _ _ _ _ _ _ _ => exact hvote x hx
  case case8 x hx hst _ _ _ x1 s1 forPayer _ winner p hp s2 =>
    have hst : x.state = .disputed := by simpa using hst
    have hx1 : escrowOf s1 e.peer e.ref = some x1 := by
      change lookup Escrow.key (e.peer, e.ref) (update Escrow.key (e.peer, e.ref) _ s.escrows) = _
      rw [lookup_update _ _ _ (fun x => addRuling_key x _ _), if_pos rfl]
      change Option.map _ (escrowOf s e.peer e.ref) = _
      rw [hx]
      rfl
    have hopen : x1.state = .opened ∨ x1.state = .disputed := by
      right
      rw [← hst]
      exact addRuling_state x _ _
    exact (hvote x hx).settle hx1 hopen (acct_isSome_of_eq hp) (by cases forPayer <;> simp)
  all_goals exact h

theorem applySignoff_sound : Sound (applySignoff s e).2 := by
  fun_cases applySignoff s e
  case case7 x hx _ _ _ _ _ => exact Short.sound (h.short.setEscrow hx fun _ => rfl) (by simp [Escrow.locked])
  all_goals exact h

theorem applyAuction_sound : Sound (applyAuction s e).2 := by
  fun_cases applyAuction s e
  case case3 =>
    refine ⟨⟨h.acc, h.offers, h.tasks, h.escrows, ?_⟩, ?_⟩
    · exact forall_mem_append.mpr ⟨h.auctions,
        forall_mem_singleton.mpr ⟨by simp, fun _ => rfl, fun hb => absurd rfl hb⟩⟩
    · have hs := h.worth_eq
      simp only [worth, total_append, total_cons, total_nil, Auction.locked] at hs ⊢
      simp only [if_true, UInt32.toNat_zero]
      omega
  all_goals exact h

theorem applyBid_sound (ho : acct s e.origin = some o) (he : e.origin ≠ 0) :
    Sound (applyBid s o e).2 := by
  fun_cases applyBid s o e
  case case6 u hu hst _ hbid hcov s1 s2 =>
    have hok := h.auctions u (lookup_mem hu)
    have hrange : e.amount ≤ 1000000 := UInt32.not_lt.mp fun hv => hbid (.inr (.inr hv))
    have hr := i32_eq hrange
    have hb := i32_eq hok.best
    have hst : u.state = .opened := by simpa using hst
    have hw1 : Short (0 + i32 e.amount) s1 := h.short.payOut ho (by omega)
    -- the previous bid is repaid; it is 0 when there was no bidder
    have hw2 : Short (0 + i32 e.amount - i32 u.best) s2 ∧ s2.acc.map Account.id = s.acc.map Account.id ∧
        s2.auctions = s.auctions := by
      by_cases hbd : u.bidder ≠ 0
      · have hsome : (acct s1 u.bidder).isSome := by
          rw [acct_credit_isSome]
          exact lookup_isSome_iff.mpr (hok.some hbd)
        have hs2 : s2 = credit s1 u.bidder (i32 u.best) := if_pos hbd
        rw [hs2]
        exact ⟨hw1.payIn hsome (by omega), by simp [s1, credit], rfl⟩
      · have hs2 : s2 = s1 := if_neg hbd
        have hzero : u.best = 0 := hok.none (by simpa using hbd)
        rw [hs2, hb, hzero]
        exact ⟨by simpa using hw1, by simp [s1, credit], rfl⟩
    obtain ⟨hw2, hids, hauc⟩ := hw2
    have hu2 : auctionOf s2 e.peer e.ref = some u := by
      rw [auctionOf, hauc]
      exact hu
    have hmem : e.origin ∈ s2.acc.map Account.id := by
      rw [hids]
      exact lookup_isSome_iff.mp (acct_isSome_of_eq ho)
    refine Short.sound (hw2.setAuction hu2 fun v _ => ⟨hrange, fun h0 => absurd h0 he, fun _ => hmem⟩) ?_
    simp only [Auction.locked, hst, if_true]
    omega
  all_goals exact h

theorem applyClose_sound (ho : acct s e.origin = some o) :
    Sound (applyClose s e).2 := by
  fun_cases applyClose s e
  case case3 u hu hst _ s1 s2 =>
    have hb := i32_eq (h.auctions u (lookup_mem hu)).best
    have hw := h.short.payIn (acct_isSome_of_eq ho) (v := i32 u.best) (by omega)
    have hst : u.state = .opened := by simpa using hst
    apply Sound.addRight
    refine Short.sound (hw.setAuction (u := u) hu fun v hv => ⟨hv.best, hv.none, hv.some⟩) ?_
    simp [Auction.locked, hst, hb]
  case case4 u hu hst hbd =>
    have hst : u.state = .opened := by simpa using hst
    have hzero : u.best = 0 := (h.auctions u (lookup_mem hu)).none (by simpa using hbd)
    refine Short.sound (h.short.setAuction hu fun v hv => ⟨hv.best, hv.none, hv.some⟩) ?_
    simp [Auction.locked, hst, hzero]
  all_goals exact h

theorem applyJoin_sound : Sound (applyJoin s e).2 := by
  unfold applyJoin acctCreate
  cases ha : acct s e.origin with
  | some a =>
    have hj : a.joined = true := (h.acc a (lookup_mem ha)).2
    simp [ha, hj, h]
  | none =>
    by_cases hroom : s.acc.length < 8
    · have hlook : lookup Account.id e.origin s.acc = none := ha
      have hfind : lookup Account.id e.origin (s.acc ++ [⟨e.origin, 0, 0, 0, false, []⟩]) =
          some ⟨e.origin, 0, 0, 0, false, []⟩ := by
        simp only [lookup] at hlook ⊢
        rw [List.find?_append, hlook]
        simp
      have hupd : ∀ f : Account → Account,
          update Account.id e.origin f (s.acc ++ [⟨e.origin, 0, 0, 0, false, []⟩]) =
            s.acc ++ [f ⟨e.origin, 0, 0, 0, false, []⟩] := by
        intro f
        exact modifyFirst_append_of_none hlook (by simp)
      simp only [Option.isNone_none, hroom, and_self, if_true, acct, hfind, Bool.false_eq_true,
        if_false, Collab.setAcct, hupd]
      have hs := h.worth_eq
      refine ⟨⟨?_, h.offers, h.tasks, h.escrows, ?_⟩, ?_⟩
      · exact forall_mem_append.mpr ⟨h.acc, forall_mem_singleton.mpr (by simp)⟩
      · intro u hu
        exact (h.auctions u hu).of_ids fun i hi => by
          rw [map_append]
          exact mem_append_left _ hi
      · simp only [worth, total_append, total_cons, total_nil, length_append,
          length_singleton] at hs ⊢
        omega
    · simp [ha, hroom, h]

/-- Every entry from the wire keeps the invariant; its origin is not 0, which an auction reads
as no bidder. -/
theorem apply_sound (he : e.origin ≠ 0) :
    Sound (apply stale s e).2 := by
  unfold apply
  split
  · exact applyJoin_sound h
  cases ho : acct s e.origin with
  | none => exact h
  | some o =>
    dsimp only
    split
    · exact h
    cases e.type with
    | join => exact h
    | transfer => exact applyTransfer_sound h ho
    | offer => exact applyOffer_sound h
    | reserve => exact applyReserve_sound h ho
    | task => exact applyTask_sound h ho
    | claim => exact applyClaim_sound h
    | done => exact applyDone_sound h
    | accept => exact applyAccept_sound h
    | reject => exact applyReject_sound h ho
    | rate => exact applyRate_sound h
    | propose => exact applyPropose_sound h
    | vote => exact applyVote_sound h
    | profile | redact => exact h.setAcct (fun _ => rfl) (fun _ => rfl) (fun _ => rfl)
    | ticket => exact applyTicket_sound h
    | answer => exact applyAnswer_sound h
    | escrow | contract => exact applyEscrow_sound h ho
    | settle => exact applySettle_sound h
    | dispute => exact applyDispute_sound h
    | ruling => exact applyRuling_sound h
    | signoff => exact applySignoff_sound h
    | auction => exact applyAuction_sound h
    | bid => exact applyBid_sound h ho he
    | close => exact applyClose_sound h ho

end

end Entries

/-! ## Contract programs -/

theorem settlement_le {amount : UInt32} (h : amount ≤ 1000000) (a : MclAction) :
    (settlement amount a).1.toNat ≤ amount.toNat := by
  cases a with
  | pay => exact le_refl _
  | refund => simp [settlement]
  | split pct =>
    obtain ⟨p, _, hp⟩ := pct
    have ha : amount.toNat ≤ 1000000 := by simpa using UInt32.le_iff_toNat_le.mp h
    have hp : p.toNat ≤ 99 := by simpa using UInt32.le_iff_toNat_le.mp hp
    have hmul : amount.toNat * p.toNat ≤ amount.toNat * 99 := Nat.mul_le_mul_left _ hp
    have hval : (settlement amount (.split ⟨p, ‹_›, ‹_›⟩)).1.toNat =
        amount.toNat * p.toNat % 2 ^ 32 / 100 := by
      simp [settlement]
    rw [hval, Nat.mod_eq_of_lt (by omega)]
    omega

theorem settlement_unlocks (amount : UInt32) (a : MclAction) :
    ¬ ((settlement amount a).2 = .opened ∨ (settlement amount a).2 = .disputed) := by
  cases a <;> simp [settlement]

structure Ticked (acc acc' : List Account) (x x' : Escrow) : Prop where
  funds : ∀ a ∈ acc', 0 ≤ a.balance ∧ a.joined = true
  ids : acc'.map Account.id = acc.map Account.id
  amount : x'.amount = x.amount
  worth : total Account.balance acc' + x'.locked = total Account.balance acc + x.locked

theorem tickEscrow_ticked (lamport : UInt32) {x : Escrow}
    (hf : ∀ a ∈ acc, 0 ≤ a.balance ∧ a.joined = true) (hx : x.amount ≤ 1000000) :
    Ticked acc (tickEscrow lamport acc x).1 x (tickEscrow lamport acc x).2 := by
  fun_cases tickEscrow lamport acc x
  case case5 prog _ hst elapsed x1 cl _ hboth paid st hset =>
    have hst : x.state = .opened := by simpa using hst
    obtain ⟨hpayee, hpayer⟩ : (lookup Account.id x.payee acc).isSome ∧
        (lookup Account.id x.payer acc).isSome := by
      simpa [Option.isSome_iff_ne_none, not_or, x1] using hboth
    have hpaid := settlement_le hx cl.action
    have hst' := settlement_unlocks x.amount cl.action
    rw [hset] at hpaid hst'
    dsimp only at hpaid hst'
    have hle : paid ≤ x.amount := UInt32.le_iff_toNat_le.mpr hpaid
    have hrest : (x.amount - paid).toNat = x.amount.toNat - paid.toNat :=
      UInt32.toNat_sub_of_le _ _ hle
    have hx' : x.amount.toNat ≤ 1000000 := by simpa using UInt32.le_iff_toNat_le.mp hx
    have hi1 : i32 paid = paid.toNat := i32_eq (UInt32.le_trans hle hx)
    have hi2 : i32 (x.amount - paid) = x.amount.toNat - paid.toNat := by
      rw [i32_eq (UInt32.le_iff_toNat_le.mpr (by simpa [hrest] using by omega)), hrest]
      omega
    have hmid : ∀ a ∈ creditAcc x.payee (i32 paid) acc, 0 ≤ a.balance ∧ a.joined = true :=
      creditAcc_funds hf fun a ha => by
        have := (hf a (lookup_mem ha)).1
        omega
    refine ⟨creditAcc_funds hmid fun a ha => ?_, ?_, rfl, ?_⟩
    · have := (hmid a (lookup_mem ha)).1
      change 0 ≤ a.balance + i32 (x.amount - paid)
      omega
    · rw [creditAcc_ids, creditAcc_ids]
    · have hpayer' : (lookup Account.id x.payer (creditAcc x.payee (i32 paid) acc)).isSome := by
        rw [creditAcc_isSome]
        exact hpayer
      change total Account.balance (creditAcc x.payer (i32 (x.amount - paid))
        (creditAcc x.payee (i32 paid) acc)) + (if st = .opened ∨ st = .disputed then _ else 0) = _
      rw [creditAcc_total hpayer', creditAcc_total hpayee, if_neg hst', hi1, hi2]
      simp only [Escrow.locked, hst, true_or, if_true]
      omega
  all_goals exact ⟨hf, rfl, rfl, rfl⟩

theorem tickEscrows_spec (lamport : UInt32) {xs : List Escrow}
    (hf : ∀ a ∈ acc, 0 ≤ a.balance ∧ a.joined = true) (hxs : ∀ x ∈ xs, x.amount ≤ 1000000) :
    (∀ a ∈ (tickEscrows lamport acc xs).1, 0 ≤ a.balance ∧ a.joined = true) ∧
      (tickEscrows lamport acc xs).1.map Account.id = acc.map Account.id ∧
      (∀ x ∈ (tickEscrows lamport acc xs).2, x.amount ≤ 1000000) ∧
      total Account.balance (tickEscrows lamport acc xs).1 +
          total Escrow.locked (tickEscrows lamport acc xs).2 =
        total Account.balance acc + total Escrow.locked xs := by
  induction xs generalizing acc with
  | nil => exact ⟨hf, rfl, hxs, rfl⟩
  | cons x xs ih =>
    obtain ⟨hx, hxs⟩ := forall_mem_cons.mp hxs
    have ht := tickEscrow_ticked lamport hf hx
    obtain ⟨h1, h2, h3, h4⟩ := ih ht.funds hxs
    refine ⟨h1, h2.trans ht.ids, ?_, ?_⟩
    · refine forall_mem_cons.mpr ⟨?_, h3⟩
      change (tickEscrow lamport acc x).2.amount ≤ 1000000
      rw [ht.amount]
      exact hx
    · have hw := ht.worth
      simp only [tickEscrows, total_cons]
      omega

theorem contractsTick_sound (h : Sound s) (lamport : UInt32) : Sound (contractsTick s lamport) := by
  obtain ⟨h1, h2, h3, h4⟩ := tickEscrows_spec lamport h.acc h.escrows
  refine ⟨⟨h1, h.offers, h.tasks, h3, ?_⟩, ?_⟩
  · intro u hu
    exact (h.auctions u hu).of_ids fun i hi => by
      change i ∈ (tickEscrows lamport s.acc s.escrows).1.map Account.id
      rw [h2]
      exact hi
  · have hlen : (tickEscrows lamport s.acc s.escrows).1.length = s.acc.length := by
      have := congrArg List.length h2
      simpa using this
    have hs := h.worth_eq
    simp only [worth, contractsTick, hlen] at hs ⊢
    omega

/-! ## The whole fold -/

theorem Sound.countStatus (h : Sound s) (r : Reason) : Sound (countStatus r s) := by
  unfold Collab.countStatus
  split <;> exact h.frame rfl h.offers rfl rfl rfl

theorem foldEntry_sound {e : Entry} (h : Sound s)
    (he : e.origin ≠ 0) : Sound (foldEntry stale s e).2 :=
  contractsTick_sound ((apply_sound stale h he).countStatus _) _

theorem foldTrace_sound (stale : ℕ → Stale) {es : List Entry} (h : Sound s)
    (hes : ∀ e ∈ es, e.origin ≠ 0) : ∀ t ∈ foldTrace stale s es, Sound t := by
  induction es generalizing s stale with
  | nil => simp [foldTrace]
  | cons e es ih =>
    obtain ⟨he, hes⟩ := forall_mem_cons.mp hes
    intro t ht
    simp only [foldTrace, mem_cons] at ht
    rcases ht with rfl | rfl | ht
    · exact apply_sound (stale 0) h he
    · exact foldEntry_sound (stale 0) h he
    · exact ih _ (foldEntry_sound (stale 0) h he) hes t ht

theorem foldLoop_mem_foldTrace (stale : ℕ → Stale) (s : State) (es : List Entry) :
    (foldLoop stale s es).2 = s ∨ (foldLoop stale s es).2 ∈ foldTrace stale s es := by
  induction es generalizing s stale with
  | nil => exact .inl rfl
  | cons e es ih =>
    right
    simp only [foldLoop, foldTrace, mem_cons]
    rcases ih (fun k => stale (k + 1)) (foldEntry (stale 0) s e).2 with h | h
    · exact .inr (.inl h)
    · exact .inr (.inr h)

/-- Conservation as seen from outside: the balances and what is locked add up to the grants of
the joined accounts, and nobody owes. -/
def Conserved (s : State) : Prop :=
  worth s = 100 * (s.acc.countP fun a => a.joined) ∧ ∀ a ∈ s.acc, 0 ≤ a.balance

theorem Sound.conserved (h : Sound s) : Conserved s := by
  have hj : (s.acc.countP fun a => a.joined) = s.acc.length :=
    countP_eq_length.mpr fun a ha => (h.acc a ha).2
  refine ⟨?_, fun a ha => (h.acc a ha).1⟩
  rw [hj]
  exact h.worth_eq

/-- For every ledger of entries from the wire, points are conserved in every state the fold
goes through, and in the state it returns. -/
theorem collabFold_conserved (P : Prim) (stale : ℕ → Stale) (c : Ledger)
    (hc : ∀ sl ∈ c.slots, ∃ b, collabDecode b = some sl.e) :
    (∀ s ∈ foldTrace stale State.init (canonical (c.slots.map Slot.e)), Conserved s) ∧
      Conserved (collabFold P stale c).2.state := by
  have horigin : ∀ e ∈ canonical (c.slots.map Slot.e), e.origin ≠ 0 := by
    intro e he
    obtain ⟨sl, hsl, rfl⟩ := mem_map.mp ((canonical_perm _).mem_iff.mp he)
    obtain ⟨b, hb⟩ := hc sl hsl
    exact (collabDecode_wellFormed hb).1
  have htrace := foldTrace_sound stale sound_init horigin
  refine ⟨fun s hs => (htrace s hs).conserved, ?_⟩
  rw [collabFold_state]
  rcases foldLoop_mem_foldTrace stale State.init (canonical (c.slots.map Slot.e)) with h | h
  · rw [h]
    exact sound_init.conserved
  · exact (htrace _ h).conserved

def auctionLedger : Ledger :=
  { collabInit 7 with slots :=
      [Slot.new ⟨.join, 7, 1, 1, 0, 0, 0, 0, Text.ofStr []⟩,
        Slot.new ⟨.join, 8, 1, 2, 0, 0, 0, 0, Text.ofStr []⟩,
        Slot.new ⟨.auction, 7, 2, 3, 0, 0, 10, 0, Text.ofStr (ascii ['p', 'e', 'n'])⟩,
        Slot.new ⟨.bid, 8, 2, 4, 7, 2, 30, 0, Text.ofStr []⟩] }

theorem collabFold_conserved_auction :
    Conserved (collabFold Prim.permissive (fun _ _ => []) auctionLedger).2.state := by
  refine (collabFold_conserved Prim.permissive (fun _ _ => []) auctionLedger fun sl hsl => ?_).2
  refine ⟨collabEncode sl.e, ?_⟩
  revert sl
  decide +kernel

end Mohhdy.Collab
