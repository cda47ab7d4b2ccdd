import Mohhdy.Foundations.Runs
import Mohhdy.Foundations.Texts

/-! The message bus of the agents (`promptmessage.c`).

Messages wait in a ring of sixteen slots and are taken out of its middle by whoever they match.
The head of the ring moves only when the message at the head is taken, one slot at a time, so the
head may stand at a slot that was emptied before. -/
namespace Mohhdy.PmBus
open Texts Runs List
set_option autoImplicit false

/-! ## Model -/

structure Message where
  (channel sender message : Bytes)
  deriving DecidableEq

/-- `pm_bus_msg_slot_t` -/
structure Slot extends Message where
  active : Bool

/-- `subs` has the subscriptions in use, each a channel and an agent. -/
structure Bus where
  subs : List (Bytes × Bytes)
  queue : Fin 16 → Slot
  (head tail : Fin 16)

def pmBusInit : Bus := ⟨[], fun _ => ⟨⟨[], [], []⟩, false⟩, 0, 0⟩

def pmStrcpy (cap : ℕ) (s : Bytes) : Bytes := s.take (cap - 1)

def pmBusSubscribe (b : Bus) (channel agent : Bytes) : Bus × Bool :=
  if (channel, agent) ∈ b.subs then (b, true)
  else if 32 ≤ b.subs.length then (b, false)
  else ({ b with subs := b.subs ++ [(pmStrcpy 32 channel, pmStrcpy 24 agent)] }, true)

def pmBusPublish (b : Bus) (m : Message) : Bus × Bool :=
  if b.tail + 1 = b.head ∧ (b.queue b.head).active then (b, false)
  else
    let slot : Slot :=
      ⟨⟨pmStrcpy 32 m.channel, pmStrcpy 24 m.sender, pmStrcpy 128 m.message⟩, true⟩
    ({ b with queue := Function.update b.queue b.tail slot, tail := b.tail + 1 }, true)

def matched (subs : List (Bytes × Bytes)) (agent : Bytes) (m : Message) : Bool :=
  subs.any fun s => s.2 = agent ∧ (s.1 = m.channel ∨ s.1 = ascii "*")

/-- The loop of `pm_bus_dequeue`: the slot it stops at. In sixteen turns `cur + 1` is every slot
once, so also the tail. -/
def dequeueLoop (b : Bus) (agent : Bytes) : ℕ → Fin 16 → Option (Fin 16)
  | 0, _ => none
  | n + 1, cur =>
    if cur = b.tail ∧ (b.queue cur).active = false then none
    else if (b.queue cur).active ∧ matched b.subs agent (b.queue cur).toMessage then some cur
    else if cur + 1 = b.tail then none
    else dequeueLoop b agent n (cur + 1)

def Message.shown (cap : ℕ) (m : Message) : Message :=
  ⟨pmStrcpy 32 m.channel, pmStrcpy 24 m.sender, pmStrcpy cap m.message⟩

def Bus.release (b : Bus) (i : Fin 16) : Bus :=
  { b with
    queue := Function.update b.queue i { b.queue i with active := false }
    head := if i = b.head then b.head + 1 else b.head }

def pmBusDequeue (b : Bus) (agent : Bytes) (cap : ℕ) : Bus × Option Message :=
  match dequeueLoop b agent 16 b.head with
  | none => (b, none)
  | some i => (b.release i, some ((b.queue i).toMessage.shown cap))

inductive Op
  | subscribe (channel agent : Bytes)
  | publish (m : Message)
  | dequeue (agent : Bytes) (cap : ℕ)

def Op.Fits : Op → Prop
  | .subscribe channel agent => channel.length < 32 ∧ agent.length < 24
  | .publish m => m.channel.length < 32 ∧ m.sender.length < 24 ∧ m.message.length < 128
  | .dequeue agent _ => agent.length < 24

instance (op : Op) : Decidable op.Fits := by
  unfold Op.Fits
  split <;> infer_instance

/-- The bus, and the messages whose publication succeeded and that no dequeue has returned yet,
oldest first. -/
structure World where
  bus : Bus
  waiting : List Message

def World.init : World := ⟨pmBusInit, []⟩

def step (w : World) : Op → World
  | .subscribe channel agent => { w with bus := (pmBusSubscribe w.bus channel agent).1 }
  | .publish m =>
    let r := pmBusPublish w.bus m
    ⟨r.1, if r.2 then w.waiting ++ [m] else w.waiting⟩
  | .dequeue agent cap =>
    let r := pmBusDequeue w.bus agent cap
    ⟨r.1, if r.2.isSome then w.waiting.eraseP (matched w.bus.subs agent) else w.waiting⟩

def World.next (w : World) (c : { op : Op // op.Fits }) : World := step w c.1

def Delivers (w : World) : Prop :=
  ∀ subs agent cap, (pmBusDequeue { w.bus with subs } agent cap).2 =
    (w.waiting.find? (matched subs agent)).map (Message.shown cap)

/-- The condition on a step: no message is put in the last free slot of the ring while the slot at
the head is empty. -/
def Room (w : World) : Op → Prop
  | .publish _ => w.bus.tail + 1 = w.bus.head → (w.bus.queue w.bus.head).active = true
  | _ => True

instance (w : World) (op : Op) : Decidable (Room w op) := by
  unfold Room
  split <;> infer_instance

/-! ## The ring -/

def span : Fin 16 → ℕ → List (Fin 16)
  | _, 0 => []
  | i, n + 1 => i :: span (i + 1) n

theorem nodup_span : ∀ h t : Fin 16, (span h (t - h).val).Nodup := by decide +kernel

theorem tail_notMem_span : ∀ h t : Fin 16, t ∉ span h (t - h).val := by decide +kernel

theorem span_succ : ∀ h t : Fin 16, t + 1 ≠ h →
    span h (t + 1 - h).val = span h (t - h).val ++ [t] := by decide +kernel

theorem distance_succ : ∀ h t : Fin 16, h ≠ t → (t - h).val = (t - (h + 1)).val + 1 := by decide

def Bus.used (b : Bus) : List (Fin 16) := span b.head (b.tail - b.head).val

def Slot.held (x : Slot) : Option Message := if x.active then some x.toMessage else none

structure Holds (w : World) : Prop where
  waiting : w.waiting = w.bus.used.filterMap fun i => (w.bus.queue i).held
  rest : ∀ i, (w.bus.queue i).active = true → i ∈ w.bus.used

variable {w : World} {b : Bus}

theorem held_update {q : Fin 16 → Slot} {i : Fin 16} {x : Slot} {l : List (Fin 16)} (h : i ∉ l) :
    (l.filterMap fun j => (Function.update q i x j).held) = l.filterMap fun j => (q j).held := by
  refine filterMap_congr fun j hj => ?_
  rw [Function.update_of_ne]
  rintro rfl
  exact h hj

theorem dequeueLoop_eq (agent : Bytes) {n : ℕ} {cur : Fin 16} (hcur : cur ≠ b.tail)
    (hn : (b.tail - cur).val ≤ n) : dequeueLoop b agent n cur =
      (span cur (b.tail - cur).val).find? fun i => (b.queue i).held.any (matched b.subs agent) := by
  induction n generalizing cur with
  | zero =>
    have hzero : b.tail - cur = 0 := Fin.ext (Nat.le_zero.mp hn)
    exact absurd (sub_eq_zero.mp hzero).symm hcur
  | succ n ih =>
    have hdist := distance_succ cur b.tail hcur
    rw [dequeueLoop, if_neg fun h => hcur h.1, hdist, span, List.find?_cons]
    by_cases hhit : (b.queue cur).active ∧ matched b.subs agent (b.queue cur).toMessage
    · simp [hhit, Slot.held]
    · have hmiss : (b.queue cur).held.any (matched b.subs agent) = false := by
        cases hact : (b.queue cur).active <;> simp_all [Slot.held]
      rw [if_neg hhit, hmiss]
      split
      next hlast => rw [hlast, sub_self]; rfl
      next hnext => exact ih hnext (by omega)

theorem Holds.tail (h : Holds w) : (w.bus.queue w.bus.tail).active = false := by
  by_contra hact
  exact tail_notMem_span _ _ (h.rest w.bus.tail (Bool.eq_true_of_not_eq_false hact))

theorem Holds.dequeueLoop (h : Holds w) (subs : List (Bytes × Bytes)) (agent : Bytes) :
    dequeueLoop { w.bus with subs } agent 16 w.bus.head =
      w.bus.used.find? fun i => (w.bus.queue i).held.any (matched subs agent) := by
  by_cases hempty : w.bus.head = w.bus.tail
  · rw [PmBus.dequeueLoop, if_pos ⟨hempty, hempty ▸ h.tail⟩, Bus.used, hempty, sub_self]
    rfl
  · exact dequeueLoop_eq agent hempty (w.bus.tail - w.bus.head).isLt.le

theorem Holds.delivers (h : Holds w) : Delivers w := by
  intro subs agent cap
  rw [pmBusDequeue, h.dequeueLoop subs agent, h.waiting, List.find?_filterMap]
  cases hfind : w.bus.used.find? fun i => (w.bus.queue i).held.any (matched subs agent) with
  | none => rfl
  | some i =>
    have hany := List.find?_some hfind
    have hact : (w.bus.queue i).active = true := by
      by_contra hact
      simp [Slot.held, hact] at hany
    simp [Slot.held, hact]

/-! ## Steps -/

theorem used_release {i : Fin 16} {l l' : List (Fin 16)} (hused : b.used = l ++ i :: l') :
    (b.release i).used = l ++ l' ∨ (b.release i).used = l ++ i :: l' := by
  unfold Bus.release Bus.used
  split
  next hi =>
    have hne : b.head ≠ b.tail := by
      intro heq
      rw [Bus.used, heq, sub_self] at hused
      simp [span] at hused
    rw [Bus.used, distance_succ _ _ hne, span] at hused
    cases l with
    | nil => exact .inl (List.cons.inj hused).2
    | cons a l =>
      have hnodup := nodup_span b.head b.tail
      rw [distance_succ _ _ hne, span, hused, hi, (List.cons.inj hused).1] at hnodup
      simp at hnodup
  next => exact .inr hused

theorem Holds.release (h : Holds w) {i : Fin 16} {l l' : List (Fin 16)}
    (hused : w.bus.used = l ++ i :: l') :
    Holds ⟨w.bus.release i, (l ++ l').filterMap fun j => (w.bus.queue j).held⟩ := by
  have hnodup : (l ++ i :: l').Nodup := hused ▸ nodup_span _ _
  have hi : i ∉ l ++ l' := by
    rw [nodup_middle, nodup_cons] at hnodup
    exact hnodup.1
  have hfree : ((w.bus.release i).queue i).held = none := by simp [Bus.release, Slot.held]
  have hsame : ((l ++ l').filterMap fun j => ((w.bus.release i).queue j).held) =
      (l ++ l').filterMap fun j => (w.bus.queue j).held := held_update hi
  constructor
  · dsimp only
    rw [← hsame]
    obtain hu | hu := used_release hused
    · rw [hu]
    · rw [hu, filterMap_append, filterMap_append, filterMap_cons, hfree]
  · intro j hj
    have hji : j ≠ i := by
      rintro rfl
      simp [Bus.release] at hj
    have hj : (w.bus.queue j).active = true := by
      simpa [Bus.release, Function.update_of_ne hji] using hj
    have hmem := h.rest j hj
    rw [hused] at hmem
    obtain hu | hu := used_release hused
    · rw [hu]
      simpa [hji] using hmem
    · rwa [hu]

theorem Holds.dequeue (h : Holds w) (agent : Bytes) (cap : ℕ) :
    Holds (step w (.dequeue agent cap)) := by
  have hloop := h.dequeueLoop w.bus.subs agent
  unfold step pmBusDequeue
  dsimp only
  rw [hloop]
  cases hfind : w.bus.used.find? fun i => (w.bus.queue i).held.any (matched w.bus.subs agent) with
  | none => exact h
  | some i =>
    obtain ⟨hany, l, l', hused, hmiss⟩ := List.find?_eq_some_iff_append.mp hfind
    have hfirst : w.waiting.eraseP (matched w.bus.subs agent) =
        (l ++ l').filterMap fun j => (w.bus.queue j).held := by
      cases hm : (w.bus.queue i).held with
      | none => simp [hm] at hany
      | some m =>
        have hmatch : matched w.bus.subs agent m = true := by simpa [hm] using hany
        rw [h.waiting, hused, filterMap_append, filterMap_append, filterMap_cons, hm,
          eraseP_append_right, eraseP_cons_of_pos hmatch]
        intro x hx
        obtain ⟨j, hj, hx⟩ := mem_filterMap.mp hx
        simpa [hx] using hmiss j hj
    dsimp only [Option.isSome_some]
    rw [if_pos rfl, hfirst]
    exact h.release hused

theorem pmStrcpy_of_lt {cap : ℕ} {s : Bytes} (h : s.length < cap) : pmStrcpy cap s = s :=
  take_of_length_le (Nat.le_sub_one_of_lt h)

theorem Holds.publish (h : Holds w) {m : Message} (hfit : (Op.publish m).Fits)
    (hroom : Room w (.publish m)) : Holds (step w (.publish m)) := by
  unfold step pmBusPublish
  dsimp only
  split
  next => exact h
  next hfree =>
    obtain ⟨hchannel, hsender, hmessage⟩ := hfit
    have hne : w.bus.tail + 1 ≠ w.bus.head := fun heq => hfree ⟨heq, hroom heq⟩
    have hused := span_succ _ _ hne
    have hnew := tail_notMem_span w.bus.head w.bus.tail
    rw [pmStrcpy_of_lt hchannel, pmStrcpy_of_lt hsender, pmStrcpy_of_lt hmessage]
    constructor
    · dsimp only [Bus.used]
      rw [if_pos rfl, hused, filterMap_append, held_update hnew, h.waiting]
      simp [Slot.held, Bus.used]
    · intro i hi
      dsimp only [Bus.used] at hi ⊢
      rw [hused]
      by_cases heq : i = w.bus.tail
      · simp [heq]
      · rw [Function.update_of_ne heq] at hi
        exact mem_append_left _ (h.rest i hi)

theorem Holds.subscribe (h : Holds w) (channel agent : Bytes) :
    Holds (step w (.subscribe channel agent)) := by
  show Holds ⟨(pmBusSubscribe w.bus channel agent).1, w.waiting⟩
  unfold pmBusSubscribe
  split
  · exact h
  · split
    · exact h
    · exact ⟨h.waiting, h.rest⟩

/-- A message in the last free slot moves the tail to the empty slot at the head, where every
dequeue gives up. -/
theorem not_delivers_of_lap {m : Message} (h : ¬ Room w (.publish m)) :
    ¬ Delivers (step w (.publish m)) := by
  obtain ⟨hlap, hempty⟩ := Classical.not_imp.mp h
  intro hdel
  have hne : w.bus.head ≠ w.bus.tail := by
    rw [← hlap]
    simp
  have hany : ∀ x : Message, matched [(ascii "*", [])] [] x = true := by simp [matched]
  -- whoever listens to everything is told that there is nothing
  have hall := hdel [(ascii "*", [])] [] 0
  simp [step, pmBusPublish, hempty, pmBusDequeue, dequeueLoop, hlap, Function.update_of_ne hne,
    hany] at hall

theorem Holds.step (h : Holds w) {op : Op} (hfit : op.Fits) (hroom : Room w op) :
    Holds (PmBus.step w op) := by
  cases op with
  | subscribe channel agent => exact h.subscribe channel agent
  | publish m => exact h.publish hfit hroom
  | dequeue agent cap => exact h.dequeue agent cap

theorem not_delivers_of_not_room {op : Op} (h : ¬ Room w op) : ¬ Delivers (PmBus.step w op) := by
  cases op with
  | publish m => exact not_delivers_of_lap h
  | _ => exact absurd trivial h

/-- Every message that was published waits for the first dequeue it matches and comes in its turn,
exactly when no message goes into the last free slot of the ring while the slot at the head is
empty. -/
theorem bus_delivers_iff (calls : List { op : Op // op.Fits }) :
    (∀ pre, pre <+: calls → Delivers (run World.next World.init pre)) ↔
      Along World.next (fun w c => Room w c.1) World.init calls := by
  have hinit : Holds World.init := ⟨rfl, by simp [World.init, pmBusInit]⟩
  exact prefix_iff_along (fun _ h => h.delivers) (fun _ c h hroom => h.step c.2 hroom)
    (fun _ _ _ h => not_delivers_of_not_room h) hinit

def lapRun : List { op : Op // op.Fits } :=
  let say (c : String) (h : (Op.publish ⟨ascii c, [], []⟩).Fits) : { op : Op // op.Fits } := ⟨_, h⟩
  let a := say "a" (by decide)
  [⟨.subscribe (ascii "a") (ascii "a"), by decide⟩, ⟨.subscribe (ascii "b") (ascii "b"), by decide⟩,
    a, say "b" (by decide)] ++ List.replicate 13 a ++
    [⟨.dequeue (ascii "b") 128, by decide⟩, ⟨.dequeue (ascii "a") 128, by decide⟩, a, a]

theorem lapRun_hides : ¬ ∀ pre, pre <+: lapRun → Delivers (run World.next World.init pre) := by
  intro h
  have hroom : ¬ Room (run World.next World.init lapRun.dropLast) (.publish ⟨ascii "a", [], []⟩) := by
    decide +kernel
  exact not_delivers_of_lap hroom (h lapRun (prefix_refl _))

end Mohhdy.PmBus
