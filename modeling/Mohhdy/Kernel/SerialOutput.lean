import Mohhdy.Foundations.Runs

/-! The way of serial output (`device_service.c`, `write_serial` in `kernel.c`): bytes wait in a ring
for the driver in Ring 3, and Ring 0 writes them itself when there is no driver or no room.

A byte is its number among all bytes that were written, and the ring is the list of those in it. -/
namespace Mohhdy.Serial
open Runs List
set_option autoImplicit false

/-! ## Model -/

def deviceSerialRing : ℕ := 8192

structure Ring where
  bytes : List ℕ
  owner : ℤ
  inflight : Bool
  (inflightSince lastTake : UInt32)

inductive Verdict
  | direct | queued | flush
  deriving DecidableEq

def devsvcSerialPut (s : Ring) (c : ℕ) : Verdict × Ring :=
  if s.owner ≤ 0 then (if s.bytes = [] then .direct else .flush, s)
  else if s.bytes.length + 1 = deviceSerialRing then (.flush, s)
  else (.queued, { s with bytes := s.bytes ++ [c] })

def devsvcSerialTake (s : Ring) (cap : ℕ) (now : UInt32) : List ℕ × Ring :=
  (s.bytes.take cap, ⟨s.bytes.drop cap, s.owner, s.bytes.take cap ≠ [],
    if s.bytes.take cap = [] then s.inflightSince else now, now⟩)

def devsvcSerialDone (s : Ring) (now : UInt32) : Ring := { s with inflight := false, lastTake := now }

def devsvcSetOwner (s : Ring) (pid : ℤ) : Ring := { s with owner := pid, inflight := false }

def devsvcOwnerGone (s : Ring) : Ring := devsvcSetOwner s 0

def devsvcWatchdog (s : Ring) (now : UInt32) : Bool × Ring :=
  if s.bytes = [] then (false, s)
  else if s.owner ≤ 0 then (true, s)
  else if s.inflight then
    (false, if now - s.inflightSince ≥ 50 then { s with inflightSince := now } else s)
  else (now - s.lastTake ≥ 5, s)

/-- `chunk` is what the driver has taken and not yet put out, and `lost` what drivers that died had. -/
structure World where
  ring : Ring
  (chunk port lost : List ℕ)
  written : ℕ

def serialRing0Flush (w : World) : World :=
  { w with ring := { w.ring with bytes := [] }, port := w.port ++ w.ring.bytes }

def writeSerial (w : World) : World :=
  let flushed := if (devsvcSerialPut w.ring w.written).1 = .flush then serialRing0Flush w else w
  match devsvcSerialPut flushed.ring w.written with
  | (.direct, _) => { flushed with port := flushed.port ++ [w.written], written := w.written + 1 }
  | (_, ring) => { flushed with ring, written := w.written + 1 }

inductive Event
  | write
  | output
  | take (cap : ℕ) (now : UInt32)
  | done (now : UInt32)
  | watchdog (now : UInt32)
  | setOwner (pid : ℤ)
  | dies
  | ownerGone

/-- The driver asks for bytes, or says that it has none, when its chunk is out. -/
def step (w : World) : Event → World
  | .write => writeSerial w
  | .output => match w.chunk with
    | [] => w
    | c :: chunk => { w with chunk, port := w.port ++ [c] }
  | .take cap now => if w.chunk = [] ∧ 0 < w.ring.owner then
      let (chunk, ring) := devsvcSerialTake w.ring cap now
      { w with chunk, ring } else w
  | .done now => if w.chunk = [] then { w with ring := devsvcSerialDone w.ring now } else w
  | .watchdog now =>
    let (flush, ring) := devsvcWatchdog w.ring now
    if flush then serialRing0Flush { w with ring } else { w with ring }
  | .setOwner pid => { w with ring := devsvcSetOwner w.ring pid }
  | .dies => { w with chunk := [], lost := w.lost ++ w.chunk }
  | .ownerGone => { w with ring := devsvcOwnerGone w.ring, chunk := [], lost := w.lost ++ w.chunk }

def World.init : World := ⟨⟨[], 0, false, 0, 0⟩, [], [], [], 0⟩

def Orderly (w : World) : Event → Prop
  | .write => w.chunk = [] ∨ w.ring.bytes.length + 1 < deviceSerialRing
  | .setOwner _ => w.chunk = []
  | _ => True

/-! ## Order -/

def World.line (w : World) : List ℕ := w.port ++ (w.chunk ++ w.ring.bytes)

def World.Held (w : World) : Prop := w.chunk ≠ [] → 0 < w.ring.owner ∧ w.ring.inflight = true

structure Inv (w : World) : Prop where
  sorted : w.line.Pairwise (· < ·)
  all : ∀ i, i < w.written ↔ i ∈ w.line ∨ i ∈ w.lost
  held : w.Held

variable {w w' : World}

section
variable (h : Inv w)
include h

theorem Inv.keep (hline : w'.line = w.line) (hlost : w'.lost = w.lost)
    (hwritten : w'.written = w.written) (hheld : w'.Held) : Inv w' :=
  ⟨hline ▸ h.sorted, hline ▸ hlost ▸ hwritten ▸ h.all, hheld⟩

theorem Inv.add (hline : w'.line = w.line ++ [w.written]) (hlost : w'.lost = w.lost)
    (hwritten : w'.written = w.written + 1) (hheld : w'.Held) : Inv w' := by
  refine ⟨?_, fun i => ?_, hheld⟩
  · rw [hline, pairwise_append]
    refine ⟨h.sorted, pairwise_singleton _ _, fun i hi j hj => ?_⟩
    rw [mem_singleton.mp hj]
    exact (h.all i).2 (.inl hi)
  · have := h.all i
    rw [hline, hlost, hwritten, mem_append, mem_singleton]
    grind

theorem Inv.lose {ring : Ring} (hring : ring.bytes = w.ring.bytes) :
    Inv { w with ring, chunk := [], lost := w.lost ++ w.chunk } := by
  refine ⟨h.sorted.sublist ?_, fun i => ?_, fun hne => absurd rfl hne⟩
  · simp [World.line, hring]
  · have := h.all i
    simp only [World.line, mem_append, hring] at this ⊢
    grind

theorem Inv.flush (hchunk : w.chunk = []) : Inv (serialRing0Flush w) :=
  h.keep (by simp [World.line, serialRing0Flush, hchunk]) rfl rfl fun hne => absurd hchunk hne

theorem Inv.idle (hidle : w.ring.owner ≤ 0 ∨ w.ring.inflight = false) : w.chunk = [] := by
  by_contra hne
  obtain ⟨howner, hflight⟩ := h.held hne
  rcases hidle with hle | hno
  · omega
  · rw [hflight] at hno
    cases hno

theorem Inv.write (hroom : w.chunk = [] ∨ w.ring.bytes.length + 1 < deviceSerialRing) :
    Inv (writeSerial w) := by
  by_cases howner : w.ring.owner ≤ 0
  · have hchunk := h.idle (.inl howner)
    by_cases hbytes : w.ring.bytes = []
    · apply h.add <;> simp [writeSerial, devsvcSerialPut, World.line, World.Held, howner, hbytes, hchunk]
    · apply h.add <;>
        simp [writeSerial, devsvcSerialPut, serialRing0Flush, World.line, World.Held, howner, hbytes, hchunk]
  · by_cases hfull : w.ring.bytes.length + 1 = deviceSerialRing
    · have hchunk := hroom.resolve_right (by omega)
      apply h.add <;>
        simp [writeSerial, devsvcSerialPut, serialRing0Flush, World.line, World.Held, howner, hfull,
          hchunk, deviceSerialRing]
    · apply h.add <;> simp [writeSerial, devsvcSerialPut, World.line, howner, hfull]
      exact h.held

end

theorem watchdog_spec (s : Ring) (now : UInt32) : let r := devsvcWatchdog s now
    r.2.bytes = s.bytes ∧ r.2.owner = s.owner ∧ r.2.inflight = s.inflight ∧
      (r.1 = true → s.owner ≤ 0 ∨ s.inflight = false) := by
  unfold devsvcWatchdog
  split_ifs <;> simp_all

theorem Inv.step (w : World) (e : Event) (h : Inv w) (ho : Orderly w e) : Inv (step w e) := by
  cases e with
  | write => exact h.write ho
  | output =>
    simp only [Serial.step]
    split
    · exact h
    · rename_i c chunk hchunk
      exact h.keep (by simp [World.line, hchunk]) rfl rfl fun _ => h.held (by simp [hchunk])
  | take cap now =>
    simp only [Serial.step]
    split_ifs with hcall
    · exact h.keep (by simp [World.line, devsvcSerialTake, hcall.1]) rfl rfl
        fun hne => ⟨hcall.2, by simpa [devsvcSerialTake] using hne⟩
    · exact h
  | done now =>
    simp only [Serial.step]
    split_ifs with hchunk
    · exact h.keep rfl rfl rfl fun hne => absurd hchunk hne
    · exact h
  | watchdog now =>
    obtain ⟨hbytes, howner, hflight, hflush⟩ := watchdog_spec w.ring now
    have hkept : Inv { w with ring := (devsvcWatchdog w.ring now).2 } := by
      refine h.keep (by simp [World.line, hbytes]) rfl rfl fun hne => ?_
      dsimp only
      rw [howner, hflight]
      exact h.held hne
    simp only [Serial.step]
    split_ifs with hact
    · exact hkept.flush (h.idle (hflush hact))
    · exact hkept
  | setOwner pid => exact h.keep rfl rfl rfl fun hne => absurd ho hne
  | dies => exact h.lose rfl
  | ownerGone => exact h.lose rfl

/-- The port, the chunk of the driver and the ring have the bytes in the order they were written, and
each byte is there once or was lost with a driver. -/
theorem output_ordered (evs : List Event) (h : Along step Orderly World.init evs) :
    let w := run step World.init evs
    (w.port ++ (w.chunk ++ w.ring.bytes)).Pairwise (· < ·) ∧
      ∀ i, i < w.written ↔ i ∈ w.port ++ (w.chunk ++ w.ring.bytes) ∨ i ∈ w.lost := by
  have hinv : Inv (run step World.init evs) :=
    run_invariant Inv.step ⟨Pairwise.nil, by simp [World.init, World.line], fun hne => absurd rfl hne⟩ h
  exact ⟨hinv.sorted, hinv.all⟩

theorem output_ordered_chunk :
    (run step World.init [.setOwner 5, .write, .take 1 0, .write, .output]).port.Pairwise (· < ·) :=
  (pairwise_append.mp (output_ordered [.setOwner 5, .write, .take 1 0, .write, .output]
    ⟨rfl, .inl rfl, trivial, .inr (by decide), trivial, trivial⟩).1).1

def holding (bytes : List ℕ) (n : ℕ) : World := ⟨⟨bytes, 5, true, 0, 0⟩, [0], [], [], n⟩

theorem run_writes {l : List ℕ} {n k : ℕ} (hroom : l.length + k < deviceSerialRing) :
    run step (holding l n) (replicate k .write) = holding (l ++ range' n k) (n + k) := by
  induction k generalizing l n with
  | zero => simp
  | succ k ih =>
    have hfull : l.length + 1 ≠ deviceSerialRing := by omega
    have hwrite : step (holding l n) .write = holding (l ++ [n]) (n + 1) := by
      simp [holding, step, writeSerial, devsvcSerialPut, hfull]
    rw [replicate_succ, run_cons, hwrite, ih (by simp; omega)]
    simp [range'_succ, Nat.add_assoc, Nat.add_comm 1]

/-- The ring fills up while the driver has the first byte, and Ring 0 writes the others before it. -/
theorem full_ring_overtakes : ¬(run step World.init ([.setOwner 5, .write, .take 1 0] ++
    (replicate 8191 .write ++ [.write, .output]))).port.Pairwise (· < ·) := by
  have hstart : run step World.init [.setOwner 5, .write, .take 1 0] = holding [] 1 := rfl
  have hfill : run step (holding [] 1) (replicate 8191 .write) = holding (range' 1 8191) 8192 :=
    run_writes (by simp [deviceSerialRing])
  have hlast : (run step (holding (range' 1 8191) 8192) [.write, .output]).port = range' 1 8191 ++ [0] := by
    simp [holding, step, writeSerial, devsvcSerialPut, serialRing0Flush, deviceSerialRing]
  rw [run_append, run_append, hstart, hfill, hlast, pairwise_append]
  exact fun h => absurd (h.2.2 1 (by simp) 0 (by simp)) (by decide)

end Mohhdy.Serial
