import Mohhdy.Foundations.Layouts
import Mohhdy.PromptMessage.Vm

/-! Bytecode as typed instructions.

The context of an instruction is the number of values on the stack and whether a trigger is running.
A program is typed when its bytes are a closed layout of instructions that are legal in their
contexts; a machine on such a program never meets an error that only malformed code causes. -/
namespace Mohhdy.PromptMessage
set_option autoImplicit false

open Layouts Machines List

variable {d pc : ℕ}

inductive Instr
  | halt | line (n : ℕ) | pushI (v : Int32) | pushS (a : ℕ) | load (s : ℕ) | store (s : ℕ) | sysMem
  | add | cmp (k : ℕ) | not | fExists | jmp (t : ℕ) | jz (t : ℕ) | print | write | append | show
  | expect (n : ℕ) | ret | and | or

def Instr.op : Instr → Op
  | .halt => .halt | .line _ => .line | .pushI _ => .pushI | .pushS _ => .pushS | .load _ => .load
  | .store _ => .store | .sysMem => .sysMem | .add => .add | .cmp _ => .cmp | .not => .not
  | .fExists => .fExists | .jmp _ => .jmp | .jz _ => .jz | .print => .print | .write => .write
  | .append => .append | .show => .show | .expect _ => .expect | .ret => .ret | .and => .and
  | .or => .or

def le16 (v : ℕ) : Bytes := [UInt8.ofNat v, UInt8.ofNat (v / 256)]

def le32 (v : Int32) : Bytes := le16 (v.toUInt32.toNat % 65536) ++ le16 (v.toUInt32.toNat / 65536)

def Instr.operands : Instr → Bytes
  | .line n | .pushS n | .jmp n | .jz n | .expect n => le16 n
  | .pushI v => le32 v
  | .load s | .store s | .cmp s => [UInt8.ofNat s]
  | _ => []

def Instr.encode (i : Instr) : Bytes := i.op.byte :: i.operands

def Instr.target : Instr → Option ℕ
  | .jmp t | .jz t => some t
  | _ => none

def Instr.retarget (t : ℕ) : Instr → Instr
  | .jmp _ => .jmp t
  | .jz _ => .jz t
  | i => i

def Op.pops : Op → ℕ
  | .halt | .line | .pushI | .pushS | .load | .sysMem | .jmp | .ret => 0
  | .store | .not | .fExists | .jz | .print | .show | .expect => 1
  | .add | .cmp | .write | .append | .and | .or => 2

def Op.pushes : Op → ℕ
  | .pushI | .pushS | .load | .sysMem | .add | .cmp | .not | .fExists | .and | .or => 1
  | _ => 0

def Op.falls : Op → Bool
  | .halt | .jmp | .ret => false
  | _ => true

structure Ctx where
  depth : ℕ
  trig : Bool
  deriving DecidableEq

def Instr.after (c : Ctx) (i : Instr) : Ctx := ⟨c.depth - i.op.pops + i.op.pushes, c.trig⟩

@[simp] theorem Instr.op_retarget (t : ℕ) (i : Instr) : (i.retarget t).op = i.op := by
  cases i <;> rfl

def isa : Isa Ctx Instr where
  encode := Instr.encode
  encode_ne := by simp [Instr.encode]
  after := Instr.after
  falls := fun i => i.op.falls
  target := Instr.target
  retarget := Instr.retarget
  length_retarget := by
    intro t i
    cases i <;> rfl
  after_retarget := by
    intro t c i
    simp [Instr.after]
  falls_retarget := by simp
  target_retarget := by
    intro t i hi
    cases i with
    | jmp u => rfl
    | jz u => rfl
    | _ => simp [Instr.target] at hi

/-- The instruction runs in the context: the values it takes are there, its result has room, and its
operand names a string or a variable of the program. -/
structure Legal (prog : Program) (c : Ctx) (i : Instr) : Prop where
  pops : i.op.pops ≤ c.depth
  room : c.depth - i.op.pops + i.op.pushes ≤ pmStack
  string : ∀ a, i = .pushS a → a < prog.pool.length
  var : ∀ s, i = .load s ∨ i = .store s → s < prog.vars.length
  ret : i = .ret → c.trig = true

structure Typed (prog : Program) (l : List (Ctx × Instr)) : Prop where
  code : prog.code = bytes isa l
  closed : Closed isa l
  legal : ∀ x ∈ l, Legal prog x.1 x.2
  start : At isa l 0 ⟨0, false⟩
  triggers : ∀ t ∈ prog.triggers, At isa l t.addr ⟨0, true⟩
  codeSmall : prog.code.length ≤ 65536
  poolSmall : prog.pool.length ≤ 65536
  varsSmall : prog.vars.length ≤ 256

def VmErr.structural : VmErr → Bool
  | .pcOutOfRange | .retOutsideTrigger | .truncated | .stackOverflow | .badString | .badVariable
  | .badStore | .stackUnderflow | .badJump | .badOpcode | .noProgram => true
  | .stepBudget | .orderCompareOnText | .pathDenied | .writeFailed | .fileNotFound
  | .noTrigger => false

def Outcome.structural : Outcome → Bool
  | .fail e => e.structural
  | _ => false

/-! ## Reading an instruction -/

theorem code_split {prog : Program} {l : List (Ctx × Instr)} (h : Typed prog l) {k : ℕ} {c : Ctx}
    {i : Instr} (hget : l[k]? = some (c, i)) :
    ∃ post, prog.code = bytes isa (l.take k) ++ (i.encode ++ post) := by
  obtain ⟨hk, hval⟩ := List.getElem?_eq_some_iff.mp hget
  refine ⟨bytes isa (l.drop (k + 1)), ?_⟩
  have hl : l = l.take k ++ (c, i) :: l.drop (k + 1) := by
    rw [← hval, ← drop_eq_getElem_cons hk, take_append_drop]
  rw [h.code]
  conv_lhs => rw [hl]
  rw [bytes_append]
  rfl

theorem getD_behind (pre bs : Bytes) (j : ℕ) : (pre ++ bs).getD (pre.length + j) 0 = bs.getD j 0 := by
  simp only [getD_eq_getElem?_getD]
  rw [List.getElem?_append_right (Nat.le_add_right _ _), Nat.add_sub_cancel_left]

theorem rd16_le16 (pre post : Bytes) {v : ℕ} (hv : v < 65536) : rd16 (pre ++ (le16 v ++ post)) pre.length = v := by
  have h0 := getD_behind pre (le16 v ++ post) 0
  have h1 := getD_behind pre (le16 v ++ post) 1
  rw [Nat.add_zero] at h0
  rw [rd16, h0, h1]
  simp only [le16, cons_append, getD_cons_zero, getD_cons_succ, UInt8.toNat_ofNat']
  omega

/-! ## One instruction -/

section
variable {σ : Type} {prog : Program} {l : List (Ctx × Instr)} {h : Host σ} {trig : Bool}

def InPlace (l : List (Ctx × Instr)) (trig : Bool) (s : ℕ × Vm σ) : Prop :=
  At isa l s.1 ⟨s.2.stack.length, trig⟩

def Fine (l : List (Ctx × Instr)) (trig : Bool) (x : Step σ) : Prop :=
  x.Sat (InPlace l trig) fun r => r.1.structural = false

variable {vm : Vm σ}

theorem Fine.next (hat : At isa l pc ⟨d, trig⟩) (hd : vm.stack.length = d) :
    Fine l trig (vmNext pc vm) := by
  subst hd
  exact hat

theorem Fine.fail {e : VmErr} (he : e.structural = false) : Fine l trig (vmFail e vm) := he

theorem Fine.guard {c : Prop} [Decidable c] {x y : Step σ} (hc : ¬c) (hy : Fine l trig y) :
    Fine l trig (if c then x else y) := by
  rwa [if_neg hc]

theorem fine_unary {f : Value → List Value → Vm σ → Step σ} (hd : 1 ≤ vm.stack.length)
    (hf : ∀ top rest, vm.stack = top :: rest → Fine l trig (f top rest vm)) :
    Fine l trig (unary f vm) := by
  unfold unary
  cases hst : vm.stack with
  | nil => simp [hst] at hd
  | cons top rest => exact hf top rest hst

theorem fine_binary {f : Value → Value → Option Value}
    (hd : 2 ≤ vm.stack.length) (hat : At isa l pc ⟨vm.stack.length - 2 + 1, trig⟩) :
    Fine l trig (binary f pc vm) := by
  unfold binary
  rcases hst : vm.stack with _ | ⟨r, _ | ⟨v, rest⟩⟩
  · simp [hst] at hd
  · simp [hst] at hd
  · rw [hst] at hat
    dsimp only
    cases f v r with
    | none => exact Fine.fail rfl
    | some x => exact Fine.next hat (by simp [Vm.setStack])

theorem fine_jump {a : ℕ} (ha : a < prog.code.length) (hat : At isa l a ⟨d, trig⟩)
    (hd : vm.stack.length = d) : Fine l trig (jump prog a vm) :=
  Fine.guard (not_le.mpr ha) (Fine.next hat hd)

theorem fine_write {app : Bool} (hd : 2 ≤ vm.stack.length)
    (hat : At isa l pc ⟨vm.stack.length - 2 + 0, trig⟩) : Fine l trig (vmWrite h app pc vm) := by
  unfold vmWrite
  rcases hst : vm.stack with _ | ⟨content, _ | ⟨path, rest⟩⟩
  · simp [hst] at hd
  · simp [hst] at hd
  · rw [hst] at hat
    dsimp only
    split
    · exact Fine.fail rfl
    split
    · refine Fine.next hat ?_
      have hstack := writeFile_stack h path.text (written content.text) app (vm.setStack rest)
      rw [Vm.wrote, hstack]
      simp [Vm.setStack]
    · exact Fine.fail rfl

theorem showLines_stack (h : Host σ) (ls : List Bytes) (vm : Vm σ) :
    (ls.foldl (fun vm l => outLine h (ascii "pm> ") none l vm) vm).stack = vm.stack := by
  induction ls generalizing vm with
  | nil => rfl
  | cons l ls ih => rw [foldl_cons, ih, outLine_stack]

theorem lt_length_of_at (ht : Typed prog l) {a : ℕ} {x : Ctx} (hat : At isa l a x) : a < prog.code.length := by
  obtain ⟨k, i, hget, rfl⟩ := hat
  obtain ⟨post, hcode⟩ := code_split ht hget
  rw [hcode]
  simp [width, Instr.encode]

structure Fetched (prog : Program) (l : List (Ctx × Instr)) (trig : Bool) (pc d : ℕ) (i : Instr) :
    Prop where
  opcode : Op.ofByte (prog.code.getD pc 0) = some i.op
  room : pc + 1 + i.operands.length ≤ prog.code.length
  word : ∀ n, i.operands = le16 n → n < 65536 → rd16 prog.code (pc + 1) = n
  byte : ∀ s, i.operands = [UInt8.ofNat s] → s < 256 → (prog.code.getD (pc + 1) 0).toNat = s
  legal : Legal prog ⟨d, trig⟩ i
  next : i.op.falls = true →
    At isa l (pc + 1 + i.operands.length) ⟨d - i.op.pops + i.op.pushes, trig⟩
  jump : ∀ t, i.target = some t → At isa l t ⟨d - i.op.pops + i.op.pushes, trig⟩

theorem fetch (ht : Typed prog l) (hat : At isa l pc ⟨d, trig⟩) : ∃ i, Fetched prog l trig pc d i := by
  obtain ⟨k, i, hget, rfl⟩ := hat
  obtain ⟨post, hcode⟩ := code_split ht hget
  have hpre : (bytes isa (l.take k)).length = width isa (l.take k) := rfl
  -- the operands stand one byte behind the opcode
  have hcode' : prog.code = (bytes isa (l.take k) ++ [i.op.byte]) ++ (i.operands ++ post) := by
    rw [hcode, Instr.encode]
    simp
  have hpre' : (bytes isa (l.take k) ++ [i.op.byte]).length = width isa (l.take k) + 1 := by
    rw [length_append, hpre]
    rfl
  refine ⟨i, ?_, ?_, ?_, ?_, ht.legal _ (mem_of_getElem? hget), ?_, ?_⟩
  · have h0 := getD_behind (bytes isa (l.take k)) (i.encode ++ post) 0
    rw [Nat.add_zero, hpre, ← hcode] at h0
    rw [h0]
    exact Op.ofByte_byte i.op
  · rw [hcode', length_append, hpre', length_append]
    omega
  · intro n hn hlt
    have hrd := rd16_le16 (bytes isa (l.take k) ++ [i.op.byte]) post hlt
    rw [← hn, ← hcode', hpre'] at hrd
    exact hrd
  · intro s hs hlt
    have h0 := getD_behind (bytes isa (l.take k) ++ [i.op.byte]) (i.operands ++ post) 0
    rw [Nat.add_zero, hpre', ← hcode', hs] at h0
    rw [h0]
    simpa using hlt
  · intro hf
    have hnext := ht.closed.next k _ i hget hf
    have hlen : (isa.encode i).length = 1 + i.operands.length := Nat.add_comm _ _
    rw [hlen, ← Nat.add_assoc] at hnext
    exact hnext
  · exact fun t htarget => ht.closed.jump k _ i t hget htarget

/-- An instruction of a typed program leads to the next one in place, or ends the run without a
structural error. -/
theorem fine_vmOp (ht : Typed prog l) {i : Instr} (hi : Fetched prog l trig pc vm.stack.length i) :
    Fine l trig (vmOp prog h trig i.op (pc + 1) vm) := by
  have hpops := hi.legal.pops
  have hroom := not_lt.mpr hi.room
  have hstack := hi.legal.room
  unfold vmOp
  cases i with
  | halt => exact rfl
  | ret =>
    have htrig : trig = true := hi.legal.ret rfl
    subst htrig
    exact rfl
  | line n =>
    refine Fine.guard hroom ?_
    dsimp only
    split
    · exact rfl
    refine Fine.next (hi.next rfl) ?_
    split
    · rw [outLine_stack]
      rfl
    · rfl
  | pushI v => exact Fine.guard (not_le.mpr hstack) (Fine.guard hroom (Fine.next (hi.next rfl) rfl))
  | pushS a =>
    have ha := hi.legal.string a rfl
    have hrd := hi.word a rfl (lt_of_lt_of_le ha ht.poolSmall)
    refine Fine.guard (not_le.mpr hstack) (Fine.guard hroom (Fine.guard ?_ (Fine.next (hi.next rfl) rfl)))
    rw [hrd]
    exact not_le.mpr ha
  | load s =>
    have hs := hi.legal.var s (.inl rfl)
    have hrd := hi.byte s rfl (lt_of_lt_of_le hs ht.varsSmall)
    refine Fine.guard (not_le.mpr hstack) (Fine.guard hroom (Fine.guard ?_ (Fine.next (hi.next rfl) rfl)))
    rw [hrd]
    exact not_le.mpr hs
  | sysMem =>
    refine Fine.guard (not_le.mpr hstack) (Fine.next (hi.next rfl) ?_)
    rw [memUsedPct_stack]
    rfl
  | store s =>
    have hs := hi.legal.var s (.inr rfl)
    have hrd := hi.byte s rfl (lt_of_lt_of_le hs ht.varsSmall)
    refine Fine.guard hroom ?_
    cases hst : vm.stack with
    | nil => simp [hst, Instr.op, Op.pops] at hpops
    | cons top rest =>
      refine Fine.guard ?_ (Fine.next (hi.next rfl) ?_)
      · rw [hrd]
        exact not_le.mpr hs
      · simp [Vm.setStack, hst, Instr.op, Op.pops, Op.pushes]
  | add => exact fine_binary hpops (hi.next rfl)
  | and => exact fine_binary hpops (hi.next rfl)
  | or => exact fine_binary hpops (hi.next rfl)
  | cmp k => exact Fine.guard hroom (fine_binary hpops (hi.next rfl))
  | not =>
    refine fine_unary hpops fun top rest hst => Fine.next (hi.next rfl) ?_
    simp [Vm.setStack, hst, Instr.op, Op.pops, Op.pushes]
  | fExists =>
    refine fine_unary hpops fun top rest hst => Fine.next (hi.next rfl) ?_
    simp [Vm.setStack, hst, Instr.op, Op.pops, Op.pushes]
  | jmp t =>
    have hat := hi.jump t rfl
    have hlt := lt_length_of_at ht hat
    refine Fine.guard hroom ?_
    rw [hi.word t rfl (lt_of_lt_of_le hlt ht.codeSmall)]
    exact fine_jump hlt hat rfl
  | jz t =>
    have hat := hi.jump t rfl
    have hlt := lt_length_of_at ht hat
    refine Fine.guard hroom ?_
    rw [hi.word t rfl (lt_of_lt_of_le hlt ht.codeSmall)]
    refine fine_unary hpops fun top rest hst => ?_
    have hd : (vm.setStack rest).stack.length = vm.stack.length - 1 + 0 := by
      simp [Vm.setStack, hst]
    split
    · exact Fine.next (hi.next rfl) hd
    · exact fine_jump hlt hat hd
  | print =>
    refine fine_unary hpops fun top rest hst => Fine.next (hi.next rfl) ?_
    simp [Vm.setStack, hst, Instr.op, Op.pops, Op.pushes]
  | write => exact fine_write hpops (hi.next rfl)
  | append => exact fine_write hpops (hi.next rfl)
  | «show» =>
    refine fine_unary hpops fun top rest hst => ?_
    simp only [vmShow]
    split
    · exact Fine.fail rfl
    refine Fine.next (hi.next rfl) ?_
    rw [Vm.printed, showLines_stack, readFile_stack]
    simp [Vm.setStack, hst, Instr.op, Op.pops, Op.pushes]
  | expect n =>
    refine Fine.guard hroom (fine_unary hpops fun top rest hst => Fine.next (hi.next rfl) ?_)
    simp [Vm.setStack, hst, Instr.op, Op.pops, Op.pushes]

/-! ## Whole runs -/

theorem fine_turn (ht : Typed prog l) (s : ℕ × Vm σ) (hs : InPlace l trig s) :
    Fine l trig (vmTurn prog h trig s) := by
  have hlt := lt_length_of_at ht hs
  unfold vmTurn
  rw [if_neg (by omega)]
  have hplace : At isa l s.1 ⟨s.2.tick.stack.length, trig⟩ := hs
  obtain ⟨i, hi⟩ := fetch ht hplace
  rw [vmStep, hi.opcode]
  exact fine_vmOp ht hi

theorem spent_fine (ht : Typed prog l) (s : ℕ × Vm σ) (hs : InPlace l trig s) :
    (vmSpent prog s).1.structural = false := by
  have hlt := lt_length_of_at ht hs
  unfold vmSpent
  rw [if_neg (by omega)]
  rfl

theorem structural_verdict (call : Call) (r : Outcome × Vm σ) (hr : r.1.structural = false) :
    (verdict call r).1.structural = false := by
  cases call with
  | run =>
    simp only [verdict]
    split
    · rfl
    · exact hr
  | say => exact hr

theorem Typed.runs (ht : Typed prog l) (h : Host σ) (call : Call) (vm : Vm σ) :
    (pmCall prog h call vm).1.structural = false := by
  have hrun : ∀ pc trig, At isa l pc ⟨0, trig⟩ →
      (vmExec prog h trig pc (vm.setStack [])).1.structural = false := by
    intro pc trig hat
    have hstart : InPlace l trig (pc, vm.setStack []) := hat
    exact exec_rule_all (fine_turn ht) (spent_fine ht) hstart
  unfold pmCall
  cases call with
  | run =>
    have hne : prog.code ≠ [] := by
      have := lt_length_of_at ht ht.start
      exact ne_nil_of_length_pos this
    simp only [entry, if_neg hne]
    exact structural_verdict _ _ (hrun _ _ ht.start)
  | say phrase =>
    simp only [entry]
    cases hfind : prog.triggers.find? fun t => sIeq (prog.text t.phrase) phrase with
    | none => rfl
    | some t => exact structural_verdict _ _ (hrun _ _ (ht.triggers t (mem_of_find?_eq_some hfind)))

end

end Mohhdy.PromptMessage
