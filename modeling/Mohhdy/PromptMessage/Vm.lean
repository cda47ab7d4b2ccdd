import Mohhdy.Foundations.Machines

/-! The PromptMessage virtual machine.

`src/userspace/promptmessage.c`, `vm_exec`, `pm_run` and `pm_say`. A program is bytecode, a pool of
zero-terminated strings, triggers and the names of its variables. Its host gives files, the memory
percentage and the output; what a host answers depends on a state of its own, so a statement about
every host is one about every sequence of answers. Texts are the bytes of C strings. -/
namespace Mohhdy.PromptMessage
set_option autoImplicit false

abbrev Bytes := List UInt8

def ascii (s : String) : Bytes := s.toList.map fun c => UInt8.ofNat c.toNat

def pmValMax : ℕ := 192
def pmStack : ℕ := 12
def pmSteps : ℕ := 20000

inductive Op
  | halt | line | pushI | pushS | load | store | sysMem | add | cmp | not | fExists | jmp | jz
  | print | write | append | show | expect | ret | and | or
  deriving DecidableEq, Repr

def Op.byte : Op → UInt8
  | .halt => 0 | .line => 1 | .pushI => 2 | .pushS => 3 | .load => 4 | .store => 5 | .sysMem => 6
  | .add => 7 | .cmp => 8 | .not => 9 | .fExists => 10 | .jmp => 11 | .jz => 12 | .print => 13
  | .write => 14 | .append => 15 | .show => 16 | .expect => 17 | .ret => 18 | .and => 19 | .or => 20

def Op.ofByte (b : UInt8) : Option Op :=
  match b.toNat with
  | 0 => some .halt | 1 => some .line | 2 => some .pushI | 3 => some .pushS | 4 => some .load
  | 5 => some .store | 6 => some .sysMem | 7 => some .add | 8 => some .cmp | 9 => some .not
  | 10 => some .fExists | 11 => some .jmp | 12 => some .jz | 13 => some .print | 14 => some .write
  | 15 => some .append | 16 => some .show | 17 => some .expect | 18 => some .ret | 19 => some .and
  | 20 => some .or | _ => none

@[simp] theorem Op.ofByte_byte (op : Op) : Op.ofByte op.byte = some op := by
  cases op <;> rfl

structure Trigger where
  (phrase addr : ℕ)
  deriving DecidableEq, Repr

/-- `pm_program_t` without the compile report. -/
structure Program where
  (code pool : Bytes)
  triggers : List Trigger
  vars : List Bytes
  deriving DecidableEq, Repr

def rd16 (p : Bytes) (i : ℕ) : ℕ := (p.getD i 0).toNat + 256 * (p.getD (i + 1) 0).toNat

def rd32 (p : Bytes) (i : ℕ) : Int32 :=
  (UInt32.ofNat (rd16 p i + 65536 * rd16 p (i + 2))).toInt32

/-! ## Values and texts -/

inductive Value
  | num (n : Int32)
  | str (s : Bytes)
  deriving DecidableEq, Repr

def sInt (v : Int32) : Bytes :=
  (if v < 0 then ascii "-" else []) ++
    (Nat.toDigits 10 v.toInt.natAbs).map fun c => UInt8.ofNat c.toNat

def Value.text : Value → Bytes
  | .num n => sInt n
  | .str s => s.take (pmValMax - 1)

def Value.truthy : Value → Bool
  | .num n => n ≠ 0
  | .str s => s ≠ []

def ofBool (b : Bool) : Value := .num (if b then 1 else 0)

def lower (c : UInt8) : UInt8 := if 65 ≤ c ∧ c ≤ 90 then c + 32 else c

/-- The loop stops at the first difference up to case; the two bytes there are compared as they
are. -/
def sIeq : Bytes → Bytes → Bool
  | [], b => b = []
  | _ :: _, [] => false
  | x :: a, y :: b => if lower x = lower y then sIeq a b else false

def sHas (hay needle : Bytes) : Bool :=
  needle = [] ∨ hay.tails.any (needle.isPrefixOf ·)

def starts (s p : Bytes) : Bool := p.isPrefixOf s

/-- Programs may not escape with `..`, nor touch binaries or model weights. -/
def pathAllowed (p : Bytes) : Bool :=
  p ≠ [] ∧ ¬ sHas p (ascii "..") ∧ ¬ starts p (ascii "/bin/") ∧ ¬ starts p (ascii "/models/") ∧
    ¬ starts p (ascii "bin/") ∧ ¬ starts p (ascii "models/")

def foldCmp (op : ℕ) (a b : Int32) : Bool :=
  match op with
  | 0 => a = b
  | 1 => a ≠ b
  | 2 => a < b
  | 3 => b < a
  | 4 => a ≤ b
  | _ => b ≤ a

def addValues : Value → Value → Value
  | .num a, .num b => .num (a + b)
  | l, r => .str ((l.text ++ r.text).take (pmValMax - 1))

def cmpValues (op : ℕ) (l r : Value) : Option Bool :=
  if op = 6 then some (sHas l.text r.text)
  else match l, r with
    | .num a, .num b => some (foldCmp op a b)
    | l, r => if op = 0 then some (l.text = r.text) else if op = 1 then some (l.text ≠ r.text) else none

def Program.text (prog : Program) (a : ℕ) : Bytes := (prog.pool.drop a).takeWhile (· ≠ 0)

/-! ## The host and the state of the machine -/

structure Host (σ : Type) where
  readFile : Option (σ → Bytes → ℕ → Option Bytes × σ)
  writeFile : Option (σ → Bytes → Bytes → Bool → Bool × σ)
  memUsedPct : Option (σ → Int32 × σ)
  out : Option (σ → Bytes → σ)

def noHost : Host Unit := ⟨none, none, none, none⟩

/-- `pm_vm_t`, with the stack's top first, beside the state of the host. `written` keeps the paths
that `write_file` was called with. -/
structure Vm (σ : Type) where
  vars : ℕ → Value
  stack : List Value
  (steps prints writes expects expectFailed line : ℕ)
  trace : Bool
  breakLine : ℕ
  host : σ
  written : List Bytes

inductive VmErr
  | pcOutOfRange | stepBudget | retOutsideTrigger | truncated | stackOverflow | badString
  | badVariable | badStore | stackUnderflow | orderCompareOnText | badJump | pathDenied
  | writeFailed | fileNotFound | badOpcode | noTrigger | noProgram
  deriving DecidableEq, Repr

inductive Outcome
  | ok
  | broke
  | expectFailed
  | fail (e : VmErr)
  deriving DecidableEq, Repr

abbrev Step (σ : Type) := Machines.Next (ℕ × Vm σ) (Outcome × Vm σ)

section
variable {σ : Type}

def pmVmReset (host : σ) : Vm σ := ⟨fun _ => .num 0, [], 0, 0, 0, 0, 0, 0, false, 0, host, []⟩

variable (vm : Vm σ)

def Vm.setStack (st : List Value) : Vm σ := { vm with stack := st }

def Vm.setHost (s : σ) : Vm σ := { vm with host := s }

def Vm.setLine (n : ℕ) : Vm σ := { vm with line := n }

def Vm.tick : Vm σ := { vm with steps := vm.steps + 1 }

def Vm.store (a : ℕ) (v : Value) : Vm σ := { vm with vars := Function.update vm.vars a v }

def Vm.printed : Vm σ := { vm with prints := vm.prints + 1 }

def Vm.wrote : Vm σ := { vm with writes := vm.writes + 1 }

def Vm.expected : Vm σ := { vm with expects := vm.expects + 1 }

def Vm.missed : Vm σ := { vm with expectFailed := vm.expectFailed + 1 }

def outLine (h : Host σ) (a : Bytes) (num : Option Int32) (b : Bytes) (vm : Vm σ) : Vm σ :=
  h.out.elim vm fun f =>
    vm.setHost (f vm.host ((a ++ num.elim [] sInt ++ b).take (pmValMax + 63)))

def readFile (h : Host σ) (path : Bytes) (cap : ℕ) (vm : Vm σ) : Option Bytes × Vm σ :=
  h.readFile.elim (none, vm) fun f =>
    (((f vm.host path cap).1.map (·.take cap)), vm.setHost (f vm.host path cap).2)

def writeFile (h : Host σ) (path data : Bytes) (app : Bool) (vm : Vm σ) : Bool × Vm σ :=
  h.writeFile.elim (false, vm) fun f =>
    ((f vm.host path data app).1,
      { vm with host := (f vm.host path data app).2, written := path :: vm.written })

def memUsedPct (h : Host σ) (vm : Vm σ) : Int32 × Vm σ :=
  h.memUsedPct.elim (0, vm) fun f => ((f vm.host).1, vm.setHost (f vm.host).2)

variable (h : Host σ)

@[simp] theorem outLine_written (a : Bytes) (num : Option Int32) (b : Bytes)
    (vm : Vm σ) : (outLine h a num b vm).written = vm.written := by
  unfold outLine
  cases h.out <;> rfl

@[simp] theorem outLine_stack (a : Bytes) (num : Option Int32) (b : Bytes)
    (vm : Vm σ) : (outLine h a num b vm).stack = vm.stack := by
  unfold outLine
  cases h.out <;> rfl

@[simp] theorem readFile_written (path : Bytes) (cap : ℕ) (vm : Vm σ) :
    (readFile h path cap vm).2.written = vm.written := by
  unfold readFile
  cases h.readFile <;> rfl

@[simp] theorem readFile_stack (path : Bytes) (cap : ℕ) (vm : Vm σ) :
    (readFile h path cap vm).2.stack = vm.stack := by
  unfold readFile
  cases h.readFile <;> rfl

variable (vm : Vm σ) (prog : Program) (pc : ℕ)

@[simp] theorem memUsedPct_written : (memUsedPct h vm).2.written = vm.written := by
  unfold memUsedPct
  cases h.memUsedPct <;> rfl

@[simp] theorem memUsedPct_stack : (memUsedPct h vm).2.stack = vm.stack := by
  unfold memUsedPct
  cases h.memUsedPct <;> rfl

theorem mem_writeFile_written {h : Host σ} {path data p : Bytes} {app : Bool} {vm : Vm σ}
    (hp : p ∈ (writeFile h path data app vm).2.written) : p = path ∨ p ∈ vm.written := by
  unfold writeFile at hp
  cases hw : h.writeFile with
  | none => exact .inr (by simpa [hw] using hp)
  | some f => simpa [hw] using hp

@[simp] theorem writeFile_stack (path data : Bytes) (app : Bool) (vm : Vm σ) :
    (writeFile h path data app vm).2.stack = vm.stack := by
  unfold writeFile
  cases h.writeFile <;> rfl

/-- The lines `OP_SHOW` prints: a text ends at a newline or a zero, and an empty one is printed
only at a newline. -/
def showLines : Bytes → Bytes → List Bytes
  | acc, [] => if acc = [] then [] else [acc]
  | acc, c :: rest =>
    if c = 10 then acc :: showLines [] rest
    else if c = 0 then (if acc = [] then showLines [] rest else acc :: showLines [] rest)
    else showLines (acc ++ [c]) rest

/-! ## Instructions -/

def vmNext (vm : Vm σ) : Step σ := .go (pc, vm)

def vmDone (st : Outcome) (vm : Vm σ) : Step σ := .stop (st, vm)

def vmFail (e : VmErr) (vm : Vm σ) : Step σ := vmDone (.fail e) vm

def breakDump (h : Host σ) (vm : Vm σ) : Vm σ :=
  (List.range prog.vars.length).foldl (fun vm i =>
    if (prog.vars.getD i []).head? = some 35 then vm
    else outLine h ((ascii "pm-var " ++ prog.vars.getD i [] ++ ascii "=" ++ (vm.vars i).text).take
      (pmValMax + 47)) none [] vm) (outLine h (ascii "pm-break line ") (some (Int32.ofNat vm.line)) [] vm)

def vmLine (h : Host σ) (pc : ℕ) (vm : Vm σ) : Step σ :=
  if pc + 2 > prog.code.length then vmFail .truncated vm
  else
    let vm := vm.setLine (rd16 prog.code pc)
    if 0 < vm.breakLine ∧ vm.line = vm.breakLine then vmDone .broke (breakDump prog h vm)
    else vmNext (pc + 2)
      (if vm.trace then outLine h (ascii "pm-trace line ") (some (Int32.ofNat vm.line)) [] vm else vm)

def vmPush (v : Value) (vm : Vm σ) : Step σ := vmNext pc (vm.setStack (v :: vm.stack))

/-- The room on the stack is checked before the operand. -/
def vmPushOp (h : Host σ) (op : Op) (pc : ℕ) (vm : Vm σ) : Step σ :=
  if vm.stack.length ≥ pmStack then vmFail .stackOverflow vm
  else match op with
    | .pushI =>
      if pc + 4 > prog.code.length then vmFail .truncated vm
      else vmPush (pc + 4) (.num (rd32 prog.code pc)) vm
    | .pushS =>
      if pc + 2 > prog.code.length then vmFail .truncated vm
      else if rd16 prog.code pc ≥ prog.pool.length then vmFail .badString vm
      else vmPush (pc + 2) (.str ((prog.text (rd16 prog.code pc)).take (pmValMax - 1))) vm
    | .load =>
      if pc + 1 > prog.code.length then vmFail .truncated vm
      else if (prog.code.getD pc 0).toNat ≥ prog.vars.length then vmFail .badVariable vm
      else vmPush (pc + 1) (vm.vars (prog.code.getD pc 0).toNat) vm
    | _ => vmPush pc (.num (memUsedPct h vm).1) (memUsedPct h vm).2

def vmStore (vm : Vm σ) : Step σ :=
  if pc + 1 > prog.code.length then vmFail .truncated vm
  else match vm.stack with
    | top :: rest =>
      if (prog.code.getD pc 0).toNat ≥ prog.vars.length then vmFail .badStore vm
      else vmNext (pc + 1) ((vm.store (prog.code.getD pc 0).toNat top).setStack rest)
    | [] => vmFail .badStore vm

def binary (f : Value → Value → Option Value) (pc : ℕ) (vm : Vm σ) : Step σ :=
  match vm.stack with
  | r :: l :: rest =>
    match f l r with
    | some v => vmNext pc (vm.setStack (v :: rest))
    | none => vmFail .orderCompareOnText vm
  | _ => vmFail .stackUnderflow vm

def vmCmp (vm : Vm σ) : Step σ :=
  if pc + 1 > prog.code.length then vmFail .truncated vm
  else binary (fun l r => (cmpValues (prog.code.getD pc 0).toNat l r).map ofBool) (pc + 1) vm

def unary (f : Value → List Value → Vm σ → Step σ) (vm : Vm σ) : Step σ :=
  match vm.stack with
  | top :: rest => f top rest vm
  | [] => vmFail .stackUnderflow vm

def jump (a : ℕ) (vm : Vm σ) : Step σ :=
  if a ≥ prog.code.length then vmFail .badJump vm else vmNext a vm

def vmJmp (vm : Vm σ) : Step σ :=
  if pc + 2 > prog.code.length then vmFail .truncated vm else jump prog (rd16 prog.code pc) vm

def vmJz (vm : Vm σ) : Step σ :=
  if pc + 2 > prog.code.length then vmFail .truncated vm
  else unary (fun top rest vm =>
    if top.truthy then vmNext (pc + 2) (vm.setStack rest)
    else jump prog (rd16 prog.code pc) (vm.setStack rest)) vm

def written (text : Bytes) : Bytes := if text.length < pmValMax - 1 then text ++ [10] else text

def vmWrite (h : Host σ) (app : Bool) (pc : ℕ) (vm : Vm σ) : Step σ :=
  match vm.stack with
  | content :: path :: rest =>
    let vm := vm.setStack rest
    if ¬ pathAllowed path.text then vmFail .pathDenied vm
    else if (writeFile h path.text (written content.text) app vm).1 then
      vmNext pc (writeFile h path.text (written content.text) app vm).2.wrote
    else vmFail .writeFailed (writeFile h path.text (written content.text) app vm).2
  | _ => vmFail .stackUnderflow vm

def vmShow (h : Host σ) (pc : ℕ) (top : Value) (rest : List Value) (vm : Vm σ) : Step σ :=
  let r := readFile h top.text (pmValMax - 1) (vm.setStack rest)
  match r.1 with
  | none => vmFail .fileNotFound r.2
  | some buf =>
    vmNext pc ((showLines [] buf).foldl (fun vm l => outLine h (ascii "pm> ") none l vm) r.2).printed

def vmExpect (h : Host σ) (pc : ℕ) (vm : Vm σ) : Step σ :=
  if pc + 2 > prog.code.length then vmFail .truncated vm
  else unary (fun top rest vm =>
    vmNext (pc + 2) ((if top.truthy then vm.expected
      else outLine h (ascii "pm-expect failed line ") (some (Int32.ofNat (rd16 prog.code pc))) []
        vm.expected.missed).setStack rest)) vm

/-- One turn of the loop's `switch`; `pc` is behind the opcode. -/
def vmOp (h : Host σ) (isTrigger : Bool) (op : Op) (pc : ℕ) (vm : Vm σ) : Step σ :=
  match op with
  | .halt => vmDone .ok vm
  | .ret => if isTrigger then vmDone .ok vm else vmFail .retOutsideTrigger vm
  | .line => vmLine prog h pc vm
  | .pushI | .pushS | .load | .sysMem => vmPushOp prog h op pc vm
  | .store => vmStore prog pc vm
  | .add => binary (fun l r => some (addValues l r)) pc vm
  | .and => binary (fun l r => some (ofBool (l.truthy && r.truthy))) pc vm
  | .or => binary (fun l r => some (ofBool (l.truthy || r.truthy))) pc vm
  | .cmp => vmCmp prog pc vm
  | .not => unary (fun top rest vm => vmNext pc (vm.setStack (ofBool (!top.truthy) :: rest))) vm
  | .fExists =>
    unary (fun top rest vm => vmNext pc ((readFile h top.text 4 vm).2.setStack
      (ofBool (readFile h top.text 4 vm).1.isSome :: rest))) vm
  | .jmp => vmJmp prog pc vm
  | .jz => vmJz prog pc vm
  | .print =>
    unary (fun top rest vm =>
      vmNext pc ((outLine h (ascii "pm> ") none top.text vm).printed.setStack rest)) vm
  | .write => vmWrite h false pc vm
  | .append => vmWrite h true pc vm
  | .show => unary (vmShow h pc) vm
  | .expect => vmExpect prog h pc vm

def vmStep (h : Host σ) (isTrigger : Bool) (pc : ℕ) (vm : Vm σ) : Step σ :=
  match Op.ofByte (prog.code.getD pc 0) with
  | some op => vmOp prog h isTrigger op (pc + 1) vm
  | none => vmFail .badOpcode vm

def vmTurn (h : Host σ) (isTrigger : Bool) (at_ : ℕ × Vm σ) : Step σ :=
  if at_.1 ≥ prog.code.length then vmFail .pcOutOfRange at_.2
  else vmStep prog h isTrigger at_.1 at_.2.tick

def vmSpent (at_ : ℕ × Vm σ) : Outcome × Vm σ :=
  if at_.1 ≥ prog.code.length then (.fail .pcOutOfRange, at_.2) else (.fail .stepBudget, at_.2.tick)

/-- The loop. What is left of the budget is `PM_STEPS - vm->steps`, one less after every turn. -/
def vmExec (h : Host σ) (isTrigger : Bool) (pc : ℕ) (vm : Vm σ) : Outcome × Vm σ :=
  Machines.exec (vmTurn prog h isTrigger) (vmSpent prog) (pmSteps - vm.steps) (pc, vm)

inductive Call
  | run
  | say (phrase : Bytes)

def entry : Call → Except VmErr (ℕ × Bool)
  | .run => if prog.code = [] then .error .noProgram else .ok (0, false)
  | .say phrase =>
    match prog.triggers.find? fun t => sIeq (prog.text t.phrase) phrase with
    | some t => .ok (t.addr, true)
    | none => .error .noTrigger

def verdict (call : Call) (r : Outcome × Vm σ) : Outcome × Vm σ :=
  match call with
  | .run => if r.1 = .ok ∧ r.2.expectFailed ≠ 0 then (.expectFailed, r.2) else r
  | .say _ => r

def pmCall (h : Host σ) (call : Call) (vm : Vm σ) : Outcome × Vm σ :=
  match entry prog call with
  | .error e => (.fail e, if e = .noProgram then vm else vm.setStack [])
  | .ok (pc, isTrigger) =>
    verdict call (vmExec prog h isTrigger pc (vm.setStack []))

end

end Mohhdy.PromptMessage
