import Mohhdy.Overlay.Path
import Mohhdy.PromptMessage.Compiler

/-! The paths a program can write.

`path_allowed` and `ov_normalize` have two notions of what a path begins with. The check knows the
spellings `bin/` and `/bin/`; the overlay strips a leading `./` and every leading slash, so
`./bin/x` and `//bin/x` pass the check and name a file under `bin/`. A path without such a lead is
confined. -/
namespace Mohhdy.PromptMessage
set_option autoImplicit false

open Machines List Overlay

/-- The file the path names in the overlay is not under `bin/` or `models/`, and no `..` is in it. -/
def Confined (p : Bytes) : Prop :=
  ¬ starts (ovNormalize p) (ascii "bin/") ∧ ¬ starts (ovNormalize p) (ascii "models/") ∧
    ¬ sHas (ovNormalize p) (ascii "..")

instance (p : Bytes) : Decidable (Confined p) := inferInstanceAs (Decidable (_ ∧ _ ∧ _))

def PlainLead (p : Bytes) : Prop := ¬ starts p (ascii "./") ∧ ¬ starts p (ascii "//")

instance (p : Bytes) : Decidable (PlainLead p) := inferInstanceAs (Decidable (_ ∧ _))

/-! ## One path -/

theorem sHas_iff {hay needle : Bytes} : sHas hay needle = true ↔ needle <:+: hay := by
  unfold sHas
  constructor
  · intro h
    rcases of_decide_eq_true h with rfl | h
    · exact nil_infix
    · obtain ⟨t, ht, hpre⟩ := any_eq_true.mp h
      have hhead := isPrefixOf_iff_prefix.mp hpre
      exact hhead.isInfix.trans ((mem_tails _ _).mp ht).isInfix
  · rintro ⟨a, b, rfl⟩
    refine decide_eq_true (.inr (any_eq_true.mpr ⟨needle ++ b, ?_, ?_⟩))
    · exact (mem_tails _ _).mpr ⟨a, by simp⟩
    · exact isPrefixOf_iff_prefix.mpr ⟨b, rfl⟩

theorem starts_iff {s p : Bytes} : starts s p = true ↔ p <+: s := isPrefixOf_iff_prefix

theorem ovNormalize_of_plainLead {p : Bytes} (hp : PlainLead p) :
    ovNormalize p <+: p ∨ slash :: ovNormalize p <+: p := by
  have hpre := ovNormalize_isPre p
  have hstr : cString p <+: p := takeWhile_prefix _
  have hdot : ¬ (cString p).take 2 = [dot, slash] := by
    intro h
    refine hp.1 (starts_iff.mpr ?_)
    have hlead := take_prefix 2 (cString p)
    exact (h ▸ hlead).trans hstr
  rw [skipLead, if_neg hdot] at hpre
  cases hc : cString p with
  | nil =>
    rw [hc] at hpre
    exact .inl (hpre.trans nil_prefix)
  | cons x c =>
    rw [hc] at hpre hstr
    by_cases hx : x = slash
    · -- the byte behind the slash is no slash
      subst hx
      have hc0 : c.head? ≠ some slash := by
        intro h
        cases c with
        | nil => simp at h
        | cons y c =>
          cases h
          have hlead : [slash, slash] <+: p :=
            (show [slash, slash] <+: _ from ⟨c, rfl⟩).trans hstr
          exact hp.2 (starts_iff.mpr hlead)
      rw [dropWhile_cons_of_pos (by simp), dropWhile_slash_eq hc0] at hpre
      exact .inr (((prefix_cons_inj _).mpr hpre).trans hstr)
    · rw [dropWhile_cons_of_neg (by simpa using hx)] at hpre
      exact .inl (hpre.trans hstr)

theorem ovNormalize_within (p : Bytes) : ovNormalize p <:+: p := by
  have hpre := ovNormalize_isPre p
  have hlead : skipLead (cString p) <:+ cString p := by
    unfold skipLead
    split
    · exact (dropWhile_suffix _).trans (drop_suffix _ _)
    · exact dropWhile_suffix _
  have hstr : cString p <+: p := takeWhile_prefix _
  exact hpre.isInfix.trans (hlead.isInfix.trans hstr.isInfix)

theorem confined_of_allowed {p : Bytes} (hallow : pathAllowed p = true) (hp : PlainLead p) : Confined p := by
  obtain ⟨-, hdots, hbin, hmodels, hbin', hmodels'⟩ := of_decide_eq_true hallow
  have hguard : ∀ dir : Bytes, ¬ starts p dir → ¬ starts p (slash :: dir) →
      ¬ starts (ovNormalize p) dir := by
    intro dir h1 h2 h
    rcases ovNormalize_of_plainLead hp with hn | hn
    · exact h1 (starts_iff.mpr ((starts_iff.mp h).trans hn))
    · exact h2 (starts_iff.mpr (((prefix_cons_inj _).mpr (starts_iff.mp h)).trans hn))
  refine ⟨hguard _ hbin' hbin, hguard _ hmodels' hmodels, ?_⟩
  intro h
  exact hdots (sHas_iff.mpr ((sHas_iff.mp h).trans (ovNormalize_within p)))

/-! ## One turn of the machine -/

variable {σ : Type} {vm vm' : Vm σ}

def pathAsked (prog : Program) (at_ : ℕ × Vm σ) : Option Bytes :=
  match Op.ofByte (prog.code.getD at_.1 0), at_.2.stack with
  | some .write, _ :: path :: _ => some path.text
  | some .append, _ :: path :: _ => some path.text
  | _, _ => none

def Quiet (vm : Vm σ) (x : Step σ) : Prop :=
  x.Sat (fun s => s.2.written = vm.written) fun r => r.2.written = vm.written

theorem Quiet.next {pc : ℕ} (h : vm'.written = vm.written) : Quiet vm (vmNext pc vm') := h

theorem Quiet.done {st : Outcome} (h : vm'.written = vm.written) : Quiet vm (vmDone st vm') := h

theorem Quiet.fail {e : VmErr} : Quiet vm (vmFail e vm) := rfl

theorem Quiet.guard {c : Prop} [Decidable c] {e : VmErr} {x : Step σ} (hx : Quiet vm x) :
    Quiet vm (if c then vmFail e vm else x) := by
  split
  · exact Quiet.fail
  · exact hx

variable (prog : Program) (h : Host σ)

theorem breakDump_written (vm : Vm σ) : (breakDump prog h vm).written = vm.written := by
  have hfold : ∀ (l : List ℕ) (v : Vm σ), (l.foldl (fun vm i =>
      if (prog.vars.getD i []).head? = some 35 then vm
      else outLine h ((ascii "pm-var " ++ prog.vars.getD i [] ++ ascii "=" ++ (vm.vars i).text).take
        (pmValMax + 47)) none [] vm) v).written = v.written := by
    intro l
    induction l with
    | nil => exact fun _ => rfl
    | cons i l ih =>
      intro v
      rw [foldl_cons, ih]
      split
      · rfl
      · exact outLine_written ..
  rw [breakDump, hfold, outLine_written]

theorem showLines_written (ls : List Bytes) (vm : Vm σ) :
    (ls.foldl (fun vm l => outLine h (ascii "pm> ") none l vm) vm).written = vm.written := by
  induction ls generalizing vm with
  | nil => rfl
  | cons l ls ih => rw [foldl_cons, ih, outLine_written]

theorem quiet_unary {f : Value → List Value → Vm σ → Step σ}
    (hf : ∀ top rest, Quiet vm (f top rest vm)) : Quiet vm (unary f vm) := by
  unfold unary
  split
  · exact hf _ _
  · exact Quiet.fail

theorem quiet_binary (f : Value → Value → Option Value) (pc : ℕ) (vm : Vm σ) : Quiet vm (binary f pc vm) := by
  unfold binary
  split
  · split
    · exact Quiet.next rfl
    · exact Quiet.fail
  · exact Quiet.fail

theorem quiet_jump (a : ℕ) (h : vm'.written = vm.written) : Quiet vm (jump prog a vm') := by
  unfold jump
  split
  · exact Quiet.done h
  · exact Quiet.next h

theorem quiet_line (pc : ℕ) (vm : Vm σ) : Quiet vm (vmLine prog h pc vm) := by
  refine Quiet.guard ?_
  dsimp only
  split
  · exact Quiet.done (breakDump_written prog h _)
  refine Quiet.next ?_
  split
  · exact outLine_written ..
  · rfl

theorem quiet_pushOp (op : Op) (pc : ℕ) (vm : Vm σ) : Quiet vm (vmPushOp prog h op pc vm) := by
  refine Quiet.guard ?_
  split
  · exact Quiet.guard (Quiet.next rfl)
  · exact Quiet.guard (Quiet.guard (Quiet.next rfl))
  · exact Quiet.guard (Quiet.guard (Quiet.next rfl))
  · exact Quiet.next (memUsedPct_written h vm)

theorem quiet_vmOp (trig : Bool) {op : Op} (pc : ℕ) (vm : Vm σ)
    (hw : op ≠ .write) (ha : op ≠ .append) : Quiet vm (vmOp prog h trig op pc vm) := by
  unfold vmOp
  cases op with
  | write => exact absurd rfl hw
  | append => exact absurd rfl ha
  | halt => exact Quiet.done rfl
  | ret =>
    dsimp only
    split
    · exact Quiet.done rfl
    · exact Quiet.fail
  | line => exact quiet_line prog h pc vm
  | pushI | pushS | load | sysMem => exact quiet_pushOp prog h _ pc vm
  | store =>
    refine Quiet.guard ?_
    split
    · exact Quiet.guard (Quiet.next rfl)
    · exact Quiet.fail
  | add | and | or => exact quiet_binary _ pc vm
  | cmp => exact Quiet.guard (quiet_binary _ _ vm)
  | not => exact quiet_unary fun _ _ => Quiet.next rfl
  | fExists => exact quiet_unary fun _ _ => Quiet.next (readFile_written ..)
  | jmp => exact Quiet.guard (quiet_jump prog _ rfl)
  | jz =>
    refine Quiet.guard (quiet_unary fun top rest => ?_)
    split
    · exact Quiet.next rfl
    · exact quiet_jump prog _ rfl
  | print => exact quiet_unary fun _ _ => Quiet.next (outLine_written ..)
  | «show» =>
    refine quiet_unary fun top rest => ?_
    simp only [vmShow]
    split
    · exact Quiet.done (readFile_written ..)
    · exact Quiet.next ((showLines_written h _ _).trans (readFile_written ..))
  | expect =>
    refine Quiet.guard (quiet_unary fun top rest => Quiet.next ?_)
    split
    · rfl
    · exact outLine_written ..

def Adds (ok : Bytes → Prop) (vm : Vm σ) (x : Step σ) : Prop :=
  x.Sat (fun s => ∀ p ∈ s.2.written, p ∈ vm.written ∨ ok p)
    fun r => ∀ p ∈ r.2.written, p ∈ vm.written ∨ ok p

theorem Quiet.adds {ok : Bytes → Prop} {x : Step σ} (h : Quiet vm x) : Adds ok vm x :=
  h.mono (fun _ hs _ hp => .inl (hs ▸ hp)) fun _ hr _ hp => .inl (hr ▸ hp)

theorem Adds.mono {ok ok' : Bytes → Prop} {x : Step σ} (h : Adds ok vm x) (hok : ∀ p, ok p → ok' p) : Adds ok' vm x :=
  Next.Sat.mono h (fun _ hs p hp => (hs p hp).imp_right (hok p))
    fun _ hr p hp => (hr p hp).imp_right (hok p)

/-- A write calls the host only with the path on the stack, and only when the check allows it. -/
theorem adds_vmWrite {h : Host σ} {app : Bool} {pc : ℕ} {content path : Value}
    {rest : List Value} (hst : vm.stack = content :: path :: rest) :
    Adds (fun p => p = path.text ∧ pathAllowed p = true) vm (vmWrite h app pc vm) := by
  unfold vmWrite
  rw [hst]
  dsimp only
  split
  · exact Quiet.adds (Quiet.done rfl)
  rename_i hallow
  have hwrite : ∀ p, p ∈ (writeFile h path.text (written content.text) app
      (vm.setStack rest)).2.written → p ∈ vm.written ∨ p = path.text ∧ pathAllowed p = true := by
    intro p hp
    rcases mem_writeFile_written hp with rfl | hp
    · exact .inr ⟨rfl, by simpa using hallow⟩
    · exact .inl hp
  split
  · exact hwrite
  · exact hwrite

def MayWrite (prog : Program) (at_ : ℕ × Vm σ) (p : Bytes) : Prop :=
  pathAsked prog at_ = some p ∧ pathAllowed p = true

theorem adds_writeOp {prog : Program} {h : Host σ} {op : Op} {app : Bool} {pc : ℕ}
    (hop : Op.ofByte (prog.code.getD pc 0) = some op) (hw : op = .write ∨ op = .append) :
    Adds (MayWrite prog (pc, vm)) vm (vmWrite h app (pc + 1) vm) := by
  rcases hst : vm.stack with _ | ⟨content, _ | ⟨path, rest⟩⟩
  · simp only [vmWrite, hst]
    exact Quiet.fail.adds
  · simp only [vmWrite, hst]
    exact Quiet.fail.adds
  · have hasked : pathAsked prog (pc, vm) = some path.text := by
      unfold pathAsked
      rw [hop, hst]
      rcases hw with rfl | rfl <;> rfl
    refine (adds_vmWrite hst).mono ?_
    rintro p ⟨rfl, hallow⟩
    exact ⟨hasked, hallow⟩

theorem adds_vmStep (trig : Bool) (pc : ℕ) (vm : Vm σ) :
    Adds (MayWrite prog (pc, vm)) vm (vmStep prog h trig pc vm) := by
  unfold vmStep
  cases hop : Op.ofByte (prog.code.getD pc 0) with
  | none => exact Quiet.fail.adds
  | some op =>
    by_cases hw : op = .write
    · subst hw
      exact adds_writeOp hop (.inl rfl)
    · by_cases ha : op = .append
      · subst ha
        exact adds_writeOp hop (.inr rfl)
      · exact (quiet_vmOp prog h trig (pc + 1) vm hw ha).adds

/-! ## Whole runs -/

def PlainRun (prog : Program) (h : Host σ) (call : Call) (vm : Vm σ) : Prop :=
  match entry prog call with
  | .error _ => True
  | .ok (pc, trig) =>
    Along (vmTurn prog h trig) (fun s => ∀ p ∈ pathAsked prog s, PlainLead p) (pmSteps - vm.steps)
      (pc, vm.setStack [])

def OnlyConfined (vm v : Vm σ) : Prop := ∀ p ∈ v.written, p ∈ vm.written ∨ Confined p

theorem onlyConfined_turn {prog : Program} {h : Host σ} {trig : Bool} (s : ℕ × Vm σ)
    (hinv : OnlyConfined vm s.2) (hcond : ∀ p ∈ pathAsked prog s, PlainLead p) :
    (vmTurn prog h trig s).Sat (fun s => OnlyConfined vm s.2) fun r => OnlyConfined vm r.2 := by
  have hold : ∀ p, p ∈ s.2.written ∨ MayWrite prog s p → p ∈ vm.written ∨ Confined p := by
    rintro p (hp | ⟨hasked, hallow⟩)
    · exact hinv p hp
    · exact .inr (confined_of_allowed hallow (hcond p hasked))
  unfold vmTurn
  split
  · exact hinv
  exact Next.Sat.mono (adds_vmStep prog h trig s.1 s.2.tick)
    (fun _ hs p hp => hold p (hs p hp)) fun _ hr p hp => hold p (hr p hp)

theorem onlyConfined_spent {prog : Program} (s : ℕ × Vm σ)
    (hinv : OnlyConfined vm s.2) : OnlyConfined vm (vmSpent prog s).2 := by
  unfold vmSpent
  split <;> exact hinv

theorem verdict_vm (call : Call) (r : Outcome × Vm σ) : (verdict call r).2 = r.2 := by
  cases call with
  | run =>
    simp only [verdict]
    split <;> rfl
  | say => rfl

/-- In every run whose write instructions find no path with a lead to strip, every path given to
the host is confined. -/
theorem writes_confined (prog : Program) (h : Host σ) (call : Call) (vm : Vm σ) (hplain : PlainRun prog h call vm) :
    ∀ p ∈ (pmCall prog h call vm).2.written, p ∈ vm.written ∨ Confined p := by
  have hstart : OnlyConfined vm vm := fun p hp => .inl hp
  unfold PlainRun at hplain
  unfold pmCall
  cases hentry : entry prog call with
  | error e =>
    dsimp only
    split <;> exact hstart
  | ok start =>
    obtain ⟨pc, trig⟩ := start
    rw [hentry] at hplain
    rw [verdict_vm]
    exact exec_rule onlyConfined_turn onlyConfined_spent hstart hplain

def anyHost : Host Unit := ⟨none, some fun s _ _ _ => (true, s), none, none⟩

def slipSource : Bytes := ascii "create file \"./bin/x\""

def slipProgram : Program := ⟨[1, 1, 0, 3, 0, 0, 3, 8, 0, 14, 0], ascii "./bin/x" ++ [0, 0], [], []⟩

def noteProgram : Program := ⟨[1, 1, 0, 3, 0, 0, 3, 2, 0, 14, 0], ascii "n" ++ [0, 0], [], []⟩

theorem writes_confined_note : PlainRun noteProgram anyHost .run (pmVmReset ()) ∧
      (pmCall noteProgram anyHost .run (pmVmReset ())).2.written = [ascii "n"] ∧
      ∀ p ∈ (pmCall noteProgram anyHost .run (pmVmReset ())).2.written,
        p ∈ (pmVmReset ()).written ∨ Confined p := by
  have hplain : PlainRun noteProgram anyHost .run (pmVmReset ()) :=
    show Along _ _ _ _ by decide +kernel
  exact ⟨hplain, by decide +kernel, writes_confined _ _ _ _ hplain⟩

/-- The compiled program writes a file under `bin/`. -/
theorem slip_writes_bin : pmCompile noHost () slipSource = .ok slipProgram ∧
      (pmCall slipProgram anyHost .run (pmVmReset ())).2.written = [ascii "./bin/x"] ∧
      starts (ovNormalize (ascii "./bin/x")) (ascii "bin/") = true := by
  refine ⟨?_, ?_, ?_⟩
  · decide +kernel
  · decide +kernel
  · decide +kernel

end Mohhdy.PromptMessage
