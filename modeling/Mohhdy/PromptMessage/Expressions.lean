import Mohhdy.PromptMessage.Compiler
import Mohhdy.PromptMessage.Typing

/-! The code of expressions and conditions.

An expression appends instructions that push one value. Folding deletes code again, but only the
constants of the expression itself: after an expression `last_push` is set exactly when its code is
a single constant. -/
namespace Mohhdy.PromptMessage
set_option autoImplicit false

open Layouts List

variable {msg : Complaint} {b v : Int32}
  {i : Instr} {a d d' eol k k' n : ℕ} {p p' : Program} {L L' : List Instr} {r ts : List Tok}

theorem ok_bind {ε α β : Type} {x : Except ε α} {f : α → Except ε β} {b : β} :
    (x >>= f) = .ok b ↔ ∃ a, x = .ok a ∧ f a = .ok b := by
  cases x with
  | error e => simp [bind, Except.bind]
  | ok a => simp [bind, Except.bind]

theorem ok_map {ε α β : Type} {x : Except ε α} {f : α → β} {b : β} : x.map f = .ok b ↔ ∃ a, x = .ok a ∧ f a = b := by
  cases x with
  | error e => simp [Except.map]
  | ok a => simp [Except.map]

section
variable {σ : Type} {c c' c₁ c₂ c₃ : Cc σ}

/-! ## Emitted bytes -/

theorem emit8_ok {v : UInt8} (h : emit8 v c = .ok c') :
    c' = c.setCode (c.prog.code ++ [v]) ∧ c.prog.code.length + 1 ≤ pmCodeMax := by
  unfold emit8 at h
  split at h
  · cases h
  exact ⟨(Except.ok.inj h).symm, by omega⟩

theorem emit16_ok {v : ℕ} (h : emit16 v c = .ok c') :
    c' = c.setCode (c.prog.code ++ le16 v) ∧ c.prog.code.length + 2 ≤ pmCodeMax := by
  obtain ⟨c₁, h1, h2⟩ := ok_bind.mp h
  obtain ⟨rfl, -⟩ := emit8_ok h1
  obtain ⟨rfl, hlen⟩ := emit8_ok h2
  refine ⟨?_, ?_⟩
  · simp [Cc.setCode, le16]
  · simp [Cc.setCode] at hlen
    omega

theorem emit32_ok (h : emit32 v c = .ok c') :
    c' = c.setCode (c.prog.code ++ le32 v) ∧ c.prog.code.length + 4 ≤ pmCodeMax := by
  obtain ⟨c₁, h1, h2⟩ := ok_bind.mp h
  obtain ⟨rfl, -⟩ := emit16_ok h1
  obtain ⟨rfl, hlen⟩ := emit16_ok h2
  refine ⟨?_, by simpa [Cc.setCode, le16] using hlen⟩
  simp [Cc.setCode, le32]

def Emits (c c' : Cc σ) (i : Instr) : Prop :=
  c' = (c.setPushes none none).setCode (c.prog.code ++ i.encode) ∧ c'.prog.code.length ≤ pmCodeMax

theorem emitOp_ok {op : Op} (hop : op ≠ .pushI) (h : emitOp op c = .ok c') :
    c' = (c.setPushes none none).setCode (c.prog.code ++ [op.byte]) ∧
      c.prog.code.length + 1 ≤ pmCodeMax := by
  rw [emitOp, if_neg hop] at h
  exact emit8_ok h

theorem op_ne_pushI (h : i.operands.length ≠ 4) : i.op ≠ .pushI := by
  cases i <;> simp_all [Instr.op, Instr.operands, le32, le16]

theorem emits_op (hi : i.operands = []) (h : emitOp i.op c = .ok c') : Emits c c' i := by
  obtain ⟨rfl, hlen⟩ := emitOp_ok (op_ne_pushI (by simp [hi])) h
  refine ⟨by rw [Instr.encode, hi], ?_⟩
  simpa [Cc.setCode] using hlen

theorem emits_op8 {b : UInt8} (hi : i.operands = [b]) (h : emitOp i.op c = .ok c₁)
    (h' : emit8 b c₁ = .ok c') : Emits c c' i := by
  obtain ⟨rfl, -⟩ := emitOp_ok (op_ne_pushI (by simp [hi])) h
  obtain ⟨rfl, hlen⟩ := emit8_ok h'
  refine ⟨?_, ?_⟩
  · simp [Cc.setCode, Cc.setPushes, Instr.encode, hi]
  · simp [Cc.setCode, Cc.setPushes] at hlen ⊢
    omega

theorem emits_op16 (hi : i.operands = le16 n) (h : emitOp i.op c = .ok c₁)
    (h' : emit16 n c₁ = .ok c') : Emits c c' i := by
  obtain ⟨rfl, -⟩ := emitOp_ok (op_ne_pushI (by simp [hi, le16])) h
  obtain ⟨rfl, hlen⟩ := emit16_ok h'
  refine ⟨?_, ?_⟩
  · simp [Cc.setCode, Cc.setPushes, Instr.encode, hi]
  · simpa [Cc.setCode, Cc.setPushes, le16] using hlen

theorem emitPushi_ok (h : emitPushi v c = .ok c') :
    c' = (c.setCode (c.prog.code ++ (Instr.pushI v).encode)).setPushes (some c.prog.code.length)
      c.lastPush ∧ c.prog.code.length + 5 ≤ pmCodeMax := by
  obtain ⟨c₁, h1, h2⟩ := ok_bind.mp h
  obtain ⟨c₂, h3, h4⟩ := ok_bind.mp h2
  obtain ⟨rfl, -⟩ := emit8_ok h1
  obtain ⟨rfl, hlen⟩ := emit32_ok h3
  cases h4
  refine ⟨?_, by simpa [Cc.setCode] using hlen⟩
  simp [Cc.setCode, Cc.setPushes, Instr.encode, Instr.operands, Instr.op]

/-! ## Code without jumps -/

structure Straight (p : Program) (d : ℕ) (L : List Instr) (d' : ℕ) : Prop where
  plain : ∀ i ∈ L, i.op.falls = true ∧ i.target = none
  legal : ∀ trig, ∀ x ∈ lay isa ⟨d, trig⟩ L, Legal p x.1 x.2
  after : ∀ trig, afterAll isa ⟨d, trig⟩ L = ⟨d', trig⟩

def Enlarges (p p' : Program) : Prop :=
  p.pool.length ≤ p'.pool.length ∧ p.vars.length ≤ p'.vars.length

theorem Enlarges.refl (p : Program) : Enlarges p p := ⟨le_rfl, le_rfl⟩

theorem Enlarges.trans {p'' : Program} (h : Enlarges p p') (h' : Enlarges p' p'') :
    Enlarges p p'' := ⟨h.1.trans h'.1, h.2.trans h'.2⟩

theorem Legal.mono {x : Ctx} (h : Legal p x i) (hp : Enlarges p p') : Legal p' x i :=
  ⟨h.pops, h.room, fun a ha => (h.string a ha).trans_le hp.1,
    fun s hs => (h.var s hs).trans_le hp.2, h.ret⟩

theorem Straight.mono (h : Straight p d L d') (hp : Enlarges p p') : Straight p' d L d' :=
  ⟨h.plain, fun trig x hx => (h.legal trig x hx).mono hp, h.after⟩

theorem lay_append (x : Ctx) (L L' : List Instr) :
    lay isa x (L ++ L') = lay isa x L ++ lay isa (afterAll isa x L) L' := by
  induction L generalizing x with
  | nil => rfl
  | cons i L ih =>
    rw [cons_append, lay, ih]
    rfl

theorem Straight.append {d'' : ℕ} (h : Straight p d L d')
    (h' : Straight p d' L' d'') : Straight p d (L ++ L') d'' := by
  refine ⟨?_, ?_, ?_⟩
  · intro i hi
    exact (mem_append.mp hi).elim (h.plain i) (h'.plain i)
  · intro trig x hx
    rw [lay_append, h.after trig] at hx
    exact (mem_append.mp hx).elim (h.legal trig x) (h'.legal trig x)
  · intro trig
    have hfold : afterAll isa ⟨d, trig⟩ (L ++ L') = afterAll isa (afterAll isa ⟨d, trig⟩ L) L' :=
      foldl_append
    rw [hfold, h.after trig, h'.after trig]

theorem straight_single (hf : i.op.falls = true) (ht : i.target = none) (hl : ∀ trig, Legal p ⟨d, trig⟩ i)
    (hd : d - i.op.pops + i.op.pushes = d') : Straight p d [i] d' := by
  refine ⟨?_, ?_, ?_⟩
  · intro j hj
    obtain rfl := mem_singleton.mp hj
    exact ⟨hf, ht⟩
  · intro trig x hx
    obtain rfl := mem_singleton.mp hx
    exact hl trig
  · intro trig
    rw [← hd]
    rfl

def Instr.free : Instr → Bool
  | .pushS _ | .load _ | .store _ | .ret => false
  | _ => true

theorem legal_operator {m : Bool} (hpops : i.op.pops ≤ d)
    (hroom : d - i.op.pops + i.op.pushes ≤ pmStack) (hfree : i.free = true) : Legal p ⟨d, m⟩ i := by
  refine ⟨hpops, hroom, ?_, ?_, ?_⟩
  · rintro a rfl
    cases hfree
  · rintro s (rfl | rfl) <;> cases hfree
  · rintro rfl
    cases hfree

structure Operator (i : Instr) (n : ℕ) : Prop where
  falls : i.op.falls = true
  target : i.target = none
  free : i.free = true
  pops : i.op.pops = n
  pushes : i.op.pushes = 1

theorem Operator.straight (h : Operator i n) (hd : n ≤ d) (hroom : d - n < pmStack) :
    Straight p d [i] (d - n + 1) := by
  refine straight_single h.falls h.target (fun _ => legal_operator ?_ ?_ h.free) (by rw [h.pops, h.pushes])
  · rwa [h.pops]
  · rwa [h.pops, h.pushes]

theorem Operator.ne_pushI (h : Operator i (n + 1)) (v : Int32) : i ≠ .pushI v := by
  rintro rfl
  cases h.pops

def Pushes (p : Program) (k : ℕ) (L : List Instr) : Prop :=
  ∀ d, d + k ≤ pmStack → Straight p d L (d + 1)

theorem Pushes.weaken (h : Pushes p k L) (hp : Enlarges p p') (hk : k ≤ k') : Pushes p' k' L :=
  fun d hd => (h d (by omega)).mono hp

theorem Pushes.binary (h : Pushes p k L) (h' : Pushes p k' L') (hk : k ≤ n) (hk' : k' + 1 ≤ n)
    (hi : Operator i 2) : Pushes p n (L ++ L' ++ [i]) := by
  intro d hd
  have hboth := (h d (by omega)).append (h' (d + 1) (by omega))
  have hop := hi.straight (p := p) (d := d + 1 + 1) (by omega) (by omega)
  exact hboth.append hop

theorem Pushes.unary (h : Pushes p k L) (hi : Operator i 1) (hk : 1 ≤ k) : Pushes p k (L ++ [i]) := by
  intro d hd
  exact (h d hd).append (hi.straight (d := d + 1) (by omega) (by omega))

/-! ## Pieces of code that push a value -/

structure Frame (c c' : Cc σ) : Prop where
  blocks : c'.blocks = c.blocks
  triggers : c'.prog.triggers = c.prog.triggers
  vars : c'.prog.vars = c.prog.vars
  pool : c.prog.pool.length ≤ c'.prog.pool.length
  poolSmall : c.prog.pool.length ≤ pmPoolMax → c'.prog.pool.length ≤ pmPoolMax

theorem Frame.refl (c : Cc σ) : Frame c c := ⟨rfl, rfl, rfl, le_rfl, id⟩

theorem Frame.trans (h : Frame c c₁) (h' : Frame c₁ c₂) : Frame c c₂ :=
  ⟨h'.blocks.trans h.blocks, h'.triggers.trans h.triggers, h'.vars.trans h.vars,
    h.pool.trans h'.pool, fun hp => h'.poolSmall (h.poolSmall hp)⟩

theorem Frame.enlarges (h : Frame c c') : Enlarges c.prog c'.prog := ⟨h.pool, by rw [h.vars]⟩

theorem Frame.code (c : Cc σ) (code : Bytes) (a b : Option ℕ) :
    Frame c ((c.setPushes a b).setCode code) := ⟨rfl, rfl, rfl, le_rfl, id⟩

def enc (L : List Instr) : Bytes := L.flatMap Instr.encode

theorem enc_append (L L' : List Instr) : enc (L ++ L') = enc L ++ enc L' := flatMap_append

theorem enc_single (i : Instr) : enc [i] = i.encode := by simp [enc]

structure Piece (k : ℕ) (c c' : Cc σ) (L : List Instr) : Prop where
  code : c'.prog.code = c.prog.code ++ enc L
  small : c'.prog.code.length ≤ pmCodeMax
  frame : Frame c c'
  pushes : Pushes c'.prog k L
  last : (∃ v, L = [.pushI v]) ∧ c'.lastPush = some c.prog.code.length ∧
      (c'.prevPush = c.lastPush ∨ c'.prevPush = none) ∨
    (∀ v, L ≠ [.pushI v]) ∧ c'.lastPush = none ∧ c'.prevPush = none

theorem Piece.weaken (h : Piece k c c' L) (hk : k ≤ k') : Piece k' c c' L :=
  ⟨h.code, h.small, h.frame, h.pushes.weaken (Enlarges.refl _) hk, h.last⟩

theorem Piece.of_last (h : Piece k c c' L) (ha : c'.lastPush = some a) :
    (∃ v, L = [.pushI v]) ∧ a = c.prog.code.length ∧
      (c'.prevPush = c.lastPush ∨ c'.prevPush = none) := by
  rcases h.last with ⟨hL, hlast, hprev⟩ | ⟨-, hnone, -⟩
  · exact ⟨hL, Option.some.inj (ha.symm.trans hlast), hprev⟩
  · simp [hnone] at ha

theorem pushes_operand (hf : i.op.falls = true) (ht : i.target = none)
    (hpops : i.op.pops = 0) (hpushes : i.op.pushes = 1) (hs : ∀ a, i = .pushS a → a < p.pool.length)
    (hv : ∀ s, i = .load s ∨ i = .store s → s < p.vars.length) (hr : i ≠ .ret) :
    Pushes p 1 [i] := by
  intro d hd
  refine straight_single hf ht (fun _ => ⟨?_, ?_, hs, hv, fun h => absurd h hr⟩) ?_
  · omega
  · rw [hpops, hpushes]
    omega
  · rw [hpops, hpushes]
    rfl

theorem piece_pushI (h : emitPushi v c = .ok c') : Piece 1 c c' [.pushI v] := by
  obtain ⟨rfl, hlen⟩ := emitPushi_ok h
  refine ⟨?_, ?_, ⟨rfl, rfl, rfl, le_rfl, id⟩, ?_, .inl ⟨⟨v, rfl⟩, rfl, .inl rfl⟩⟩
  · rw [enc_single]
    rfl
  · simpa [Cc.setCode, Cc.setPushes, Instr.encode, Instr.operands, le32, le16] using hlen
  · exact pushes_operand rfl rfl rfl rfl (by simp) (by simp) (by simp)

theorem piece_of_emits (hcode : c₁.prog.code = c.prog.code ++ enc L)
    (hframe : Frame c c₁) (h : Emits c₁ c' i) (hi : ∀ v, i ≠ .pushI v)
    (hpushes : Pushes c₁.prog k (L ++ [i])) : Piece k c c' (L ++ [i]) := by
  obtain ⟨rfl, hlen⟩ := h
  refine ⟨?_, hlen, hframe.trans (Frame.code ..), ?_, .inr ⟨?_, rfl, rfl⟩⟩
  · rw [enc_append, enc_single, ← append_assoc, ← hcode]
    rfl
  · exact hpushes.weaken ⟨le_rfl, le_rfl⟩ le_rfl
  · intro v hv
    have hlast := congrArg List.getLast? hv
    simp at hlast
    exact hi v hlast

theorem poolFind_lt {s pool : Bytes} {begins : Bool}
    (h : poolFind s begins n pool = some a) : a < n + pool.length := by
  induction pool generalizing begins n with
  | nil => simp [poolFind] at h
  | cons b rest ih =>
    rw [poolFind] at h
    rw [length_cons]
    split at h
    · cases h
      omega
    · have := ih h
      omega

theorem poolAdd_some {s : Bytes} (h : poolAdd s c = some (a, c')) :
    Frame c c' ∧ a < c'.prog.pool.length ∧ c'.prog.code = c.prog.code := by
  unfold poolAdd at h
  cases hfind : poolFind s true 0 c.prog.pool with
  | some b =>
    rw [hfind] at h
    cases h
    have := poolFind_lt hfind
    exact ⟨Frame.refl c, by omega, rfl⟩
  | none =>
    rw [hfind] at h
    dsimp only at h
    split at h
    · simp at h
    rename_i hroom
    cases h
    refine ⟨⟨rfl, rfl, rfl, ?_, ?_⟩, ?_, rfl⟩
    · simp [Cc.setPool]
    · intro _
      simp [Cc.setPool]
      omega
    · simp [Cc.setPool]

theorem varSlot_some {name : Bytes} {create : Bool} {s : ℕ} (h : varSlot name create c = some (s, c')) :
    s < c'.prog.vars.length ∧ (create = false → c' = c) ∧ ∃ vars, c' = c.setVars vars ∧
      c.prog.vars.length ≤ vars.length ∧
      (c.prog.vars.length ≤ pmVars → vars.length ≤ pmVars) := by
  unfold varSlot at h
  split at h
  · simp at h
  cases hfind : c.prog.vars.findIdx? (· = name) with
  | some i =>
    rw [hfind] at h
    cases h
    have hlt := (List.findIdx?_eq_some_iff_findIdx_eq.mp hfind).1
    exact ⟨hlt, fun _ => rfl, c.prog.vars, rfl, le_rfl, id⟩
  | none =>
    rw [hfind] at h
    dsimp only at h
    split at h
    · simp at h
    rename_i hroom
    cases h
    push Not at hroom
    refine ⟨by simp [Cc.setVars], fun hc => absurd hroom.1 (by simp [hc]), _, rfl, by simp, ?_⟩
    intro _
    simpa using hroom.2

theorem piece_pushS {s : Bytes} (hadd : poolAdd s c = some (a, c₁))
    (h : emitOp .pushS c₁ = .ok c₂) (h' : emit16 a c₂ = .ok c') : Piece 1 c c' [.pushS a] := by
  obtain ⟨hframe, ha, hcode⟩ := poolAdd_some hadd
  have hemit : Emits c₁ c' (.pushS a) := emits_op16 rfl h h'
  refine piece_of_emits (L := []) (by simpa [enc] using hcode) hframe hemit (by simp) ?_
  refine pushes_operand rfl rfl rfl rfl ?_ (by simp) (by simp)
  intro b hb
  obtain rfl := Instr.pushS.inj hb
  exact ha

theorem ccTerm_ok {t : Tok} (h : ccTerm t c = .ok c') : ∃ i, Piece 1 c c' [i] := by
  unfold ccTerm at h
  split at h
  · -- a string
    split at h
    · cases h
    rename_i a c₁ hadd
    obtain ⟨c₂, h1, h2⟩ := ok_bind.mp h
    exact ⟨_, piece_pushS hadd h1 h2⟩
  · exact ⟨_, piece_pushI h⟩
  · split at h
    · split at h
      · cases h
      · rename_i s c₁ hslot
        obtain ⟨hs, hsame, -⟩ := varSlot_some hslot
        obtain rfl := hsame rfl
        obtain ⟨c₂, h1, h2⟩ := ok_bind.mp h
        have hemit : Emits c₁ c' (.load s) := emits_op8 rfl h1 h2
        refine ⟨.load s, piece_of_emits (L := []) (by simp [enc]) (Frame.refl _) hemit (by simp) ?_⟩
        refine pushes_operand rfl rfl rfl rfl (by simp) ?_ (by simp)
        intro b hb
        obtain rfl : s = b := by simpa using hb
        exact hs
    · split at h
      · have hemit : Emits c c' .sysMem := emits_op rfl h
        exact ⟨.sysMem, piece_of_emits (L := []) (by simp [enc]) (Frame.refl _) hemit (by simp)
          (pushes_operand rfl rfl rfl rfl (by simp) (by simp) (by simp))⟩
      · cases h
  · cases h

/-! ## Folding -/

theorem foldPair_some {a : Int32} (h : foldPair c = some (a, b, c')) :
    ∃ last prev, c.lastPush = some last ∧ c.prevPush = some prev ∧
      c' = (c.setCode (c.prog.code.take prev)).setPushes none none := by
  unfold foldPair at h
  split at h
  · rename_i last prev hlast hprev
    split at h
    · refine ⟨last, prev, hlast, hprev, ?_⟩
      simp only [Option.some.injEq, Prod.mk.injEq] at h
      exact h.2.2.symm
    · simp at h
  · simp at h

section
variable (h : Piece k c c₁ L) (h' : Piece k' c₁ c₂ L')
include h h'

/-- What is folded away are two pieces that are single constants, and nothing before them. -/
theorem foldPair_pieces {a : Int32} (hfold : foldPair c₂ = some (a, b, c₃)) :
    c₃.prog.code = c.prog.code ∧ Frame c c₃ ∧ c₃.lastPush = none := by
  obtain ⟨last, prev, hlast, hprev, rfl⟩ := foldPair_some hfold
  obtain ⟨⟨v, rfl⟩, -, hbefore⟩ := h'.of_last hlast
  have hprev₁ : c₁.lastPush = some prev := by
    rcases hbefore with hb | hb
    · rw [← hb, hprev]
    · simp [hb] at hprev
  obtain ⟨⟨u, rfl⟩, rfl, -⟩ := h.of_last hprev₁
  have hframe := h.frame.trans h'.frame
  refine ⟨?_, hframe.trans ⟨rfl, rfl, rfl, le_rfl, id⟩, rfl⟩
  have hcode : c₂.prog.code = c.prog.code ++ (enc [.pushI u] ++ enc [.pushI v]) := by
    rw [h'.code, h.code, append_assoc]
  have htake : c₂.prog.code.take c.prog.code.length = c.prog.code := by
    rw [hcode, take_left]
  exact htake

theorem piece_folded {a : Int32} (hfold : foldPair c₂ = some (a, b, c₃))
    (hemit : emitPushi v c₃ = .ok c') (hn : 1 ≤ n) : Piece n c c' [.pushI v] := by
  obtain ⟨hcode, hframe, hlast⟩ := foldPair_pieces h h' hfold
  have hp := piece_pushI hemit
  obtain ⟨-, hl, hprev⟩ := hp.last.resolve_right fun hno => hno.1 v rfl
  refine ⟨?_, hp.small, hframe.trans hp.frame, hp.pushes.weaken (Enlarges.refl _) hn,
    .inl ⟨⟨v, rfl⟩, ?_, .inr ?_⟩⟩
  · rw [hp.code, hcode]
  · rw [hl, hcode]
  · exact hprev.elim (fun hb => hb.trans hlast) id

theorem Frame.of_pieces : c₂.prog.code = c.prog.code ++ enc (L ++ L') ∧ Frame c c₂ :=
  ⟨by rw [h'.code, h.code, append_assoc, enc_append], h.frame.trans h'.frame⟩

theorem piece_binary (hemit : Emits c₂ c' i) (hop : Operator i 2) (hk : k ≤ n) (hk' : k' + 1 ≤ n) :
    Piece n c c' (L ++ L' ++ [i]) := by
  obtain ⟨hcode, hframe⟩ := Frame.of_pieces h h'
  refine piece_of_emits hcode hframe hemit hop.ne_pushI ?_
  exact (h.pushes.weaken h'.frame.enlarges le_rfl).binary h'.pushes hk hk' hop

end

theorem ccAdd_ok (h : Piece 2 c c₁ L) (h' : Piece 1 c₁ c₂ [i])
    (hadd : ccAdd c₂ = .ok c') : ∃ L', Piece 2 c c' L' := by
  unfold ccAdd at hadd
  split at hadd
  · rename_i a b c₃ hfold
    exact ⟨_, piece_folded h h' hfold hadd (by decide)⟩
  · have hemit : Emits c₂ c' .add := emits_op rfl hadd
    exact ⟨_, piece_binary h h' hemit ⟨rfl, rfl, rfl, rfl, rfl⟩ le_rfl le_rfl⟩

theorem ccExprRest_ok (hpiece : Piece 2 c c₁ L) (h : ccExprRest eol ts c₁ = .ok (r, c')) :
    (∃ L', Piece 2 c c' L') ∧ r.length ≤ ts.length := by
  induction ts using List.twoStepInduction generalizing c₁ L with
  | nil =>
    cases h
    exact ⟨⟨L, hpiece⟩, le_rfl⟩
  | singleton t =>
    rw [ccExprRest] at h
    split at h
    · cases h
    cases h
    exact ⟨⟨L, hpiece⟩, le_rfl⟩
  | cons_cons t u ts ih _ =>
    rw [ccExprRest] at h
    split at h
    · obtain ⟨c₂, hterm, h⟩ := ok_bind.mp h
      obtain ⟨c₃, hadd, h⟩ := ok_bind.mp h
      obtain ⟨i, hi⟩ := ccTerm_ok hterm
      obtain ⟨L', hL'⟩ := ccAdd_ok hpiece hi hadd
      obtain ⟨hrest, hlen⟩ := ih hL' h
      exact ⟨hrest, hlen.trans (Nat.le_add_right _ 2)⟩
    · cases h
      exact ⟨⟨L, hpiece⟩, le_rfl⟩

theorem ccExpr_ok (h : ccExpr eol ts c = .ok (r, c')) : (∃ L, Piece 2 c c' L) ∧ r.length < ts.length := by
  unfold ccExpr at h
  split at h
  · cases h
  obtain ⟨c₁, hterm, h⟩ := ok_bind.mp h
  obtain ⟨i, hi⟩ := ccTerm_ok hterm
  exact (ccExprRest_ok (hi.weaken (by decide)) h).imp_right Nat.lt_succ_of_le

theorem ccCmp_ok {op : ℕ} (h : Piece 2 c c₁ L) (h' : Piece 2 c₁ c₂ L')
    (hcmp : ccCmp op c₂ = .ok c') : ∃ M, Piece 3 c c' M := by
  unfold ccCmp at hcmp
  split at hcmp
  · rename_i a b c₃ hfold
    split at hfold
    · simp at hfold
    · exact ⟨_, piece_folded h h' hfold hcmp (by decide)⟩
  · obtain ⟨c₃, h1, h2⟩ := ok_bind.mp hcmp
    have hemit : Emits c₂ c' (.cmp op) := emits_op8 rfl h1 h2
    exact ⟨_, piece_binary h h' hemit ⟨rfl, rfl, rfl, rfl, rfl⟩ (by decide) le_rfl⟩

theorem ccCompare_ok (h : ccCompare eol ts c = .ok (r, c')) : (∃ L, Piece 3 c c' L) ∧ r.length < ts.length := by
  obtain ⟨⟨r₁, c₁⟩, hexpr, h⟩ := ok_bind.mp h
  obtain ⟨⟨L, hL⟩, hlt⟩ := ccExpr_ok hexpr
  have hsame : (r₁, c₁) = (r, c') → (∃ L, Piece 3 c c' L) ∧ r.length < ts.length := by
    rintro ⟨⟩
    exact ⟨⟨L, hL.weaken (by decide)⟩, hlt⟩
  cases r₁ with
  | nil => exact hsame (Except.ok.inj h)
  | cons t r' =>
    dsimp only at h
    split at h
    · exact hsame (Except.ok.inj h)
    obtain ⟨⟨r₂, c₂⟩, hexpr', h⟩ := ok_bind.mp h
    obtain ⟨c₃, hcmp, h⟩ := ok_bind.mp h
    cases h
    obtain ⟨⟨L', hL'⟩, hlt'⟩ := ccExpr_ok hexpr'
    exact ⟨ccCmp_ok hL hL' hcmp, hlt'.trans (Nat.lt_of_succ_lt hlt)⟩

theorem piece_unary (h : Piece k c c₁ L) (hemit : Emits c₁ c' i) (hop : Operator i 1) (hk : 1 ≤ k) :
    Piece k c c' (L ++ [i]) :=
  piece_of_emits h.code h.frame hemit hop.ne_pushI (h.pushes.unary hop hk)

theorem takeWord_ok {w : String} (h : takeWord eol w msg ts c = .ok r) : ∃ t, ts = t :: r := by
  unfold takeWord at h
  split at h
  · split at h
    · rename_i t rest _
      cases h
      exact ⟨t, rfl⟩
    · cases h
  · cases h

theorem ccSimple_ok (h : ccSimple eol ts c = .ok (r, c')) : (∃ L, Piece 3 c c' L) ∧ r.length < ts.length := by
  induction ts generalizing r c' with
  | nil => exact ccCompare_ok h
  | cons t ts ih =>
    rw [ccSimple] at h
    split at h
    · obtain ⟨⟨r₁, c₁⟩, hinner, h⟩ := ok_bind.mp h
      obtain ⟨c₂, hop, h⟩ := ok_bind.mp h
      obtain ⟨rfl, rfl⟩ := Prod.mk.inj (Except.ok.inj h)
      obtain ⟨⟨L, hL⟩, hlt⟩ := ih hinner
      have hemit : Emits c₁ c₂ .not := emits_op rfl hop
      exact ⟨⟨_, piece_unary hL hemit ⟨rfl, rfl, rfl, rfl, rfl⟩ (by decide)⟩, Nat.lt_succ_of_lt hlt⟩
    · split at h
      · obtain ⟨⟨r₁, c₁⟩, hexpr, h⟩ := ok_bind.mp h
        obtain ⟨r₂, hword, h⟩ := ok_bind.mp h
        obtain ⟨c₂, hop, h⟩ := ok_bind.mp h
        obtain ⟨rfl, rfl⟩ := Prod.mk.inj (Except.ok.inj h)
        obtain ⟨⟨L, hL⟩, hlt⟩ := ccExpr_ok hexpr
        have hemit : Emits c₁ c₂ .fExists := emits_op rfl hop
        refine ⟨⟨_, piece_unary (hL.weaken (by decide)) hemit ⟨rfl, rfl, rfl, rfl, rfl⟩ (by decide)⟩, ?_⟩
        obtain ⟨u, rfl⟩ := takeWord_ok hword
        exact Nat.lt_succ_of_lt (Nat.lt_of_succ_lt hlt)
      · exact ccCompare_ok h

theorem ccCondRest_ok (hpiece : Piece 4 c c₁ L)
    (h : ccCondRest eol n ts c₁ = .ok (r, c')) : (∃ L', Piece 4 c c' L') ∧ r.length ≤ ts.length := by
  induction n generalizing ts c₁ L with
  | zero =>
    rw [ccCondRest] at h
    cases h
    exact ⟨⟨L, hpiece⟩, le_rfl⟩
  | succ n ih =>
    cases ts with
    | nil =>
      cases h
      exact ⟨⟨L, hpiece⟩, le_rfl⟩
    | cons t ts =>
      rw [ccCondRest] at h
      split at h
      · obtain ⟨⟨r₁, c₂⟩, hsimple, h⟩ := ok_bind.mp h
        obtain ⟨c₃, hop, h⟩ := ok_bind.mp h
        obtain ⟨⟨L', hL'⟩, hlt⟩ := ccSimple_ok hsimple
        have hstep : ∃ M, Piece 4 c c₃ M := by
          split at hop
          · have hemit : Emits c₂ c₃ .and := emits_op rfl hop
            exact ⟨_, piece_binary hpiece hL' hemit ⟨rfl, rfl, rfl, rfl, rfl⟩ le_rfl le_rfl⟩
          · have hemit : Emits c₂ c₃ .or := emits_op rfl hop
            exact ⟨_, piece_binary hpiece hL' hemit ⟨rfl, rfl, rfl, rfl, rfl⟩ le_rfl le_rfl⟩
        obtain ⟨M, hM⟩ := hstep
        obtain ⟨hrest, hlen⟩ := ih hM h
        exact ⟨hrest, (hlen.trans hlt.le).trans (Nat.le_succ _)⟩
      · cases h
        exact ⟨⟨L, hpiece⟩, le_rfl⟩

theorem ccCond_ok (h : ccCond eol ts c = .ok (r, c')) : (∃ L, Piece 4 c c' L) ∧ r.length < ts.length := by
  obtain ⟨⟨r₁, c₁⟩, hsimple, h⟩ := ok_bind.mp h
  obtain ⟨⟨L, hL⟩, hlt⟩ := ccSimple_ok hsimple
  exact (ccCondRest_ok (hL.weaken (by decide)) h).imp_right fun hle => hle.trans_lt hlt

end

end Mohhdy.PromptMessage
