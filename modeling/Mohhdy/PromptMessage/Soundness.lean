import Mohhdy.PromptMessage.Expressions

/-! The compiler emits typed programs.

Between statements the stack is empty, so every jump of a statement goes from and to depth zero. The
invariant lays the code out so far: the jumps of open blocks and of the statements a line is nested
in are the only ones without a target. A `when` switches to the context of a trigger and back. -/
namespace Mohhdy.PromptMessage
set_option autoImplicit false

open Layouts List

variable {a head k n' slot : ℕ} {L : List Instr} {p : Program} {jz : Option ℕ}
  {l' : List (Ctx × Instr)} {d n s : ℕ} {i : Instr}

section
variable {σ : Type} {c c' c₁ c₂ : Cc σ} {l : List (Ctx × Instr)} {cur cur' x : Ctx} {P P' : Set ℕ}
  {m m₀ : Bool}

structure Good (c : Cc σ) (l : List (Ctx × Instr)) (cur : Ctx) (P : Set ℕ) : Prop where
  code : c.prog.code = bytes isa l
  sound : Sound isa l cur P
  legal : ∀ x ∈ l, Legal c.prog x.1 x.2
  triggers : ∀ t ∈ c.prog.triggers, Point isa l cur t.addr ⟨0, true⟩
  codeSmall : c.prog.code.length ≤ pmCodeMax
  poolSmall : c.prog.pool.length ≤ pmPoolMax
  varsSmall : c.prog.vars.length ≤ pmVars

structure Adv (c : Cc σ) (l : List (Ctx × Instr)) (cur : Ctx) (c' : Cc σ) (l' : List (Ctx × Instr))
    (cur' : Ctx) (P' : Set ℕ) : Prop where
  good : Good c' l' cur' P'
  grows : Grows isa l cur l' cur'
  enlarges : Enlarges c.prog c'.prog
  blocks : c'.blocks = c.blocks

theorem Adv.trans {l'' : List (Ctx × Instr)} {cur'' : Ctx} {P'' : Set ℕ}
    (h : Adv c l cur c₁ l' cur' P') (h' : Adv c₁ l' cur' c₂ l'' cur'' P'') :
    Adv c l cur c₂ l'' cur'' P'' :=
  ⟨h'.good, h.grows.trans h'.grows, h.enlarges.trans h'.enlarges, h'.blocks.trans h.blocks⟩

/-! ## Emitting -/

theorem Good.enlarge (h : Good c l cur P) (hp : Enlarges c.prog c'.prog)
    (hcode : c'.prog.code = c.prog.code) (htrig : c'.prog.triggers = c.prog.triggers)
    (hpool : c'.prog.pool.length ≤ pmPoolMax) (hvars : c'.prog.vars.length ≤ pmVars)
    (hblocks : c'.blocks = c.blocks) : Adv c l cur c' l cur P := by
  refine ⟨⟨hcode.trans h.code, h.sound, ?_, ?_, ?_, hpool, hvars⟩, Grows.refl l cur, hp, hblocks⟩
  · exact fun x hx => (h.legal x hx).mono hp
  · rw [htrig]
    exact h.triggers
  · rw [hcode]
    exact h.codeSmall

theorem Good.frame (h : Good c l cur P) (hf : Frame c c') (hcode : c'.prog.code = c.prog.code) :
    Adv c l cur c' l cur P :=
  h.enlarge hf.enlarges hcode hf.triggers (hf.poolSmall h.poolSmall)
    ((congrArg List.length hf.vars).trans_le h.varsSmall) hf.blocks

theorem Good.piece (h : Good c l ⟨d, m⟩ P)
    (hL : Piece k c c' L) (hd : d + k ≤ pmStack) : ∃ l', Adv c l ⟨d, m⟩ c' l' ⟨d + 1, m⟩ P := by
  have hrun := hL.pushes d hd
  obtain ⟨hsound, hgrows⟩ := h.sound.append hrun.plain
  rw [hrun.after m] at hsound hgrows
  refine ⟨l ++ lay isa ⟨d, m⟩ L, ⟨?_, hsound, ?_, ?_, hL.small, ?_, ?_⟩, hgrows,
    hL.frame.enlarges, hL.frame.blocks⟩
  · rw [hL.code, h.code, bytes_append, bytes_lay]
    rfl
  · exact forall_mem_append.mpr
      ⟨fun x hx => (h.legal x hx).mono hL.frame.enlarges, hrun.legal m⟩
  · rw [hL.frame.triggers]
    exact fun t ht => hgrows.point _ _ (h.triggers t ht)
  · exact hL.frame.poolSmall h.poolSmall
  · rw [hL.frame.vars]
    exact h.varsSmall

theorem Good.emit {Q : Set ℕ} (h : Good c l cur P) (he : Emits c c' i) (hl : Legal c.prog cur i)
    (hsub : P ⊆ Q) (hf : i.op.falls = true → x = i.after cur) (hj : ∀ t, i.target = some t →
      Point isa (l ++ [(cur, i)]) x t (i.after cur) ∨ width isa l ∈ Q) :
    Adv c l cur c' (l ++ [(cur, i)]) x Q := by
  obtain ⟨rfl, hlen⟩ := he
  have hgrows := Grows.snoc (M := isa) l cur x i
  refine ⟨⟨?_, h.sound.snoc hsub hf hj, ?_, ?_, hlen, h.poolSmall, h.varsSmall⟩, hgrows,
    ⟨le_rfl, le_rfl⟩, rfl⟩
  · rw [bytes_append, bytes_cons, bytes_nil, append_nil, ← h.code]
    rfl
  · exact forall_mem_append.mpr ⟨fun y hy => (h.legal y hy).mono ⟨le_rfl, le_rfl⟩,
      forall_mem_singleton.mpr (hl.mono ⟨le_rfl, le_rfl⟩)⟩
  · exact fun t ht => hgrows.point _ _ (h.triggers t ht)

theorem Good.plain (h : Good c l cur P) (he : Emits c c' i) (hl : Legal c.prog cur i)
    (ht : i.target = none) : Adv c l cur c' (l ++ [(cur, i)]) (i.after cur) P :=
  h.emit he hl (le_refl P) (fun _ => rfl) (by simp [ht])

theorem emitJump_ok (hi : i.operands = le16 0) (h : emitJump i.op c = .ok (a, c')) :
    Emits c c' i ∧ a = c.prog.code.length + 1 := by
  obtain ⟨c₁, h1, h⟩ := ok_bind.mp h
  obtain ⟨c₂, h2, h⟩ := ok_bind.mp h
  cases h
  refine ⟨emits_op16 hi h1 h2, ?_⟩
  obtain ⟨rfl, -⟩ := emitOp_ok (op_ne_pushI (by simp [hi, le16])) h1
  simp [Cc.setCode]

/-! ## Open jumps -/

def openAt (p : Option ℕ) : Set ℕ := {a | p = some (a + 1)}

def Patchable (l : List (Ctx × Instr)) (p : Option ℕ) (x : Ctx) : Prop :=
  ∀ q, p = some q → ∃ a, q = a + 1 ∧ Jump isa l a x

theorem Patchable.mono {p : Option ℕ} (h : Patchable l p x)
    (hg : Grows isa l cur l' cur') : Patchable l' p x := by
  intro q hq
  obtain ⟨a, ha, hj⟩ := h q hq
  exact ⟨a, ha, hg.jump a x hj⟩

theorem Good.openJump (h : Good c l cur P) (hi : i.operands = le16 0)
    (hjump : emitJump i.op c = .ok (a, c')) (hl : Legal c.prog cur i) (ht : i.target.isSome)
    (hf : i.op.falls = true → x = i.after cur) :
    ∃ l', Adv c l cur c' l' x (openAt (some a) ∪ P) ∧ Patchable l' (some a) (i.after cur) := by
  obtain ⟨he, rfl⟩ := emitJump_ok hi hjump
  have hwidth : width isa l = c.prog.code.length := by rw [h.code, width]
  refine ⟨l ++ [(cur, i)], h.emit he hl Set.subset_union_right hf ?_, ?_⟩
  · intro t _
    refine .inr (.inl ?_)
    rw [hwidth]
    rfl
  · intro q hq
    refine ⟨c.prog.code.length, (Option.some.inj hq).symm, l.length, cur, i, ?_, ?_, ht, rfl⟩
    · simp
    · rw [take_left, hwidth]

/-- Behind a jump over code the mode may be another one. -/
theorem Good.jumpOver {b : Bool} (h : Good c l ⟨0, m⟩ P) (hjump : emitJump .jmp c = .ok (a, c')) :
    ∃ l', Adv c l ⟨0, m⟩ c' l' ⟨0, b⟩ (openAt (some a) ∪ P) ∧ Patchable l' (some a) ⟨0, m⟩ :=
  h.openJump (i := .jmp 0) rfl hjump (legal_operator (Nat.zero_le _) (Nat.zero_le _) rfl) rfl
    (by simp [Instr.op, Op.falls])

theorem Good.jumpFalse (h : Good c l ⟨1, m⟩ P) (hjump : emitJump .jz c = .ok (a, c')) :
    ∃ l', Adv c l ⟨1, m⟩ c' l' ⟨0, m⟩ (openAt (some a) ∪ P) ∧ Patchable l' (some a) ⟨0, m⟩ :=
  h.openJump (i := .jz 0) rfl hjump (legal_operator le_rfl (Nat.zero_le _) rfl) rfl fun _ => rfl

theorem legal_retarget (h : Legal p x i) (hi : i.target.isSome) (t : ℕ) : Legal p x (i.retarget t) := by
  cases i with
  | jmp u | jz u =>
    exact ⟨h.pops, h.room, by simp [Instr.retarget], by simp [Instr.retarget], by simp [Instr.retarget]⟩
  | _ => simp [Instr.target] at hi

theorem patch_bytes (pre post : Bytes) (i : Instr) (hi : i.target.isSome) (t : ℕ) :
    ((pre ++ (i.encode ++ post)).set (pre.length + 1) (UInt8.ofNat t)).set (pre.length + 1 + 1)
      (UInt8.ofNat (t / 256)) = pre ++ ((i.retarget t).encode ++ post) := by
  have hset : ∀ (bs : Bytes) (j : ℕ) (v : UInt8),
      (pre ++ bs).set (pre.length + j) v = pre ++ bs.set j v := by
    intro bs j v
    rw [set_append_right _ _ (Nat.le_add_right _ _), Nat.add_sub_cancel_left]
  rw [hset, Nat.add_assoc, hset]
  cases i with
  | jmp u | jz u => rfl
  | _ => simp [Instr.target] at hi

theorem Good.patch {p : Option ℕ} (h : Good c l cur (openAt p ∪ P)) (hp : Patchable l p cur) :
    ∃ l', Adv c l cur (patchHere p c) l' cur P := by
  cases p with
  | none =>
    have hnone : openAt none ∪ P = P := by simp [openAt]
    rw [hnone] at h
    exact ⟨l, h, Grows.refl l cur, Enlarges.refl _, rfl⟩
  | some q =>
    obtain ⟨a, rfl, k, x, i, hget, ha, hi, hafter⟩ := hp q rfl
    have hopen : openAt (some (a + 1)) ∪ P = insert a P := by
      ext b
      simp [openAt, eq_comm]
    rw [hopen] at h
    have hgrows := Grows.patched (M := isa) hget cur (width isa l)
    have hwidth : width isa l = c.prog.code.length := by rw [h.code, width]
    obtain ⟨hk, hval⟩ := List.getElem?_eq_some_iff.mp hget
    have hsplit : ∀ y, l.set k y = l.take k ++ y :: l.drop (k + 1) := by
      intro y
      rw [set_eq_take_append_cons_drop, if_pos hk]
    have hl : l = l.take k ++ (x, i) :: l.drop (k + 1) := by
      rw [← hval, ← drop_eq_getElem_cons hk, take_append_drop]
    have hbytes : (patchHere (some (a + 1)) c).prog.code =
        bytes isa (patched isa l k x i (width isa l)) := by
      have hcode : c.prog.code =
          bytes isa (l.take k) ++ (i.encode ++ bytes isa (l.drop (k + 1))) := by
        rw [h.code]
        conv_lhs => rw [hl]
        rw [bytes_append, bytes_cons]
        rfl
      have hpatch := patch_bytes (bytes isa (l.take k)) (bytes isa (l.drop (k + 1))) i hi
        c.prog.code.length
      rw [← hcode, show (bytes isa (l.take k)).length = a from ha] at hpatch
      rw [patched, hsplit, bytes_append, bytes_cons, hwidth]
      exact hpatch
    refine ⟨_, ⟨hbytes, h.sound.patched hget ha hi hafter, ?_, ?_, ?_, h.poolSmall, h.varsSmall⟩,
      hgrows, ⟨le_rfl, le_rfl⟩, rfl⟩
    · intro y hy
      rcases mem_or_eq_of_mem_set hy with hy | rfl
      · exact (h.legal y hy).mono ⟨le_rfl, le_rfl⟩
      · have hold := h.legal (x, i) (mem_of_getElem? hget)
        exact (legal_retarget hold hi _).mono ⟨le_rfl, le_rfl⟩
    · exact fun t ht => hgrows.point _ _ (h.triggers t ht)
    · have hlen := h.codeSmall
      simpa [patchHere, patch16, Cc.setCode] using hlen

theorem Adv.patch {p : Option ℕ} (h : Adv c l cur c' l' cur' (openAt p ∪ P)) (hp : Patchable l' p cur') :
    ∃ l'', Adv c l cur (patchHere p c') l'' cur' P := by
  obtain ⟨l'', hdone⟩ := h.good.patch hp
  exact ⟨l'', h.trans hdone⟩

theorem Good.weaken (h : Good c l cur P) (hsub : P ⊆ P') : Good c l cur P' :=
  ⟨h.code, ⟨h.sound.next, fun k x i t hget ht => (h.sound.jump k x i t hget ht).imp_right (hsub ·)⟩,
    h.legal, h.triggers, h.codeSmall, h.poolSmall, h.varsSmall⟩

theorem Good.congr (h : Good c l cur P) (hp : c'.prog = c.prog) : Good c' l cur P := by
  obtain ⟨h1, h2, h3, h4, h5, h6, h7⟩ := h
  exact ⟨by rw [hp]; exact h1, h2, by rw [hp]; exact h3, by rw [hp]; exact h4, by rw [hp]; exact h5,
    by rw [hp]; exact h6, by rw [hp]; exact h7⟩

theorem foldJz_some {v : Int32} (h : foldJz c = some (v, c')) : ∃ last, c.lastPush = some last ∧
      c' = (c.setCode (c.prog.code.take last)).setPushes none none := by
  unfold foldJz at h
  split at h
  · rename_i last hlast
    split at h
    · exact ⟨last, hlast, (Prod.mk.inj (Option.some.inj h)).2.symm⟩
    · simp at h
  · simp at h

theorem emitJz_ok (h : Good c l ⟨0, m⟩ P) (hL : Piece 4 c c₁ L) (hjz : emitJz c₁ = .ok (jz, c')) :
    ∃ l', Adv c l ⟨0, m⟩ c' l' ⟨0, m⟩ (openAt jz ∪ P) ∧ Patchable l' jz ⟨0, m⟩ := by
  unfold emitJz at hjz
  split at hjz
  · rename_i v c₂ hfold
    obtain ⟨last, hlast, rfl⟩ := foldJz_some hfold
    obtain ⟨⟨u, rfl⟩, rfl, -⟩ := hL.of_last hlast
    have hback : c₁.prog.code.take c.prog.code.length = c.prog.code := by
      rw [hL.code, take_left]
    rw [hback] at hjz
    have hframe : Frame c ((c₁.setCode c.prog.code).setPushes none none) :=
      ⟨hL.frame.blocks, hL.frame.triggers, hL.frame.vars, hL.frame.pool, hL.frame.poolSmall⟩
    have hadv := h.frame hframe rfl
    split at hjz
    · cases hjz
      have hnone : openAt none ∪ P = P := by simp [openAt]
      rw [hnone]
      exact ⟨l, hadv, by simp [Patchable]⟩
    · obtain ⟨⟨a, c₃⟩, hjump, hres⟩ := ok_map.mp hjz
      cases hres
      obtain ⟨l', hadv', hpatch⟩ := hadv.good.jumpOver (b := m) hjump
      exact ⟨l', hadv.trans hadv', hpatch⟩
  · obtain ⟨⟨a, c₃⟩, hjump, hres⟩ := ok_map.mp hjz
    cases hres
    obtain ⟨l₁, hadv⟩ := h.piece hL (by decide)
    obtain ⟨l', hadv', hpatch⟩ := hadv.good.jumpFalse hjump
    exact ⟨l', hadv.trans hadv', hpatch⟩

/-! ## Blocks -/

def Block.patch (b : Block) : Option ℕ := if b.kind = .bElse then b.endPatch else b.jzPatch

/-- A block whose inside runs as a trigger or not (`m`), within code that does or does not (`m'`). -/
structure BlockOk (l : List (Ctx × Instr)) (cur : Ctx) (nvars : ℕ) (b : Block) (m m' : Bool) :
    Prop where
  patch : Patchable l b.patch ⟨0, m'⟩
  same : b.kind ≠ .bWhen → m' = m
  trig : b.kind = .bWhen → m = true
  loop : b.kind = .bRepeat → Point isa l cur b.head ⟨0, m⟩ ∧ b.slot < nvars

def BlocksOk (l : List (Ctx × Instr)) (cur : Ctx) (nvars : ℕ) (m₀ : Bool) : List Block → Bool → Prop
  | [], m => m = m₀
  | b :: bs, m => ∃ m', BlockOk l cur nvars b m m' ∧ BlocksOk l cur nvars m₀ bs m'

def openOf : List Block → Set ℕ
  | [] => ∅
  | b :: bs => openAt b.patch ∪ openOf bs

theorem BlockOk.mono {b : Block} {m m' : Bool}
    (h : BlockOk l cur n b m m') (hg : Grows isa l cur l' cur') (hn : n ≤ n') :
    BlockOk l' cur' n' b m m' :=
  ⟨h.patch.mono hg, h.same, h.trig, fun hk => ⟨hg.point _ _ (h.loop hk).1, (h.loop hk).2.trans_le hn⟩⟩

theorem BlocksOk.mono {m₀ m : Bool} {bs : List Block}
    (h : BlocksOk l cur n m₀ bs m) (hg : Grows isa l cur l' cur') (hn : n ≤ n') :
    BlocksOk l' cur' n' m₀ bs m := by
  induction bs generalizing m with
  | nil => exact h
  | cons b bs ih =>
    obtain ⟨m', hb, hbs⟩ := h
    exact ⟨m', hb.mono hg hn, ih hbs⟩

theorem legal_load (hs : s < p.vars.length) (hd : d + 1 ≤ pmStack) : Legal p ⟨d, m⟩ (.load s) :=
  ⟨Nat.zero_le _, hd, by simp, by simpa using hs, by simp⟩

theorem legal_store (hs : s < p.vars.length) (hd : 1 ≤ d) (hd' : d - 1 ≤ pmStack) :
    Legal p ⟨d, m⟩ (.store s) :=
  ⟨hd, hd', by simp, by simpa using hs, by simp⟩

theorem ccBlockClose_ok {b : Block} {m m' : Bool} (hb : BlockOk l ⟨0, m⟩ n b m m')
    (hn : n ≤ c.prog.vars.length) (h : Good c l ⟨0, m⟩ (openAt b.patch ∪ P))
    (hclose : ccBlockClose b c = .ok c') : ∃ l', Adv c l ⟨0, m⟩ c' l' ⟨0, m'⟩ P := by
  unfold ccBlockClose at hclose
  split at hclose
  · -- the counter of a loop goes down and the guard is tried again
    rename_i hkind
    obtain rfl := hb.same (by simp [hkind])
    obtain ⟨hhead, hslot⟩ := hb.loop hkind
    have hpatch : b.patch = b.jzPatch := by simp [Block.patch, hkind]
    obtain ⟨c₁, h1, hclose⟩ := ok_bind.mp hclose
    obtain ⟨c₂, h2, hclose⟩ := ok_bind.mp hclose
    obtain ⟨c₃, h3, hclose⟩ := ok_bind.mp hclose
    obtain ⟨c₄, h4, hclose⟩ := ok_bind.mp hclose
    obtain ⟨c₅, h5, hclose⟩ := ok_bind.mp hclose
    obtain ⟨c₆, h6, hclose⟩ := ok_bind.mp hclose
    obtain ⟨c₇, h7, hclose⟩ := ok_bind.mp hclose
    obtain ⟨c₈, h8, hclose⟩ := ok_bind.mp hclose
    cases hclose
    have hload := h.plain (emits_op8 (i := .load b.slot) rfl h1 h2)
      (legal_load (hslot.trans_le hn) (by decide)) rfl
    obtain ⟨l₁, hpush⟩ := hload.good.piece (d := 1) (piece_pushI h3) (by decide)
    have hadd := hpush.good.plain (emits_op (i := .add) rfl h4)
      (legal_operator (by decide) (by decide) rfl) rfl
    have henl := (hload.trans (hpush.trans hadd)).enlarges
    have hstore := hadd.good.plain (emits_op8 (i := .store b.slot) rfl h5 h6)
      (legal_store ((hslot.trans_le hn).trans_le henl.2) le_rfl (Nat.zero_le _)) rfl
    have hsofar := hload.trans (hpush.trans (hadd.trans hstore))
    have hjmp := hstore.good.emit (i := .jmp b.head) (x := ⟨0, m'⟩) (Q := openAt b.patch ∪ P)
      (emits_op16 rfl h7 h8)
      (legal_operator (Nat.zero_le _) (Nat.zero_le _) rfl) (le_refl _)
      (by simp [Instr.op, Op.falls]) (by
        intro t ht
        cases ht
        exact .inl ((hsofar.grows.trans (Grows.snoc ..)).point _ _ hhead))
    have hall := hsofar.trans hjmp
    rw [← hpatch]
    exact hall.patch (hb.patch.mono hall.grows)
  · -- a trigger returns
    rename_i hkind
    have hpatch : b.patch = b.jzPatch := by simp [Block.patch, hkind]
    obtain ⟨c₁, h1, hclose⟩ := ok_bind.mp hclose
    cases hclose
    have hret := h.emit (i := .ret) (x := ⟨0, m'⟩) (emits_op rfl h1)
      ⟨Nat.zero_le _, Nat.zero_le _, by simp, by simp, fun _ => hb.trig hkind⟩ (le_refl _)
      (by simp [Instr.op, Op.falls]) (by simp [Instr.target])
    rw [← hpatch]
    exact hret.patch (hb.patch.mono hret.grows)
  · rename_i hkind
    obtain rfl := hb.same (by simp [hkind])
    have hpatch : b.patch = b.endPatch := by simp [Block.patch, hkind]
    cases hclose
    rw [← hpatch]
    exact h.patch hb.patch
  · rename_i hkind
    obtain rfl := hb.same (by simp [hkind])
    have hpatch : b.patch = b.jzPatch := by simp [Block.patch, hkind]
    cases hclose
    rw [← hpatch]
    exact h.patch hb.patch

/-! ## Statements -/

/-- The state between two statements. `F` has the open jumps of the statements around. -/
structure Inv (c : Cc σ) (l : List (Ctx × Instr)) (m : Bool) (F : Set ℕ) (m₀ : Bool) : Prop where
  good : Good c l ⟨0, m⟩ (F ∪ openOf c.blocks)
  blocks : BlocksOk l ⟨0, m⟩ c.prog.vars.length m₀ c.blocks m

theorem Inv.congr {F : Set ℕ} (h : Inv c l m F m₀) (hp : c'.prog = c.prog)
    (hb : c'.blocks = c.blocks) : Inv c' l m F m₀ := by
  refine ⟨?_, ?_⟩
  · rw [hb]
    exact h.good.congr hp
  · rw [hp, hb]
    exact h.blocks

theorem Inv.of_adv {G : Set ℕ} {m' : Bool}
    (hbs : BlocksOk l ⟨0, m⟩ c.prog.vars.length m₀ c.blocks m')
    (ha : Adv c l ⟨0, m⟩ c' l' ⟨0, m'⟩ (G ∪ openOf c.blocks)) : Inv c' l' m' G m₀ := by
  refine ⟨?_, ?_⟩
  · rw [ha.blocks]
    exact ha.good
  · rw [ha.blocks]
    exact hbs.mono ha.grows ha.enlarges.2

theorem Inv.adv {F G : Set ℕ} (h : Inv c l m F m₀)
    (ha : Adv c l ⟨0, m⟩ c' l' ⟨0, m⟩ (G ∪ openOf c.blocks)) : Inv c' l' m G m₀ :=
  .of_adv h.blocks ha

theorem Inv.mode {F : Set ℕ} (h : Inv c l m F m₀) (hnil : c.blocks = []) : m = m₀ := by
  have hmode := h.blocks
  rwa [hnil] at hmode

def Leads (c : Cc σ) (l : List (Ctx × Instr)) (m : Bool) (F : Set ℕ) (m₀ : Bool) (c' : Cc σ) : Prop :=
  ∃ l' m', Inv c' l' m' F m₀ ∧ Grows isa l ⟨0, m⟩ l' ⟨0, m'⟩ ∧ Enlarges c.prog c'.prog ∧
    (c'.blocks = c.blocks ∧ m' = m ∨ ∃ b, c'.blocks = b :: c.blocks)

theorem Inv.leads {F : Set ℕ} (h : Inv c l m F m₀)
    (ha : Adv c l ⟨0, m⟩ c' l' ⟨0, m⟩ (F ∪ openOf c.blocks)) : Leads c l m F m₀ c' :=
  ⟨l', m, h.adv ha, ha.grows, ha.enlarges, .inl ⟨ha.blocks, rfl⟩⟩

def StmtSpec (stmt : List Tok → Cc σ → Except CcError (Cc σ)) : Prop :=
  ∀ ts c c' l m F m₀, Inv c l m F m₀ → stmt ts c = .ok c' → Leads c l m F m₀ c'

theorem ccEnd_ok {eol : ℕ} {r : List Tok} (h : ccEnd eol (r, c) = .ok c') : c' = c := by
  unfold ccEnd at h
  split at h
  · exact (Except.ok.inj h).symm
  · cases h

section
variable {eol : ℕ} {ts : List Tok} {F : Set ℕ}

theorem Leads.after {l₁ : List (Ctx × Instr)} (ha : Adv c l ⟨0, m⟩ c₁ l₁ ⟨0, m⟩ P)
    (h : Leads c₁ l₁ m F m₀ c') : Leads c l m F m₀ c' := by
  obtain ⟨l', m', hinv, hgrows, henl, hblocks⟩ := h
  rw [ha.blocks] at hblocks
  exact ⟨l', m', hinv, ha.grows.trans hgrows, ha.enlarges.trans henl, hblocks⟩

theorem ccContent_empty_ok (hc : ccContent.empty c = .ok c') : ∃ L, Piece 2 c c' L := by
  unfold ccContent.empty at hc
  split at hc
  · cases hc
  rename_i a c₁ hadd
  obtain ⟨c₂, h1, h2⟩ := ok_bind.mp hc
  exact ⟨_, (piece_pushS hadd h1 h2).weaken (by decide)⟩

theorem ccContent_ok {r : List Tok} (hc : ccContent eol ts c = .ok (r, c')) : ∃ L, Piece 2 c c' L := by
  unfold ccContent at hc
  split at hc
  · split at hc
    · obtain ⟨r₁, -, hc⟩ := ok_bind.mp hc
      exact (ccExpr_ok hc).1
    · obtain ⟨c₁, hempty, hc⟩ := ok_bind.mp hc
      cases hc
      exact ccContent_empty_ok hempty
  · obtain ⟨c₁, hempty, hc⟩ := ok_bind.mp hc
    cases hc
    exact ccContent_empty_ok hempty

section
variable (h : Inv c l m F m₀)
include h

/-- A statement that compiles an expression and ends with an instruction on its value. -/
theorem Inv.take (hL : Piece k c c₁ L)
    (hk : k ≤ pmStack) (he : Emits c₁ c' i) (hi : i.target = none) (hpops : i.op.pops = 1)
    (hpushes : i.op.pushes = 0) (hl : Legal c₁.prog ⟨1, m⟩ i) : Leads c l m F m₀ c' := by
  obtain ⟨l₁, hval⟩ := h.good.piece hL (by omega)
  have hop := hval.good.plain he hl hi
  have hafter : i.after ⟨0 + 1, m⟩ = ⟨0, m⟩ := by simp [Instr.after, hpops, hpushes]
  rw [hafter] at hop
  exact h.leads (hval.trans hop)

theorem ccPrint_ok (hc : ccPrint eol ts c = .ok c') : Leads c l m F m₀ c' := by
  obtain ⟨⟨r, c₁⟩, hexpr, hc⟩ := ok_bind.mp hc
  obtain ⟨c₂, hop, hc⟩ := ok_bind.mp hc
  obtain rfl := ccEnd_ok hc
  obtain ⟨⟨L, hL⟩, -⟩ := ccExpr_ok hexpr
  exact h.take hL (by decide) (emits_op (i := .print) rfl hop) rfl rfl rfl
    (legal_operator le_rfl (Nat.zero_le _) rfl)

theorem ccShow_ok (hc : ccShow eol ts c = .ok c') : Leads c l m F m₀ c' := by
  obtain ⟨r, -, hc⟩ := ok_bind.mp hc
  obtain ⟨⟨r, c₁⟩, hexpr, hc⟩ := ok_bind.mp hc
  obtain ⟨c₂, hop, hc⟩ := ok_bind.mp hc
  obtain rfl := ccEnd_ok hc
  obtain ⟨⟨L, hL⟩, -⟩ := ccExpr_ok hexpr
  exact h.take hL (by decide) (emits_op (i := .show) rfl hop) rfl rfl rfl
    (legal_operator le_rfl (Nat.zero_le _) rfl)

theorem ccExpect_ok (hc : ccExpect eol ts c = .ok c') : Leads c l m F m₀ c' := by
  obtain ⟨⟨r, c₁⟩, hcond, hc⟩ := ok_bind.mp hc
  obtain ⟨c₂, hop, hc⟩ := ok_bind.mp hc
  obtain ⟨c₃, hline, hc⟩ := ok_bind.mp hc
  obtain rfl := ccEnd_ok hc
  obtain ⟨⟨L, hL⟩, -⟩ := ccCond_ok hcond
  exact h.take hL (by decide) (emits_op16 (i := .expect c₂.line) rfl hop hline)
    rfl rfl rfl (legal_operator le_rfl (Nat.zero_le _) rfl)

theorem Inv.slotted {name : Bytes} {create : Bool} (hs : varSlot name create c = some (s, c')) :
    s < c'.prog.vars.length ∧ Adv c l ⟨0, m⟩ c' l ⟨0, m⟩ (F ∪ openOf c.blocks) := by
  obtain ⟨hlt, -, vars, rfl, hlen, hsmall⟩ := varSlot_some hs
  exact ⟨hlt, h.good.enlarge ⟨le_rfl, hlen⟩ rfl rfl h.good.poolSmall (hsmall h.good.varsSmall) rfl⟩

theorem ccSet_ok (hc : ccSet eol ts c = .ok c') : Leads c l m F m₀ c' := by
  unfold ccSet at hc
  split at hc
  · cases hc
  split at hc
  · cases hc
  split at hc
  · cases hc
  rename_i s c₁ hslot
  obtain ⟨hs, hadv⟩ := h.slotted hslot
  obtain ⟨r, -, hc⟩ := ok_bind.mp hc
  obtain ⟨⟨r, c₂⟩, hexpr, hc⟩ := ok_bind.mp hc
  obtain ⟨c₃, hop, hc⟩ := ok_bind.mp hc
  obtain ⟨c₄, hbyte, hc⟩ := ok_bind.mp hc
  obtain rfl := ccEnd_ok hc
  obtain ⟨⟨L, hL⟩, -⟩ := ccExpr_ok hexpr
  refine Leads.after hadv ((h.adv hadv).take hL (by decide)
    (emits_op8 (i := .store s) rfl hop hbyte) rfl rfl rfl ?_)
  exact legal_store (hs.trans_le hL.frame.enlarges.2) (by decide) (by decide)

theorem Inv.takeTwo {L' : List Instr} (hL : Piece 2 c c₁ L)
    (hL' : Piece 2 c₁ c₂ L') (he : Emits c₂ c' i) (hi : i.target = none) (hpops : i.op.pops = 2)
    (hpushes : i.op.pushes = 0) (hl : ∀ p, Legal p ⟨2, m⟩ i) : Leads c l m F m₀ c' := by
  obtain ⟨l₁, hval⟩ := h.good.piece hL (by decide)
  obtain ⟨l₂, hval'⟩ := hval.good.piece hL' (by decide)
  have hop := hval'.good.plain he (hl _) hi
  have hafter : i.after ⟨0 + 1 + 1, m⟩ = ⟨0, m⟩ := by simp [Instr.after, hpops, hpushes]
  rw [hafter] at hop
  exact h.leads ((hval.trans hval').trans hop)

theorem ccCreate_ok (hc : ccCreate eol ts c = .ok c') : Leads c l m F m₀ c' := by
  obtain ⟨r, -, hc⟩ := ok_bind.mp hc
  obtain ⟨⟨r, c₁⟩, hexpr, hc⟩ := ok_bind.mp hc
  obtain ⟨⟨r, c₂⟩, hcontent, hc⟩ := ok_bind.mp hc
  obtain ⟨c₃, hop, hc⟩ := ok_bind.mp hc
  obtain rfl := ccEnd_ok hc
  obtain ⟨⟨L, hL⟩, -⟩ := ccExpr_ok hexpr
  obtain ⟨L', hL'⟩ := ccContent_ok hcontent
  exact h.takeTwo hL hL' (emits_op (i := .write) rfl hop) rfl rfl rfl
    fun p => legal_operator le_rfl (Nat.zero_le _) rfl

theorem ccAppend_ok {t : Tok} (hc : ccAppend eol t ts c = .ok c') : Leads c l m F m₀ c' := by
  unfold ccAppend at hc
  dsimp only at hc
  split at hc
  · split at hc
    · obtain ⟨c₁, hpath, hc⟩ := ok_bind.mp hc
      obtain ⟨⟨r, c₂⟩, hexpr, hend⟩ := ok_bind.mp hpath
      obtain rfl := ccEnd_ok hend
      obtain ⟨⟨r', c₃⟩, hexpr', hc⟩ := ok_bind.mp hc
      obtain ⟨c₄, hend', hop⟩ := ok_bind.mp hc
      obtain rfl := ccEnd_ok hend'
      obtain ⟨⟨L, hL⟩, -⟩ := ccExpr_ok hexpr
      obtain ⟨⟨L', hL'⟩, -⟩ := ccExpr_ok hexpr'
      exact h.takeTwo hL hL' (emits_op (i := .append) rfl hop) rfl rfl rfl
        fun p => legal_operator le_rfl (Nat.zero_le _) rfl
    · cases hc
  · cases hc

theorem ccStop_ok (hc : ccStop eol ts c = .ok c') : Leads c l m F m₀ c' := by
  obtain ⟨c₁, hop, hc⟩ := ok_bind.mp hc
  obtain rfl := ccEnd_ok hc
  exact h.leads (h.good.emit (emits_op (i := .halt) rfl hop)
    (legal_operator (Nat.zero_le _) (Nat.zero_le _) rfl) (le_refl _)
    (by simp [Instr.op, Op.falls]) (by simp [Instr.target]))

end

section
variable {kind : BlockKind} {m' : Bool} (hbs : BlocksOk l ⟨0, m⟩ c.prog.vars.length m₀ c.blocks m)
  (hadv : Adv c l ⟨0, m⟩ c₁ l' ⟨0, m'⟩ (openAt jz ∪ (F ∪ openOf c.blocks)))
  (hb : BlockOk l' ⟨0, m'⟩ c₁.prog.vars.length ⟨kind, jz, none, head, slot⟩ m' m)
  (hkind : kind ≠ .bElse) (hc : ccBlockPush kind jz head slot c₁ = .ok c')
include hbs hadv hb hkind hc

theorem ccBlockPush_inv : Inv c' l' m' F m₀ ∧ c'.prog = c₁.prog ∧
    c'.blocks = ⟨kind, jz, none, head, slot⟩ :: c.blocks := by
  unfold ccBlockPush at hc
  split at hc
  · cases hc
  cases hc
  have hpatch : (⟨kind, jz, none, head, slot⟩ : Block).patch = jz := by simp [Block.patch, hkind]
  refine ⟨⟨?_, m, hb, ?_⟩, rfl, by rw [← hadv.blocks]; rfl⟩
  · refine Good.congr (hadv.good.weaken ?_) rfl
    rw [Cc.setBlocks, openOf, hpatch, hadv.blocks]
    exact (Set.union_left_comm _ _ _).subset
  · rw [hadv.blocks]
    exact hbs.mono hadv.grows hadv.enlarges.2

theorem ccBlockPush_ok : Leads c l m F m₀ c' := by
  obtain ⟨hinv, hprog, hblocks⟩ := ccBlockPush_inv hbs hadv hb hkind hc
  exact ⟨l', m', hinv, hadv.grows, hprog ▸ hadv.enlarges, .inr ⟨_, hblocks⟩⟩

end

theorem close_ok {b : Block} {bs : List Block} (h : Inv c l m F m₀) (hblocks : c.blocks = b :: bs)
    (hc : ccBlockClose b (c.setBlocks bs) = .ok c') :
    ∃ l' m', Inv c' l' m' F m₀ ∧ Grows isa l ⟨0, m⟩ l' ⟨0, m'⟩ ∧ Enlarges c.prog c'.prog ∧
      c'.blocks = bs ∧ (b.kind ≠ .bWhen → m' = m) := by
  have hbs := h.blocks
  rw [hblocks] at hbs
  obtain ⟨m', hb, hbs⟩ := hbs
  have hgood : Good (c.setBlocks bs) l ⟨0, m⟩ (openAt b.patch ∪ (F ∪ openOf bs)) := by
    refine Good.congr (h.good.weaken ?_) rfl
    rw [hblocks, openOf]
    exact (Set.union_left_comm _ _ _).subset
  have hvars : c.prog.vars.length ≤ (c.setBlocks bs).prog.vars.length := le_rfl
  obtain ⟨l', hadv⟩ := ccBlockClose_ok hb hvars hgood hc
  exact ⟨l', m', .of_adv hbs hadv, hadv.grows, hadv.enlarges, hadv.blocks, hb.same⟩

theorem loopGuard_ok {jz : ℕ} (h : Good c l ⟨0, m⟩ P) (hs : slot < c.prog.vars.length)
    (hc : loopGuard slot c = .ok (jz, c')) :
    ∃ l', Adv c l ⟨0, m⟩ c' l' ⟨0, m⟩ (openAt (some jz) ∪ P) ∧ Patchable l' (some jz) ⟨0, m⟩ := by
  obtain ⟨c₁, h1, hc⟩ := ok_bind.mp hc
  obtain ⟨c₂, h2, hc⟩ := ok_bind.mp hc
  obtain ⟨c₃, h3, hc⟩ := ok_bind.mp hc
  obtain ⟨c₄, h4, hc⟩ := ok_bind.mp hc
  obtain ⟨c₅, h5, hc⟩ := ok_bind.mp hc
  have hload := h.plain (emits_op8 (i := .load slot) rfl h1 h2)
    (legal_load hs (by decide)) rfl
  obtain ⟨l₁, hpush⟩ := hload.good.piece (d := 1) (piece_pushI h3) (by decide)
  have hclear : Adv c₃ l₁ ⟨1 + 1, m⟩ (c₃.setPushes none none) l₁ ⟨1 + 1, m⟩ P :=
    ⟨hpush.good.congr rfl, Grows.refl _ _, Enlarges.refl _, rfl⟩
  have hcmp := hclear.good.plain (emits_op8 (i := .cmp 3) rfl h4 h5)
    (legal_operator le_rfl (by decide) rfl) rfl
  obtain ⟨l', hjz, hpatch⟩ := hcmp.good.jumpFalse hc
  exact ⟨l', hload.trans (hpush.trans (hclear.trans (hcmp.trans hjz))), hpatch⟩

theorem Good.addTrigger (h : Good c l ⟨0, true⟩ P) :
    Adv c l ⟨0, true⟩ (c.setTriggers (c.prog.triggers ++ [⟨a, c.prog.code.length⟩])) l ⟨0, true⟩ P := by
  refine ⟨⟨h.code, h.sound, fun x hx => (h.legal x hx).mono ⟨le_rfl, le_rfl⟩, ?_, h.codeSmall,
    h.poolSmall, h.varsSmall⟩, Grows.refl _ _, ⟨le_rfl, le_rfl⟩, rfl⟩
  refine forall_mem_append.mpr ⟨h.triggers, forall_mem_singleton.mpr ?_⟩
  rw [h.code]
  exact Point.last _ _

section
variable {inner : List Tok → Cc σ → Except CcError (Cc σ)} (hspec : StmtSpec inner)
  (h : Inv c l m F m₀)
include hspec h

theorem ccInline_ok (hc : ccInline eol inner ts c = .ok c') :
    ∃ l', Adv c l ⟨0, m⟩ c' l' ⟨0, m⟩ (F ∪ openOf c.blocks) := by
  obtain ⟨c₁, hinner, hc⟩ := ok_bind.mp hc
  split at hc
  · cases hc
  rename_i hlen
  obtain rfl := Except.ok.inj hc
  obtain ⟨l', m', hinv, hgrows, henl, hblocks⟩ := hspec ts c c₁ l m F m₀ h hinner
  rcases hblocks with ⟨hsame, rfl⟩ | ⟨b, hb⟩
  · have hgood := hinv.good
    rw [hsame] at hgood
    exact ⟨l', hgood, hgrows, henl, hsame⟩
  · simp [hb] at hlen

theorem ccIf_ok (hc : ccIf eol inner ts c = .ok c') : Leads c l m F m₀ c' := by
  obtain ⟨⟨r, c₁⟩, hcond, hc⟩ := ok_bind.mp hc
  obtain ⟨r, -, hc⟩ := ok_bind.mp hc
  obtain ⟨⟨jz, c₂⟩, hjz, hc⟩ := ok_bind.mp hc
  obtain ⟨⟨L, hL⟩, -⟩ := ccCond_ok hcond
  obtain ⟨l₁, hadv, hpatch⟩ := emitJz_ok h.good hL hjz
  dsimp only at hc
  split at hc
  · exact ccBlockPush_ok h.blocks hadv
      ⟨by simpa [Block.patch] using hpatch, fun _ => rfl, by simp, by simp⟩ (by simp) hc
  · obtain ⟨c₃, hinner, hc⟩ := ok_bind.mp hc
    cases hc
    -- inside the inline statement the jump over it is open
    have hinv : Inv c₂ l₁ m (openAt jz ∪ F) m₀ := by
      refine h.adv (G := openAt jz ∪ F) ?_
      rw [Set.union_assoc]
      exact hadv
    obtain ⟨l₂, hadv₂⟩ := ccInline_ok hspec hinv hinner
    have hgood := hadv₂.good
    rw [Set.union_assoc, hadv.blocks] at hgood
    obtain ⟨l₃, hadv₃⟩ := hgood.patch (hpatch.mono hadv₂.grows)
    exact h.leads (hadv.trans (Adv.trans ⟨hgood, hadv₂.grows, hadv₂.enlarges, hadv₂.blocks⟩ hadv₃))

theorem ccRepeat_ok (hc : ccRepeat eol inner ts c = .ok c') : Leads c l m F m₀ c' := by
  unfold ccRepeat at hc
  split at hc
  · cases hc
  rename_i s c₁ hslot
  obtain ⟨hs, hadv⟩ := h.slotted hslot
  have hinv := h.adv hadv
  refine Leads.after hadv ?_
  obtain ⟨⟨r, c₂⟩, hexpr, hc⟩ := ok_bind.mp hc
  obtain ⟨r, -, hc⟩ := ok_bind.mp hc
  obtain ⟨c₃, hop, hc⟩ := ok_bind.mp hc
  obtain ⟨c₄, hbyte, hc⟩ := ok_bind.mp hc
  obtain ⟨⟨jz, c₅⟩, hguard, hc⟩ := ok_bind.mp hc
  obtain ⟨c₆, hpush, hc⟩ := ok_bind.mp hc
  obtain ⟨⟨L, hL⟩, -⟩ := ccExpr_ok hexpr
  -- the number of turns is stored, and the head of the loop is here
  obtain ⟨l₁, hval⟩ := hinv.good.piece hL (by decide)
  have hstore := hval.good.plain (emits_op8 (i := .store s) rfl hop hbyte)
    (legal_store (hs.trans_le hL.frame.enlarges.2) le_rfl (Nat.zero_le _)) rfl
  have hhead := hval.trans hstore
  have hpoint : Point isa (l₁ ++ [(⟨0 + 1, m⟩, .store s)]) ⟨0, m⟩ c₄.prog.code.length ⟨0, m⟩ := by
    rw [hstore.good.code]
    exact Point.last _ _
  have hs₄ : s < c₄.prog.vars.length := hs.trans_le hhead.enlarges.2
  obtain ⟨l₂, hloop, hpatch⟩ := loopGuard_ok hhead.good hs₄ hguard
  have hall := hhead.trans hloop
  obtain ⟨hinv₆, hprog, hblocks⟩ := ccBlockPush_inv hinv.blocks hall
    ⟨by simpa [Block.patch] using hpatch, fun _ => rfl, by simp,
      fun _ => ⟨hloop.grows.point _ _ hpoint, hs₄.trans_le hloop.enlarges.2⟩⟩ (by simp) hpush
  split at hc
  · cases hc
    exact ⟨l₂, m, hinv₆, hall.grows, hprog ▸ hall.enlarges, .inr ⟨_, hblocks⟩⟩
  · obtain ⟨c₇, hinner, hc⟩ := ok_bind.mp hc
    obtain ⟨l₃, hadv₇⟩ := ccInline_ok hspec hinv₆ hinner
    have hb₇ := hadv₇.blocks.trans hblocks
    rw [hb₇] at hc
    obtain ⟨l₄, m', hdone, hgrows, henl, hbs, hsame⟩ := close_ok (hinv₆.adv hadv₇) hb₇ hc
    obtain rfl := hsame (by simp)
    refine ⟨l₄, m', hdone, (hall.grows.trans hadv₇.grows).trans hgrows, ?_, .inl ⟨hbs, rfl⟩⟩
    exact hall.enlarges.trans ((hprog ▸ hadv₇.enlarges).trans henl)

theorem ccWhen_ok {col : ℕ} (hc : ccWhen eol inner col ts c = .ok c') : Leads c l m F m₀ c' := by
  unfold ccWhen at hc
  split at hc
  · cases hc
  rename_i hnil
  push Not at hnil
  split at hc
  · cases hc
  split at hc
  · cases hc
  split at hc
  · cases hc
  split at hc
  · cases hc
  rename_i a c₁ hadd
  obtain ⟨hframe, -, hcode⟩ := poolAdd_some hadd
  have hpool := h.good.frame hframe hcode
  obtain ⟨r, -, hc⟩ := ok_bind.mp hc
  obtain ⟨⟨jmp, c₂⟩, hjump, hc⟩ := ok_bind.mp hc
  -- behind the jump over the trigger its code begins
  obtain ⟨l₁, hopen, hback⟩ := hpool.good.jumpOver (b := true) hjump
  have htrig := (hpool.trans hopen).trans (hopen.good.addTrigger (a := a))
  dsimp only at hc
  split at hc
  · exact ccBlockPush_ok h.blocks htrig
      ⟨by simpa [Block.patch] using hback, by simp, fun _ => rfl, by simp⟩ (by simp) hc
  · obtain ⟨c₃, hinner, hc⟩ := ok_bind.mp hc
    obtain ⟨c₄, hret, hc⟩ := ok_bind.mp hc
    cases hc
    have hinv : Inv (c₂.setTriggers (c₂.prog.triggers ++ [⟨a, c₂.prog.code.length⟩])) l₁
        true (openAt (some jmp) ∪ F) true := by
      refine ⟨htrig.good.weaken ?_, ?_⟩
      · rw [htrig.blocks, Set.union_assoc]
      · rw [htrig.blocks, hnil]
        rfl
    obtain ⟨l₂, hadv⟩ := ccInline_ok hspec hinv hinner
    have hleave := hadv.good.emit (i := .ret) (x := ⟨0, m⟩)
      (emits_op rfl hret)
      ⟨Nat.zero_le _, Nat.zero_le _, by simp, by simp, fun _ => rfl⟩ (le_refl _)
      (by simp [Instr.op, Op.falls]) (by simp [Instr.target])
    have hgood := hleave.good
    rw [htrig.blocks, Set.union_assoc] at hgood
    obtain ⟨l₃, hdone⟩ := hgood.patch (hback.mono (hadv.grows.trans hleave.grows))
    exact h.leads (htrig.trans (hadv.trans (hleave.trans hdone)))

end

def Reaches (c : Cc σ) (l : List (Ctx × Instr)) (m : Bool) (F : Set ℕ) (m₀ : Bool) (c' : Cc σ) : Prop :=
  ∃ l' m', Inv c' l' m' F m₀ ∧ Grows isa l ⟨0, m⟩ l' ⟨0, m'⟩ ∧ Enlarges c.prog c'.prog

def TextSpec (text : Bytes → Cc σ → Except CcError (Cc σ)) : Prop :=
  ∀ src c c' l m F m₀, Inv c l m F m₀ → text src c = .ok c' → Reaches c l m F m₀ c'

theorem Inv.reaches (h : Inv c l m F m₀) : Reaches c l m F m₀ c := ⟨l, m, h, Grows.refl _ _, Enlarges.refl _⟩

variable {lib : Bytes → Cc σ → Except CcError (Cc σ)} {h : Host σ}

theorem ccUse_ok (hlib : TextSpec lib)
    (hinv : Inv c l m F m₀) (hc : ccUse h lib eol ts c = .ok c') : Leads c l m F m₀ c' := by
  unfold ccUse at hc
  split at hc
  · split at hc
    · cases hc
    split at hc
    · cases hc
    split at hc
    · cases hc
    rename_i hnil
    push Not at hnil
    split at hc
    · cases hc
    split at hc
    · cases hc
    split at hc
    · cases hc
    split at hc
    · cases hc
    rename_i src s _
    obtain ⟨c₁, htext, hc⟩ := ok_bind.mp hc
    have hlibrary : Inv { c with host := s, includes := c.includes + 1, depth := 1 } l m F m₀ :=
      hinv.congr rfl rfl
    obtain ⟨l', m', hinv', hgrows, henl⟩ := hlib _ _ c₁ l m F m₀ hlibrary htext
    dsimp only at hc
    split at hc
    · cases hc
    rename_i hnil'
    push Not at hnil'
    cases hc
    obtain rfl : m' = m := (hinv'.mode hnil').trans (hinv.mode hnil).symm
    exact ⟨l', m', hinv'.congr rfl rfl, hgrows, henl, .inl ⟨hnil'.trans hnil.symm, rfl⟩⟩
  · cases hc

theorem ite_cases {α : Type} {p : Prop} [Decidable p] {x y r : α}
    (h : (if p then x else y) = r) : x = r ∨ y = r := by
  split at h
  · exact .inl h
  · exact .inr h

theorem ccStmt_ok (hlib : TextSpec lib) (eol n : ℕ) : StmtSpec (ccStmt h lib eol n) := by
  induction n with
  | zero =>
    intro ts c c' l m F m₀ hinv hc
    cases hc
  | succ n ih =>
    intro ts c c' l m F m₀ hinv hc
    cases ts with
    | nil => cases hc
    | cons t ts =>
      rw [ccStmt] at hc
      rcases ite_cases hc with hc | hc
      · exact ccPrint_ok hinv hc
      rcases ite_cases hc with hc | hc
      · exact ccSet_ok hinv hc
      rcases ite_cases hc with hc | hc
      · exact ccCreate_ok hinv hc
      rcases ite_cases hc with hc | hc
      · exact ccAppend_ok hinv hc
      rcases ite_cases hc with hc | hc
      · exact ccShow_ok hinv hc
      rcases ite_cases hc with hc | hc
      · exact ccExpect_ok hinv hc
      rcases ite_cases hc with hc | hc
      · exact ccStop_ok hinv hc
      rcases ite_cases hc with hc | hc
      · exact ccUse_ok hlib hinv hc
      rcases ite_cases hc with hc | hc
      · exact ccIf_ok ih hinv hc
      rcases ite_cases hc with hc | hc
      · exact ccRepeat_ok ih hinv hc
      rcases ite_cases hc with hc | hc
      · exact ccWhen_ok ih hinv hc
      cases hc

/-! ## Lines and texts -/

theorem ccElse_ok (h : Inv c l m F m₀) (hc : ccElse c = .ok c') : Reaches c l m F m₀ c' := by
  unfold ccElse at hc
  split at hc
  · rename_i b bs hblocks
    split at hc
    · rename_i hkind
      obtain ⟨⟨e, c₁⟩, hjump, hc⟩ := ok_bind.mp hc
      cases hc
      have hbs := h.blocks
      rw [hblocks] at hbs
      obtain ⟨m', hb, hbs⟩ := hbs
      obtain rfl := hb.same (by simp [hkind])
      have hslot : b.patch = b.jzPatch := by simp [Block.patch, hkind]
      -- the jump over the second branch is open, the one to it is patched
      obtain ⟨l₁, hopen, hend⟩ := h.good.jumpOver (b := m') hjump
      have hgood : Good c₁ l₁ ⟨0, m'⟩
          (openAt b.jzPatch ∪ (F ∪ (openAt (some e) ∪ openOf bs))) := by
        refine hopen.good.weaken ?_
        rw [hblocks, openOf, hslot]
        intro a ha
        simp only [Set.mem_union] at ha ⊢
        tauto
      obtain ⟨l₂, hpatched⟩ := hgood.patch (hslot ▸ hb.patch.mono hopen.grows)
      have hgrows := hopen.grows.trans hpatched.grows
      have henl := hopen.enlarges.trans hpatched.enlarges
      refine ⟨l₂, m', ⟨Good.congr hpatched.good rfl, m', ⟨?_, ?_, ?_, ?_⟩, ?_⟩, hgrows, henl⟩
      · exact hend.mono hpatched.grows
      · exact fun _ => rfl
      · intro hk
        cases hk
      · intro hk
        cases hk
      · exact hbs.mono hgrows henl.2
    · cases hc
  · cases hc

theorem ccEndBlock_ok (h : Inv c l m F m₀) (hc : ccEndBlock c = .ok c') : Reaches c l m F m₀ c' := by
  unfold ccEndBlock at hc
  split at hc
  · rename_i b bs hblocks
    obtain ⟨l', m', hinv, hgrows, henl, -, -⟩ := close_ok h hblocks hc
    exact ⟨l', m', hinv, hgrows, henl⟩
  · cases hc

section
variable (hlib : TextSpec lib) (hinv : Inv c l m F m₀)
include hlib hinv

theorem ccTokens_ok (hc : ccTokens h lib ts c = .ok c') : Reaches c l m F m₀ c' := by
  unfold ccTokens at hc
  split_ifs at hc
  · cases hc
    exact hinv.reaches
  · exact ccEndBlock_ok hinv hc
  · exact ccElse_ok hinv hc
  · obtain ⟨c₁, hop, hc⟩ := ok_bind.mp hc
    obtain ⟨c₂, hline, hc⟩ := ok_bind.mp hc
    have hadv := hinv.good.plain (emits_op16 (i := .line c₁.line) rfl hop hline)
      (legal_operator (Nat.zero_le _) (Nat.zero_le _) rfl) rfl
    obtain ⟨l', m', hinv', hgrows, henl, -⟩ :=
      Leads.after hadv (ccStmt_ok hlib _ _ _ _ _ _ _ _ _ (hinv.adv hadv) hc)
    exact ⟨l', m', hinv', hgrows, henl⟩

theorem ccLine_ok {ls : Bytes} (hc : ccLine h lib ls c = .ok c') : Reaches c l m F m₀ c' := by
  unfold ccLine at hc
  split at hc
  · cases hc
    exact hinv.reaches
  · obtain ⟨toks, -, hc⟩ := ok_bind.mp hc
    exact ccTokens_ok hlib hinv hc

theorem ccLines_ok {base line : ℕ} {lines : List Bytes}
    (hc : ccLines h lib base line lines c = .ok c') : Reaches c l m F m₀ c' := by
  induction lines generalizing c l m line with
  | nil =>
    cases hc
    exact hinv.reaches
  | cons ls rest ih =>
    obtain ⟨c₁, hline, hc⟩ := ok_bind.mp hc
    have hnumbered : Inv (c.setLine (if c.depth = 0 then line else base)) l m F m₀ :=
      hinv.congr rfl rfl
    obtain ⟨l₁, m₁, hinv₁, hgrows₁, henl₁⟩ := ccLine_ok hlib hnumbered hline
    obtain ⟨l', m', hinv', hgrows, henl⟩ := ih hinv₁ hc
    exact ⟨l', m', hinv', hgrows₁.trans hgrows, henl₁.trans henl⟩

end

theorem ccCompileText_ok (hlib : TextSpec lib) : TextSpec (ccCompileText h lib) :=
  fun _ _ _ _ _ _ _ hinv hc => ccLines_ok hlib hinv hc

theorem ccLibrary_ok (h : Host σ) : TextSpec (ccLibrary h) :=
  ccCompileText_ok fun _ _ _ _ _ _ _ _ hc => by cases hc

/-! ## Whole programs -/

theorem inv_emptyCc (host : σ) : Inv (emptyCc host) [] false ∅ false := by
  refine ⟨⟨rfl, ⟨?_, ?_⟩, ?_, ?_, ?_, ?_, ?_⟩, rfl⟩ <;> simp [emptyCc]

theorem pmCompile_typed {host : σ} {src : Bytes} {prog : Program}
    (hc : pmCompile h host src = .ok prog) : ∃ l, Typed prog l := by
  unfold pmCompile at hc
  split at hc
  · simp at hc
  obtain ⟨c, htext, hc⟩ := ok_bind.mp hc
  split at hc
  · cases hc
  rename_i hnil
  push Not at hnil
  obtain ⟨c', hhalt, hc⟩ := ok_bind.mp hc
  cases hc
  obtain ⟨l, m, hinv, hgrows, -⟩ := ccCompileText_ok (ccLibrary_ok h) _ _ _ _ _ _ _
    (inv_emptyCc host) htext
  obtain rfl := hinv.mode hnil
  have hgood := hinv.good
  rw [hnil, openOf, Set.union_empty] at hgood
  have hend := hgood.emit (i := .halt) (x := ⟨0, false⟩) (emits_op rfl hhalt)
    (legal_operator (Nat.zero_le _) (Nat.zero_le _) rfl) (le_refl _)
    (by simp [Instr.op, Op.falls]) (by simp [Instr.target])
  refine ⟨_, hend.good.code, hgood.sound.closed rfl rfl, hend.good.legal, ?_, ?_, ?_, ?_, ?_⟩
  · exact at_of_point (hgrows.point _ _ (Point.last [] _))
  · intro t ht
    obtain ⟨rfl, -⟩ := emits_op (i := .halt) rfl hhalt
    exact at_of_point (hgood.triggers t ht)
  · exact hend.good.codeSmall.trans (by decide)
  · exact hend.good.poolSmall.trans (by decide)
  · exact hend.good.varsSmall.trans (by decide)

end

/-- No host, no contents of the variables and no phrase makes a compiled program fail with a
structural error. -/
theorem compiled_runs {τ : Type} (loader : Host τ) (files : τ) (src : Bytes) (prog : Program)
    (hc : pmCompile loader files src = .ok prog) (h : Host σ) (call : Call) (vm : Vm σ) (e : VmErr)
    (he : (pmCall prog h call vm).1 = .fail e) : e.structural = false := by
  obtain ⟨l, hl⟩ := pmCompile_typed hc
  have hruns := hl.runs h call vm
  rwa [he] at hruns

def showSource : Bytes := ascii "repeat 2 times show file \"a\""

def showProgram : Program :=
  ⟨[1, 1, 0, 2, 2, 0, 0, 0, 5, 0, 4, 0, 2, 0, 0, 0, 0, 8, 3, 12, 39, 0, 3, 0, 0, 16, 4, 0, 2, 255, 255, 255,
    255, 7, 5, 0, 11, 10, 0, 0], ascii "a" ++ [0], [], [ascii "#aad"]⟩

/-- Without a host there are no files. -/
theorem compiled_runs_show : pmCompile noHost () showSource = .ok showProgram ∧
      (pmCall showProgram noHost .run (pmVmReset ())).1 = .fail .fileNotFound ∧
      VmErr.fileNotFound.structural = false := by
  have hc : pmCompile noHost () showSource = .ok showProgram := by decide +kernel
  have he : (pmCall showProgram noHost .run (pmVmReset ())).1 = .fail .fileNotFound := by
    decide +kernel
  exact ⟨hc, he, compiled_runs noHost () showSource showProgram hc noHost .run (pmVmReset ()) _ he⟩

end

end Mohhdy.PromptMessage
