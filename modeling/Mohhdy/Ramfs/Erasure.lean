import Mohhdy.Foundations.Words

/-! The erasure code of the RAM file system (`ramfs.c`): four chunks of data and two of parity, over
the bytes as a field of 256 elements.

A stripe is kept by columns, the byte at one place of each of its six chunks: the loops over a chunk
handle each place by itself. -/
namespace Mohhdy.Ramfs
open Function List Words
set_option autoImplicit false

/-! ## Model -/

def gfMul2 (x : UInt8) : UInt8 := if x &&& 0x80 ≠ 0 then (x <<< 1) ^^^ 0x1b else x <<< 1

def gfMul (x c : UInt8) : UInt8 :=
  if c = 1 then x
  else if c = 2 then gfMul2 x
  else if c = 4 then gfMul2 (gfMul2 x)
  else if c = 8 then gfMul2 (gfMul2 (gfMul2 x))
  else (range 8).foldl (fun res i => if (c >>> .ofNat i) &&& 1 ≠ 0 then res ^^^ gfMul2^[i] x else res) 0

def gfInverse (b : UInt8) : Option UInt8 :=
  ((range' 1 255).map UInt8.ofNat).find? fun x => gfMul b x = 1

def gfDiv (a b : UInt8) : UInt8 := if b = 0 ∨ a = 0 then 0 else (gfInverse b).elim 0 (gfMul a)

abbrev Column := Fin 6 → UInt8

structure Stripe where
  chunkLen : ℕ
  column : ℕ → Column
  present : Fin 6 → Bool
  status : ℕ

def coeffs : Fin 6 → UInt8 := ![1, 2, 4, 8, 0, 0]

def plainSum (c : Column) (out : List (Fin 6)) (start : UInt8) : UInt8 :=
  [0, 1, 2, 3].foldl (fun p k => if k ∈ out then p else p ^^^ c k) start

def weightedSum (c : Column) (out : List (Fin 6)) (start : UInt8) : UInt8 :=
  plainSum (fun k => gfMul (c k) (coeffs k)) out start

def withP0 (c : Column) : Column := update c 4 (plainSum c [] 0)

def withP1 (c : Column) : Column := update c 5 (weightedSum c [] 0)

def Stripe.each (s : Stripe) (f : Column → Column) : Stripe :=
  { s with column := fun b => if b < s.chunkLen then f (s.column b) else s.column b }

def vfsErasureEncode (s : Stripe) (data : Fin 6 → ℕ → UInt8) : Stripe :=
  { s with
    column := fun b => if b < s.chunkLen then
      withP1 (withP0 fun k => if k < 4 then data k b else s.column b k) else s.column b
    present := fun _ => true
    status := 0 }

/-- The loops for one missing chunk. -/
def repairOne (i : Fin 6) (c : Column) : Column :=
  if i = 4 then withP0 c
  else if i = 5 then withP1 c
  else update c i (plainSum c [i] (c 4))

def repairTwo (i j : Fin 6) (c : Column) : Column :=
  if i = 4 ∧ j = 5 then withP1 (withP0 c)
  else if j = 4 then
    withP0 (update c i (gfDiv (weightedSum c [i] (c 5)) (coeffs i)))
  else if j = 5 then withP1 (update c i (plainSum c [i] (c 4)))
  else
    let s0 := plainSum c [i, j] (c 4)
    let rhs := gfMul (coeffs i) s0 ^^^ weightedSum c [i, j] (c 5)
    let dj := gfDiv rhs (coeffs i ^^^ coeffs j)
    update (update c i (s0 ^^^ dj)) j dj

def Stripe.missing (s : Stripe) : List (Fin 6) := (finRange 6).filter fun i => !s.present i

/-- The number of chunks that were restored, or none for `RAMFS_ERR_INVAL`. -/
def vfsErasureReconstruct (s : Stripe) : Stripe × Option ℕ :=
  match s.missing with
  | [] => (s, some 0)
  | [i] => ({ s.each (repairOne i) with present := update s.present i true, status := 2 },
      some 1)
  | [i, j] => ({ s.each (repairTwo i j) with
      present := update (update s.present i true) j true, status := 2 }, some 2)
  | _ => (s, none)

/-! ## The field -/

theorem xor_left_comm (x y z : UInt8) : x ^^^ (y ^^^ z) = y ^^^ (x ^^^ z) := by ac_rfl

@[simp] theorem xor_xor (x y : UInt8) : x ^^^ (x ^^^ y) = y := by
  rw [← UInt8.xor_assoc, UInt8.xor_self, UInt8.zero_xor]

theorem gfMul2_xor (x y : UInt8) : gfMul2 (x ^^^ y) = gfMul2 x ^^^ gfMul2 y := by
  have top : ∀ z : UInt8, z &&& 0x80 = 0 ∨ z &&& 0x80 = 0x80 := forall_byte (by decide +kernel)
  have hxor : (x ^^^ y) &&& 0x80 = (x &&& 0x80) ^^^ (y &&& 0x80) := by
    apply UInt8.toBitVec_inj.1
    ext i
    simp [Bool.and_xor_distrib_right]
  rcases top x with hx | hx <;> rcases top y with hy | hy <;>
    simp [gfMul2, hxor, hx, hy, UInt8.shiftLeft_xor, UInt8.xor_assoc, UInt8.xor_comm,
      xor_left_comm]

theorem gfMul_coeffs_xor (x y : UInt8) {i : Fin 6} (hi : i < 4) :
    gfMul (coeffs i) (x ^^^ y) = gfMul x (coeffs i) ^^^ gfMul y (coeffs i) := by
  have comm : ∀ i : Fin 6, i < 4 → ∀ n < 256,
      gfMul (coeffs i) (.ofNat n) = gfMul (.ofNat n) (coeffs i) := by decide +kernel
  rw [forall_byte (P := fun z => gfMul (coeffs i) z = gfMul z (coeffs i)) (comm i hi)]
  fin_cases i <;> simp [gfMul, coeffs, gfMul2_xor] at hi ⊢

variable {i j : Fin 6}

theorem gfDiv_coeffs (x : UInt8) (hij : i < j) (hj : j < 5) :
    gfDiv (gfMul x (coeffs i) ^^^ gfMul x (coeffs j)) (coeffs i ^^^ coeffs j) = x := by
  have table : ∀ i j : Fin 6, i < j → j < 5 → coeffs i ^^^ coeffs j ≠ 0 ∧
      ∃ v ∈ gfInverse (coeffs i ^^^ coeffs j), gfMul 0 v = 0 ∧ ∀ n < 256,
        gfMul (gfMul (.ofNat n) (coeffs i) ^^^ gfMul (.ofNat n) (coeffs j)) v = .ofNat n := by
    decide +kernel
  obtain ⟨hne, v, hv, hzero, hv'⟩ := table i j hij hj
  have hx := forall_byte (P := fun x => gfMul (gfMul x _ ^^^ gfMul x _) v = x) hv' x
  unfold gfDiv
  rw [hv]
  split_ifs with h
  · rwa [h.resolve_left hne, hzero] at hx
  · exact hx

/-! ## Columns -/

def Coded (c : Column) : Prop := c 4 = plainSum c [] 0 ∧ c 5 = weightedSum c [] 0

theorem plainSum_one {f g : Column} {i : Fin 6} (hi : i < 4) (h : ∀ k ≠ i, k < 4 → g k = f k) :
    plainSum g [i] (plainSum f [] 0) = f i := by
  fin_cases i <;>
    simp [plainSum, h, UInt8.xor_assoc, UInt8.xor_comm, xor_left_comm] at hi ⊢

theorem plainSum_two {f g : Column} (hij : i < j) (hj : j < 4)
    (h : ∀ k ≠ i, k ≠ j → k < 4 → g k = f k) :
    plainSum g [i, j] (plainSum f [] 0) = f i ^^^ f j := by
  fin_cases i <;> fin_cases j <;>
    simp [plainSum, h, UInt8.xor_assoc, UInt8.xor_comm, xor_left_comm] at hij hj ⊢
  exact UInt8.xor_comm _ _

variable {c d : Column}

theorem withP0_eq (hc : Coded c) (h : ∀ k ≠ 4, d k = c k) : withP0 d = c := by
  refine update_eq_iff.2 ⟨?_, h⟩
  simp [plainSum, hc.1, h]

theorem withP1_eq (hc : Coded c) (h : ∀ k ≠ 5, d k = c k) : withP1 d = c := by
  refine update_eq_iff.2 ⟨?_, h⟩
  simp [weightedSum, plainSum, hc.2, h]

theorem update_agrees {v : UInt8} (hv : v = c i)
    (h : ∀ k ≠ i, k ≠ j → d k = c k) : ∀ k ≠ j, update d i v k = c k := by
  intro k hk
  by_cases hi : k = i
  · subst hi
    simp [hv]
  · simp [hi, h k hi hk]

theorem repairOne_eq {i : Fin 6} (hc : Coded c) (h : ∀ k ≠ i, d k = c k) :
    repairOne i d = c := by
  unfold repairOne
  split_ifs with h4 h5
  · exact withP0_eq hc (h4 ▸ h)
  · exact withP1_eq hc (h5 ▸ h)
  · have hi : i < 4 := by omega
    refine update_eq_iff.2 ⟨?_, h⟩
    rw [h 4 (by omega), hc.1, plainSum_one hi fun k hk _ => h k hk]

theorem repairTwo_eq (hij : i < j) (hc : Coded c)
    (h : ∀ k ≠ i, k ≠ j → d k = c k) : repairTwo i j d = c := by
  have one (hi : i < 4) (hj : 4 < j) : plainSum d [i] (d 4) = c i := by
    rw [h 4 (by omega) (by omega), hc.1, plainSum_one hi fun k hk hlt => h k hk (by omega)]
  unfold repairTwo
  split_ifs with h45 h4 h5
  · obtain ⟨rfl, rfl⟩ := h45
    refine withP1_eq hc (update_agrees ?_ h)
    simp [plainSum, hc.1, h]
  · subst h4
    have hsum : weightedSum d [i] (d 5) = gfMul (c i) (coeffs i) := by
      rw [h 5 (by omega) (by omega), hc.2]
      exact plainSum_one hij fun k hk hlt => by rw [h k hk (by omega)]
    have hdiv := gfDiv_coeffs (c i) hij (by decide)
    refine withP0_eq hc (update_agrees ?_ h)
    rw [hsum]
    simpa [coeffs, gfMul] using hdiv
  · exact withP1_eq hc (h5 ▸ update_agrees (one (by omega) (by omega)) h)
  · have hj : j < 4 := by omega
    have hplain : plainSum d [i, j] (d 4) = c i ^^^ c j := by
      rw [h 4 (by omega) (by omega), hc.1]
      exact plainSum_two hij hj fun k hi hj _ => h k hi hj
    have hweighted : weightedSum d [i, j] (d 5) =
        gfMul (c i) (coeffs i) ^^^ gfMul (c j) (coeffs j) := by
      rw [h 5 (by omega) (by omega), hc.2]
      exact plainSum_two hij hj fun k hi hj _ => by rw [h k hi hj]
    have hrhs : gfMul (coeffs i) (c i ^^^ c j) ^^^
        (gfMul (c i) (coeffs i) ^^^ gfMul (c j) (coeffs j)) =
          gfMul (c j) (coeffs i) ^^^ gfMul (c j) (coeffs j) := by
      rw [gfMul_coeffs_xor _ _ (hij.trans hj), UInt8.xor_assoc, xor_left_comm _ (gfMul (c i) _),
        xor_xor]
    have hdj := gfDiv_coeffs (c j) hij (by omega)
    simp only [hplain, hweighted, hrhs, hdj]
    refine update_eq_iff.2 ⟨rfl, update_agrees ?_ h⟩
    rw [UInt8.xor_assoc, UInt8.xor_self, UInt8.xor_zero]

/-! ## Stripes -/

theorem encode_coded (s : Stripe) (data : Fin 6 → ℕ → UInt8) {b : ℕ} (hb : b < s.chunkLen) :
    Coded ((vfsErasureEncode s data).column b) := by
  simp [Coded, vfsErasureEncode, hb, withP0, withP1, plainSum, weightedSum]

theorem encode_data (s : Stripe) (data : Fin 6 → ℕ → UInt8) {b : ℕ} (hb : b < s.chunkLen)
    {k : Fin 6} (hk : k < 4) : (vfsErasureEncode s data).column b k = data k b := by
  have h4 : k ≠ 4 := by omega
  have h5 : k ≠ 5 := by omega
  simp [vfsErasureEncode, hb, withP0, withP1, h4, h5, hk]

/-- Whatever the chunks that are not present hold, up to two of them are restored from the others:
the data is what was encoded and the parity what the encoder made of it. With more of them nothing
is changed. -/
theorem reconstruct_restores (s t : Stripe) (data : Fin 6 → ℕ → UInt8)
    (hlen : t.chunkLen = s.chunkLen)
    (hkept : ∀ i, t.present i = true → ∀ b < s.chunkLen,
      t.column b i = (vfsErasureEncode s data).column b i) :
    let r := vfsErasureReconstruct t
    if t.missing.length ≤ 2 then
      r.2 = some t.missing.length ∧ (∀ i, r.1.present i = true) ∧
        ∀ b < s.chunkLen, r.1.column b = (vfsErasureEncode s data).column b ∧
          ∀ k < 4, r.1.column b k = data k b
    else r = (t, none) := by
  have present : ∀ i ∉ t.missing, t.present i = true := by simp [Stripe.missing]
  have agrees {b} (hb : b < s.chunkLen) : ∀ i ∉ t.missing,
      t.column b i = (vfsErasureEncode s data).column b i :=
    fun i hi => hkept i (present i hi) b hb
  have sorted : t.missing.Pairwise (· < ·) := (pairwise_lt_finRange 6).filter _
  -- a column that is the encoder's holds the data
  have encoded {b} (hb : b < s.chunkLen) {c : Column} (hc : c = (vfsErasureEncode s data).column b) :
      c = (vfsErasureEncode s data).column b ∧ ∀ k < 4, c k = data k b :=
    ⟨hc, fun k hk => hc ▸ encode_data s data hb hk⟩
  unfold vfsErasureReconstruct
  generalize t.missing = lost at *
  rcases lost with _ | ⟨i, _ | ⟨j, _ | ⟨k, rest⟩⟩⟩
  · exact ⟨rfl, fun i => present i not_mem_nil, fun b hb => encoded hb (funext fun i => agrees hb i not_mem_nil)⟩
  · refine ⟨rfl, fun k => ?_, fun b hb => ?_⟩
    · grind [update_apply]
    · have hcoded := encode_coded s data hb
      refine encoded hb ?_
      simp [Stripe.each, hlen, hb, repairOne_eq hcoded (by simpa using agrees hb)]
  · refine ⟨rfl, fun k => ?_, fun b hb => ?_⟩
    · grind [update_apply]
    · have hcoded := encode_coded s data hb
      have hij : i < j := by simpa using sorted
      refine encoded hb ?_
      simp [Stripe.each, hlen, hb, repairTwo_eq hij hcoded (by simpa using agrees hb)]
  · simp

/-- Two chunks of data are lost and hold garbage. -/
theorem reconstruct_restores_two : let s : Stripe := ⟨1, fun _ _ => 0, fun _ => true, 0⟩
    let coded := vfsErasureEncode s fun k _ => UInt8.ofNat (7 + k)
    let t : Stripe := ⟨1, fun b k => if k < 2 then 255 else coded.column b k, fun k => !decide (k < 2), 0⟩
    (vfsErasureReconstruct t).1.column 0 0 = 7 ∧ (vfsErasureReconstruct t).1.column 0 1 = 8 := by
  intro s coded t
  have hkept : ∀ i, t.present i = true → ∀ b < 1, t.column b i = coded.column b i := by
    intro i hi b _
    have hi : ¬ i < 2 := by simpa [t] using hi
    simp [t, hi]
  have hdata := ((reconstruct_restores s t (fun k _ => UInt8.ofNat (7 + k)) rfl hkept).2.2 0 (by decide)).2
  exact ⟨hdata 0 (by decide), hdata 1 (by decide)⟩

end Mohhdy.Ramfs
