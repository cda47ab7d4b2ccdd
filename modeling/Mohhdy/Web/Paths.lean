import Mohhdy.Foundations.Tables
import Mohhdy.Web.Certificates

/-! Certificate paths of the fetcher's TLS client (`wf_x509.c`): what `wf_chain_verify` accepts, and
how far its answer depends on the order in which the certificates were presented.

Whether a signature verifies is an arbitrary function. The walk keeps the presented certificates that
are not used yet, in their order, instead of a flag for each of them. -/
namespace Mohhdy.Web
set_option autoImplicit false

open Tables Texts List

def wfChainMax : ℕ := 8

inductive ChainErr where
  | empty | host | expired | notYet | untrusted | signature | notCa | pathLen | depth | critical | weak
  deriving DecidableEq

/-! ## The walk -/

def checkTime (now : Option Bytes) (c : Cert) : Option ChainErr :=
  now.bind fun t =>
    if t < c.notBefore then some .notYet else if c.notAfter < t then some .expired else none

def checkCa (c : Cert) (below : ℕ) : Option ChainErr :=
  if c.version = 3 ∧ c.found.isCa = false then some .notCa
  else if c.found.keyCertSign = some false then some .notCa
  else if c.found.pathLen.any (· < below) then some .pathLen
  else none

section Walk

/- What the signature functions say of a certificate under the key of another one, the trust store
and the time. -/
variable (verifyData : Cert → Cert → Bool) (trust : List Cert) (now : Option Bytes)

def wfX509VerifySignedBy (c issuer : Cert) : Bool := !c.sha1 && verifyData c issuer

def checkIssuer (cur c : Cert) (below : ℕ) : Option ChainErr :=
  (if c.found.unknownCritical then some ChainErr.critical else none).or <|
  (checkCa c below).or <|
  (if wfX509VerifySignedBy verifyData cur c then none else some ChainErr.signature).or <|
  checkTime now c

def signer (cur : Cert) : Option Cert :=
  trust.find? fun a => cur.issuer == a.subject && wfX509VerifySignedBy verifyData cur a

/-- The loop of `wf_chain_verify` at `cur`; no error means that the chain is accepted. -/
def walk : ℕ → Cert → List Cert → ℕ → Option ChainErr
  | 0, _, _, _ => some .depth
  | depth + 1, cur, rest, intermediates =>
    match signer verifyData trust cur with
    | some a => checkTime now a
    | none =>
      if trust.any (·.der == cur.der) then none
      else
        match lookup Cert.subject cur.issuer rest with
        | some c => (checkIssuer verifyData now cur c intermediates).or
            (walk depth c (rest.eraseP (·.subject = cur.issuer)) (intermediates + 1))
        | none => if trust.any (cur.issuer == ·.subject) then some .signature else some .untrusted

def checkLeaf (host : Option Bytes) (leaf : Cert) : Option ChainErr :=
  (if leaf.found.unknownCritical then some ChainErr.critical else none).or <|
  (if leaf.sha1 then some ChainErr.weak else none).or <|
  (if host.all (wfX509HostMatch leaf) then none else some ChainErr.host).or <|
  checkTime now leaf

def wfChainVerify (host : Option Bytes) (certs : List Cert) : Option ChainErr :=
  match certs.take wfChainMax with
  | [] => some .empty
  | leaf :: rest => (checkLeaf now host leaf).or (walk verifyData trust now wfChainMax leaf rest 0)

/-! ## Paths -/

def Signs (cur c : Cert) : Prop := cur.issuer = c.subject ∧ wfX509VerifySignedBy verifyData cur c = true

def ValidAt (c : Cert) : Prop := ∀ t ∈ now, ¬t < c.notBefore ∧ ¬c.notAfter < t

def AnchoredBy (cur a : Cert) : Prop := Signs verifyData cur a ∧ ValidAt now a ∨ a.der = cur.der

def Anchored (cur : Cert) : Prop := ∃ a ∈ trust, AnchoredBy verifyData now cur a

/-- The certificates of `path` lead from `cur` to an anchor and pass the checks; there are `below`
of them before it. -/
def Leads (cur : Cert) (below : ℕ) : List Cert → Prop
  | [] => Anchored verifyData trust now cur
  | c :: path =>
    cur.issuer = c.subject ∧ checkIssuer verifyData now cur c below = none ∧ Leads c (below + 1) path

end Walk

variable {verifyData : Cert → Cert → Bool} {trust rest rest' path : List Cert} {now : Option Bytes}
  {cur c : Cert} {below depth : ℕ}

theorem checkTime_none : checkTime now c = none ↔ ValidAt now c := by
  cases now with
  | none => simp [checkTime, ValidAt]
  | some t =>
    simp only [checkTime, ValidAt, Option.bind_some, Option.mem_some_iff, forall_eq']
    split_ifs <;> simp_all

theorem checkIssuer_none : checkIssuer verifyData now cur c below = none ↔
    c.found.unknownCritical = false ∧ ((c.version = 3 → c.found.isCa = true) ∧
      c.found.keyCertSign ≠ some false ∧ ∀ n ∈ c.found.pathLen, below ≤ n) ∧
      wfX509VerifySignedBy verifyData cur c = true ∧ ValidAt now c := by
  have hca : checkCa c below = none ↔ (c.version = 3 → c.found.isCa = true) ∧
      c.found.keyCertSign ≠ some false ∧ ∀ n ∈ c.found.pathLen, below ≤ n := by
    have hlen : c.found.pathLen.any (· < below) = false ↔ ∀ n ∈ c.found.pathLen, below ≤ n := by
      cases c.found.pathLen <;> simp
    rw [← hlen, checkCa]
    split_ifs <;> simp_all
  simp [checkIssuer, hca, checkTime_none]

/-! ## What is accepted -/

theorem perm_used (h : lookup Cert.subject cur.issuer rest = some c) :
    rest.Perm (c :: rest.eraseP (·.subject = cur.issuer)) := by
  obtain ⟨hc, before, after, rfl, hbefore⟩ := List.find?_eq_some_iff_append.mp h
  rw [eraseP_append_right _ (by simpa using hbefore), eraseP_cons, hc, cond_true]
  exact perm_middle

theorem walk_leads (h : walk verifyData trust now depth cur rest below = none) :
    ∃ path, path.Subperm rest ∧ Leads verifyData trust now cur below path := by
  induction depth generalizing cur rest below with
  | zero => cases h
  | succ depth ih =>
    rw [walk] at h
    split at h
    · rename_i a ha
      have hsigns := List.find?_some ha
      rw [Bool.and_eq_true, beq_iff_eq] at hsigns
      exact ⟨[], nil_subperm, a, mem_of_find?_eq_some ha, .inl ⟨hsigns, checkTime_none.mp h⟩⟩
    split at h
    · rename_i hself
      obtain ⟨a, ha, heq⟩ := any_eq_true.mp hself
      exact ⟨[], nil_subperm, a, ha, .inr (beq_iff_eq.mp heq)⟩
    split at h
    · rename_i c hc
      obtain ⟨hcheck, hwalk⟩ := Option.or_eq_none_iff.mp h
      obtain ⟨path, hsub, hleads⟩ := ih hwalk
      refine ⟨c :: path, ?_, (lookup_key hc).symm, hcheck, hleads⟩
      exact (perm_used hc).subperm_left.mpr ((subperm_cons c).mpr hsub)
    · split at h <;> cases h

section
variable (h : Leads verifyData trust now cur below path)
include h

theorem Leads.chain :
    (cur :: path).IsChain (Signs verifyData) := by
  induction path generalizing cur below with
  | nil => exact isChain_singleton cur
  | cons c path ih =>
    exact isChain_cons_cons.mpr ⟨⟨h.1, (checkIssuer_none.mp h.2.1).2.2.1⟩, ih h.2.2⟩

theorem Leads.anchored :
    Anchored verifyData trust now (path.getLastD cur) := by
  induction path generalizing cur below with
  | nil => exact h
  | cons c path ih =>
    rw [getLastD_cons]
    exact ih h.2.2

theorem Leads.issuer {i : ℕ} (hi : path[i]? = some c) :
    c.Understood ∧ ((c.version = 3 → c.AssertsCa) ∧ c.usages.getLast? ≠ some false ∧
      ∀ n ∈ (c.pathLens.filterMap shortLen).getLast?, below + i ≤ n) ∧ ValidAt now c := by
  induction path generalizing cur below i with
  | nil => cases hi
  | cons d path ih =>
    cases i with
    | zero =>
      cases hi
      obtain ⟨hcrit, ⟨hca, husage, hlen⟩, -, htime⟩ := checkIssuer_none.mp h.2.1
      rw [c.usage_found] at husage
      rw [c.pathLen_found] at hlen
      exact ⟨c.understood hcrit, ⟨fun hv => c.assertsCa (hca hv), husage, hlen⟩, htime⟩
    | succ i =>
      rw [← Nat.succ_add_eq_add_succ]
      exact ih h.2.2 hi

end

structure Authorized (leaf : Cert) (path : List Cert) (anchor : Cert) : Prop where
  ca : ∀ c ∈ path, c.AssertsCa
  usage : ∀ c ∈ path, ∀ u ∈ c.usages, u = true
  pathLen : ∀ (i : ℕ) (c : Cert), path[i]? = some c → ∀ n ∈ c.pathLens, i ≤ ofBigEndian n
  anchor : anchor.der ≠ (path.getLastD leaf).der → anchor.Understood ∧
    ∀ n ∈ anchor.pathLens, path.length ≤ ofBigEndian n

/-- The part of it that the walk does not ask for: cA of an issuer of version 1 or 2, what stands in an
extension before another one of its kind, a pathLenConstraint that is not of one or two bytes, and
anything but the dates of an anchor that was not presented. -/
structure Unasked (leaf : Cert) (path : List Cert) (anchor : Cert) : Prop where
  ca : ∀ c ∈ path, c.version ≠ 3 → c.AssertsCa
  usage : ∀ c ∈ path, 1 < c.usages.length → ∀ u ∈ c.usages, u = true
  pathLen : ∀ (i : ℕ) (c : Cert), path[i]? = some c →
    (1 < c.pathLens.length ∨ ∃ n ∈ c.pathLens, shortLen n = none) → ∀ n ∈ c.pathLens, i ≤ ofBigEndian n
  anchor : anchor.der ≠ (path.getLastD leaf).der → anchor.Understood ∧
    ∀ n ∈ anchor.pathLens, path.length ≤ ofBigEndian n

theorem eq_of_getLast? {α : Type*} {l : List α} {a : α} (h : ¬1 < l.length) (ha : a ∈ l) :
    l.getLast? = some a := by
  match l, ha with
  | [b], hb => rw [mem_singleton.mp hb]; rfl
  | _ :: _ :: _, _ => exact absurd (by simp) h

theorem Leads.authorized_iff {leaf anchor : Cert} (h : Leads verifyData trust now leaf 0 path) :
    Authorized leaf path anchor ↔ Unasked leaf path anchor := by
  constructor
  · intro ha
    exact ⟨fun c hc _ => ha.ca c hc, fun c hc _ => ha.usage c hc, fun i c hi _ => ha.pathLen i c hi, ha.anchor⟩
  intro hu
  refine ⟨fun c hc => ?_, fun c hc u hmem => ?_, fun i c hi n hn => ?_, hu.anchor⟩
  · obtain ⟨i, hi⟩ := List.getElem?_of_mem hc
    by_cases hv : c.version = 3
    · exact (h.issuer hi).2.1.1 hv
    · exact hu.ca c hc hv
  · obtain ⟨i, hi⟩ := List.getElem?_of_mem hc
    by_cases hone : 1 < c.usages.length
    · exact hu.usage c hc hone u hmem
    · have hlast := (h.issuer hi).2.1.2.1
      rw [eq_of_getLast? hone hmem] at hlast
      simpa using hlast
  · by_cases hodd : 1 < c.pathLens.length ∨ ∃ n ∈ c.pathLens, shortLen n = none
    · exact hu.pathLen i c hi hodd n hn
    obtain ⟨hone, hshort⟩ := not_or.mp hodd
    obtain ⟨v, hv⟩ := Option.ne_none_iff_exists'.mp fun hnone => hshort ⟨n, hn, hnone⟩
    have hval : v = ofBigEndian n := by
      unfold shortLen at hv
      split at hv
      · exact (Option.some.inj hv).symm
      · cases hv
    have hlast : (c.pathLens.filterMap shortLen).getLast? = some v := by
      refine eq_of_getLast? (fun hlt => hone (hlt.trans_le (length_filterMap_le _ _))) ?_
      exact mem_filterMap.mpr ⟨n, hn, hv⟩
    have hle := (h.issuer hi).2.1.2.2 v hlast
    omega

def bcExt (seq : Bytes) : Bytes :=
  [6, 3, 0x55, 0x1d, 0x13, 4, UInt8.ofNat (seq.length + 2), 0x30, UInt8.ofNat seq.length] ++ seq

def sanExt : Bytes := [6, 3, 0x55, 0x1d, 0x11, 4, 8, 0x30, 6, 0x82, 4, 97, 46, 98, 99]

def kuExt (bits : UInt8) : Bytes := [6, 3, 0x55, 0x1d, 0x0f, 4, 4, 3, 2, 0, bits]

def oddExt : Bytes := [6, 1, 42, 1, 1, 0xff, 4, 0]

def caExt : Bytes := bcExt [1, 1, 0xff]

def sampleCert (subject issuer : UInt8) (version : ℕ) (exts : List Bytes)
    (h : (parseExts exts).isSome = true) : Cert :=
  ⟨[subject, issuer], [issuer], [subject], ascii "0", ascii "9", false, version, exts, h⟩

def sampleLeaf : Cert := sampleCert 1 2 3 [sanExt] (by decide)

def sampleCa (subject issuer : UInt8) : Cert := sampleCert subject issuer 3 [caExt] (by decide)

def byName (c issuer : Cert) : Bool := c.issuer == issuer.subject

def accepts (certs : List Cert) (root : Cert) : Bool :=
  (wfChainVerify byName [root] (some (ascii "5")) (some (ascii "a.bc")) certs).isNone

section
variable (verifyData : Cert → Cert → Bool) (trust : List Cert)

/-- Where the walk may come to from `cur`: it goes on from what no anchor signed and is none itself. -/
inductive Walked (rest : List Cert) : Cert → Cert → Prop
  | here (cur : Cert) : Walked rest cur cur
  | next {cur c d : Cert} (hsigner : signer verifyData trust cur = none)
      (hself : ¬trust.any (·.der == cur.der) = true) (hc : c ∈ rest) (hname : cur.issuer = c.subject)
      (h : Walked rest c d) : Walked rest cur d

/-- Each issuer that the walk looks for is one of the presented certificates only, or not there. -/
def OneIssuer (rest : List Cert) (leaf : Cert) : Prop :=
  ∀ cur, Walked verifyData trust rest leaf cur →
    ∀ a ∈ rest, ∀ b ∈ rest, a.subject = cur.issuer → b.subject = cur.issuer → a = b

end

section
variable {all : List Cert} (hone : OneIssuer verifyData trust all cur) (hin : rest ⊆ all)
include hone hin

theorem lookup_only (hc : c ∈ rest) (hname : cur.issuer = c.subject) :
    lookup Cert.subject cur.issuer rest = some c := by
  cases hf : lookup Cert.subject cur.issuer rest with
  | none => exact absurd (decide_eq_true hname.symm) (by simpa using List.find?_eq_none.mp hf c hc)
  | some d =>
    have hsame := hone cur (.here cur) d (hin (lookup_mem hf)) c (hin hc) (lookup_key hf) hname.symm
    rw [hsame]

omit hin in
theorem OneIssuer.next (hsigner : signer verifyData trust cur = none)
    (hself : ¬trust.any (·.der == cur.der) = true) (hc : c ∈ all) (hname : cur.issuer = c.subject) :
    OneIssuer verifyData trust all c :=
  fun d hd => hone d (.next hsigner hself hc hname hd)

theorem lookup_perm (hperm : rest.Perm rest') :
    lookup Cert.subject cur.issuer rest = lookup Cert.subject cur.issuer rest' := by
  refine List.find?_eq_find?_of_perm hperm fun a ha b hb => ?_
  exact hone cur (.here cur) a (hin ha.1) b (hin hb.1) (of_decide_eq_true ha.2) (of_decide_eq_true hb.2)

theorem walk_perm (hperm : rest.Perm rest') :
    walk verifyData trust now depth cur rest below = walk verifyData trust now depth cur rest' below := by
  induction depth generalizing cur rest rest' below with
  | zero => rfl
  | succ depth ih =>
    rw [walk, walk]
    cases hsigner : signer verifyData trust cur with
    | some a => rfl
    | none =>
      dsimp only
      split
      · rfl
      rename_i hself
      have hfind := lookup_perm hone hin hperm
      rw [← hfind]
      cases hf : lookup Cert.subject cur.issuer rest with
      | none => rfl
      | some c =>
        have hc := hin (lookup_mem hf)
        -- both lists lose the same certificate
        have hleft : (rest.eraseP (·.subject = cur.issuer)).Perm (rest'.eraseP (·.subject = cur.issuer)) :=
          (((perm_used hf).symm.trans hperm).trans (perm_used (hfind ▸ hf))).cons_inv
        dsimp only
        rw [ih (hone.next hsigner hself hc (lookup_key hf).symm) (List.Subset.trans (eraseP_subset ..) hin) hleft]

theorem walk_complete
    (hsigners : ∀ d, Walked verifyData trust all cur d → ∀ a ∈ signer verifyData trust d, ValidAt now a)
    (hsub : path.Subperm rest) (hlen : path.length < depth)
    (h : Leads verifyData trust now cur below path) :
    walk verifyData trust now depth cur rest below = none := by
  induction depth generalizing cur rest below path with
  | zero => omega
  | succ depth ih =>
    rw [walk]
    split
    · rename_i a ha
      exact checkTime_none.mpr (hsigners cur (.here cur) a ha)
    rename_i hsigner
    split
    · rfl
    rename_i hself
    cases path with
    | nil =>
      obtain ⟨a, ha, ⟨hsigns, -⟩ | hder⟩ := h
      · exact absurd (by simpa [Signs] using hsigns) (List.find?_eq_none.mp hsigner a ha)
      · exact (hself (any_eq_true.mpr ⟨a, ha, beq_iff_eq.mpr hder⟩)).elim
    | cons c path =>
      obtain ⟨hname, hcheck, hleads⟩ := h
      have hc := hsub.subset mem_cons_self
      have hfound := lookup_only hone hin hc hname
      have hsub' := (subperm_cons c).mp ((perm_used hfound).subperm_left.mp hsub)
      simp only [hfound, hcheck, Option.none_or]
      exact ih (hone.next hsigner hself (hin hc) hname) (List.Subset.trans (eraseP_subset ..) hin)
        (fun d hd => hsigners d (.next hsigner hself (hin hc) hname hd)) hsub' (Nat.lt_of_succ_lt_succ hlen) hleads

/-- A walk that is accepted has come to nothing that an anchor out of date signed. -/
theorem walk_signers (h : walk verifyData trust now depth cur rest below = none) {d : Cert}
    (hd : Walked verifyData trust all cur d) : ∀ a ∈ signer verifyData trust d, ValidAt now a := by
  induction depth generalizing cur rest below with
  | zero => cases h
  | succ depth ih =>
    rw [walk] at h
    cases hd with
    | here =>
      intro a ha
      rw [Option.mem_def.mp ha] at h
      exact checkTime_none.mp h
    | next hsigner hself hc hname hrest =>
      rw [hsigner] at h
      dsimp only at h
      rw [if_neg hself] at h
      split at h
      · rename_i c' hf
        have hsame := hone cur (.here cur) c' (hin (lookup_mem hf)) _ hc (lookup_key hf) hname.symm
        subst hsame
        exact ih (hone.next hsigner hself hc hname) (List.Subset.trans (eraseP_subset ..) hin)
          (Option.or_eq_none_iff.mp h).2 hrest
      · split at h <;> cases h

end

/-- Of at most eight certificates, with one only for each issuer that is looked for, every order after
the first gets the same answer; and when they form a path that passes the checks, it is accepted just
when no certificate that the walk comes to has an anchor out of date as the first that signed it. -/
theorem chainVerify_anyOrder (verifyData : Cert → Cert → Bool) (trust : List Cert)
    (now host : Option Bytes) (leaf : Cert) (rest : List Cert) (hfew : rest.length < wfChainMax)
    (hone : OneIssuer verifyData trust rest leaf) :
    (∀ rest', rest.Perm rest' → wfChainVerify verifyData trust now host (leaf :: rest') =
      wfChainVerify verifyData trust now host (leaf :: rest)) ∧
    (checkLeaf now host leaf = none →
      ∀ path : List Cert, path.Subperm rest → Leads verifyData trust now leaf 0 path →
        (wfChainVerify verifyData trust now host (leaf :: rest) = none ↔
          ∀ cur, Walked verifyData trust rest leaf cur → ∀ a ∈ signer verifyData trust cur, ValidAt now a)) := by
  have hcut : ∀ l : List Cert, l.length < wfChainMax → (leaf :: l).take wfChainMax = leaf :: l :=
    fun l hl => take_of_length_le hl
  refine ⟨fun rest' hperm => ?_, fun hleaf path hsub hleads => ?_⟩
  · simp only [wfChainVerify, hcut rest hfew, hcut rest' (hperm.length_eq ▸ hfew),
      walk_perm hone (List.Subset.refl rest) hperm]
  · have hlen : path.length < wfChainMax := hsub.length_le.trans_lt hfew
    simp only [wfChainVerify, hcut rest hfew, hleaf, Option.none_or]
    exact ⟨fun h cur hcur => walk_signers hone (List.Subset.refl rest) h hcur,
      fun hsigners => walk_complete hone (List.Subset.refl rest) hsigners hsub hlen hleads⟩

theorem oneName_sample : ∀ a ∈ [sampleCa 2 3, sampleCa 3 4, sampleCa 2 3],
    ∀ b ∈ [sampleCa 2 3, sampleCa 3 4, sampleCa 2 3], a.subject = b.subject → a = b := by
  decide +kernel

theorem chainVerify_anyOrder_sample : wfChainVerify byName [sampleCa 4 4] none none
    [sampleLeaf, sampleCa 3 4, sampleCa 2 3, sampleCa 2 3] = none :=
  ((chainVerify_anyOrder byName [sampleCa 4 4] none none sampleLeaf
    [sampleCa 2 3, sampleCa 3 4, sampleCa 2 3] (by decide)
    (fun _ _ a ha b hb hname hname' => oneName_sample a ha b hb (hname.trans hname'.symm))).1 _
    (List.Perm.swap _ _ _)).trans (by decide +kernel)

/-- Two certificates with one name, one of them no CA: the one that is presented first decides. So
does the place among nine of the one that is needed. And of two anchors that signed the certificate
the first one is out of date, which ends the walk. -/
theorem order_decides : let notCa := sampleCert 2 4 3 [] (by decide)
    let verify := wfChainVerify byName [sampleCa 4 4] none none
    let others := replicate 7 (sampleCa 9 9)
    let old : Cert := { sampleCa 2 2 with notAfter := ascii "1" }
    (verify [sampleLeaf, sampleCa 2 4, notCa] = none ∧ verify [sampleLeaf, notCa, sampleCa 2 4] = some .notCa) ∧
    (verify (sampleLeaf :: sampleCa 2 4 :: others) = none ∧
      verify (sampleLeaf :: others ++ [sampleCa 2 4]) = some .untrusted) ∧
    AnchoredBy byName (some (ascii "5")) sampleLeaf (sampleCa 2 2) ∧
    wfChainVerify byName [old, sampleCa 2 2] (some (ascii "5")) none [sampleLeaf] = some .expired := by
  refine ⟨by decide +kernel, by decide +kernel, .inl ⟨⟨rfl, by decide +kernel⟩, ?_⟩, by decide +kernel⟩
  rintro t ⟨⟩
  decide +kernel

end Mohhdy.Web
