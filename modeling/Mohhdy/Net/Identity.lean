import Mohhdy.Foundations.Texts

/-! The identity of a TLS server (`x509_der.c`, `net_tls_record.c`): which certificates
`net_tls_handshake_validate_server_identity` accepts, and what that says of the path from the
server's certificate to the trust anchor.

The certificates are parsed. Signatures are checked by functions of bytes that nothing is assumed
about. A path with no, one or two certificates between the leaf and the anchor is checked by a
function of its own, and the three do not check the same things. The answers are Booleans: `true`
is the source's 0. -/
namespace Mohhdy.Net
set_option autoImplicit false

open Texts

/-! ## Names -/

def labelValid (l : Bytes) : Bool :=
  0 < l.length && l.length ≤ 63 && l.head? != some 45 && l.getLast? != some 45 &&
    l.all fun c => (97 ≤ asciiLower c && asciiLower c ≤ 122) || (48 ≤ c && c ≤ 57) || c == 45

def x509DnsNameValid (name : Bytes) : Bool :=
  name.length ≤ 253 && (name.splitOn 46).all labelValid

def x509DnsNameMatch (pattern host : Bytes) : Bool :=
  x509DnsNameValid host &&
    match pattern with
    | 42 :: 46 :: suffix =>
      x509DnsNameValid suffix && suffix.length + 1 < host.length && endsIn host suffix &&
        (host.take (host.length - suffix.length)).dropLast.all (· != 46)
    | _ => x509DnsNameValid pattern && lower pattern == lower host

def x509DnsSubtreeMatch (base host : Bytes) : Bool :=
  x509DnsNameValid host &&
    match base with
    | 46 :: dom => x509DnsNameValid dom && endsIn host dom
    | dom => x509DnsNameValid dom && (lower host == lower dom || endsIn host dom)

def subtreeValid : Bytes → Bool
  | 46 :: dom => x509DnsNameValid dom
  | dom => x509DnsNameValid dom

/-! ## Certificates -/

structure Tlv where
  tag : UInt8
  value : Bytes
  total : ℕ

def derTlvParse (input : Bytes) : Option Tlv :=
  match input with
  | tag :: first :: rest =>
    let count := if first < 128 then 0 else first.toNat - 128
    let length := if first < 128 then first.toNat else ofBigEndian (rest.take count)
    if 128 ≤ first ∧ (count = 0 ∨ 4 < count ∨ rest.length < count ∨ length < 128) then none
    else if rest.length - count < length then none
    else some ⟨tag, (rest.drop count).take length, 2 + count + length⟩
  | _ => none

/-- The elements read one after the other to the first that is malformed, and whether there is
no such element. The first bytes passed over belong to the element before. -/
def derItems : ℕ → Bytes → List Tlv × Bool
  | _, [] => ([], true)
  | n + 1, _ :: rest => derItems n rest
  | 0, b :: rest =>
    match derTlvParse (b :: rest) with
    | none => ([], false)
    | some t => (t :: (derItems (t.total - 1) rest).1, (derItems (t.total - 1) rest).2)

structure NameConstraints where
  (permitted excluded : List Bytes)
  valid : ∀ base ∈ excluded, subtreeValid base = true

structure Certificate where
  (tbsCertificateDer issuer subject notBefore notAfter subjectPublicKeyAlgorithm : Bytes)
  (rsaModulus rsaExponent ecP256PublicKey commonName subjectAltNames : Option Bytes)
  /-- The cA flag of the basic constraints. -/
  basicConstraints : Option Bool
  pathLenConstraint : Option ℕ
  (subjectKeyIdentifier authorityKeyIdentifier : Option Bytes)
  /-- The keyCertSign bit. -/
  keyUsage : Option Bool
  /-- Whether server authentication is among the usages. -/
  extendedKeyUsage : Option Bool
  nameConstraints : Option NameConstraints
  (signatureAlgorithm signature : Bytes)

def x509CertificateHostnameValidate (c : Certificate) (host : Bytes) : Bool :=
  let byCommonName := c.commonName.any (x509DnsNameMatch · host)
  x509DnsNameValid host &&
    match c.subjectAltNames with
    | none => byCommonName
    | some names =>
      let (items, whole) := derItems 0 names
      if items.any (fun t => t.tag == 0x82 && x509DnsNameMatch t.value host) then true
      else if !whole || items.any (·.tag == 0x82) then false
      else byCommonName

def x509CertificateNameConstraintsDnsValidate (c : Certificate) (host : Bytes) : Bool :=
  x509DnsNameValid host && c.nameConstraints.all fun k =>
    !k.excluded.any (x509DnsSubtreeMatch · host) &&
      (k.permitted.isEmpty || k.permitted.any (x509DnsSubtreeMatch · host))

/-! ## Times -/

def x509TimeParse (input : Bytes) : Option (List ℕ) :=
  let d := input.dropLast.map fun c => c.toNat - 48
  let two k := d.getD k 0 * 10 + d.getD (k + 1) 0
  let short := input.length = 13
  let year := if short then (if 50 ≤ two 0 then 1900 else 2000) + two 0 else two 0 * 100 + two 2
  let i := if short then 2 else 4
  let month := two i
  let days :=
    if month = 2 then
      if year % 4 = 0 ∧ (year % 100 ≠ 0 ∨ year % 400 = 0) then 29 else 28
    else if month = 4 ∨ month = 6 ∨ month = 9 ∨ month = 11 then 30
    else 31
  if (input.length ≠ 13 ∧ input.length ≠ 15) ∨ input.getLast? ≠ some 90 ∨
      !(input.dropLast.all fun c => 48 ≤ c && c ≤ 57) then none
  else if month < 1 ∨ 12 < month ∨ 23 < two (i + 4) ∨ 59 < two (i + 6) ∨ 59 < two (i + 8) ∨
      two (i + 2) < 1 ∨ days < two (i + 2) then none
  else some [year, month, two (i + 2), two (i + 4), two (i + 6), two (i + 8)]

def x509TimeCompare : List ℕ → List ℕ → Ordering
  | a :: as, b :: bs => if a ≠ b then if a < b then .lt else .gt else x509TimeCompare as bs
  | _, _ => .eq

def x509CertificateValidAt (c : Certificate) (utcTime : Bytes) : Bool :=
  match x509TimeParse c.notBefore, x509TimeParse c.notAfter,
    if utcTime.length < 15 then none else x509TimeParse (utcTime.take 15) with
  | some before, some after, some current =>
    x509TimeCompare before after != .gt && x509TimeCompare current before != .lt &&
      x509TimeCompare current after != .gt
  | _, _, _ => false

/-! ## Signatures -/

structure Verifier where
  sha256 : Bytes → Bytes
  /-- Modulus, exponent, digest and signature. -/
  rsa : Bytes → Bytes → Bytes → Bytes → Bool
  /-- Key, digest and signature. -/
  ecdsa : Bytes → Bytes → Bytes → Bool

def rsaEncryption : Bytes := [0x06, 0x09, 0x2a, 0x86, 0x48, 0x86, 0xf7, 0x0d, 0x01, 0x01, 0x01, 5, 0]

def ecP256Algorithm : Bytes :=
  [0x06, 0x07, 0x2a, 0x86, 0x48, 0xce, 0x3d, 0x02, 0x01,
    0x06, 0x08, 0x2a, 0x86, 0x48, 0xce, 0x3d, 0x03, 0x01, 0x07]

def sha256RsaAlgorithm : Bytes :=
  [0x06, 0x09, 0x2a, 0x86, 0x48, 0x86, 0xf7, 0x0d, 0x01, 0x01, 0x0b, 0x05, 0x00]

def ecdsaSha256Algorithm : Bytes := [0x06, 0x08, 0x2a, 0x86, 0x48, 0xce, 0x3d, 0x04, 0x03, 0x02]

def x509RsaPublicKeyValidate (c : Certificate) : Bool :=
  c.subjectPublicKeyAlgorithm == rsaEncryption &&
    (c.rsaModulus.any fun m =>
      match m with
      | [] => false
      | 0 :: rest => rest.head?.any (128 ≤ ·)
      | b :: _ => b < 128) &&
    c.rsaExponent.any fun e =>
      let significant := e.dropLast.dropWhile (· == 0) ++ e.getLast?.toList
      0 < e.length && significant.length ≤ 4 && significant.head?.any (· < 128) &&
        3 ≤ ofBigEndian significant && ofBigEndian significant % 2 == 1

def x509EcP256PublicKeyValidate (c : Certificate) : Bool :=
  c.subjectPublicKeyAlgorithm == ecP256Algorithm &&
    c.ecP256PublicKey.any fun k => k.length == 65 && k.head? == some 4

def signedBy (V : Verifier) (c issuer : Certificate) : Bool :=
  let digest := V.sha256 c.tbsCertificateDer
  let modulus := issuer.rsaModulus.getD []
  let exponent := issuer.rsaExponent.getD []
  if c.signatureAlgorithm = sha256RsaAlgorithm then
    x509RsaPublicKeyValidate issuer && c.signature.length ≤ 65535 && modulus.length ≤ 65535 &&
      exponent.length ≤ 65535 && V.rsa modulus exponent digest c.signature
  else if c.signatureAlgorithm = ecdsaSha256Algorithm then
    x509EcP256PublicKeyValidate issuer && c.signature.length ≤ 72 &&
      V.ecdsa (issuer.ecP256PublicKey.getD []) digest c.signature
  else false

/-! ## Chains -/

variable (V : Verifier)

def x509CertificateChainValidateOne (leaf anchor : Certificate) : Bool :=
  leaf.issuer == anchor.subject &&
    (leaf.authorityKeyIdentifier.all fun k => anchor.subjectKeyIdentifier == some k) &&
    signedBy V leaf anchor

def x509CertificateCaAuthorized (c : Certificate) : Bool :=
  c.basicConstraints == some true && c.keyUsage == some true

def x509CertificateChainValidateTwo (leaf mid anchor : Certificate) : Bool :=
  x509CertificateCaAuthorized mid && anchor.pathLenConstraint.all (1 ≤ ·) &&
    x509CertificateChainValidateOne V leaf mid && x509CertificateChainValidateOne V mid anchor

def x509CertificateChainValidateThree (leaf one two anchor : Certificate) : Bool :=
  x509CertificateCaAuthorized one && x509CertificateCaAuthorized two &&
    two.pathLenConstraint.all (1 ≤ ·) && anchor.pathLenConstraint.all (2 ≤ ·) &&
    x509CertificateChainValidateOne V leaf one && x509CertificateChainValidateOne V one two &&
    x509CertificateChainValidateOne V two anchor

def servesTls (leaf : Certificate) : Bool := leaf.extendedKeyUsage.all id

def x509CertificateTlsIdentityValidate (leaf anchor : Certificate) (host utcTime : Bytes) : Bool :=
  servesTls leaf && x509CertificateChainValidateOne V leaf anchor &&
    x509CertificateHostnameValidate leaf host && x509CertificateValidAt leaf utcTime

def x509CertificateTlsIdentityValidateTwo (leaf mid anchor : Certificate) (host utcTime : Bytes) :
    Bool :=
  servesTls leaf && x509CertificateChainValidateTwo V leaf mid anchor &&
    x509CertificateNameConstraintsDnsValidate mid host &&
    x509CertificateHostnameValidate leaf host &&
    (x509CertificateValidAt leaf utcTime && x509CertificateValidAt mid utcTime &&
      x509CertificateValidAt anchor utcTime)

def x509CertificateTlsIdentityValidateThree (leaf one two anchor : Certificate)
    (host utcTime : Bytes) : Bool :=
  servesTls leaf && x509CertificateChainValidateThree V leaf one two anchor &&
    (x509CertificateNameConstraintsDnsValidate one host &&
      x509CertificateNameConstraintsDnsValidate two host &&
      x509CertificateNameConstraintsDnsValidate anchor host) &&
    x509CertificateHostnameValidate leaf host &&
    (x509CertificateValidAt leaf utcTime && x509CertificateValidAt one utcTime &&
      x509CertificateValidAt two utcTime && x509CertificateValidAt anchor utcTime)

structure Presented where
  (serverX509 serverIntermediateX509 serverIntermediateTwoX509 : Option Certificate)

def netTlsHandshakeChainSelect (leaf : Certificate) (p : Presented) (anchor : Certificate) :
    Option (List Certificate) :=
  if x509CertificateChainValidateOne V leaf anchor then some []
  else
    match p.serverIntermediateX509 with
    | none => none
    | some one =>
      if x509CertificateChainValidateTwo V leaf one anchor then some [one]
      else
        match p.serverIntermediateTwoX509 with
        | none => none
        | some two =>
          if x509CertificateChainValidateThree V leaf one two anchor then some [one, two]
          else if x509CertificateChainValidateThree V leaf two one anchor then some [two, one]
          else none

def netTlsHandshakeValidateServerIdentity (p : Presented) (anchor : Certificate)
    (host utcTime : Bytes) : Bool :=
  p.serverX509.any fun leaf =>
    match netTlsHandshakeChainSelect V leaf p anchor with
    | some [] => x509CertificateTlsIdentityValidate V leaf anchor host utcTime
    | some [mid] => x509CertificateTlsIdentityValidateTwo V leaf mid anchor host utcTime
    | some [one, two] => x509CertificateTlsIdentityValidateThree V leaf one two anchor host utcTime
    | _ => false

/-! ## What an identity is -/

def Names (pattern host : Bytes) : Prop :=
  lower pattern = lower host ∨
    ∃ suffix label, pattern = 42 :: 46 :: suffix ∧ 46 ∉ label ∧
      lower host = label ++ 46 :: lower suffix

def NamesHost (c : Certificate) (host : Bytes) : Prop :=
  (∃ names t, c.subjectAltNames = some names ∧ t ∈ (derItems 0 names).1 ∧ t.tag = 0x82 ∧
    Names t.value host) ∨
  ((∀ names, c.subjectAltNames = some names → ∀ t ∈ (derItems 0 names).1, t.tag ≠ 0x82) ∧
    ∃ name, c.commonName = some name ∧ Names name host)

def InSubtree (base host : Bytes) : Prop :=
  match base with
  | 46 :: dom => ∃ pre, lower host = pre ++ 46 :: lower dom
  | dom => Under host dom

def Permits (c : Certificate) (host : Bytes) : Prop :=
  ∀ k, c.nameConstraints = some k → (∀ base ∈ k.excluded, ¬ InSubtree base host) ∧
    (k.permitted = [] ∨ ∃ base ∈ k.permitted, InSubtree base host)

def ValidAt (c : Certificate) (utcTime : Bytes) : Prop :=
  ∃ before after current, x509TimeParse c.notBefore = some before ∧
    x509TimeParse c.notAfter = some after ∧ x509TimeParse (utcTime.take 15) = some current ∧
    ¬ current < before ∧ ¬ after < current

structure IssuedBy (c issuer : Certificate) : Prop where
  name : c.issuer = issuer.subject
  key : ∀ k, c.authorityKeyIdentifier = some k → issuer.subjectKeyIdentifier = some k
  signature : signedBy V c issuer = true

/-- The path from the leaf through `mids` to the anchor makes the leaf a server's certificate for
the host. -/
structure Identifies (leaf : Certificate) (mids : List Certificate) (anchor : Certificate)
    (host utcTime : Bytes) : Prop where
  issued : (leaf :: mids ++ [anchor]).IsChain (IssuedBy V)
  authorities : ∀ c ∈ mids, c.basicConstraints = some true ∧ c.keyUsage = some true
  /-- As many certificates stand between an issuer and the leaf as its place in the path says. -/
  lengths : ∀ x ∈ (mids ++ [anchor]).zipIdx, ∀ k, x.1.pathLenConstraint = some k → x.2 ≤ k
  periods : ∀ c ∈ leaf :: mids ++ [anchor], ValidAt c utcTime
  permits : ∀ c ∈ mids ++ [anchor], Permits c host
  server : (leaf.extendedKeyUsage = none ∨ leaf.extendedKeyUsage = some true) ∧ NamesHost leaf host

/-! ## The checks -/

theorem names_of_match {pattern host : Bytes} (h : x509DnsNameMatch pattern host = true) : Names pattern host := by
  obtain ⟨-, h⟩ := Bool.and_eq_true_iff.mp h
  split at h
  · next suffix _ =>
    simp only [Bool.and_eq_true, List.all_eq_true, bne_iff_ne] at h
    obtain ⟨⟨-, hends⟩, hlabel⟩ := h
    refine .inr ⟨suffix, _, rfl, ?_, lower_of_endsIn hends⟩
    intro hdot
    obtain ⟨c, hc, hlower⟩ := List.mem_map.mp hdot
    exact hlabel c hc ((asciiLower_spec c).2 hlower)
  · exact .inl (beq_iff_eq.mp (Bool.and_eq_true_iff.mp h).2)

theorem subtreeMatch_iff {base host : Bytes} : x509DnsSubtreeMatch base host = true ↔
    x509DnsNameValid host = true ∧ subtreeValid base = true ∧ InSubtree base host := by
  unfold x509DnsSubtreeMatch subtreeValid InSubtree
  split
  · simp only [Bool.and_eq_true, endsIn_iff]
  · simp only [Bool.and_eq_true, Bool.or_eq_true, beq_iff_eq, endsIn_iff, Under]

variable {c : Certificate}

theorem permits_of_validate {host : Bytes}
    (h : x509CertificateNameConstraintsDnsValidate c host = true) : Permits c host := by
  intro k hk
  simp only [x509CertificateNameConstraintsDnsValidate, hk, Option.all_some, Bool.and_eq_true,
    Bool.or_eq_true, Bool.not_eq_true', List.any_eq_false, List.any_eq_true,
    List.isEmpty_iff] at h
  obtain ⟨hvalid, hexcluded, hpermitted⟩ := h
  refine ⟨?_, hpermitted.imp_right ?_⟩
  · intro base hbase hin
    exact hexcluded base hbase (subtreeMatch_iff.mpr ⟨hvalid, k.valid base hbase, hin⟩)
  · rintro ⟨base, hbase, hmatch⟩
    exact ⟨base, hbase, (subtreeMatch_iff.mp hmatch).2.2⟩

theorem namesHost_of_validate {host : Bytes}
    (h : x509CertificateHostnameValidate c host = true) : NamesHost c host := by
  obtain ⟨-, h⟩ := Bool.and_eq_true_iff.mp h
  have hcommon : c.commonName.any (x509DnsNameMatch · host) = true →
      ∃ name, c.commonName = some name ∧ Names name host := by
    intro hany
    obtain ⟨name, hname, hmatch⟩ := (Option.any_eq_true _ _).mp hany
    exact ⟨name, hname, names_of_match hmatch⟩
  split at h
  · next hnone =>
    refine .inr ⟨?_, hcommon h⟩
    intro names hsome
    rw [hnone] at hsome
    cases hsome
  · next names hsome =>
    dsimp only at h
    split at h
    · next hany =>
      obtain ⟨t, ht, hdns⟩ := List.any_eq_true.mp hany
      obtain ⟨htag, hmatch⟩ := Bool.and_eq_true_iff.mp hdns
      exact .inl ⟨names, t, hsome, ht, beq_iff_eq.mp htag, names_of_match hmatch⟩
    split at h
    · cases h
    next hno =>
    refine .inr ⟨?_, hcommon h⟩
    intro names' hsome' t ht htag
    cases hsome.symm.trans hsome'
    refine hno (Bool.or_eq_true_iff.mpr (.inr (List.any_eq_true.mpr ⟨t, ht, ?_⟩)))
    exact beq_iff_eq.mpr htag

theorem timeCompare_spec {as bs : List ℕ} (h : as.length = bs.length) :
    (x509TimeCompare as bs ≠ .gt → ¬ bs < as) ∧ (x509TimeCompare as bs ≠ .lt → ¬ as < bs) := by
  induction as generalizing bs with
  | nil => cases bs with
    | nil => exact ⟨fun _ => List.not_lt_nil _, fun _ => List.not_lt_nil _⟩
    | cons b bs => cases h
  | cons a as ih => cases bs with
    | nil => cases h
    | cons b bs =>
      have ih := ih (Nat.succ.inj h)
      rw [x509TimeCompare, List.cons_lt_cons_iff, List.cons_lt_cons_iff]
      rcases lt_trichotomy a b with hlt | rfl | hgt
      · rw [if_pos hlt.ne, if_pos hlt]
        exact ⟨fun _ => by omega, fun hno => absurd rfl hno⟩
      · rw [if_neg (not_not.mpr rfl)]
        simpa using ih
      · rw [if_pos hgt.ne', if_neg hgt.asymm]
        exact ⟨fun hno => absurd rfl hno, fun _ => by omega⟩

theorem timeParse_length {input : Bytes} {t : List ℕ} (h : x509TimeParse input = some t) : t.length = 6 := by
  rw [x509TimeParse, Option.ite_none_left_eq_some, Option.ite_none_left_eq_some] at h
  cases h.2.2
  rfl

theorem validAt_of_check {utcTime : Bytes} (h : x509CertificateValidAt c utcTime = true) : ValidAt c utcTime := by
  unfold x509CertificateValidAt at h
  split at h
  · next before after current hbefore hafter hcurrent =>
    split at hcurrent
    · cases hcurrent
    simp only [Bool.and_eq_true, bne_iff_ne] at h
    obtain ⟨⟨-, hfrom⟩, hto⟩ := h
    have hlen : ∀ {input t}, x509TimeParse input = some t → current.length = t.length := by
      intro input t ht
      rw [timeParse_length hcurrent, timeParse_length ht]
    exact ⟨before, after, current, hbefore, hafter, hcurrent,
      (timeCompare_spec (hlen hbefore)).2 hfrom, (timeCompare_spec (hlen hafter)).1 hto⟩
  · cases h

variable {V}

theorem issuedBy_of_validate {issuer : Certificate}
    (h : x509CertificateChainValidateOne V c issuer = true) : IssuedBy V c issuer := by
  simp only [x509CertificateChainValidateOne, Bool.and_eq_true, beq_iff_eq] at h
  obtain ⟨⟨hname, hkey⟩, hsigned⟩ := h
  refine ⟨hname, ?_, hsigned⟩
  intro k hk
  rw [hk, Option.all_some] at hkey
  exact beq_iff_eq.mp hkey

theorem authority_of_check (h : x509CertificateCaAuthorized c = true) :
    c.basicConstraints = some true ∧ c.keyUsage = some true := by
  simpa [x509CertificateCaAuthorized] using h

theorem le_of_all {o : Option ℕ} {n : ℕ} (h : o.all (n ≤ ·) = true) : ∀ k, o = some k → n ≤ k := by
  rintro k rfl
  simpa using h

theorem serves_of_check {leaf : Certificate} (h : servesTls leaf = true) :
    leaf.extendedKeyUsage = none ∨ leaf.extendedKeyUsage = some true := by
  unfold servesTls at h
  cases hu : leaf.extendedKeyUsage with
  | none => exact .inl rfl
  | some u =>
    rw [hu] at h
    exact .inr (congrArg some h)

/-! ## The three depths -/

section
variable {leaf anchor : Certificate} {host utcTime : Bytes}

/-- No certificate between: nothing is checked of the anchor but its name and its key. -/
theorem identifies_direct (h : x509CertificateTlsIdentityValidate V leaf anchor host utcTime = true)
    (hvalid : ValidAt anchor utcTime) (hpermits : Permits anchor host) :
    Identifies V leaf [] anchor host utcTime := by
  simp only [x509CertificateTlsIdentityValidate, Bool.and_eq_true] at h
  obtain ⟨⟨⟨hserves, hone⟩, hnames⟩, hleaf⟩ := h
  exact
    { issued := by simpa using issuedBy_of_validate hone
      authorities := by simp
      lengths := by simp
      periods := by simpa using ⟨validAt_of_check hleaf, hvalid⟩
      permits := by simpa using hpermits
      server := ⟨serves_of_check hserves, namesHost_of_validate hnames⟩ }

/-- One certificate between: the name constraints of the anchor are not looked at. -/
theorem identifies_two {mid : Certificate}
    (h : x509CertificateTlsIdentityValidateTwo V leaf mid anchor host utcTime = true)
    (hpermits : Permits anchor host) : Identifies V leaf [mid] anchor host utcTime := by
  simp only [x509CertificateTlsIdentityValidateTwo, x509CertificateChainValidateTwo,
    Bool.and_eq_true] at h
  obtain ⟨⟨⟨⟨hserves, ⟨⟨hca, hlen⟩, hone⟩, htwo⟩, hmid⟩, hnames⟩, ⟨hl, hm⟩, ha⟩ := h
  exact
    { issued := by simpa using ⟨issuedBy_of_validate hone, issuedBy_of_validate htwo⟩
      authorities := by simpa using authority_of_check hca
      lengths := by simpa using le_of_all hlen
      periods := by
        simpa using ⟨validAt_of_check hl, validAt_of_check hm, validAt_of_check ha⟩
      permits := by simpa using ⟨permits_of_validate hmid, hpermits⟩
      server := ⟨serves_of_check hserves, namesHost_of_validate hnames⟩ }

theorem identifies_three {one two : Certificate}
    (h : x509CertificateTlsIdentityValidateThree V leaf one two anchor host utcTime = true) :
    Identifies V leaf [one, two] anchor host utcTime := by
  simp only [x509CertificateTlsIdentityValidateThree, x509CertificateChainValidateThree,
    Bool.and_eq_true] at h
  obtain ⟨⟨⟨⟨hserves, ⟨⟨⟨⟨⟨hca, hca'⟩, hlen⟩, hlen'⟩, hone⟩, htwo⟩, hthree⟩, ⟨hp, hp'⟩, hp''⟩, hnames⟩,
    ⟨⟨hl, hm⟩, hm'⟩, ha⟩ := h
  exact
    { issued := by
        simpa using ⟨issuedBy_of_validate hone, issuedBy_of_validate htwo,
          issuedBy_of_validate hthree⟩
      authorities := by simpa using ⟨authority_of_check hca, authority_of_check hca'⟩
      lengths := by simpa using ⟨le_of_all hlen, le_of_all hlen'⟩
      periods := by
        simpa using ⟨validAt_of_check hl, validAt_of_check hm, validAt_of_check hm',
          validAt_of_check ha⟩
      permits := by
        simpa using ⟨permits_of_validate hp, permits_of_validate hp', permits_of_validate hp''⟩
      server := ⟨serves_of_check hserves, namesHost_of_validate hnames⟩ }

end

/-! ## The identity of a server -/

def Presented.Holds (p : Presented) (c : Certificate) : Prop :=
  p.serverIntermediateX509 = some c ∨ p.serverIntermediateTwoX509 = some c

theorem chainSelect_holds {leaf anchor : Certificate} {p : Presented} {mids : List Certificate}
    (h : netTlsHandshakeChainSelect V leaf p anchor = some mids) : ∀ c ∈ mids, p.Holds c := by
  unfold netTlsHandshakeChainSelect at h
  split at h
  · cases h
    simp
  split at h
  · cases h
  next one hone =>
  split at h
  · cases h
    exact List.forall_mem_singleton.mpr (.inl hone)
  split at h
  · cases h
  next two htwo =>
  split at h
  · cases h
    simpa using ⟨.inl hone, .inr htwo⟩
  split at h
  · cases h
    simpa using ⟨.inr htwo, .inl hone⟩
  · cases h

/-- An accepted server has a path that identifies it exactly when the anchor is in its validity
period and its name constraints permit the host: neither is checked at every depth. -/
theorem serverIdentity_iff (V : Verifier) (p : Presented) (anchor : Certificate) (host utcTime : Bytes)
    (h : netTlsHandshakeValidateServerIdentity V p anchor host utcTime = true) :
    (∃ leaf mids, p.serverX509 = some leaf ∧ (∀ c ∈ mids, p.Holds c) ∧
      Identifies V leaf mids anchor host utcTime) ↔
    ValidAt anchor utcTime ∧ Permits anchor host := by
  constructor
  · rintro ⟨leaf, mids, -, -, hpath⟩
    exact ⟨hpath.periods anchor (by simp), hpath.permits anchor (by simp)⟩
  · rintro ⟨hvalid, hpermits⟩
    obtain ⟨leaf, hleaf, h⟩ := (Option.any_eq_true _ _).mp h
    split at h
    · next hselect =>
      exact ⟨leaf, [], hleaf, chainSelect_holds hselect, identifies_direct h hvalid hpermits⟩
    · next mid hselect =>
      exact ⟨leaf, [mid], hleaf, chainSelect_holds hselect, identifies_two h hpermits⟩
    · next one two hselect =>
      exact ⟨leaf, [one, two], hleaf, chainSelect_holds hselect, identifies_three h⟩
    · cases h

def trusting : Verifier := ⟨id, fun _ _ _ _ => true, fun _ _ _ => true⟩

def sampleCertificate (subject issuer notAfter : Bytes) : Certificate where
  tbsCertificateDer := []
  issuer := issuer
  subject := subject
  notBefore := ascii "200101000000Z"
  notAfter := notAfter
  subjectPublicKeyAlgorithm := ecP256Algorithm
  rsaModulus := none
  rsaExponent := none
  ecP256PublicKey := some (4 :: List.replicate 64 0)
  commonName := some subject
  subjectAltNames := none
  basicConstraints := some true
  pathLenConstraint := none
  subjectKeyIdentifier := none
  authorityKeyIdentifier := none
  keyUsage := some true
  extendedKeyUsage := none
  nameConstraints := none
  signatureAlgorithm := ecdsaSha256Algorithm
  signature := [1]

def samplePresented : Presented :=
  ⟨some (sampleCertificate (ascii "a.example") (ascii "root") (ascii "400101000000Z")), none, none⟩

def sampleTime : Bytes := ascii "20260101000000Z"

/-- An anchor that expired in 2021 vouches for a server in 2026. -/
theorem expiredAnchor_accepted : let anchor := sampleCertificate (ascii "root") (ascii "root") (ascii "210101000000Z")
    netTlsHandshakeValidateServerIdentity trusting samplePresented anchor (ascii "a.example")
        sampleTime = true ∧
      ¬ ∃ leaf mids, samplePresented.serverX509 = some leaf ∧ (∀ c ∈ mids, samplePresented.Holds c) ∧
        Identifies trusting leaf mids anchor (ascii "a.example") sampleTime := by
  refine ⟨by decide +kernel, ?_⟩
  rintro ⟨leaf, mids, -, -, hpath⟩
  obtain ⟨before, after, current, -, hafter, hcurrent, -, hlate⟩ := hpath.periods _
    (List.mem_append_right _ (List.mem_singleton_self _))
  have hend : x509TimeParse (ascii "210101000000Z") = some [2021, 1, 1, 0, 0, 0] := by
    decide +kernel
  have hnow : x509TimeParse (sampleTime.take 15) = some [2026, 1, 1, 0, 0, 0] := by
    decide +kernel
  cases hend.symm.trans hafter
  cases hnow.symm.trans hcurrent
  exact hlate (by decide)

def chainPresented : Presented :=
  ⟨some (sampleCertificate (ascii "a.example") (ascii "mid") (ascii "400101000000Z")),
    some (sampleCertificate (ascii "mid") (ascii "root") (ascii "400101000000Z")), none⟩

theorem serverIdentity_iff_chain :
    let anchor := sampleCertificate (ascii "root") (ascii "root") (ascii "400101000000Z")
    (∀ leaf ∈ chainPresented.serverX509, x509CertificateChainValidateOne trusting leaf anchor = false) ∧
    ∃ leaf mids, chainPresented.serverX509 = some leaf ∧ (∀ c ∈ mids, chainPresented.Holds c) ∧
      Identifies trusting leaf mids anchor (ascii "a.example") sampleTime := by
  intro anchor
  have haccepted : netTlsHandshakeValidateServerIdentity trusting chainPresented anchor (ascii "a.example")
      sampleTime = true := by
    decide +kernel
  refine ⟨by decide +kernel, (serverIdentity_iff _ _ _ _ _ haccepted).mpr ⟨?_, ?_⟩⟩
  · exact validAt_of_check (by decide +kernel)
  · exact permits_of_validate (by decide +kernel)

end Mohhdy.Net
