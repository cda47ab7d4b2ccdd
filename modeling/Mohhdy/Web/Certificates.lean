import Mohhdy.Foundations.Texts
import Mathlib.Data.List.Basic

/-! Certificates as the fetcher's TLS client reads them (`wf_x509.c`): the DER of the extensions, what
`parse_ext` keeps of them, and the host names that a certificate is for. -/
namespace Mohhdy.Web
set_option autoImplicit false

open Texts List

/-! ## DER -/

/-- `wf_der_next`: the tag and the content of the first element, and what is behind it. -/
def wfDerNext : Bytes → Option (UInt8 × Bytes × Bytes)
  | tag :: l :: b =>
    if tag &&& 0x1f = 0x1f then none
    else if l &&& 0x80 = 0 then
      if b.length < l.toNat then none else some (tag, b.take l.toNat, b.drop l.toNat)
    else
      let n := (l &&& 0x7f).toNat
      let len := ofBigEndian (b.take n)
      -- a length that fits the short form is refused
      if n = 0 ∨ 3 < n ∨ b.length < n ∨ len < 128 ∨ b.length < n + len then none
      else some (tag, (b.drop n).take len, b.drop (n + len))
  | _ => none

def wfDerExpect (tag : UInt8) (b : Bytes) : Option (Bytes × Bytes) :=
  match wfDerNext b with
  | some (t, v, rest) => if t = tag then some (v, rest) else none
  | none => none

def derOptional (tag : UInt8) (b : Bytes) : Option Bytes × Bytes :=
  match wfDerExpect tag b with
  | some (v, rest) => (some v, rest)
  | none => (none, b)

def derTrue (v : Bytes) : Bool := v.length == 1 && v != [0]

def derList : ℕ → Bytes → List (UInt8 × Bytes)
  | 0, _ => []
  | k + 1, b =>
    match wfDerNext b with
    | some (t, v, rest) => (t, v) :: derList k rest
    | none => []

/-! ## Extensions -/

def oidBc : Bytes := [0x55, 0x1d, 0x13]
def oidKu : Bytes := [0x55, 0x1d, 0x0f]
def oidSan : Bytes := [0x55, 0x1d, 0x11]

/-- The extensions that may be critical: the three above, extended key usage, the two key identifiers
and the policies. -/
def knownOids : List Bytes :=
  [oidBc, oidKu, oidSan, [0x55, 0x1d, 0x25], [0x55, 0x1d, 0x0e], [0x55, 0x1d, 0x23], [0x55, 0x1d, 0x20]]

structure Extension where
  oid : Bytes
  critical : Bool
  value : Bytes
  deriving DecidableEq

def readExtension (ext : Bytes) : Option Extension := do
  let (oid, b) ← wfDerExpect 0x06 ext
  let (critical, b) := derOptional 0x01 b
  let (value, _) ← wfDerExpect 0x04 b
  return ⟨oid, critical.any derTrue, value⟩

def basicConstraints (value : Bytes) : Option (Option Bytes × Option Bytes) := do
  let (seq, _) ← wfDerExpect 0x30 value
  let (ca, b) := derOptional 0x01 seq
  return (ca, (derOptional 0x02 b).1)

def keyUsage (value : Bytes) : Option Bool := do
  let (bits, _) ← wfDerExpect 0x03 value
  if bits.length < 2 then none else return bits.getD 1 0 &&& 0x04 != 0

def shortLen (n : Bytes) : Option ℕ :=
  if 1 ≤ n.length ∧ n.length ≤ 2 then some (ofBigEndian n) else none

/-- What `parse_ext` fills in of `wf_cert_t`, as far as the walk reads it; `keyCertSign` is there when
`has_key_usage` is set, and `dnsNames` when `san_seq` is. -/
structure Extensions where
  isCa : Bool
  pathLen : Option ℕ
  keyCertSign : Option Bool
  dnsNames : Option (List Bytes)
  addresses : List Bytes
  unknownCritical : Bool
  deriving DecidableEq

def parseExt (c : Extensions) (ext : Bytes) : Option Extensions := do
  let e ← readExtension ext
  if e.oid = oidBc then
    let (ca, len) ← basicConstraints e.value
    return { c with isCa := ca.elim c.isCa derTrue, pathLen := (len.bind shortLen).or c.pathLen }
  else if e.oid = oidKu then
    let sign ← keyUsage e.value
    return { c with keyCertSign := some sign }
  else if e.oid = oidSan then
    let (seq, _) ← wfDerExpect 0x30 e.value
    let names := derList seq.length seq
    let ips := (names.filter fun n => n.1 == 0x87 && n.2.length == 4).map Prod.snd
    return { c with dnsNames := some ((names.filter (·.1 == 0x82)).map Prod.snd),
                    addresses := (c.addresses ++ ips).take 4 }
  else return { c with unknownCritical := c.unknownCritical || (e.critical && !knownOids.contains e.oid) }

/-- The loop of `wf_x509_parse` over the extensions. -/
def parseExts (exts : List Bytes) : Option Extensions :=
  exts.foldlM parseExt ⟨false, none, none, none, [], false⟩

/-! ## What a certificate says -/

/-- `wf_cert_t` as far as the walk reads it: the dates are the fourteen digits, `extensions` the
contents of the extensions, which could be read. -/
structure Cert where
  (der issuer subject notBefore notAfter : Bytes)
  sha1 : Bool
  version : ℕ
  extensions : List Bytes
  parsed : (parseExts extensions).isSome = true
  deriving DecidableEq

def Cert.found (c : Cert) : Extensions := (parseExts c.extensions).get c.parsed

def Extension.assertsCa (e : Extension) : Prop :=
  e.oid = oidBc ∧ ∃ p ∈ basicConstraints e.value, p.1.any derTrue = true

def Extension.pathLen (e : Extension) : Option Bytes :=
  if e.oid = oidBc then (basicConstraints e.value).bind Prod.snd else none

def Extension.certSign (e : Extension) : Option Bool := if e.oid = oidKu then keyUsage e.value else none

def Cert.read (c : Cert) : List Extension := c.extensions.filterMap readExtension

def Cert.AssertsCa (c : Cert) : Prop := ∃ e ∈ c.read, e.assertsCa

def Cert.Understood (c : Cert) : Prop := ∀ e ∈ c.read, e.critical = true → e.oid ∈ knownOids

def Cert.pathLens (c : Cert) : List Bytes := c.read.filterMap Extension.pathLen

def Cert.usages (c : Cert) : List Bool := c.read.filterMap Extension.certSign

structure Adds (e : Extension) (c c' : Extensions) : Prop where
  critical : c'.unknownCritical = (c.unknownCritical || (e.critical && !knownOids.contains e.oid))
  ca : c'.isCa = true → c.isCa = true ∨ e.assertsCa
  pathLen : c'.pathLen = (e.pathLen.bind shortLen).or c.pathLen
  usage : c'.keyCertSign = e.certSign.or c.keyCertSign

theorem parseExt_adds {c c' : Extensions} {ext : Bytes} (h : parseExt c ext = some c') :
    ∃ e, readExtension ext = some e ∧ Adds e c c' := by
  simp only [parseExt, Option.bind_eq_bind, Option.bind_eq_some_iff, Option.pure_def] at h
  obtain ⟨e, he, h⟩ := h
  have hbc : oidBc ≠ oidKu := by decide
  have hcrit : e.oid ∈ knownOids →
      c.unknownCritical = (c.unknownCritical || (e.critical && !knownOids.contains e.oid)) := fun hk => by simp [hk]
  refine ⟨e, he, ?_⟩
  split at h
  · rename_i hoid
    obtain ⟨⟨ca, len⟩, hread, hc⟩ := Option.bind_eq_some_iff.mp h
    cases hc
    refine ⟨hcrit (by rw [hoid]; decide), fun hca => ?_, by simp [Extension.pathLen, hoid, hread],
      by simp [Extension.certSign, hoid, hbc]⟩
    cases ca with
    | none => exact .inl hca
    | some b => exact .inr ⟨hoid, _, hread, by simpa using hca⟩
  rename_i hbc'
  split at h
  · rename_i hoid
    obtain ⟨sign, hread, hc⟩ := Option.bind_eq_some_iff.mp h
    cases hc
    exact ⟨hcrit (by rw [hoid]; decide), .inl, by simp [Extension.pathLen, hbc'],
      by simp [Extension.certSign, hoid, hread]⟩
  rename_i hku
  split at h
  · rename_i hoid
    obtain ⟨⟨seq, rest⟩, hread, hc⟩ := Option.bind_eq_some_iff.mp h
    cases hc
    exact ⟨hcrit (by rw [hoid]; decide), .inl, by simp [Extension.pathLen, hbc'], by simp [Extension.certSign, hku]⟩
  · cases h
    exact ⟨rfl, .inl, by simp [Extension.pathLen, hbc'], by simp [Extension.certSign, hku]⟩

theorem parseExts_adds {exts : List Bytes} {c c' : Extensions} (h : exts.foldlM parseExt c = some c') :
    (c'.unknownCritical = false → c.unknownCritical = false ∧
      ∀ e ∈ exts.filterMap readExtension, e.critical = true → e.oid ∈ knownOids) ∧
    (c'.isCa = true → c.isCa = true ∨ ∃ e ∈ exts.filterMap readExtension, e.assertsCa) ∧
    c'.pathLen = (((exts.filterMap readExtension).filterMap Extension.pathLen).filterMap shortLen).getLast?.or
      c.pathLen ∧
    c'.keyCertSign = ((exts.filterMap readExtension).filterMap Extension.certSign).getLast?.or c.keyCertSign := by
  induction exts generalizing c with
  | nil =>
    cases h
    simp
  | cons ext exts ih =>
    obtain ⟨c₁, hstep, hrest⟩ := Option.bind_eq_some_iff.mp h
    obtain ⟨e, he, hadds⟩ := parseExt_adds hstep
    obtain ⟨hcrit, hca, hlen, husage⟩ := ih hrest
    rw [filterMap_cons_some he]
    refine ⟨fun hno => ?_, fun hyes => ?_, ?_, ?_⟩
    · obtain ⟨hbefore, hlater⟩ := hcrit hno
      rw [hadds.critical, Bool.or_eq_false_iff] at hbefore
      refine ⟨hbefore.1, forall_mem_cons.mpr ⟨fun hc => ?_, hlater⟩⟩
      simpa [hc] using hbefore.2
    · rcases hca hyes with hbefore | ⟨x, hx, hasserts⟩
      · exact (hadds.ca hbefore).imp_right fun hasserts => ⟨e, mem_cons_self, hasserts⟩
      · exact .inr ⟨x, mem_cons_of_mem _ hx, hasserts⟩
    · rw [hlen, hadds.pathLen, ← Option.or_assoc]
      congr 1
      cases hp : e.pathLen with
      | none => simp [hp]
      | some n => cases hn : shortLen n <;> simp [hp, hn, getLast?_cons]
    · rw [husage, hadds.usage, ← Option.or_assoc]
      congr 1
      cases hp : e.certSign <;> simp [hp, getLast?_cons]

section
variable (c : Cert)

theorem Cert.found_eq : c.extensions.foldlM parseExt ⟨false, none, none, none, [], false⟩ = some c.found :=
  (Option.some_get c.parsed).symm

theorem Cert.understood (h : c.found.unknownCritical = false) : c.Understood :=
  ((parseExts_adds c.found_eq).1 h).2

theorem Cert.assertsCa (h : c.found.isCa = true) : c.AssertsCa :=
  ((parseExts_adds c.found_eq).2.1 h).resolve_left Bool.false_ne_true

theorem Cert.pathLen_found : c.found.pathLen = (c.pathLens.filterMap shortLen).getLast? := by
  rw [(parseExts_adds c.found_eq).2.2.1, Option.or_none]
  rfl

theorem Cert.usage_found : c.found.keyCertSign = c.usages.getLast? := by
  rw [(parseExts_adds c.found_eq).2.2.2, Option.or_none]
  rfl

end

/-! ## The host -/

def ipv4Parts : Bytes → Option ℕ → Bytes → Option Bytes
  | [], none, _ => none
  | [], some v, parts => if 3 < parts.length then none else some (parts ++ [UInt8.ofNat v])
  | c :: s, v, parts =>
    if 48 ≤ c ∧ c ≤ 57 then
      let n := v.getD 0 * 10 + (c.toNat - 48)
      if 255 < n then none else ipv4Parts s (some n) parts
    else if c = 46 then
      v.bind fun n => if 3 < parts.length then none else ipv4Parts s none (parts ++ [UInt8.ofNat n])
    else none

def parseIpv4 (host : Bytes) : Option Bytes := (ipv4Parts host none []).filter (·.length == 4)

def dnsMatch (pat host : Bytes) : Bool :=
  if pat = [] ∨ host = [] then false
  else if 2 < pat.length ∧ pat.take 2 = ascii "*." then
    let tail := host.dropWhile (· ≠ 46)
    (pat.drop 2).contains 46 && tail ≠ [] && tail.length < host.length &&
      lower (pat.drop 1) == lower tail
  else !pat.contains 42 && lower pat == lower host

def wfX509HostMatch (c : Cert) (host : Bytes) : Bool :=
  if host = [] then false
  else
    match parseIpv4 host with
    | some ip => c.found.addresses.contains ip
    | none =>
      let name := if host.getLast? = some 46 then host.dropLast else host
      (c.found.dnsNames.getD []).any fun pat => dnsMatch pat name

end Mohhdy.Web
