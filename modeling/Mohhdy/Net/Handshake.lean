import Mohhdy.Foundations.Runs
import Mohhdy.Net.Identity
import Mohhdy.Net.Tcp

/-! The client's TLS 1.2 handshake (`net_tls_record.c`): the messages of the server that
`net_tls_handshake_accept_server_message_authenticated` takes, and the key that the client's flight
then agrees on.

The parser of certificates and the signature checks are functions that nothing is assumed about.
A message is the value its buffer has when it is given, so binding the certificates to their copy
in the transcript changes nothing here. A refused message leaves the handshake as it was. -/
namespace Mohhdy.Net
set_option autoImplicit false

open Texts Runs List

inductive HandshakeState
  | idle
  | clientHelloSent
  | serverHelloReceived
  | certificateReceived
  | serverKeyExchangeReceived
  | certificateRequestReceived
  | serverHelloDoneReceived
  deriving DecidableEq

/-- `x509` has the views that are valid. -/
structure Handshake where
  state : HandshakeState
  cipherSuite : UInt16
  serverRandom : Option Bytes
  certificates : List Bytes
  x509 : Presented
  serverNamedCurve : UInt16
  serverPublicKey : Bytes
  certificateRequested : Bool

def netTlsHandshakeInit : Handshake := ⟨.idle, 0, none, [], ⟨none, none, none⟩, 0, [], false⟩

/-! ## Messages -/

def get24 (b : Bytes) : ℕ := ofBigEndian (b.take 3)

def isMessage (type : UInt8) (m : Bytes) : Bool :=
  4 ≤ m.length && m.head? == some type && get24 (m.drop 1) == m.length - 4

def netTlsServerHelloParse (m : Bytes) : Option (Bytes × UInt16) :=
  let pos := 39 + (m.getD 38 0).toNat
  if !isMessage 2 m ∨ m.length < 42 ∨ m.getD 4 0 ≠ 3 ∨ m.getD 5 0 ≠ 3 ∨ m.length < pos + 3 ∨
      m.getD (pos + 2) 0 ≠ 0 then none
  else if m.length = pos + 3 ∨ (pos + 5 ≤ m.length ∧
      pos + 5 + (get16 (m.drop (pos + 3))).toNat = m.length) then
    some ((m.drop 6).take 32, get16 (m.drop pos))
  else none

def certificateList : ℕ → Bytes → Option (List Bytes)
  | _, [] => some []
  | 0, _ => none
  | n + 1, rest =>
    let body := rest.drop 3
    if rest.length < 3 ∨ get24 rest = 0 ∨ body.length < get24 rest then none
    else (certificateList n (body.drop (get24 rest))).map (body.take (get24 rest) :: ·)

def netTlsCertificateParse (m : Bytes) : Option (List Bytes) :=
  if !isMessage 11 m ∨ m.length < 10 ∨ get24 (m.drop 4) < 3 ∨ get24 (m.drop 4) ≠ m.length - 7 then
    none
  else certificateList 3 (m.drop 7)

structure ServerKeyExchange where
  namedCurve : UInt16
  publicKey : Bytes
  (hashAlgorithm signatureAlgorithm : UInt8)
  signature : Bytes

def netTlsServerKeyExchangeParse (m : Bytes) : Option ServerKeyExchange :=
  let keyLength := (m.getD 7 0).toNat
  let pos := 8 + keyLength
  let signatureLength := (get16 (m.drop (pos + 2))).toNat
  if m.length < 14 ∨ !isMessage 12 m ∨ m.getD 4 0 ≠ 3 ∨ keyLength = 0 ∨ m.length < pos + 4 ∨
      signatureLength = 0 ∨ pos + 4 + signatureLength ≠ m.length then none
  else some ⟨get16 (m.drop 5), (m.drop 8).take keyLength, m.getD pos 0, m.getD (pos + 1) 0,
    m.drop (pos + 4)⟩

def keyParameters (m : Bytes) (v : ServerKeyExchange) : Bytes :=
  (m.drop 4).take (m.length - 8 - v.signature.length)

def netTlsServerKeyExchangeParamsValidate (v : ServerKeyExchange) : Bool :=
  if v.namedCurve = 23 then v.publicKey.length == 65 && v.publicKey.head? == some 4
  else v.namedCurve == 29 && v.publicKey.length == 32

def netTlsCertificateRequestParse (m : Bytes) : Bool :=
  let pos := 5 + (m.getD 4 0).toNat
  let signatures := (get16 (m.drop pos)).toNat
  9 ≤ m.length && isMessage 13 m && m.getD 4 0 != 0 && pos + 4 ≤ m.length && signatures != 0 &&
    signatures % 2 == 0 && pos + 4 + signatures ≤ m.length &&
    pos + 4 + signatures + (get16 (m.drop (pos + 2 + signatures))).toNat == m.length

def netTlsServerHelloDoneParse (m : Bytes) : Bool := m == [14, 0, 0, 0]

/-! ## Accepting -/

def isEcdheRsa (suite : UInt16) : Bool := suite == 0xc02f
def isEcdheEcdsa (suite : UInt16) : Bool := suite == 0xc02b

section
variable (V : Verifier) (parse : Bytes → Option Certificate) (clientRandom : Bytes)

def netTlsHandshakeAcceptServerHello (h : Handshake) (m : Bytes) : Option Handshake := do
  if h.state ≠ .clientHelloSent then none
  let (random, suite) ← netTlsServerHelloParse m
  some { h with cipherSuite := suite, serverRandom := some random, state := .serverHelloReceived }

def netTlsHandshakeAcceptCertificate (h : Handshake) (m : Bytes) : Option Handshake := do
  if h.state ≠ .serverHelloReceived then none
  let certificates ← netTlsCertificateParse m
  some { h with certificates, x509 := ⟨none, none, none⟩, state := .certificateReceived }

def parseOptional : Option Bytes → Option (Option Certificate)
  | none => some none
  | some b => (parse b).map some

def netTlsHandshakeParseServerCertificateX509 (h : Handshake) : Option Handshake := do
  let leaf ← h.certificates.head?
  let server ← parse leaf
  let one ← parseOptional parse h.certificates[1]?
  let two ← parseOptional parse h.certificates[2]?
  some { h with x509 := ⟨some server, one, two⟩ }

def keySigned (server : Certificate) (serverRandom m : Bytes) (v : ServerKeyExchange) : Bool :=
  let digest := V.sha256 (clientRandom ++ serverRandom ++ keyParameters m v)
  if v.signatureAlgorithm = 1 then
    x509RsaPublicKeyValidate server &&
      V.rsa (server.rsaModulus.getD []) (server.rsaExponent.getD []) digest v.signature
  else
    x509EcP256PublicKeyValidate server &&
      V.ecdsa (server.ecP256PublicKey.getD []) digest v.signature

def netTlsHandshakeAcceptServerKeyExchange (h : Handshake) (m : Bytes) : Option Handshake := do
  if h.state ≠ .certificateReceived then none
  let v ← netTlsServerKeyExchangeParse m
  if 65 < v.publicKey.length then none
  some { h with
    serverNamedCurve := v.namedCurve, serverPublicKey := v.publicKey,
    state := .serverKeyExchangeReceived }

def acceptSigned (algorithm : UInt8) (fits : Handshake → Certificate → ServerKeyExchange → Bool)
    (h : Handshake) (m : Bytes) : Option Handshake := do
  if h.state ≠ .certificateReceived then none
  let server ← h.x509.serverX509
  let random ← h.serverRandom
  let v ← netTlsServerKeyExchangeParse m
  if !netTlsServerKeyExchangeParamsValidate v ∨ v.hashAlgorithm ≠ 4 ∨
      v.signatureAlgorithm ≠ algorithm ∨ !fits h server v ∨
      !keySigned V clientRandom server random m v then none
  netTlsHandshakeAcceptServerKeyExchange h m

def netTlsHandshakeAcceptServerKeyExchangeRsa : Handshake → Bytes → Option Handshake :=
  acceptSigned V clientRandom 1 fun h server v =>
    (!isEcdheRsa h.cipherSuite || v.namedCurve == 29) &&
      (server.rsaModulus.getD []).length ≤ 65535 && (server.rsaExponent.getD []).length ≤ 65535

def netTlsHandshakeAcceptServerKeyExchangeEcdsa : Handshake → Bytes → Option Handshake :=
  acceptSigned V clientRandom 3 fun h _ v =>
    v.namedCurve == 29 && isEcdheEcdsa h.cipherSuite && v.signature.length ≤ 72

def netTlsHandshakeAcceptCertificateRequest (h : Handshake) (m : Bytes) : Option Handshake :=
  if h.state ∈ [.certificateReceived, .serverKeyExchangeReceived] ∧ netTlsCertificateRequestParse m
  then some { h with certificateRequested := true, state := .certificateRequestReceived }
  else none

def netTlsHandshakeAcceptServerHelloDone (h : Handshake) (m : Bytes) : Option Handshake :=
  if h.state ∈ [.certificateReceived, .serverKeyExchangeReceived, .certificateRequestReceived] ∧
      netTlsServerHelloDoneParse m
  then some { h with state := .serverHelloDoneReceived }
  else none

def acceptAuthenticated (h : Handshake) (m : Bytes) : Option Handshake :=
  match m.head? with
  | some 2 => do
    let h ← netTlsHandshakeAcceptServerHello h m
    if isEcdheRsa h.cipherSuite || isEcdheEcdsa h.cipherSuite then some h else none
  | some 11 => do
    let h ← netTlsHandshakeAcceptCertificate h m
    let h ← netTlsHandshakeParseServerCertificateX509 parse h
    if h.x509.serverX509.any fun c =>
        if isEcdheRsa h.cipherSuite then x509RsaPublicKeyValidate c
        else isEcdheEcdsa h.cipherSuite && x509EcP256PublicKeyValidate c
    then some h else none
  | some 12 =>
    if isEcdheRsa h.cipherSuite then netTlsHandshakeAcceptServerKeyExchangeRsa V clientRandom h m
    else if isEcdheEcdsa h.cipherSuite then
      netTlsHandshakeAcceptServerKeyExchangeEcdsa V clientRandom h m
    else none
  | some 13 => netTlsHandshakeAcceptCertificateRequest h m
  | some 14 => netTlsHandshakeAcceptServerHelloDone h m
  | _ => none

/-- A handshake with the room left in its transcript, if it keeps one, and the messages it has
accepted. -/
structure Session where
  handshake : Handshake
  room : Option ℕ
  accepted : List Bytes

inductive HandshakeOp
  | noteClientHello
  | serverMessage (m : Bytes)

def Session.appends (s : Session) (m : Bytes) : Bool :=
  s.room.all fun n => 4 ≤ m.length && get24 (m.drop 1) == m.length - 4 && m.length ≤ n

def handshakeStep (s : Session) : HandshakeOp → Session
  | .noteClientHello =>
    if s.handshake.state = .idle then
      { s with handshake := { s.handshake with state := .clientHelloSent } }
    else s
  | .serverMessage m =>
    match acceptAuthenticated V parse clientRandom s.handshake m with
    | none => s
    | some h => if s.appends m then ⟨h, s.room.map (· - m.length), m :: s.accepted⟩ else s

/-- The server's key that the client's flight agrees on. `rest` says whether the key agreement with
that key and the building of the records succeed. -/
def netTlsX25519ClientFlightBuild (h : Handshake) (rest : Bytes → Bool) : Option Bytes :=
  if h.state = .serverHelloDoneReceived ∧ h.certificateRequested = false ∧
      (isEcdheRsa h.cipherSuite ∨ isEcdheEcdsa h.cipherSuite) ∧ h.serverNamedCurve = 29 ∧
      h.serverPublicKey.length = 32 ∧ rest h.serverPublicKey then some h.serverPublicKey
  else none

/-! ## Where the key comes from -/

def FromHello (accepted : List Bytes) (random : Bytes) : Prop :=
  ∃ m ∈ accepted, ∃ suite, netTlsServerHelloParse m = some (random, suite)

def FromCertificate (accepted : List Bytes) (server : Certificate) : Prop :=
  ∃ m ∈ accepted, ∃ leaf others, netTlsCertificateParse m = some (leaf :: others) ∧
    parse leaf = some server

/-- The key was in a message that the server's key signed together with both randoms. -/
def FromKeyExchange (accepted : List Bytes) (server : Certificate) (random key : Bytes) : Prop :=
  ∃ m ∈ accepted, ∃ v, netTlsServerKeyExchangeParse m = some v ∧ v.publicKey = key ∧
    keySigned V clientRandom server random m v = true

/-- Where the parts of the handshake come from. No key is set before its message is accepted. -/
structure Sourced (h : Handshake) (accepted : List Bytes) : Prop where
  random : ∀ r, h.serverRandom = some r → FromHello accepted r
  server : ∀ c, h.x509.serverX509 = some c → FromCertificate parse accepted c
  unset : h.state ∈ [.idle, .clientHelloSent, .serverHelloReceived, .certificateReceived] →
    h.serverPublicKey = []
  key : h.serverPublicKey ≠ [] → ∃ c r, h.x509.serverX509 = some c ∧ h.serverRandom = some r ∧
    FromKeyExchange V clientRandom accepted c r h.serverPublicKey

def Session.Sourced (s : Session) : Prop :=
  Net.Sourced V parse clientRandom s.handshake s.accepted

end

section
variable {V : Verifier} {parse : Bytes → Option Certificate} {clientRandom : Bytes}
  {h h' : Handshake} {m : Bytes} {accepted : List Bytes}

section
variable (hs : Sourced V parse clientRandom h accepted)
include hs

theorem Sourced.noted (m : Bytes) : Sourced V parse clientRandom h (m :: accepted) where
  random r hr := (hs.random r hr).imp fun _ => And.imp_left (mem_cons_of_mem m)
  server c hc := (hs.server c hc).imp fun _ => And.imp_left (mem_cons_of_mem m)
  unset := hs.unset
  key hk := by
    obtain ⟨c, r, hc, hr, hkey⟩ := hs.key hk
    exact ⟨c, r, hc, hr, hkey.imp fun _ => And.imp_left (mem_cons_of_mem m)⟩

theorem Sourced.hello (ha : netTlsHandshakeAcceptServerHello h m = some h') :
    Sourced V parse clientRandom h' (m :: accepted) := by
  obtain ⟨hstate, r, suite, hparse, rfl⟩ : h.state = .clientHelloSent ∧ ∃ r suite,
      netTlsServerHelloParse m = some (r, suite) ∧ { h with
        cipherSuite := suite, serverRandom := some r, state := .serverHelloReceived } = h' := by
    simpa [netTlsHandshakeAcceptServerHello, Option.bind_eq_some_iff] using ha
  have hnone : h.serverPublicKey = [] := hs.unset (by simp [hstate])
  refine ⟨?_, (hs.noted m).server, fun _ => hnone, fun hk => absurd hnone hk⟩
  rintro _ ⟨⟩
  exact ⟨m, mem_cons_self, suite, hparse⟩

theorem Sourced.certificate (ha : (netTlsHandshakeAcceptCertificate h m >>=
      netTlsHandshakeParseServerCertificateX509 parse) = some h') :
    Sourced V parse clientRandom h' (m :: accepted) := by
  obtain ⟨hstate, cs, hcs, leaf, hleaf, c, hc, one, -, two, -, rfl⟩ :
      h.state = .serverHelloReceived ∧ ∃ cs, netTlsCertificateParse m = some cs ∧
        ∃ leaf, cs.head? = some leaf ∧ ∃ c, parse leaf = some c ∧
        ∃ one, parseOptional parse cs[1]? = some one ∧ ∃ two, parseOptional parse cs[2]? = some two ∧
        { h with
          certificates := cs, x509 := ⟨some c, one, two⟩, state := .certificateReceived } = h' := by
    simpa [netTlsHandshakeAcceptCertificate, netTlsHandshakeParseServerCertificateX509,
      Option.bind_eq_some_iff, and_assoc] using ha
  have hnone : h.serverPublicKey = [] := hs.unset (by simp [hstate])
  refine ⟨(hs.noted m).random, ?_, fun _ => hnone, fun hk => absurd hnone hk⟩
  rintro _ ⟨⟩
  obtain ⟨others, rfl⟩ := List.head?_eq_some_iff.mp hleaf
  exact ⟨m, mem_cons_self, leaf, others, hcs, hc⟩

theorem Sourced.keyExchange {algorithm : UInt8}
    {fits : Handshake → Certificate → ServerKeyExchange → Bool}
    (ha : acceptSigned V clientRandom algorithm fits h m = some h') :
    Sourced V parse clientRandom h' (m :: accepted) := by
  obtain ⟨-, c, hc, r, hr, v, hv, hsigned, -, v', hv', -, rfl⟩ :
      h.state = .certificateReceived ∧ ∃ c, h.x509.serverX509 = some c ∧
        ∃ r, h.serverRandom = some r ∧ ∃ v, netTlsServerKeyExchangeParse m = some v ∧
        (netTlsServerKeyExchangeParamsValidate v = true ∧ v.hashAlgorithm = 4 ∧
          v.signatureAlgorithm = algorithm ∧ fits h c v = true ∧
          keySigned V clientRandom c r m v = true) ∧
        h.state = .certificateReceived ∧ ∃ v', netTlsServerKeyExchangeParse m = some v' ∧
        v'.publicKey.length ≤ 65 ∧ { h with
          serverNamedCurve := v'.namedCurve, serverPublicKey := v'.publicKey,
          state := .serverKeyExchangeReceived } = h' := by
    simpa [acceptSigned, netTlsHandshakeAcceptServerKeyExchange, Option.bind_eq_some_iff] using ha
  cases hv.symm.trans hv'
  refine ⟨(hs.noted m).random, (hs.noted m).server, by simp, fun _ => ⟨c, r, hc, hr, ?_⟩⟩
  exact ⟨m, mem_cons_self, v, hv, rfl, hsigned.2.2.2.2⟩

theorem Sourced.later {requested : Bool} {state : HandshakeState}
    (hstate : state ∈ [.certificateRequestReceived, .serverHelloDoneReceived]) :
    Sourced V parse clientRandom { h with certificateRequested := requested, state } accepted where
  __ := hs
  unset hearly := by
    revert hstate hearly
    cases state <;> simp

theorem Sourced.accept (ha : acceptAuthenticated V parse clientRandom h m = some h') :
    Sourced V parse clientRandom h' (m :: accepted) := by
  unfold acceptAuthenticated at ha
  split at ha
  · obtain ⟨h₁, hhello, hif⟩ := Option.bind_eq_some_iff.mp ha
    cases (Option.ite_none_right_eq_some.mp hif).2
    exact hs.hello hhello
  · obtain ⟨h₁, hcertificate, ha⟩ := Option.bind_eq_some_iff.mp ha
    obtain ⟨h₂, hx509, hif⟩ := Option.bind_eq_some_iff.mp ha
    cases (Option.ite_none_right_eq_some.mp hif).2
    exact hs.certificate (Option.bind_eq_some_iff.mpr ⟨h₁, hcertificate, hx509⟩)
  · split at ha
    · exact hs.keyExchange ha
    · exact hs.keyExchange (Option.ite_none_right_eq_some.mp ha).2
  · cases (Option.ite_none_right_eq_some.mp ha).2
    exact (hs.noted m).later (by simp)
  · cases (Option.ite_none_right_eq_some.mp ha).2
    exact (hs.noted m).later (by simp)
  · cases ha

end

theorem Session.Sourced.step {s : Session} (hs : s.Sourced V parse clientRandom)
    (op : HandshakeOp) : (handshakeStep V parse clientRandom s op).Sourced V parse clientRandom := by
  cases op with
  | noteClientHello =>
    dsimp only [handshakeStep]
    split
    · next hidle => exact ⟨hs.random, hs.server, fun _ => hs.unset (by simp [hidle]), hs.key⟩
    · exact hs
  | serverMessage m =>
    dsimp only [handshakeStep]
    split
    · exact hs
    next h ha =>
    split
    · exact Net.Sourced.accept hs ha
    · exact hs

end

/-- Whatever messages come, a flight that is built agrees on a key that the server signed, with
both randoms, under the leaf certificate of this handshake. -/
theorem flightKey_authenticated (V : Verifier) (parse : Bytes → Option Certificate)
    (clientRandom : Bytes) (room : Option ℕ) (ops : List HandshakeOp) (rest : Bytes → Bool)
    (key : Bytes) :
    let s := run (handshakeStep V parse clientRandom) ⟨netTlsHandshakeInit, room, []⟩ ops
    netTlsX25519ClientFlightBuild s.handshake rest = some key →
    ∃ c r, s.handshake.x509.serverX509 = some c ∧ s.handshake.serverRandom = some r ∧
      FromCertificate parse s.accepted c ∧ FromHello s.accepted r ∧
      FromKeyExchange V clientRandom s.accepted c r key := by
  intro s hbuild
  have hinit : Sourced V parse clientRandom netTlsHandshakeInit [] :=
    ⟨by simp [netTlsHandshakeInit], by simp [netTlsHandshakeInit], fun _ => rfl,
      fun hk => absurd rfl hk⟩
  have hs : s.Sourced V parse clientRandom := run_invariant_all (fun _ op hs => hs.step op) hinit
  obtain ⟨⟨-, -, -, -, hlen, -⟩, hkey⟩ := Option.ite_none_right_eq_some.mp hbuild
  cases hkey
  have hne : s.handshake.serverPublicKey ≠ [] := by
    intro hnil
    rw [hnil] at hlen
    cases hlen
  obtain ⟨c, r, hc, hr, hex⟩ := hs.key hne
  exact ⟨c, r, hc, hr, hs.server c hc, hs.random r hr, hex⟩

def sampleFlight : List HandshakeOp :=
  [.noteClientHello,
    .serverMessage ([2, 0, 0, 38, 3, 3] ++ List.replicate 32 7 ++ [0, 0xc0, 0x2b, 0]),
    .serverMessage [11, 0, 0, 7, 0, 0, 4, 0, 0, 1, 9],
    .serverMessage ([12, 0, 0, 41, 3, 0, 29, 32] ++ List.replicate 32 5 ++ [4, 3, 0, 1, 1]),
    .serverMessage [14, 0, 0, 0]]

theorem flightKey_authenticated_sample : let parse := fun _ => some (sampleCertificate [] [] [])
    let s := run (handshakeStep trusting parse []) ⟨netTlsHandshakeInit, some 200, []⟩ sampleFlight
    netTlsX25519ClientFlightBuild s.handshake (fun _ => true) = some (List.replicate 32 5) ∧
      ∃ c r, s.handshake.x509.serverX509 = some c ∧ s.handshake.serverRandom = some r ∧
        FromCertificate parse s.accepted c ∧ FromHello s.accepted r ∧
        FromKeyExchange trusting [] s.accepted c r (List.replicate 32 5) := by
  have hbuilt : netTlsX25519ClientFlightBuild (run (handshakeStep trusting
      (fun _ => some (sampleCertificate [] [] [])) []) ⟨netTlsHandshakeInit, some 200, []⟩
      sampleFlight).handshake (fun _ => true) = some (List.replicate 32 5) := by
    decide +kernel
  exact ⟨hbuilt, flightKey_authenticated _ _ _ _ _ _ _ hbuilt⟩

end Mohhdy.Net
