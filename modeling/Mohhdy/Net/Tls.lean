import Mohhdy.Net.Tcp
import Mohhdy.Net.AesGcm

/-! TLS records over a connection (net_tls_record.c, net_tcp.c): a segment whose payload is one encrypted
record is read and opened in one step. -/
namespace Mohhdy.Net
set_option autoImplicit false

open Words

structure TlsRecord where
  (contentType major minor : UInt8)
  payload : List UInt8
deriving DecidableEq

def tlsRecordParse (record : List UInt8) : Option TlsRecord :=
  if record.length < 5 ∨ record.getD 1 0 ≠ 3 ∨ record.getD 2 0 ≠ 3 then none
  else
    let payloadLength := (get16 (record.drop 3)).toNat
    if record.length < payloadLength + 5 ∨ record.getD 0 0 = 0 then none
    else some ⟨record.getD 0 0, record.getD 1 0, record.getD 2 0, (record.drop 5).take payloadLength⟩

def tlsRecordParseStream (stream : List UInt8) : Option (TlsRecord × UInt16) :=
  if stream.length < 5 then none
  else
    let total := 5 + get16 (stream.drop 3)
    if stream.length < total.toNat then none
    else (tlsRecordParse (stream.take total.toNat)).map fun record => (record, total)

structure TlsSession where
  readKey : Block 16
  readFixedIv : Block 4
  readSequence : UInt64
deriving DecidableEq

def put16 (v : UInt16) : List UInt8 := [(v >>> 8).toUInt8, v.toUInt8]

def tlsRecordOpen (record : List UInt8) (sequence : UInt64) (key : Block 16) (fixedIv : Block 4)
    (plaintextCapacity : UInt16) : Option TlsRecord :=
  (tlsRecordParse record).bind fun encrypted =>
    if encrypted.payload.length < 24 ∨ plaintextCapacity.toNat < encrypted.payload.length - 24 then none
    else
      let n := encrypted.payload.length - 24
      let additional := put64 sequence ++ [encrypted.contentType, encrypted.major, encrypted.minor] ++
        put16 (UInt16.ofNat n)
      let plaintext := aes128GcmDecrypt key.val fixedIv.val (encrypted.payload.take 8) additional
        ((encrypted.payload.drop 8).take n) ((encrypted.payload.drop (8 + n)).take 16)
      plaintext.map fun text => ⟨encrypted.contentType, encrypted.major, encrypted.minor, text⟩

def sessionOpen (session : TlsSession) (record : List UInt8) (plaintextCapacity : UInt16) :
    Option (TlsSession × TlsRecord) :=
  (tlsRecordOpen record session.readSequence session.readKey session.readFixedIv plaintextCapacity).map fun out =>
    ({ session with readSequence := session.readSequence + 1 }, out)

inductive TlsErr where
  | record | data | cipher
deriving DecidableEq

/-- A failure after the data was accepted restores the connection. -/
def connectionAcceptTlsAesGcm (c : Connection) (session : TlsSession) (v : View) (plaintextCapacity : UInt16) :
    Except TlsErr (Connection × TlsSession × TlsRecord) :=
  match tlsRecordParseStream v.data with
  | none => .error .record
  | some (_, consumed) =>
    if consumed ≠ v.payloadLength then .error .record
    else
      match connectionAcceptData c v with
      | .error _ => .error .data
      | .ok (c', accepted) =>
        if accepted ≠ consumed then .error .data
        else
          match sessionOpen session v.data plaintextCapacity with
          | none => .error .cipher
          | some (session', out) => .ok (c', session', out)

end Mohhdy.Net
