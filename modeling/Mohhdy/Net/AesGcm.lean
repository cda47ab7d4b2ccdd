import Mohhdy.Foundations.Words

/-! AES-128 in Galois counter mode (aes_gcm.c, os_aes_ct.h). The S-box is the circuit of the source, on
the eight bit planes of a block. -/
namespace Mohhdy.Net
set_option autoImplicit false

/-! ## The S-box -/

def aesPlanes (q : List UInt32) : List UInt32 :=
  let x0 := q.getD 7 0; let x1 := q.getD 6 0; let x2 := q.getD 5 0; let x3 := q.getD 4 0
  let x4 := q.getD 3 0; let x5 := q.getD 2 0; let x6 := q.getD 1 0; let x7 := q.getD 0 0
  -- top linear transformation
  let y14 := x3 ^^^ x5; let y13 := x0 ^^^ x6; let y9 := x0 ^^^ x3; let y8 := x0 ^^^ x5
  let t0 := x1 ^^^ x2; let y1 := t0 ^^^ x7; let y4 := y1 ^^^ x3; let y12 := y13 ^^^ y14
  let y2 := y1 ^^^ x0; let y5 := y1 ^^^ x6; let y3 := y5 ^^^ y8; let t1 := x4 ^^^ y12
  let y15 := t1 ^^^ x5; let y20 := t1 ^^^ x1; let y6 := y15 ^^^ x7; let y10 := y15 ^^^ t0
  let y11 := y20 ^^^ y9; let y7 := x7 ^^^ y11; let y17 := y10 ^^^ y11; let y19 := y10 ^^^ y8
  let y16 := t0 ^^^ y11; let y21 := y13 ^^^ y16; let y18 := x0 ^^^ y16
  -- non-linear section
  let t2 := y12 &&& y15; let t3 := y3 &&& y6; let t4 := t3 ^^^ t2; let t5 := y4 &&& x7
  let t6 := t5 ^^^ t2; let t7 := y13 &&& y16; let t8 := y5 &&& y1; let t9 := t8 ^^^ t7
  let t10 := y2 &&& y7; let t11 := t10 ^^^ t7; let t12 := y9 &&& y11; let t13 := y14 &&& y17
  let t14 := t13 ^^^ t12; let t15 := y8 &&& y10; let t16 := t15 ^^^ t12; let t17 := t4 ^^^ t14
  let t18 := t6 ^^^ t16; let t19 := t9 ^^^ t14; let t20 := t11 ^^^ t16; let t21 := t17 ^^^ y20
  let t22 := t18 ^^^ y19; let t23 := t19 ^^^ y21; let t24 := t20 ^^^ y18; let t25 := t21 ^^^ t22
  let t26 := t21 &&& t23; let t27 := t24 ^^^ t26; let t28 := t25 &&& t27; let t29 := t28 ^^^ t22
  let t30 := t23 ^^^ t24; let t31 := t22 ^^^ t26; let t32 := t31 &&& t30; let t33 := t32 ^^^ t24
  let t34 := t23 ^^^ t33; let t35 := t27 ^^^ t33; let t36 := t24 &&& t35; let t37 := t36 ^^^ t34
  let t38 := t27 ^^^ t36; let t39 := t29 &&& t38; let t40 := t25 ^^^ t39; let t41 := t40 ^^^ t37
  let t42 := t29 ^^^ t33; let t43 := t29 ^^^ t40; let t44 := t33 ^^^ t37; let t45 := t42 ^^^ t41
  let z0 := t44 &&& y15; let z1 := t37 &&& y6; let z2 := t33 &&& x7; let z3 := t43 &&& y16
  let z4 := t40 &&& y1; let z5 := t29 &&& y7; let z6 := t42 &&& y11; let z7 := t45 &&& y17
  let z8 := t41 &&& y10; let z9 := t44 &&& y12; let z10 := t37 &&& y3; let z11 := t33 &&& y4
  let z12 := t43 &&& y13; let z13 := t40 &&& y5; let z14 := t29 &&& y2; let z15 := t42 &&& y9
  let z16 := t45 &&& y14; let z17 := t41 &&& y8
  -- bottom linear transformation
  let t46 := z15 ^^^ z16; let t47 := z10 ^^^ z11; let t48 := z5 ^^^ z13; let t49 := z9 ^^^ z10
  let t50 := z2 ^^^ z12; let t51 := z2 ^^^ z5; let t52 := z7 ^^^ z8; let t53 := z0 ^^^ z3
  let t54 := z6 ^^^ z7; let t55 := z16 ^^^ z17; let t56 := z12 ^^^ t48; let t57 := t50 ^^^ t53
  let t58 := z4 ^^^ t46; let t59 := z3 ^^^ t54; let t60 := t46 ^^^ t57; let t61 := z14 ^^^ t57
  let t62 := t52 ^^^ t58; let t63 := t49 ^^^ t58; let t64 := z4 ^^^ t59; let t65 := t61 ^^^ t62
  let t66 := z1 ^^^ t63; let s0 := t59 ^^^ t63; let s6 := t56 ^^^ ~~~t62; let s7 := t48 ^^^ ~~~t60
  let t67 := t64 ^^^ t65; let s3 := t53 ^^^ t66; let s4 := t51 ^^^ t66; let s5 := t47 ^^^ t65
  let s1 := t64 ^^^ ~~~s3; let s2 := t55 ^^^ ~~~t67
  [s7, s6, s5, s4, s3, s2, s1, s0]

def aesT8 (x : UInt64) : UInt64 :=
  let t := (x ^^^ (x >>> 7)) &&& 0x00AA00AA00AA00AA
  let x := x ^^^ t ^^^ (t <<< 7)
  let t := (x ^^^ (x >>> 14)) &&& 0x0000CCCC0000CCCC
  let x := x ^^^ t ^^^ (t <<< 14)
  let t := (x ^^^ (x >>> 28)) &&& 0x00000000F0F0F0F0
  x ^^^ t ^^^ (t <<< 28)

def packed (b : List UInt8) : UInt64 := b.foldr (fun byte word => word <<< 8 ||| byte.toUInt64) 0

def unpacked (x : UInt64) : List UInt8 := (List.range 8).map fun i => (x >>> (8 * UInt64.ofNat i)).toUInt8

def aesSubn (s : List UInt8) : List UInt8 :=
  let buf := (s ++ List.replicate 16 0).take 16
  let lo := unpacked (aesT8 (packed (buf.take 8)))
  let hi := unpacked (aesT8 (packed (buf.drop 8)))
  let q := aesPlanes (List.zipWith (fun (a b : UInt8) => a.toUInt32 ||| b.toUInt32 <<< (8 : UInt32)) lo hi)
  let lo := aesT8 (packed (q.map UInt32.toUInt8))
  let hi := aesT8 (packed (q.map fun plane : UInt32 => (plane >>> 8).toUInt8))
  (unpacked lo ++ unpacked hi).take s.length

/-! ## Blocks -/

def xtime (x : UInt8) : UInt8 := (x <<< 1) ^^^ ((0x1b : UInt8) &&& ((0 : UInt8) - (x >>> 7)))

def mulLoop : ℕ → UInt8 → UInt8 → UInt8 → UInt8
  | 0, _, _, result => result
  | n + 1, a, b, result => mulLoop n (xtime a) (b >>> 1) (if b &&& 1 = 0 then result else result ^^^ a)

def mul (a b : UInt8) : UInt8 := mulLoop 8 a b 0

def xorBytes (a b : List UInt8) : List UInt8 := List.zipWith (· ^^^ ·) a b

def shiftRows (s : List UInt8) : List UInt8 :=
  [0, 5, 10, 15, 4, 9, 14, 3, 8, 13, 2, 7, 12, 1, 6, 11].map fun i => s.getD i 0

def mixColumn (a b d e : UInt8) : List UInt8 :=
  [mul a 2 ^^^ mul b 3 ^^^ d ^^^ e, a ^^^ mul b 2 ^^^ mul d 3 ^^^ e, a ^^^ b ^^^ mul d 2 ^^^ mul e 3,
    mul a 3 ^^^ b ^^^ d ^^^ mul e 2]

def mixColumns (s : List UInt8) : List UInt8 :=
  (List.range 4).flatMap fun c =>
    mixColumn (s.getD (4 * c) 0) (s.getD (4 * c + 1) 0) (s.getD (4 * c + 2) 0) (s.getD (4 * c + 3) 0)

def rcon : List UInt8 := [1, 2, 4, 8, 16, 32, 64, 128, 27, 54]

def scheduleWord (keys : List UInt8) : List UInt8 :=
  let bytes := keys.length
  let temp := keys.drop (bytes - 4)
  let temp := if bytes % 16 = 0 then
      xorBytes (aesSubn (temp.drop 1 ++ temp.take 1)) [rcon.getD (bytes / 16 - 1) 0, 0, 0, 0]
    else temp
  keys ++ xorBytes ((keys.drop (bytes - 16)).take 4) temp

def aes128Init (key : List UInt8) : List UInt8 := (List.range 40).foldl (fun keys _ => scheduleWord keys) key

def aes128EncryptBlock (keys input : List UInt8) : List UInt8 :=
  let roundKey round := (keys.drop (16 * round)).take 16
  let state := (List.range 9).foldl (fun state round =>
    xorBytes (mixColumns (shiftRows (aesSubn state))) (roundKey (round + 1))) (xorBytes input (roundKey 0))
  xorBytes (shiftRows (aesSubn state)) (roundKey 10)

example : aes128EncryptBlock (aes128Init (List.replicate 16 0)) (List.replicate 16 0) =
    [0x66, 0xe9, 0x4b, 0xd4, 0xef, 0x8a, 0x2c, 0x3b, 0x88, 0x4c, 0xfa, 0x59, 0xca, 0x34, 0x2b, 0x2e] := by
  decide +kernel

/-! ## Authentication -/

def shiftRightOne (value : List UInt8) : List UInt8 :=
  List.zipWith (fun (byte before : UInt8) => (byte >>> 1) ||| ((before &&& 1) <<< 7)) value (0 :: value)

def bitOf (value : List UInt8) (i : ℕ) : Bool := (value.getD (i / 8) 0).toNat.testBit (7 - i % 8)

def ghashMultiply (value hash : List UInt8) : List UInt8 :=
  let step (zv : List UInt8 × List UInt8) i :=
    let z := if bitOf value i then xorBytes zv.1 zv.2 else zv.1
    let v := shiftRightOne zv.2
    (z, if bitOf zv.2 127 then xorBytes v (225 :: List.replicate 15 0) else v)
  ((List.range 128).foldl step (List.replicate 16 0, hash)).1

def ghashBlocks (hash : List UInt8) : ℕ → List UInt8 → List UInt8 → List UInt8
  | 0, state, _ => state
  | n + 1, state, data =>
    if data = [] then state
    else
      let block := data.take 16 ++ List.replicate (16 - data.length) 0
      ghashBlocks hash n (ghashMultiply (xorBytes state block) hash) (data.drop 16)

def ghashUpdate (hash state data : List UInt8) : List UInt8 := ghashBlocks hash data.length state data

def put64 (value : UInt64) : List UInt8 :=
  (List.range 8).map fun i => (value >>> (56 - 8 * UInt64.ofNat i)).toUInt8

def ghash (hash additional ciphertext : List UInt8) : List UInt8 :=
  let state := ghashUpdate hash (ghashUpdate hash (List.replicate 16 0) additional) ciphertext
  let lengths := put64 (UInt64.ofNat additional.length * 8) ++ put64 (UInt64.ofNat ciphertext.length * 8)
  ghashMultiply (xorBytes state lengths) hash

/-! ## Counter mode -/

def makeJ0 (fixedIv explicitNonce : List UInt8) : List UInt8 := fixedIv ++ explicitNonce ++ [0, 0, 0, 1]

def incrementCounter (counter : List UInt8) : List UInt8 :=
  let tail := ((counter.drop 12).foldr (fun (byte : UInt8) (acc : List UInt8 × Bool) =>
    if acc.2 then ((byte + 1) :: acc.1, byte + 1 = 0) else (byte :: acc.1, false)) ([], true)).1
  counter.take 12 ++ tail

def ctrLoop (keys : List UInt8) : ℕ → List UInt8 → List UInt8 → List UInt8
  | 0, _, _ => []
  | n + 1, counter, input =>
    if input = [] then []
    else
      let counter := incrementCounter counter
      xorBytes (input.take 16) (aes128EncryptBlock keys counter) ++ ctrLoop keys n counter (input.drop 16)

def ctrCrypt (keys j0 input : List UInt8) : List UInt8 := ctrLoop keys input.length j0 input

def aes128GcmDecrypt (key fixedIv explicitNonce additional ciphertext tag : List UInt8) : Option (List UInt8) :=
  let keys := aes128Init key
  let hash := aes128EncryptBlock keys (List.replicate 16 0)
  let j0 := makeJ0 fixedIv explicitNonce
  let auth := ghash hash additional ciphertext
  let mask := aes128EncryptBlock keys j0
  if xorBytes (xorBytes tag auth) mask = List.replicate 16 0 then some (ctrCrypt keys j0 ciphertext) else none

end Mohhdy.Net
