import WebSearch.Base.Bytes
import WebSearch.Library.LittleEndian
import Mathlib.Data.Nat.Bits

/-! `base/base64.cc` and the `modp_b64.cc` it uses, on a little-endian machine. A read or a
write outside a buffer is `none`. -/
namespace WebSearch.Base64
open Library

def CHARPAD : UInt8 := 61
def BADCHAR : Nat := 0x01FFFFFF

def alphabet : Bytes := "ABCDEFGHIJKLMNOPQRSTUVWXYZabcdefghijklmnopqrstuvwxyz0123456789+/".toUTF8.toList

def letter (value : Nat) : UInt8 := alphabet.getD value 0

def value (letter : UInt8) : Option Nat := alphabet.idxOf? letter

/-! The tables of `modp_b64_data.h`, each by the rule that gives its 256 entries. -/

def e0 (t : Nat) : UInt8 := letter (t >>> 2)
def e1 (t : Nat) : UInt8 := letter (t &&& 0x3F)
def e2 (t : Nat) : UInt8 := letter (t &&& 0x3F)

def table (place : Nat → Nat) (c : Nat) : Nat :=
  match value (UInt8.ofNat c) with
  | some v => place v
  | none => BADCHAR

def d0 : Nat → Nat := table fun v => v <<< 2
def d1 : Nat → Nat := table fun v => (v &&& 0x0F) <<< 12 ||| v >>> 4
def d2 : Nat → Nat := table fun v => (v &&& 0x03) <<< 22 ||| (v >>> 2) <<< 8
def d3 : Nat → Nat := table fun v => v <<< 16

def load (src : Bytes) (pos : Nat) : Option Nat :=
  if pos + 4 ≤ src.length then some (ofBytes ((src.drop pos).take 4)) else none

def store (dest : Bytes) (pos : Nat) (bytes : Bytes) : Option Bytes :=
  if pos + bytes.length ≤ dest.length then some (dest.take pos ++ bytes ++ dest.drop (pos + bytes.length)) else none

/-! `modp_b64_encode`. The position `p` in `dest` goes up with each byte that is written. -/

def encodeLoop (str : Bytes) (len : Int) (i p : Nat) (dest : Bytes) : Option (Nat × Nat × Bytes) :=
  if (i : Int) < len - 2 then do
    let t1 ← (str[i]?).map UInt8.toNat
    let t2 ← (str[i + 1]?).map UInt8.toNat
    let t3 ← (str[i + 2]?).map UInt8.toNat
    let dest ← store dest p [e0 t1,e1 ((t1 &&& 0x03) <<< 4 ||| (t2 >>> 4 &&& 0x0F)),
      e1 ((t2 &&& 0x0F) <<< 2 ||| (t3 >>> 6 &&& 0x03)),e2 t3]
    encodeLoop str len (i + 3) (p + 4) dest
  else some (i,p,dest)
termination_by (len - i).toNat

def encodeRest (str : Bytes) (len : Int) (i p : Nat) (dest : Bytes) : Option (Nat × Bytes) :=
  if len - i = 0 then some (p,dest)
  else if len - i = 1 then do
    let t1 ← (str[i]?).map UInt8.toNat
    let dest ← store dest p [e0 t1,e1 ((t1 &&& 0x03) <<< 4),CHARPAD,CHARPAD]
    return (p + 4,dest)
  else do
    let t1 ← (str[i]?).map UInt8.toNat
    let t2 ← (str[i + 1]?).map UInt8.toNat
    let dest ← store dest p [e0 t1,e1 ((t1 &&& 0x03) <<< 4 ||| (t2 >>> 4 &&& 0x0F)),e2 ((t2 &&& 0x0F) <<< 2),CHARPAD]
    return (p + 4,dest)

def modpB64Encode (dest str : Bytes) (len : Int) : Option (Int × Bytes) := do
  let (i,p,dest) ← encodeLoop str len 0 0 dest
  let (p,dest) ← encodeRest str len i p dest
  let dest ← store dest p [0]
  return (toInt32 p,dest)

/-! `modp_b64_decode`, which writes four bytes for three, over the last one of those before. -/

def unpadded (src : Bytes) (len : Nat) : Option Nat := do
  let last ← src[len - 1]?
  if last = CHARPAD then
    let before ← src[len - 2]?
    return if before = CHARPAD then len - 2 else len - 1
  else return len

def joined (y : Nat) : Nat :=
  d0 (y &&& 0xff) ||| d1 (y >>> 8 &&& 0xff) ||| d2 (y >>> 16 &&& 0xff) ||| d3 (y >>> 24 &&& 0xff)

def joinedTwo (y : Nat) : Nat := d0 (y &&& 0xff) ||| d1 (y >>> 8 &&& 0xff)

def joinedThree (y : Nat) : Nat := d0 (y &&& 0xff) ||| d1 (y >>> 8 &&& 0xff) ||| d2 (y >>> 16 &&& 0xff)

/-- The loop over the chunks from the `i`-th on, and whether there was no bad character. -/
def decodeLoop (src : Bytes) : Nat → Nat → Bytes → Option (Bool × Bytes)
  | 0,_,dest => some (true,dest)
  | chunks + 1,i,dest => do
    let y ← load src (4*i)
    let x := joined y
    if x ≥ BADCHAR then some (false,dest)
    else do
      let dest ← store dest (3*i) (toBytes 4 x)
      decodeLoop src chunks (i + 1) dest

def decodeRest (src : Bytes) (leftover chunks : Nat) (dest : Bytes) : Option (Int × Bytes) := do
  let y ← load src (4*chunks)
  if leftover = 0 then
    let x := joined y
    if x ≥ BADCHAR then some (-1,dest)
    else do
      let dest ← store dest (3*chunks) ((toBytes 4 x).take 3)
      some (((chunks + 1)*3 : Nat),dest)
  else do
    let x := if leftover = 1 then d0 (y &&& 0xff) else if leftover = 2 then joinedTwo y else joinedThree y
    let dest ← store dest (3*chunks) ((toBytes 4 x).take (if leftover ≤ 2 then 1 else 2))
    if x ≥ BADCHAR then some (-1,dest)
    else some ((3*chunks + 6*leftover / 8 : Nat),dest)

def modpB64Decode (dest src : Bytes) (len : Int) : Option (Int × Bytes) :=
  if len = 0 then some (0,dest)
  else if len < 4 ∨ len % 4 ≠ 0 then some (-1,dest)
  else do
    let len ← unpadded src len.toNat
    let leftover := len % 4
    let chunks := if leftover = 0 then len / 4 - 1 else len / 4
    let (good,dest) ← decodeLoop src chunks 0 dest
    if good then decodeRest src leftover chunks dest else some (-1,dest)

/-! The two functions of `base`. -/

def modpB64EncodeLen (n : Nat) : Nat := (n + 2) / 3*4 + 1
def modpB64DecodeLen (n : Nat) : Nat := n / 4*3 + 2

def resize (temp : Bytes) (n : Nat) : Bytes := temp.take n ++ List.replicate (n - temp.length) 0

/-- The inner result is `output` when the function returns true. -/
def base64Encode (input : Bytes) : Option (Option Bytes) := do
  let temp := resize [] (modpB64EncodeLen input.length)
  let (outputSize,temp) ← modpB64Encode temp input (toInt32 input.length)
  if outputSize < 0 then return none
  return some (resize temp outputSize.toNat)

def base64Decode (input : Bytes) : Option (Option Bytes) := do
  let temp := resize [] (modpB64DecodeLen input.length)
  let (outputSize,temp) ← modpB64Decode temp input (toInt32 input.length)
  if outputSize < 0 then return none
  return some (resize temp outputSize.toNat)

example : base64Encode "hello world".toUTF8.toList = some (some "aGVsbG8gd29ybGQ=".toUTF8.toList) := by decide +kernel

example : base64Decode "aGVsbG8gd29ybGQ=".toUTF8.toList = some (some "hello world".toUTF8.toList) := by decide +kernel

end WebSearch.Base64
