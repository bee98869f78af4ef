import Hlos.Libs.Vsprintf
import Hlos.Lib.BoundedOutput

/-!
# `libs/vsprintf.c`: the conversions

`string` and `number` print one argument, `put_dec` writes decimal digits.
The digits are collected in `tmp`, an array of 66 characters; a store behind
its end has no result, and neither has a use of the null pointer that `put_dec`
returns for large values.

A string is given by its bytes at the offsets from its start.
-/

set_option linter.style.nameCheck false

namespace Hlos.Libs

open Hlos.Lib Hlos.Lib.Output Hlos.Include

/-- At most `count` bytes are searched. -/
def strnlen (s : Nat → Byte) : (count : Nat) → Nat
  | 0 => 0
  | count + 1 =>
      if s 0 = 0 then 0 else strnlen (fun i => s (i + 1)) count + 1

def nullText : List Byte :=
  [ch '(', ch 'n', ch 'u', ch 'l', ch 'l', ch ')']

/-- `len < field_width` before the decrement. -/
def shorterThan (len : Word) (fieldWidth : BitVec 16) : Bool :=
  len.toInt < fieldWidth.toInt

/-- A padding loop behind a test of the flags. -/
def padIf (pads : Bool) (again : BitVec 16 → Bool) (c : Byte) (limit : Word)
    (count : BitVec 16) (o : Output) : Option (BitVec 16 × Output) :=
  if pads then emitWhile again c limit (2 ^ 16) count o else some (count, o)

/-- The loop over the characters of the string. -/
def stringLoop (limit : Word) (s : Nat → Byte) :
    (left i : Nat) → Output → Output
  | 0, _, o => o
  | left + 1, i, o => stringLoop limit s left (i + 1) (emit limit (s i) o)

/-- The bytes that `string` prints from. -/
def stringSource (bytes : Nat → Byte) (s : Word) (offset : Nat) : Byte :=
  if s < PAGE_SIZE then nullText.getD offset 0
  else bytes (s + BitVec.ofNat 32 offset).toNat

def string (limit : Word) (bytes : Nat → Byte) (s : Word) (spec : PrintfSpec)
    (o : Output) : Option Output := do
  let source := stringSource bytes s
  let len : Word :=
    BitVec.ofNat 32 (strnlen source (spec.precision.signExtend 32).toNat)
  let (width, o) ← padIf (spec.flags &&& LEFT = 0) (shorterThan len) (ch ' ')
    limit spec.fieldWidth o
  let o := stringLoop limit source len.toInt.toNat 0 o
  let (_, o) ← padIf true (shorterThan len) (ch ' ') limit width o
  return o

/-! ## Digits -/

/-- `tmp[i++] = c`. -/
def push (tmp : List Byte) (c : Byte) : Option (List Byte) :=
  if tmp.length < 66 then some (tmp ++ [c]) else none

/-- The loop of `put_dec_trunc8`.  Every turn divides by ten. -/
def truncLoop : (fuel : Nat) → (tmp : List Byte) → (r : Word) →
    Option (List Byte × Word)
  | 0, _, _ => none
  | fuel + 1, tmp, r =>
      if 10000 ≤ r.toNat then do
        let q := r + (ch '0').setWidth 32
        let r : Word :=
          ((r.setWidth 64 * (0x1999999A : BitVec 64)) >>> 20 >>> 12).setWidth 32
        let tmp ← push tmp ((q - 10 * r).setWidth 8)
        truncLoop fuel tmp r
      else
        some (tmp, r)

def putDecTrunc8 (tmp : List Byte) (r : Word) : Option (List Byte) := do
  let zero : Word := (ch '0').setWidth 32
  let (tmp, r) ← truncLoop 16 tmp r
  let q := (r * 0x199A) >>> 16
  let tmp ← push tmp ((r - 10 * q + zero).setWidth 8)
  if q = 0 then
    return tmp
  else do
    let r := (q * 0xCD) >>> 11
    let tmp ← push tmp ((q - 10 * r + zero).setWidth 8)
    if r = 0 then
      return tmp
    else do
      let q := (r * 0xCD) >>> 11
      let tmp ← push tmp ((r - 10 * q + zero).setWidth 8)
      if q = 0 then
        return tmp
      else
        push tmp ((q + zero).setWidth 8)

def putDec (tmp : List Byte) (n : BitVec 64) : Option (List Byte) :=
  if n.toNat < 100 * 1000 * 1000 then putDecTrunc8 tmp (n.setWidth 32)
  else none

def digits : List Byte :=
  ['0', '1', '2', '3', '4', '5', '6', '7', '8', '9', 'A', 'B', 'C', 'D', 'E',
    'F'].map ch

/-- The loop for the bases eight and sixteen. -/
def digitLoop (mask : Byte) (shift : Nat) (locase : Byte) :
    (fuel : Nat) → (tmp : List Byte) → (num : BitVec 64) → Option (List Byte)
  | 0, _, _ => none
  | fuel + 1, tmp, num => do
      let digit ← digits[(num.setWidth 8 &&& mask).toNat]?
      let tmp ← push tmp (digit ||| locase)
      let num := num >>> shift
      if num = 0 then return tmp
      else digitLoop mask shift locase fuel tmp num

/-- The characters of `tmp`, in reverse order. -/
def numberDigits (num : BitVec 64) (base locase : Byte) :
    Option (List Byte) :=
  if num.toNat < base.toNat then do
    let digit ← digits[num.toNat]?
    push [] (digit ||| locase)
  else if base ≠ 10 then
    digitLoop (base - 1) (if base = 16 then 4 else 3) locase 64 [] num
  else
    putDec [] num

/-! ## Numbers -/

/-- The sign, the number without it and the width that is left. -/
structure SignedNumber where
  sign : List Byte
  num : BitVec 64
  fieldWidth : BitVec 16

def numberSign (num : BitVec 64) (spec : PrintfSpec) : SignedNumber :=
  if spec.flags &&& SIGN ≠ 0 then
    if num.toInt < 0 then ⟨[ch '-'], -num, spec.fieldWidth - 1⟩
    else if spec.flags &&& PLUS ≠ 0 then
      ⟨[ch '+'], num, spec.fieldWidth - 1⟩
    else if spec.flags &&& SPACE ≠ 0 then
      ⟨[ch ' '], num, spec.fieldWidth - 1⟩
    else ⟨[], num, spec.fieldWidth⟩
  else ⟨[], num, spec.fieldWidth⟩

def needPfx (spec : PrintfSpec) : Bool :=
  spec.flags &&& SPECIAL ≠ 0 ∧ spec.base ≠ 10

/-- The width that the prefix leaves. -/
def prefixWidth (num : BitVec 64) (spec : PrintfSpec) (width : BitVec 16) :
    BitVec 16 :=
  if needPfx spec then
    if spec.base = 16 then width - 2
    else if num ≠ 0 then width - 1
    else width
  else width

def prefixText (num : BitVec 64) (spec : PrintfSpec) : List Byte :=
  if needPfx spec then
    (if spec.base = 16 ∨ num ≠ 0 then [ch '0'] else []) ++
      (if spec.base = 16 then [ch 'X' ||| (spec.flags &&& SMALL)] else [])
  else []

/-- The flags with the padding by zeros cancelled. -/
def numberFlags (spec : PrintfSpec) : Byte :=
  if spec.flags &&& LEFT ≠ 0 then spec.flags &&& ~~~ZEROPAD else spec.flags

/-- `--field_width >= 0`. -/
def widthLeft (fieldWidth : BitVec 16) : Bool := 0 ≤ (fieldWidth - 1).toInt

/-- `i <= --precision`. -/
def precisionLeft (i : Nat) (precision : BitVec 16) : Bool :=
  (i : Int) ≤ (precision - 1).toInt

/-- The precision that is at least the number of digits. -/
def raisedPrecision (i : Nat) (precision : BitVec 16) : BitVec 16 :=
  if precision.toInt < (i : Int) then BitVec.ofNat 16 i else precision

def number (limit : Word) (num : BitVec 64) (spec : PrintfSpec) (o : Output) :
    Option Output := do
  let flags := numberFlags spec
  let signed := numberSign num spec
  let width := prefixWidth num spec signed.fieldWidth
  let tmp ← numberDigits signed.num spec.base (spec.flags &&& SMALL)
  let precision := raisedPrecision tmp.length spec.precision
  let width := width - precision
  let (width, o) ← padIf (flags &&& (ZEROPAD + LEFT) = 0) widthLeft (ch ' ')
    limit width o
  let o := emitAll limit signed.sign o
  let o := emitAll limit (prefixText num spec) o
  let fill := if flags &&& ZEROPAD ≠ 0 then ch '0' else ch ' '
  let (width, o) ← padIf (flags &&& LEFT = 0) widthLeft fill limit width o
  let (_, o) ← padIf true (precisionLeft tmp.length) (ch '0') limit precision o
  let o := emitAll limit tmp.reverse o
  let (_, o) ← padIf true widthLeft (ch ' ') limit width o
  return o

end Hlos.Libs
