import Hlos.Include.Page
import Hlos.Lib.Scan

/-!
# `libs/vsprintf.c`: the format

The format is read by `format_decode`.  A position in the format is the list of
the characters from there on, with the terminating zero in it; reading behind
the end of the list has no result.  The number of characters read is the
difference of two lengths.
-/

set_option linter.style.nameCheck false

namespace Hlos.Libs

open Hlos.Lib

/-- A `char`. -/
abbrev Byte := BitVec 8

def ch (c : Char) : Byte := BitVec.ofNat 8 c.toNat

/-- `_ctype` marks these characters as digits and no others. -/
def isdigit (c : Byte) : Bool := decide (0x30 ≤ c.toNat ∧ c.toNat ≤ 0x39)

def _tolower (c : Byte) : Byte := c ||| 0x20

def ZEROPAD : Byte := 1

def SIGN : Byte := 2

def PLUS : Byte := 4

def SPACE : Byte := 8

def LEFT : Byte := 16

def SMALL : Byte := 32

def SPECIAL : Byte := 64

inductive FormatType where
  | none
  | width
  | precision
  | char
  | str
  | ptr
  | percentChar
  | invalid
  | longLong
  | ulong
  | long
  | ubyte
  | byte
  | ushort
  | short
  | uint
  | int
  | nrchars
  | sizeT
  | ptrdiff
deriving DecidableEq, Repr

structure PrintfSpec where
  type : FormatType
  flags : Byte
  base : Byte
  qualifier : Byte
  fieldWidth : BitVec 16
  precision : BitVec 16
deriving DecidableEq, Repr

/-- `struct printf_spec spec = {0}`. -/
def PrintfSpec.zero : PrintfSpec := ⟨.none, 0, 0, 0, 0, 0⟩

/-- One turn of `skip_atoi`. -/
def atoiStep (c : Byte) (i : BitVec 32) : Option (BitVec 32) :=
  if isdigit c then some (i * 10 + c.signExtend 32 - (ch '0').signExtend 32)
  else none

def skipAtoi (fmt : List Byte) : Option (List Byte × BitVec 32) :=
  scan atoiStep fmt 0

/-- One turn of the loop over the literal characters. -/
def literalStep (c : Byte) (_ : Unit) : Option Unit :=
  if c = 0 ∨ c = ch '%' then none else some ()

/-- One turn of the loop over the flags, behind its `++fmt`. -/
def flagStep (c : Byte) (flags : Byte) : Option Byte :=
  if c = ch '-' then some (flags ||| LEFT)
  else if c = ch '+' then some (flags ||| PLUS)
  else if c = ch ' ' then some (flags ||| SPACE)
  else if c = ch '#' then some (flags ||| SPECIAL)
  else if c = ch '0' then some (flags ||| ZEROPAD)
  else none

/-- The type of an integer conversion. -/
def integerType (qualifier flags : Byte) : FormatType :=
  let signed := flags &&& SIGN ≠ 0
  if qualifier = ch 'L' then .longLong
  else if qualifier = ch 'l' then if signed then .long else .ulong
  else if _tolower qualifier = ch 'z' then .sizeT
  else if qualifier = ch 't' then .ptrdiff
  else if qualifier = ch 'H' then if signed then .byte else .ubyte
  else if qualifier = ch 'h' then if signed then .short else .ushort
  else if signed then .int
  else .uint

/-- The code from `default base` on. -/
def decodeConversion (fmt : List Byte) (spec : PrintfSpec) :
    Option (List Byte × PrintfSpec) :=
  let spec := { spec with base := 10 }
  let integer (rest : List Byte) (spec : PrintfSpec) :=
    some (rest, { spec with type := integerType spec.qualifier spec.flags })
  match fmt with
  | [] => none
  | c :: rest =>
      if c = ch 'c' then some (rest, { spec with type := .char })
      else if c = ch 's' then some (rest, { spec with type := .str })
      else if c = ch 'p' then some (c :: rest, { spec with type := .ptr })
      else if c = ch 'n' then some (rest, { spec with type := .nrchars })
      else if c = ch '%' then some (rest, { spec with type := .percentChar })
      else if c = ch 'o' then integer rest { spec with base := 8 }
      else if c = ch 'x' then
        integer rest { spec with flags := spec.flags ||| SMALL, base := 16 }
      else if c = ch 'X' then integer rest { spec with base := 16 }
      else if c = ch 'd' ∨ c = ch 'i' then
        integer rest { spec with flags := spec.flags ||| SIGN }
      else if c = ch 'u' then integer rest spec
      else some (c :: rest, { spec with type := .invalid })

/-- The characters that are taken as a qualifier. -/
def isQualifier (c : Byte) : Bool :=
  c = ch 'h' ∨ _tolower c = ch 'l' ∨ _tolower c = ch 'z' ∨ c = ch 't'

/-- The code from the label `qualifier` on. -/
def decodeQualifier (fmt : List Byte) (spec : PrintfSpec) :
    Option (List Byte × PrintfSpec) :=
  match fmt with
  | [] => none
  | c :: rest =>
      if isQualifier c then
        match rest with
        | [] => none
        | next :: rest' =>
            if c ≠ next ∧ c = ch 'l' then
              decodeConversion rest' { spec with qualifier := ch 'L' }
            else if c ≠ next ∧ c = ch 'h' then
              decodeConversion rest' { spec with qualifier := ch 'H' }
            else
              decodeConversion rest { spec with qualifier := c }
      else
        decodeConversion fmt { spec with qualifier := 0xFF }

/-- Where the code before the label `qualifier` ends: it returns, or it goes on
to the qualifier. -/
inductive Decoding where
  | returned (fmt : List Byte) (spec : PrintfSpec)
  | qualifier (fmt : List Byte) (spec : PrintfSpec)

/-- The code from the label `precision` up to the label `qualifier`. -/
def decodePrecision (fmt : List Byte) (spec : PrintfSpec) : Option Decoding :=
  let spec := { spec with precision := -1 }
  match fmt with
  | [] => none
  | c :: rest =>
      if c = ch '.' then
        match rest with
        | [] => none
        | next :: rest' =>
            if isdigit next then do
              let (fmt, i) ← skipAtoi rest
              let precision := i.setWidth 16
              return .qualifier fmt { spec with
                precision := if precision.toInt < 0 then 0 else precision }
            else if next = ch '*' then
              some (.returned rest' { spec with type := .precision })
            else
              some (.qualifier rest spec)
      else
        some (.qualifier fmt spec)

/-- The code from `get field width` on. -/
def decodeWidth (fmt : List Byte) (spec : PrintfSpec) : Option Decoding :=
  let spec := { spec with fieldWidth := -1 }
  match fmt with
  | [] => none
  | c :: rest =>
      if isdigit c then do
        let (fmt, i) ← skipAtoi fmt
        decodePrecision fmt { spec with fieldWidth := i.setWidth 16 }
      else if c = ch '*' then
        some (.returned rest { spec with type := .width })
      else
        decodePrecision fmt spec

/-- The code of a call that does not resume a directive. -/
def decodeToken (fmt : List Byte) (spec : PrintfSpec) : Option Decoding := do
  let spec := { spec with type := .none }
  let (rest, _) ← scan literalStep fmt ()
  match rest with
  | [] => none
  | c :: directive =>
      if rest.length ≠ fmt.length ∨ c = 0 then
        return .returned rest spec
      else do
        let (fmt, flags) ← scan flagStep directive 0
        decodeWidth fmt { spec with flags := flags }

/-- The code before the label `qualifier`. -/
def decodeToQualifier (fmt : List Byte) (spec : PrintfSpec) :
    Option Decoding :=
  if spec.type = .width then
    if spec.fieldWidth.toInt < 0 then
      decodePrecision fmt { spec with
        fieldWidth := -spec.fieldWidth, flags := spec.flags ||| LEFT,
        type := .none }
    else
      decodePrecision fmt { spec with type := .none }
  else if spec.type = .precision then
    some (.qualifier fmt { spec with
      precision := if spec.precision.toInt < 0 then 0 else spec.precision,
      type := .none })
  else
    decodeToken fmt spec

/-- The result is the position behind what was read, and the new `*spec`. -/
def formatDecode (fmt : List Byte) (spec : PrintfSpec) :
    Option (List Byte × PrintfSpec) := do
  match ← decodeToQualifier fmt spec with
  | .returned fmt spec => return (fmt, spec)
  | .qualifier fmt spec => decodeQualifier fmt spec

end Hlos.Libs
