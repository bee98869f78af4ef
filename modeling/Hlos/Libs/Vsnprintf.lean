import Hlos.Libs.Conversions

/-!
# `libs/vsprintf.c`: `vsnprintf`

The argument list is a sequence of words, of which `long long` takes two.  The
format and the strings that are printed lie outside the memory that is written.
What `%n` stores is kept apart from the buffer, newest first, as the pointer
and the value.
-/

set_option linter.style.nameCheck false

namespace Hlos.Libs

open Hlos.Lib Hlos.Lib.Output Hlos.Include

/-- The words of the argument list and the bytes of the strings. -/
structure Arguments where
  words : Nat → Word
  bytes : Nat → Byte

/-- The local variables of the loop; `ap` counts the words read. -/
structure PrintState where
  fmt : List Byte
  ap : Nat
  spec : PrintfSpec
  num : BitVec 64
  out : Output
  counts : List (Word × Word)

def memcpy : (dest : Word) → (src : List Byte) → Memory → Memory
  | _, [], m => m
  | dest, c :: src, m => memcpy (dest + 1) src (m.store8 dest.toNat c)

def copyLiteral (limit : Word) (oldFmt : List Byte) (read : Nat) (o : Output) :
    Option Output :=
  let copy : Word := BitVec.ofNat 32 read
  let room := limit - o.cursor
  let copy := if room.toInt < copy.toInt then room else copy
  if o.cursor < limit then
    if copy.toNat ≤ oldFmt.length then
      some {
        cursor := o.cursor + BitVec.ofNat 32 read
        memory := memcpy o.cursor (oldFmt.take copy.toNat) o.memory }
    else none
  else
    some { o with cursor := o.cursor + BitVec.ofNat 32 read }

/-- `--field_width > 0`. -/
def charWidthLeft (fieldWidth : BitVec 16) : Bool :=
  0 < (fieldWidth - 1).toInt

/-- The case `FORMAT_TYPE_CHAR`. -/
def printChar (limit : Word) (arg : Word) (spec : PrintfSpec) (o : Output) :
    Option Output := do
  let (width, o) ← padIf (spec.flags &&& LEFT = 0) charWidthLeft (ch ' ')
    limit spec.fieldWidth o
  let o := emit limit (arg.setWidth 8) o
  let (_, o) ← padIf true charWidthLeft (ch ' ') limit width o
  return o

/-- The integer argument, and the position behind it.  `ssize_t` is unsigned,
and a `ptrdiff_t` is not read. -/
def fetch (args : Arguments) (type : FormatType) (num : BitVec 64)
    (ap : Nat) : BitVec 64 × Nat :=
  let word := args.words ap
  match type with
  | .longLong => (args.words (ap + 1) ++ word, ap + 2)
  | .long => (word.signExtend 64, ap + 1)
  | .ptrdiff => (num, ap)
  | .ubyte => ((word.setWidth 8).setWidth 64, ap + 1)
  | .byte => ((word.setWidth 8).signExtend 64, ap + 1)
  | .ushort => ((word.setWidth 16).setWidth 64, ap + 1)
  | .short => ((word.setWidth 16).signExtend 64, ap + 1)
  | .int => (word.signExtend 64, ap + 1)
  | _ => (word.setWidth 64, ap + 1)

def vsnTurn (args : Arguments) (buf limit : Word) (s : PrintState) :
    Option PrintState := do
  let (fmt, spec) ← formatDecode s.fmt s.spec
  let read := s.fmt.length - fmt.length
  let word := args.words s.ap
  let s' := { s with fmt := fmt, spec := spec }
  match spec.type with
  | .none => do
      let out ← copyLiteral limit s.fmt read s.out
      return { s' with out := out }
  | .width =>
      return { s' with
        spec := { spec with fieldWidth := word.setWidth 16 }, ap := s.ap + 1 }
  | .precision =>
      return { s' with
        spec := { spec with precision := word.setWidth 16 }, ap := s.ap + 1 }
  | .char => do
      let out ← printChar limit word spec s.out
      return { s' with out := out, ap := s.ap + 1 }
  | .str => do
      let out ← string limit args.bytes word spec s.out
      return { s' with out := out, ap := s.ap + 1 }
  | .ptr => return s'
  | .percentChar => return { s' with out := emit limit (ch '%') s.out }
  | .invalid => return { s' with out := emit limit (ch '%') s.out }
  | .nrchars =>
      -- The store through the pointer is noted and not made.
      return { s' with
        counts := (word, s.out.cursor - buf) :: s.counts, ap := s.ap + 1 }
  | type => do
      let (num, ap) := fetch args type s.num s.ap
      let out ← number limit num spec s.out
      return { s' with num := num, ap := ap, out := out }

def vsnLoop (args : Arguments) (buf limit : Word) :
    (fuel : Nat) → PrintState → Option PrintState
  | 0, _ => none
  | fuel + 1, s =>
      match s.fmt with
      | [] => none
      | c :: _ =>
          if c = 0 then some s
          else do
            let s ← vsnTurn args buf limit s
            vsnLoop args buf limit fuel s

/-- The return value, the memory without the stores of `%n`, and these. -/
structure PrintResult where
  value : Word
  memory : Memory
  counts : List (Word × Word)

/-- The variable `num` is not initialised. -/
def vsnprintf (args : Arguments) (num : BitVec 64) (buf size : Word)
    (fmt : List Byte) (m : Memory) : Option PrintResult :=
  if size.toInt < 0 then some ⟨0, m, []⟩
  else do
    let wraps : Bool := buf + size < buf
    let limit := if wraps then 0xFFFFFFFF else buf + size
    let size := if wraps then limit - buf else size
    let s ← vsnLoop args buf limit (2 * fmt.length + 1)
      ⟨fmt, 0, .zero, num, ⟨buf, m⟩, []⟩
    let memory :=
      if 0 < size then
        if s.out.cursor < limit then s.out.memory.store8 s.out.cursor.toNat 0
        else s.out.memory.store8 (limit - 1).toNat 0
      else s.out.memory
    return ⟨s.out.cursor - buf, memory, s.counts⟩

def vscnprintf (args : Arguments) (num : BitVec 64) (buf size : Word)
    (fmt : List Byte) (m : Memory) : Option (Word × PrintResult) := do
  let result ← vsnprintf args num buf size fmt m
  let i := result.value
  if i < size then return (i, result)
  else if size ≠ 0 then return (size - 1, result)
  else return (0, result)

end Hlos.Libs
