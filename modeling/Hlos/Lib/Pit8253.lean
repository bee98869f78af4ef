import Mathlib.Data.BitVec
import Mathlib.Logic.Function.Basic

/-!
# The 8253 interval timer

Three counters, each set up by a control word and then loaded with a count, as
one byte or as two.  A counter in mode 2 or 3 repeats with the count as its
period.  Reading the counters back is left out.
-/

namespace Hlos.Lib

namespace Pit8253

structure Counter where
  access : BitVec 2
  mode : BitVec 3
  decimal : Bool
  low : BitVec 8
  highNext : Bool
  count : Option (BitVec 16)

/-- A counter behind its control word waits for its count. -/
def Counter.setUp (value : BitVec 8) : Counter where
  access := value.extractLsb' 4 2
  mode := value.extractLsb' 1 3
  decimal := value.getLsbD 0
  low := 0
  highNext := false
  count := none

/-- A write to the port of a counter. -/
def Counter.load (value : BitVec 8) (counter : Counter) : Counter :=
  if counter.access = 1 then
    { counter with count := some (0#8 ++ value) }
  else if counter.access = 2 then
    { counter with count := some (value ++ 0#8) }
  else if counter.access = 3 then
    if counter.highNext then
      { counter with highNext := false, count := some (value ++ counter.low) }
    else
      { counter with highNext := true, low := value }
  else counter

/-- The number that a count stands for, of four decimal digits if it is not
binary. -/
def Counter.number (counter : Counter) (count : BitVec 16) : Nat :=
  if counter.decimal then
    (count.extractLsb' 0 4).toNat + 10 * (count.extractLsb' 4 4).toNat +
      100 * (count.extractLsb' 8 4).toNat + 1000 * (count.extractLsb' 12 4).toNat
  else count.toNat

/-- The input clocks from one output to the next; a count of zero is the
largest one. -/
def Counter.period (counter : Counter) : Option Nat :=
  if counter.mode.extractLsb' 1 1 = 1 then
    counter.count.map fun count =>
      if count = 0 then (if counter.decimal then 10000 else 65536)
      else counter.number count
  else none

inductive Index where
  | zero | one | two
deriving DecidableEq, Repr

structure Pit where
  counters : Index → Counter

/-- The counter that a control word selects; the fourth code selects none. -/
def selected (value : BitVec 8) : Option Index :=
  if value.extractLsb' 6 2 = 0 then some .zero
  else if value.extractLsb' 6 2 = 1 then some .one
  else if value.extractLsb' 6 2 = 2 then some .two
  else none

/-- A control word sets up a counter, unless it latches the count. -/
def Pit.control (value : BitVec 8) (pit : Pit) : Pit :=
  match selected value with
  | some index =>
      if value.extractLsb' 4 2 = 0 then pit
      else ⟨Function.update pit.counters index (Counter.setUp value)⟩
  | none => pit

def Pit.load (index : Index) (value : BitVec 8) (pit : Pit) : Pit :=
  ⟨Function.update pit.counters index ((pit.counters index).load value)⟩

def Pit.outb (port : BitVec 16) (value : BitVec 8) (pit : Pit) : Pit :=
  if port = 0x43 then pit.control value
  else if port = 0x40 then pit.load .zero value
  else if port = 0x41 then pit.load .one value
  else if port = 0x42 then pit.load .two value
  else pit

/-- The two bytes of a count, low byte first, whatever the counter was. -/
theorem setUp_load_load {value : BitVec 8}
    (access : value.extractLsb' 4 2 = 3) (low high : BitVec 8) :
    ((Counter.setUp value).load low).load high =
      { Counter.setUp value with low := low, count := some (high ++ low) } := by
  have first : (Counter.setUp value).load low =
      { Counter.setUp value with highNext := true, low := low } := by
    simp [Counter.load, Counter.setUp, access]
  rw [first]
  simp [Counter.load, Counter.setUp, access]

end Pit8253

end Hlos.Lib
