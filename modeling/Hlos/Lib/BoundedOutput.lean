import Hlos.Lib.ByteMemory
import Mathlib.Data.Nat.Find
import Mathlib.Tactic.Ring

/-!
# Output to a bounded buffer

Characters are written at a cursor that advances with every character.  A
character is stored only while the cursor is below a limit, so that the cursor
counts what is printed and the memory keeps what fits.
-/

namespace Hlos.Lib

structure Output where
  cursor : BitVec 32
  memory : Memory

namespace Output

/-- `if (buf < end) *buf = c; ++buf;`. -/
def emit (limit : BitVec 32) (c : BitVec 8) (o : Output) : Output where
  cursor := o.cursor + 1
  memory :=
    if o.cursor < limit then o.memory.store8 o.cursor.toNat c else o.memory

def emitAll (limit : BitVec 32) : (text : List (BitVec 8)) → Output → Output
  | [], o => o
  | c :: text, o => emitAll limit text (emit limit c o)

/-- `while (again(count--))` around the output of one character. -/
def emitWhile {w : Nat} (again : BitVec w → Bool) (c : BitVec 8)
    (limit : BitVec 32) :
    (fuel : Nat) → BitVec w → Output → Option (BitVec w × Output)
  | 0, _, _ => none
  | fuel + 1, count, o =>
      if again count then
        emitWhile again c limit fuel (count - 1) (emit limit c o)
      else
        some (count - 1, o)

theorem emitAll_append (limit : BitVec 32) (first second : List (BitVec 8))
    (o : Output) :
    emitAll limit (first ++ second) o =
      emitAll limit second (emitAll limit first o) := by
  induction first generalizing o with
  | nil => rfl
  | cons c first inductionRest => exact inductionRest (emit limit c o)

/-! ## Loops that print one character -/

section Loops

variable {w : Nat} {again : BitVec w → Bool}

/-- The loop with this counter runs that often. -/
structure Repeats (again : BitVec w → Bool) (count : BitVec w)
    (times : Nat) : Prop where
  bound : times < 2 ^ w
  runs : ∀ turn, turn < times → again (count - BitVec.ofNat w turn) = true
  stops : again (count - BitVec.ofNat w times) = false

theorem sub_one_sub (count : BitVec w) (turn : Nat) :
    count - 1 - BitVec.ofNat w turn = count - BitVec.ofNat w (turn + 1) := by
  rw [BitVec.ofNat_add, BitVec.sub_sub, BitVec.add_comm]
  rfl

theorem emitWhile_eq {count : BitVec w} {times fuel : Nat}
    (runs : ∀ turn, turn < times → again (count - BitVec.ofNat w turn) = true)
    (stops : again (count - BitVec.ofNat w times) = false)
    (enough : times < fuel) (c : BitVec 8) (limit : BitVec 32) (o : Output) :
    emitWhile again c limit fuel count o =
      some (count - BitVec.ofNat w times - 1,
        emitAll limit (List.replicate times c) o) := by
  induction times generalizing count fuel o with
  | zero =>
      cases fuel with
      | zero => cases enough
      | succ fuel =>
          have start : count - BitVec.ofNat w 0 = count := BitVec.sub_zero count
          rw [start] at stops ⊢
          rw [emitWhile, stops]
          rfl
  | succ times inductionHypothesis =>
      cases fuel with
      | zero => cases enough
      | succ fuel =>
          have first := runs 0 (Nat.succ_pos times)
          have start : count - BitVec.ofNat w 0 = count := BitVec.sub_zero count
          rw [start] at first
          rw [emitWhile, if_pos first, ← sub_one_sub]
          apply inductionHypothesis
          · intro turn below
            rw [sub_one_sub]
            exact runs (turn + 1) (Nat.succ_lt_succ below)
          · rw [sub_one_sub]
            exact stops
          · exact Nat.lt_of_succ_lt_succ enough

theorem Repeats.emitWhile_eq {count : BitVec w} {times : Nat}
    (repeats : Repeats again count times) (c : BitVec 8) (limit : BitVec 32)
    (o : Output) :
    emitWhile again c limit (2 ^ w) count o =
      some (count - BitVec.ofNat w times - 1,
        emitAll limit (List.replicate times c) o) :=
  Output.emitWhile_eq repeats.runs repeats.stops repeats.bound c limit o

/-- A loop that runs on with every counter does not end. -/
theorem emitWhile_eq_none (always : ∀ count, again count = true) (c : BitVec 8)
    (limit : BitVec 32) (fuel : Nat) (count : BitVec w) (o : Output) :
    emitWhile again c limit fuel count o = none := by
  induction fuel generalizing count o with
  | zero => rfl
  | succ fuel inductionHypothesis =>
      rw [emitWhile, if_pos (always count)]
      exact inductionHypothesis (count - 1) (emit limit c o)

/-- A loop that ends at zero runs a certain number of times. -/
theorem exists_repeats (zero : again 0 = false) (count : BitVec w) :
    ∃ times, Repeats again count times := by
  have ends : ∃ times, again (count - BitVec.ofNat w times) = false := by
    refine ⟨count.toNat, ?_⟩
    rw [BitVec.ofNat_toNat, BitVec.setWidth_eq, BitVec.sub_self]
    exact zero
  refine ⟨Nat.find ends, ?_, ?_, Nat.find_spec ends⟩
  · apply Nat.lt_of_le_of_lt (Nat.find_min' ends _) count.isLt
    rw [BitVec.ofNat_toNat, BitVec.setWidth_eq, BitVec.sub_self]
    exact zero
  · intro turn below
    exact Bool.not_eq_false _ |>.mp (Nat.find_min ends below)

end Loops

/-! ## What is in the memory afterwards -/

section Memory

variable {limit : BitVec 32}

theorem emitAll_cursor (limit : BitVec 32) (text : List (BitVec 8))
    (o : Output) :
    (emitAll limit text o).cursor =
      o.cursor + BitVec.ofNat 32 text.length := by
  induction text generalizing o with
  | nil => exact (BitVec.add_zero o.cursor).symm
  | cons c text inductionRest =>
      rw [emitAll, inductionRest, List.length_cons, BitVec.ofNat_add,
        BitVec.add_comm (BitVec.ofNat 32 text.length), ← BitVec.add_assoc]
      rfl

theorem emitAll_cursor_toNat {text : List (BitVec 8)} {o : Output}
    (room : o.cursor.toNat + text.length < 2 ^ 32) :
    (emitAll limit text o).cursor.toNat = o.cursor.toNat + text.length := by
  rw [emitAll_cursor, BitVec.toNat_add, BitVec.toNat_ofNat, Nat.add_mod_mod]
  exact Nat.mod_eq_of_lt room

/-- A printed text has one length only. -/
theorem emitAll_length {text text' : List (BitVec 8)} {o : Output}
    (same : emitAll limit text o = emitAll limit text' o)
    (short : text.length < 2 ^ 32) (short' : text'.length < 2 ^ 32) :
    text.length = text'.length := by
  have cursors := congrArg Output.cursor same
  rw [emitAll_cursor, emitAll_cursor] at cursors
  have lengths := congrArg BitVec.toNat ((BitVec.add_right_inj _).mp cursors)
  rwa [BitVec.toNat_ofNat, BitVec.toNat_ofNat, Nat.mod_eq_of_lt short,
    Nat.mod_eq_of_lt short'] at lengths

theorem emit_memory_of_lt (c : BitVec 8) {o : Output}
    (below : o.cursor.toNat < limit.toNat) :
    (emit limit c o).memory = o.memory.store8 o.cursor.toNat c :=
  if_pos below

theorem emit_memory_of_not_lt (c : BitVec 8) {o : Output}
    (above : ¬ o.cursor.toNat < limit.toNat) :
    (emit limit c o).memory = o.memory :=
  if_neg above

theorem emit_cursor_toNat (c : BitVec 8) {o : Output}
    (room : o.cursor.toNat + 1 < 2 ^ 32) :
    (emit limit c o).cursor.toNat = o.cursor.toNat + 1 :=
  @emitAll_cursor_toNat limit [c] o room

theorem emit_bytes (c : BitVec 8) (o : Output) (position : Nat) :
    (emit limit c o).memory.bytes position =
      if position = o.cursor.toNat ∧ position < limit.toNat then c
      else o.memory.bytes position := by
  by_cases below : o.cursor.toNat < limit.toNat
  · rw [emit_memory_of_lt c below]
    by_cases same : position = o.cursor.toNat
    · rw [if_pos ⟨same, same ▸ below⟩]
      exact if_pos same
    · rw [if_neg fun both => same both.1]
      exact if_neg same
  · have outside : ¬ (position = o.cursor.toNat ∧ position < limit.toNat) := by
      omega
    rw [emit_memory_of_not_lt c below, if_neg outside]

theorem emit_writesWithin (c : BitVec 8) (o : Output) {range : Set Nat}
    (inside : o.cursor.toNat < limit.toNat → o.cursor.toNat ∈ range) :
    Memory.WritesWithin range o.memory (emit limit c o).memory := by
  by_cases below : o.cursor.toNat < limit.toNat
  · rw [emit_memory_of_lt c below]
    exact Memory.store8_writesWithin _ _ (inside below)
  · rw [emit_memory_of_not_lt c below]
    exact Memory.WritesWithin.refl range _

/-- The part of the text that is below the limit stands behind the cursor. -/
theorem emitAll_bytes {text : List (BitVec 8)} {o : Output}
    (room : o.cursor.toNat + text.length < 2 ^ 32) (position : Nat) :
    (emitAll limit text o).memory.bytes position =
      if o.cursor.toNat ≤ position ∧ position < limit.toNat then
        text[position - o.cursor.toNat]?.getD (o.memory.bytes position)
      else o.memory.bytes position := by
  induction text generalizing o with
  | nil =>
      split
      · rfl
      · rfl
  | cons c text inductionRest =>
      rw [List.length_cons] at room
      have next : (emit limit c o).cursor.toNat = o.cursor.toNat + 1 :=
        emit_cursor_toNat c (by omega)
      rw [emitAll, inductionRest, emit_bytes, next]
      · by_cases first : position = o.cursor.toNat
        · have notBehind : ¬ (o.cursor.toNat + 1 ≤ position ∧
              position < limit.toNat) := by omega
          rw [if_neg notBehind]
          by_cases below : position < limit.toNat
          · rw [if_pos ⟨first, below⟩, if_pos ⟨first.ge, below⟩, first,
              Nat.sub_self]
            rfl
          · rw [if_neg fun both => below both.2,
              if_neg fun both => below both.2]
        · have other : ¬ (position = o.cursor.toNat ∧
              position < limit.toNat) := fun both => first both.1
          rw [if_neg other]
          by_cases behind : o.cursor.toNat + 1 ≤ position ∧
              position < limit.toNat
          · have here : o.cursor.toNat ≤ position ∧
                position < limit.toNat := by omega
            have index : position - o.cursor.toNat =
                position - (o.cursor.toNat + 1) + 1 := by omega
            rw [if_pos behind, if_pos here, index, List.getElem?_cons_succ]
          · have notHere : ¬ (o.cursor.toNat ≤ position ∧
                position < limit.toNat) := by omega
            rw [if_neg behind, if_neg notHere]
      · rw [next]
        omega

/-- A text that fits stands behind the cursor. -/
theorem emitAll_stored {text : List (BitVec 8)} {o : Output}
    (fits : o.cursor.toNat + text.length ≤ limit.toNat) {i : Nat}
    (inside : i < text.length) :
    (emitAll limit text o).memory.bytes (o.cursor.toNat + i) = text[i] := by
  have bound := limit.isLt
  have here : o.cursor.toNat ≤ o.cursor.toNat + i ∧
      o.cursor.toNat + i < limit.toNat := by omega
  rw [emitAll_bytes (by omega), if_pos here, Nat.add_sub_cancel_left,
    List.getElem?_eq_getElem inside]
  rfl

/-- Nothing is written below the cursor or from the limit on. -/
theorem emitAll_writesWithin {text : List (BitVec 8)} {o : Output}
    (room : o.cursor.toNat + text.length < 2 ^ 32) {range : Set Nat}
    (inside : ∀ position, o.cursor.toNat ≤ position →
      position < limit.toNat → position ∈ range) :
    Memory.WritesWithin range o.memory (emitAll limit text o).memory := by
  induction text generalizing o with
  | nil => exact Memory.WritesWithin.refl range _
  | cons c text inductionRest =>
      rw [List.length_cons] at room
      have next : (emit limit c o).cursor.toNat = o.cursor.toNat + 1 :=
        emit_cursor_toNat c (by omega)
      have first : Memory.WritesWithin range o.memory
          (emit limit c o).memory :=
        emit_writesWithin c o (inside _ (Nat.le_refl _))
      apply first.trans
      apply inductionRest
      · rw [next]
        omega
      · intro position low high
        rw [next] at low
        exact inside position (Nat.le_of_succ_le low) high

/-- From the limit on nothing is stored. -/
theorem emitAll_memory_of_beyond {text : List (BitVec 8)} {o : Output}
    (room : o.cursor.toNat + text.length < 2 ^ 32)
    (beyond : limit.toNat ≤ o.cursor.toNat) :
    (emitAll limit text o).memory = o.memory := by
  induction text generalizing o with
  | nil => rfl
  | cons c text inductionRest =>
      rw [List.length_cons] at room
      have next : (emit limit c o).cursor.toNat = o.cursor.toNat + 1 :=
        emit_cursor_toNat c (by omega)
      rw [emitAll, inductionRest (by omega) (by omega)]
      exact emit_memory_of_not_lt c (Nat.not_lt.mpr beyond)

end Memory

/-! ## Code that prints a text -/

/-- The code prints one text, wherever the cursor stands and whatever the limit
is. -/
def Prints (run : BitVec 32 → Output → Option Output)
    (text : List (BitVec 8)) : Prop :=
  ∀ limit o, run limit o = some (emitAll limit text o)

def blank : Output := ⟨0, ⟨fun _ => 0, []⟩⟩

/-- The characters in front of the cursor. -/
def readBack (o : Output) : List (BitVec 8) :=
  (List.range o.cursor.toNat).map o.memory.bytes

/-- The text that code prints, as it stands in an empty buffer. -/
def printed (run : BitVec 32 → Output → Option Output) : List (BitVec 8) :=
  match run 0xFFFFFFFF blank with
  | some o => readBack o
  | none => []

theorem readBack_emitAll {text : List (BitVec 8)}
    (short : text.length < 2 ^ 32 - 1) :
    readBack (emitAll 0xFFFFFFFF text blank) = text := by
  have start : blank.cursor.toNat = 0 := rfl
  have room : blank.cursor.toNat + text.length < 2 ^ 32 := by
    rw [start]
    omega
  have cursor : (emitAll 0xFFFFFFFF text blank).cursor.toNat = text.length := by
    rw [emitAll_cursor_toNat room, start, Nat.zero_add]
  apply List.ext_getElem
  · rw [readBack, List.length_map, List.length_range, cursor]
  · intro index _ inText
    have below : blank.cursor.toNat ≤ index ∧
        index < (0xFFFFFFFF : BitVec 32).toNat := by
      rw [start]
      change 0 ≤ index ∧ index < 4294967295
      omega
    have stored := @emitAll_bytes 0xFFFFFFFF text blank room index
    rw [if_pos below, start, Nat.sub_zero, List.getElem?_eq_getElem inText]
      at stored
    simp only [readBack, List.getElem_map, List.getElem_range]
    exact stored

theorem Prints.printed_eq {run : BitVec 32 → Output → Option Output}
    {text : List (BitVec 8)} (prints : Prints run text)
    (short : text.length < 2 ^ 32 - 1) : printed run = text := by
  rw [printed, prints]
  exact readBack_emitAll short

end Output

end Hlos.Lib
