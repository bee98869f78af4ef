import Mathlib.Data.BitVec
import Mathlib.Data.Fin.Basic
import Mathlib.Data.List.FinRange
import Mathlib.Logic.Function.Basic

/-!
# A cascaded pair of 8259A interrupt controllers

A controller is set up by two to four initialisation words and then keeps, for
each of its eight lines, whether it is requested, masked and in service.  Lines
are edge triggered, priorities are fixed with line 0 first, and the second
controller feeds line 2 of the first, as on a PC.  The rotating priorities and
the special mask mode are left out.
-/

namespace Hlos.Lib

namespace Pic8259

/-- The initialisation word that a write to the data port will be taken as. -/
inductive Stage where
  | icw2 | icw3 | icw4 | ready
deriving DecidableEq, Repr

structure Pic where
  stage : Stage
  needsIcw4 : Bool
  single : Bool
  base : BitVec 8
  cascade : BitVec 8
  mode8086 : Bool
  autoEoi : Bool
  mask : BitVec 8
  request : Fin 8 → Bool
  inService : Fin 8 → Bool

def noLines : Fin 8 → Bool := fun _ => false

/-- The first line of a set. -/
def firstLine (lines : Fin 8 → Bool) : Option (Fin 8) :=
  (List.finRange 8).find? lines

namespace Pic

/-- A controller before its first setup. -/
def blank : Pic where
  stage := .ready
  needsIcw4 := false
  single := false
  base := 0
  cascade := 0
  mode8086 := false
  autoEoi := false
  mask := 0
  request := noLines
  inService := noLines

/-- The end of the interrupt with the highest priority. -/
def endOfInterrupt (p : Pic) : Pic :=
  match firstLine p.inService with
  | some line => { p with inService := Function.update p.inService line false }
  | none => p

/-- A write to the command port. -/
def writeCommand (value : BitVec 8) (p : Pic) : Pic :=
  if value.getLsbD 4 then
    { stage := .icw2, needsIcw4 := value.getLsbD 0,
      single := value.getLsbD 1, base := p.base, cascade := 0,
      mode8086 := false, autoEoi := false, mask := 0, request := noLines,
      inService := noLines }
  else if value.getLsbD 3 then p
  else if value.extractLsb' 5 3 = 1 then p.endOfInterrupt
  else if value.extractLsb' 5 3 = 3 then
    { p with
      inService := Function.update p.inService
        (Fin.ofNat 8 value.toNat) false }
  else p

/-- A write to the data port. -/
def writeData (value : BitVec 8) (p : Pic) : Pic :=
  match p.stage with
  | .icw2 =>
      { p with
        base := value &&& 0xF8
        stage :=
          if !p.single then .icw3 else if p.needsIcw4 then .icw4 else .ready }
  | .icw3 =>
      { p with
        cascade := value
        stage := if p.needsIcw4 then .icw4 else .ready }
  | .icw4 =>
      { p with
        mode8086 := value.getLsbD 0
        autoEoi := value.getLsbD 1
        stage := .ready }
  | .ready => { p with mask := value }

/-- The line that is presented to the processor: the first one that is
requested and not masked, unless a line of its priority or above is in
service. -/
def pending (p : Pic) : Option (Fin 8) :=
  match firstLine (fun line => p.request line && !p.mask.getLsbD line) with
  | some line =>
      match firstLine p.inService with
      | some served => if line < served then some line else none
      | none => some line
  | none => none

/-- The processor takes a line. -/
def serve (line : Fin 8) (p : Pic) : Pic :=
  { p with
    request := Function.update p.request line false
    inService :=
      if p.autoEoi then p.inService
      else Function.update p.inService line true }

def raise (line : Fin 8) (p : Pic) : Pic :=
  { p with request := Function.update p.request line true }

end Pic

/-- The two controllers. -/
structure Pics where
  master : Pic
  slave : Pic

/-- A line of one of the two controllers. -/
inductive Input where
  | master (line : Fin 8)
  | slave (line : Fin 8)
deriving DecidableEq, Repr

/-- The lines that lead to devices, by priority: line 2 of the first controller
has the whole second controller in its place. -/
def inputs : List Input :=
  [.master 0, .master 1] ++ (List.finRange 8).map .slave ++
    [.master 3, .master 4, .master 5, .master 6, .master 7]

namespace Pics

/-- The controllers behind the four ports. -/
def outb (port : BitVec 16) (value : BitVec 8) (p : Pics) : Pics :=
  if port = 0x20 then { p with master := p.master.writeCommand value }
  else if port = 0x21 then { p with master := p.master.writeData value }
  else if port = 0xA0 then { p with slave := p.slave.writeCommand value }
  else if port = 0xA1 then { p with slave := p.slave.writeData value }
  else p

/-- The first controller with the output of the second on its line 2. -/
def wired (p : Pics) : Pic :=
  { p.master with
    request := Function.update p.master.request 2 p.slave.pending.isSome }

/-- The processor acknowledges an interrupt and is told its vector.  The first
controller leaves the answer to the second one when its setup says that the
line is a cascade and the second one knows itself by that line. -/
def acknowledge (p : Pics) : Option (BitVec 8 × Pics) :=
  if p.master.mode8086 && p.slave.mode8086 then
    match p.wired.pending with
    | none => none
    | some line =>
        if p.master.cascade.getLsbD line then
          if p.slave.cascade.toNat % 8 = line.val then
            match p.slave.pending with
            | some second =>
                some (p.slave.base + BitVec.ofNat 8 second.val,
                  { master := p.master.serve line
                    slave := p.slave.serve second })
            | none => none
          else none
        else
          some (p.master.base + BitVec.ofNat 8 line.val,
            { p with master := p.master.serve line })
  else none

def requested (p : Pics) : Input → Bool
  | .master line => p.master.request line
  | .slave line => p.slave.request line

/-- A device requests its line. -/
def raise (input : Input) (p : Pics) : Pics :=
  match input with
  | .master line => { p with master := p.master.raise line }
  | .slave line => { p with slave := p.slave.raise line }

/-- The processor takes a line, through the first controller in any case. -/
def serve (input : Input) (p : Pics) : Pics :=
  match input with
  | .master line => { p with master := p.master.serve line }
  | .slave line =>
      { master := p.master.serve 2, slave := p.slave.serve line }

def vector (p : Pics) : Input → BitVec 8
  | .master line => p.master.base + BitVec.ofNat 8 line.val
  | .slave line => p.slave.base + BitVec.ofNat 8 line.val

/-- Drop a request. -/
def clear (input : Input) (p : Pics) : Pics :=
  match input with
  | .master line =>
      { p with master :=
          { p.master with request := Function.update p.master.request line false } }
  | .slave line =>
      { p with slave :=
          { p.slave with request := Function.update p.slave.request line false } }

end Pics

/-! ## A controller with nothing in service -/

/-- Set up for this processor, without masks, and with nothing in service. -/
structure Pic.Idle (p : Pic) : Prop where
  ready : p.stage = .ready
  mode8086 : p.mode8086 = true
  autoEoi : p.autoEoi = false
  mask : p.mask = 0
  inService : p.inService = noLines

/-- The pair is set up as a cascade over line 2, and nothing is in service. -/
structure Pics.Cascaded (p : Pics) : Prop where
  master : p.master.Idle
  slave : p.slave.Idle
  master_cascade : p.master.cascade = 4
  slave_cascade : p.slave.cascade = 2
  noDevice : p.master.request 2 = false

theorem firstLine_noLines : firstLine noLines = none := by
  decide

theorem firstLine_one :
    ∀ line : Fin 8, firstLine (Function.update noLines line true) =
      some line := by
  decide

/-- The lines before line 2, line 2 and the lines behind it. -/
theorem firstLine_split (lines : Fin 8 → Bool) :
    firstLine lines =
      ([0, 1].find? lines).or
        (([2].find? lines).or ([3, 4, 5, 6, 7].find? lines)) := by
  have order : List.finRange 8 = [0, 1] ++ ([2] ++ [3, 4, 5, 6, 7]) := by
    decide
  rw [firstLine, order, List.find?_append, List.find?_append]

namespace Pic

variable {p : Pic}

/-- With nothing in service the first request is pending. -/
theorem Idle.pending (idle : p.Idle) : p.pending = firstLine p.request := by
  have unmasked :
      (fun line : Fin 8 => p.request line && !p.mask.getLsbD line) =
        p.request := by
    funext line
    simp [idle.mask]
  rw [Pic.pending, unmasked, idle.inService, firstLine_noLines]
  cases firstLine p.request <;> rfl

/-- Serving a line and ending it only drops its request. -/
theorem Idle.endOfInterrupt_serve (idle : p.Idle) (line : Fin 8) :
    (p.serve line).endOfInterrupt =
      { p with request := Function.update p.request line false } := by
  have served : (p.serve line).inService =
      Function.update noLines line true := by
    simp [Pic.serve, idle.autoEoi, idle.inService]
  have ended :
      Function.update (Function.update noLines line true) line false =
        noLines := by
    rw [Function.update_idem]
    exact Function.update_eq_self line noLines
  rw [endOfInterrupt, served, firstLine_one]
  simp only [ended]
  rw [← idle.inService]
  rfl

theorem Idle.of_request (idle : p.Idle) (request : Fin 8 → Bool) :
    ({ p with request := request } : Pic).Idle :=
  ⟨idle.ready, idle.mode8086, idle.autoEoi, idle.mask, idle.inService⟩

/-- The command for the end of an interrupt. -/
theorem writeCommand_endOfInterrupt (p : Pic) :
    p.writeCommand 0x20 = p.endOfInterrupt := rfl

end Pic

/-- The inputs of the two controllers in three runs. -/
theorem find_inputs (p : Pics) :
    inputs.find? p.requested =
      (([0, 1].find? p.master.request).map Input.master).or
        (((firstLine p.slave.request).map Input.slave).or
          (([3, 4, 5, 6, 7].find? p.master.request).map Input.master)) := by
  have order : inputs =
      ([0, 1] : List (Fin 8)).map Input.master ++
        ((List.finRange 8).map Input.slave ++
          ([3, 4, 5, 6, 7] : List (Fin 8)).map Input.master) := rfl
  have onMaster : p.requested ∘ Input.master = p.master.request := rfl
  have onSlave : p.requested ∘ Input.slave = p.slave.request := rfl
  rw [order, List.find?_append, List.find?_append, List.find?_map,
    List.find?_map, List.find?_map, onMaster, onSlave, firstLine]

namespace Pics.Cascaded

variable {p : Pics}

/-- The first controller answers for its own lines. -/
theorem acknowledge_master (cascaded : p.Cascaded) {line : Fin 8}
    (pending : p.wired.pending = some line) (notWire : line ≠ 2) :
    p.acknowledge = some (p.vector (.master line), p.serve (.master line)) := by
  have notCascade : ∀ line : Fin 8, line ≠ 2 →
      (4 : BitVec 8).getLsbD line = false := by
    decide
  have own : p.master.cascade.getLsbD line = false := by
    rw [cascaded.master_cascade]
    exact notCascade line notWire
  simp only [Pics.acknowledge, cascaded.master.mode8086,
    cascaded.slave.mode8086, pending, own, vector, serve, Bool.and_self,
    if_true, Bool.false_eq_true, if_false]

/-- For line 2 the second controller answers. -/
theorem acknowledge_slave (cascaded : p.Cascaded) {line : Fin 8}
    (pending : p.wired.pending = some 2)
    (pendingSlave : p.slave.pending = some line) :
    p.acknowledge = some (p.vector (.slave line), p.serve (.slave line)) := by
  simp [Pics.acknowledge, cascaded.master.mode8086, cascaded.slave.mode8086,
    pending, pendingSlave, cascaded.master_cascade, cascaded.slave_cascade,
    vector, serve]

/-- Of a cascaded pair the processor takes the first input requested. -/
theorem acknowledge (cascaded : p.Cascaded) :
    p.acknowledge =
      (inputs.find? p.requested).map
        (fun input => (p.vector input, p.serve input)) := by
  have wiredPending : p.wired.pending = firstLine p.wired.request :=
    (cascaded.master.of_request _).pending
  have slavePending : p.slave.pending = firstLine p.slave.request :=
    cascaded.slave.pending
  have onWire : p.wired.request 2 = p.slave.pending.isSome := by
    simp [wired]
  have offWire {line : Fin 8} (notWire : line ≠ 2) :
      p.wired.request line = p.master.request line := by
    simp [wired, notWire]
  have before : [0, 1].find? p.wired.request =
      [0, 1].find? p.master.request := by
    simp [List.find?_cons, offWire]
  have behind : [3, 4, 5, 6, 7].find? p.wired.request =
      [3, 4, 5, 6, 7].find? p.master.request := by
    simp [List.find?_cons, offWire]
  have wire : [2].find? p.wired.request =
      if p.slave.pending.isSome then some 2 else none := by
    rw [List.find?_singleton, onWire]
  rw [firstLine_split, before, wire, behind] at wiredPending
  rw [find_inputs, ← slavePending]
  cases isFirst : [0, 1].find? p.master.request with
  | some line =>
      have member := List.mem_of_find?_eq_some isFirst
      rw [isFirst] at wiredPending
      refine cascaded.acknowledge_master wiredPending ?_
      intro isWire
      rw [isWire] at member
      exact absurd member (by decide)
  | none =>
      rw [isFirst] at wiredPending
      cases isSecond : p.slave.pending with
      | some line =>
          rw [isSecond] at wiredPending
          exact cascaded.acknowledge_slave wiredPending isSecond
      | none =>
          rw [isSecond] at wiredPending
          cases isThird : [3, 4, 5, 6, 7].find? p.master.request with
          | some line =>
              have member := List.mem_of_find?_eq_some isThird
              rw [isThird] at wiredPending
              refine cascaded.acknowledge_master wiredPending ?_
              intro isWire
              rw [isWire] at member
              exact absurd member (by decide)
          | none =>
              rw [isThird] at wiredPending
              have nothing : p.wired.pending = none := wiredPending
              simp [Pics.acknowledge, nothing]

/-- The commands at the end of an interrupt leave only the request dropped:
one for each controller that has the input in service. -/
theorem endOfInterrupt_master (cascaded : p.Cascaded) (line : Fin 8) :
    (p.serve (.master line)).outb 0x20 0x20 = p.clear (.master line) := by
  have ended := cascaded.master.endOfInterrupt_serve line
  simp only [outb, serve, clear, if_true, Pic.writeCommand_endOfInterrupt,
    ended]

theorem endOfInterrupt_slave (cascaded : p.Cascaded) (line : Fin 8) :
    ((p.serve (.slave line)).outb 0xA0 0x20).outb 0x20 0x20 =
      p.clear (.slave line) := by
  have endedMaster := cascaded.master.endOfInterrupt_serve 2
  have endedSlave := cascaded.slave.endOfInterrupt_serve line
  have sameRequest :
      Function.update p.master.request 2 false = p.master.request := by
    rw [Function.update_eq_iff]
    exact ⟨cascaded.noDevice.symm, fun _ _ => rfl⟩
  rw [sameRequest] at endedMaster
  have toSlave : (p.serve (.slave line)).outb 0xA0 0x20 =
      { master := p.master.serve 2
        slave := (p.slave.serve line).endOfInterrupt } := rfl
  have toMaster (q : Pics) : q.outb 0x20 0x20 =
      { q with master := q.master.endOfInterrupt } := rfl
  rw [toSlave, toMaster, endedMaster, endedSlave]
  rfl

theorem clear (cascaded : p.Cascaded) (input : Input) :
    (p.clear input).Cascaded := by
  obtain ⟨master, slave, masterCascade, slaveCascade, noDevice⟩ := cascaded
  cases input with
  | master line =>
      refine ⟨master.of_request _, slave, masterCascade, slaveCascade, ?_⟩
      simp only [Pics.clear, Function.update_apply, noDevice, ite_self]
  | slave line =>
      exact ⟨master, slave.of_request _, masterCascade, slaveCascade, noDevice⟩

theorem raise (cascaded : p.Cascaded) {input : Input}
    (isDevice : input ≠ .master 2) : (p.raise input).Cascaded := by
  obtain ⟨master, slave, masterCascade, slaveCascade, noDevice⟩ := cascaded
  cases input with
  | master line =>
      have notWire : 2 ≠ line := fun isWire => isDevice (by rw [isWire])
      exact ⟨master.of_request _, slave, masterCascade, slaveCascade,
        (Function.update_of_ne notWire _ _).trans noDevice⟩
  | slave line =>
      exact ⟨master, slave.of_request _, masterCascade, slaveCascade, noDevice⟩

end Pics.Cascaded

theorem requested_raise (input : Input) (p : Pics) :
    (p.raise input).requested = Function.update p.requested input true := by
  funext other
  cases input <;> cases other <;>
    simp [Pics.raise, Pics.requested, Pic.raise, Function.update_apply]

theorem requested_clear (input : Input) (p : Pics) :
    (p.clear input).requested = Function.update p.requested input false := by
  funext other
  cases input <;> cases other <;>
    simp [Pics.clear, Pics.requested, Function.update_apply]

theorem vector_raise (input other : Input) (p : Pics) :
    (p.raise input).vector other = p.vector other := by
  cases input <;> rfl

theorem vector_clear (input other : Input) (p : Pics) :
    (p.clear input).vector other = p.vector other := by
  cases input <;> rfl

/-- Every input but the wire between the controllers leads to a device. -/
theorem mem_inputs {input : Input} : input ∈ inputs ↔ input ≠ .master 2 := by
  cases input with
  | master line =>
      revert line
      decide
  | slave line =>
      revert line
      decide

end Pic8259

end Hlos.Lib
