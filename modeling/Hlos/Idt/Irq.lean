import Hlos.Idt.Image

/-!
# Interrupt requests, from the device to the handler and back

The kernel of `idt.c` beside the processor and its interrupt controllers.  A
device requests its line at any time, the program runs, and while interrupts are
on the processor takes the first request, runs the stub and `irq_handler`, and
goes on with the program.
-/

set_option linter.style.nameCheck false

namespace Hlos.Idt

open Hlos.Lib Hlos.Lib.X86 Hlos.Lib.Pic8259 Hlos.Include Hlos.Gdt

/-- The pointer in `interrupt_handlers`. -/
def handlerAt (o : IdtObjects) (int_no : Nat) (m : Memory) : Word :=
  m.load32 (o.interrupt_handlers.toNat + 4 * int_no)

def registerInterruptHandler (o : IdtObjects) (n : BitVec 8) (h : Word)
    (m : Memory) : Memory :=
  m.store32 (o.interrupt_handlers.toNat + 4 * n.toNat) h

/-- Call a handler, if there is one. -/
def callHandler (body : Word → Word → Memory → Memory) (handler regs : Word)
    (m : Memory) : Memory :=
  if handler ≠ 0 then body handler regs m else m

/-- `body` says what a handler does to the memory. -/
def irqHandler (o : IdtObjects) (body : Word → Word → Memory → Memory)
    (regs : Word) (pics : Pics) (m : Memory) : Pics × Memory :=
  let int_no := (ptRegsAt regs.toNat m).int_no
  let pics := if 40 ≤ int_no.toNat then pics.outb 0xA0 0x20 else pics
  let pics := pics.outb 0x20 0x20
  (pics, callHandler body (handlerAt o int_no.toNat m) regs m)

/-- The kernel with the instructions at an address, its handlers and its
compiled functions. -/
structure Kernel extends Image where
  fetch : Word → List (Instr Label)
  body : Word → Word → Memory → Memory
  callee : Label → Pics → Cpu → Option (Pics × Cpu)

/-- What the linker and the compiler see to, and what is asked of the registered
handlers. -/
structure Kernel.Linked (k : Kernel) : Prop where
  placed : k.toImage.Placed
  fetch_stub : ∀ n : BitVec 8, n.toNat < 16 →
    k.fetch (k.stub (.irq n)) = code (.irq n)
  irqHandler : ∀ pics c, k.Calls c →
    let regs := c.mem.load32 ((c.reg .esp).toNat + 4)
    let result := irqHandler k.objects k.body regs pics c.mem
    ∃ returned, k.callee .irqHandler pics c = some (result.1, returned) ∧
      k.Returns c result.2 returned
  body : ∀ n < 256, ∀ (regs : Word) m, k.intact m →
    k.stackLow + k.stackNeed + 8 ≤ regs.toNat →
    regs.toNat + 56 ≤ k.stackHigh → handlerAt k.objects n m ≠ 0 →
    let m' := k.body (handlerAt k.objects n m) regs m
    k.intact m' ∧ ∀ position, k.Spared regs.toNat position →
      m'.bytes position = m.bytes position

/-- Pushing the context does not touch the registered handlers. -/
theorem handlerAt_seen {k : Image} {b : Board} {c seen : Cpu} {back : Word}
    {vector : BitVec 8} {error : Option (BitVec 32)} {addr : Nat}
    (placed : k.Placed) (runs : k.Runs b c)
    (isEsp : (c.reg .esp).toNat = addr + 64)
    (sees : HandlerSees back vector error c addr seen) :
    handlerAt k.objects vector.toNat seen.mem =
      handlerAt k.objects vector.toNat c.mem := by
  have small := vector.isLt
  apply sees.writes.load32_eq
  intro offset inside range
  have low := range.1
  have on := runs.onStack isEsp (by omega) range.2
  exact (placed.stack _ on).1 (Or.inl ⟨by omega, by omega⟩)

/-- A registered handler spares what it has to spare, and without a handler
nothing happens. -/
theorem callHandler_spares {k : Kernel} (linked : k.Linked) {n : Nat}
    (small : n < 256) {regs : Word} {m : Memory} (intact : k.intact m)
    (low : k.stackLow + k.stackNeed + 8 ≤ regs.toNat)
    (high : regs.toNat + 56 ≤ k.stackHigh) :
    let m' := callHandler k.body (handlerAt k.objects n m) regs m
    k.intact m' ∧ ∀ position, k.Spared regs.toNat position →
      m'.bytes position = m.bytes position := by
  intro m'
  by_cases isHandler : handlerAt k.objects n m ≠ 0
  · have called_ : m' = k.body (handlerAt k.objects n m) regs m :=
      if_pos isHandler
    rw [called_]
    exact linked.body n small regs m intact low high isHandler
  · have same : m' = m := if_neg isHandler
    rw [same]
    exact ⟨intact, fun _ _ => rfl⟩

/-! ## The lines and their vectors -/

/-- The vector of an input after `init_idt`. -/
def irqVector : Input → BitVec 8
  | .master line => 0x20 + BitVec.ofNat 8 line.val
  | .slave line => 0x28 + BitVec.ofNat 8 line.val

theorem irqVector_stub : ∀ input, ∃ n,
    stubOf (irqVector input) = some (.irq n) ∧ n.toNat < 16 ∧
      handlerOf (irqVector input) = .irqHandler ∧
      PushesError (irqVector input) none := by
  have master : ∀ line : Fin 8,
      stubOf (irqVector (.master line)) = some (.irq (BitVec.ofNat 8 line)) ∧
        (BitVec.ofNat 8 line).toNat < 16 ∧
        handlerOf (irqVector (.master line)) = .irqHandler ∧
        irqVector (.master line) ∉ errCodeVectors := by
    decide
  have slave : ∀ line : Fin 8,
      stubOf (irqVector (.slave line)) =
          some (.irq (BitVec.ofNat 8 (8 + line))) ∧
        (BitVec.ofNat 8 (8 + line)).toNat < 16 ∧
        handlerOf (irqVector (.slave line)) = .irqHandler ∧
        irqVector (.slave line) ∉ errCodeVectors := by
    decide
  intro input
  cases input with
  | master line =>
      obtain ⟨isStub, isLine, isHandler, noError⟩ := master line
      exact ⟨_, isStub, isLine, isHandler, by simpa [PushesError] using noError⟩
  | slave line =>
      obtain ⟨isStub, isLine, isHandler, noError⟩ := slave line
      exact ⟨_, isStub, isLine, isHandler, by simpa [PushesError] using noError⟩

theorem irqVector_master_lt : ∀ line : Fin 8,
    ¬ 40 ≤ ((irqVector (.master line)).setWidth 32).toNat := by
  decide

theorem irqVector_slave_le : ∀ line : Fin 8,
    40 ≤ ((irqVector (.slave line)).setWidth 32).toNat := by
  decide

/-- What `init_idt` leaves in the controllers, whatever they held before. -/
structure Configured (p : Pics) : Prop where
  cascaded : p.Cascaded
  vectors : ∀ input, p.vector input = irqVector input

theorem remapPics_configured (p : Pics) :
    Configured (remapPics p) ∧ (remapPics p).requested = fun _ => false := by
  refine ⟨⟨⟨⟨rfl, rfl, rfl, rfl, rfl⟩, ⟨rfl, rfl, rfl, rfl, rfl⟩, rfl, rfl,
    rfl⟩, ?_⟩, ?_⟩
  · intro input
    cases input <;> rfl
  · funext input
    cases input <;> rfl

theorem Configured.clear {p : Pics} (configured : Configured p)
    (input : Input) : Configured (p.clear input) where
  cascaded := configured.cascaded.clear input
  vectors other := (vector_clear input other p).trans (configured.vectors other)

theorem Configured.raise {p : Pics} (configured : Configured p)
    {input : Input} (isDevice : input ≠ .master 2) :
    Configured (p.raise input) where
  cascaded := configured.cascaded.raise isDevice
  vectors other := (vector_raise input other p).trans (configured.vectors other)

/-- `irq_handler` ends the interrupt in every controller that has it in
service. -/
theorem irqHandler_pics {p : Pics} (configured : Configured p)
    (o : IdtObjects) (body : Word → Word → Memory → Memory) {input : Input}
    {regs : Word} {m : Memory}
    (isVector : (ptRegsAt regs.toNat m).int_no =
      (irqVector input).setWidth 32) :
    (irqHandler o body regs (p.serve input) m).1 = p.clear input := by
  rw [irqHandler, isVector]
  cases input with
  | master line =>
      rw [if_neg (irqVector_master_lt line)]
      exact configured.cascaded.endOfInterrupt_master line
  | slave line =>
      rw [if_pos (irqVector_slave_le line)]
      exact configured.cascaded.endOfInterrupt_slave line

end Hlos.Idt
