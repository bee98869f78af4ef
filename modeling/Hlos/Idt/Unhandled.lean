import Hlos.Drivers.Printk
import Hlos.Idt.Irq

/-!
# Interrupts without a handler

`isr_handler` calls the registered handler of the vector.  If there is none, it
prints a message, and the interrupted program goes on.
-/

namespace Hlos.Idt

open Hlos.Lib Hlos.Lib.X86 Hlos.Include Hlos.Libs Hlos.Drivers Hlos.Gdt

def unhandledBefore : List Byte :=
  [ch 'U', ch 'n', ch 'h', ch 'a', ch 'n', ch 'd', ch 'l', ch 'e', ch 'd',
    ch ' ', ch 'i', ch 'n', ch 't', ch 'e', ch 'r', ch 'r', ch 'u', ch 'p',
    ch 't', ch ':', ch ' ']

def unhandledBehind : List Byte := [0x0A]

/-- `"Unhandled interrupt: %d\n"`. -/
def unhandledFormat : Format := numberLine unhandledBefore unhandledBehind

/-- The text for a vector. -/
def unhandledText (vector : BitVec 8) : List Byte :=
  messageText unhandledBefore unhandledBehind (vector.setWidth 32)

/-- `body` says what a registered handler does. -/
def isrHandler (o : IdtObjects) (textbuf : Word) (num : BitVec 64)
    (body : Word → Word → PrintkState → Option PrintkState) (regs : Word)
    (s : PrintkState) : Option PrintkState :=
  let int_no := (ptRegsAt regs.toNat s.memory).int_no
  let handler := handlerAt o int_no.toNat s.memory
  if handler ≠ 0 then body handler regs s
  else do
    let (_, s) ← printk textbuf (oneArgument int_no s.memory) num
      unhandledFormat.chars s
    return s

/-- What the kernel prints, beside the memory. -/
structure Terminal where
  console : Console
  counts : List (Word × Word)

/-- The kernel, as far as `isr_handler` needs it. -/
structure IsrKernel extends Image where
  textbuf : Word
  num : BitVec 64
  body : Word → Word → PrintkState → Option PrintkState
  callee : Label → Terminal → Cpu → Option (Terminal × Cpu)

/-- What the linker and the compiler see to. -/
structure IsrKernel.Linked (k : IsrKernel) : Prop where
  placed : k.toImage.Placed
  isrHandler : ∀ (w : Terminal) (c : Cpu) result, k.Calls c →
    isrHandler k.objects k.textbuf k.num k.body
        (c.mem.load32 ((c.reg .esp).toNat + 4))
        ⟨c.mem, w.console, w.counts⟩ = some result →
    ∃ returned, k.callee .isrHandler w c =
        some (⟨result.console, result.counts⟩, returned) ∧
      k.Returns c result.memory returned
  room : k.textbuf.toNat + 1024 ≤ 2 ^ 32
  textbuf : ∀ position, position ∈ textArea k.textbuf →
    ¬ k.OnStack position ∧ ¬ k.InTable position ∧
      position ∉ tableBytes k.gdtr

section Unhandled

variable {k : IsrKernel} {b : Board} {c : Cpu} {vector : BitVec 8}
variable {error : Option (BitVec 32)}

theorem vector_toNat (vector : BitVec 8) :
    (vector.setWidth 32).toNat = vector.toNat := by
  rw [BitVec.toNat_setWidth]
  have bound := vector.isLt
  omega

theorem unhandledBefore_literal : Literal unhandledBefore := by
  constructor <;> decide

theorem unhandledBehind_literal : Literal unhandledBehind := by
  constructor <;> decide

/-- `isr_handler` prints the message of the vector. -/
theorem isrHandler_unhandled (linked : k.Linked) {regs : Word}
    {s : PrintkState}
    (isVector : (ptRegsAt regs.toNat s.memory).int_no = vector.setWidth 32)
    (noHandler : handlerAt k.objects vector.toNat s.memory = 0)
    {old : List Byte} (shows_ : Shows s.console (linesOf old) (topLine old)) :
    ∃ result, isrHandler k.objects k.textbuf k.num k.body regs s =
        some result ∧
      Printed (textArea k.textbuf) old (unhandledText vector) s result := by
  have number := vector_toNat vector
  have bound := vector.isLt
  obtain ⟨_, result, run, printed⟩ :=
    @printk_message k.textbuf unhandledBefore unhandledBehind
      (vector.setWidth 32) s.memory k.num s unhandledBefore_literal
      unhandledBehind_literal (by decide) (by omega) linked.room old shows_
  refine ⟨result, ?_, printed⟩
  rw [isrHandler, isVector, number, noHandler]
  change (printk _ _ _ (numberLine unhandledBefore unhandledBehind).chars
    _).bind _ = _
  rw [run]
  rfl

/-- Printing spares what a handler has to spare. -/
theorem text_spares (linked : k.Linked) {regs position : Nat}
    (low : k.stackLow + 8 ≤ regs) (spared : k.Spared regs position) :
    position ∉ textArea k.textbuf := by
  intro inText
  obtain ⟨notOn, notTable, notGdt⟩ := linked.textbuf position inText
  rcases spared with inTable | inGdt | ⟨above, below⟩
  · exact notTable inTable
  · exact notGdt inGdt
  · exact notOn ⟨by omega, below⟩

end Unhandled

/-- `init_idt` leaves no handler registered. -/
theorem handlerAt_initIdt {o : IdtObjects} (placed : o.Placed)
    (stub : Label → Word) (b : Board) (vector : BitVec 8) :
    handlerAt o vector.toNat (initIdt o stub b).mem = 0 := by
  have small := vector.isLt
  have entries := placed.handlers_entries
  have ptr := placed.handlers_ptr
  have cleared : ∀ offset, offset < 4 → (initIdt o stub b).mem.bytes
      (o.interrupt_handlers.toNat + 4 * vector.toNat + offset) = 0 := by
    intro offset inside
    rw [initIdt, setGates_writes (by omega), bzero,
      Memory.memset_bytes_outside (by omega),
      Memory.store32_bytes_of_apart _ _ (by omega),
      Memory.store16_bytes_of_apart _ _ (by omega)]
    exact bzero_bytes _ (by omega) (by omega)
  have zero : handlerAt o vector.toNat (initIdt o stub b).mem =
      Memory.load32 (o.interrupt_handlers.toNat + 4 * vector.toNat)
        ⟨fun _ => 0, []⟩ :=
    Memory.load32_congr cleared
  rw [zero]
  rfl

/-! ## A page fault -/

/-- `isr_handler` saves `ebp` on the stack. -/
def exampleIsrKernel : IsrKernel where
  toImage := exampleImage
  textbuf := 0x20000
  num := 0
  body _ _ s := some s
  callee label w c :=
    match label with
    | .isrHandler =>
        (isrHandler exampleObjects 0x20000 0 (fun _ _ s => some s)
          (c.mem.load32 ((c.reg .esp).toNat + 4))
          ⟨c.mem, w.console, w.counts⟩).map fun result =>
            (⟨result.console, result.counts⟩, saveEbp c result.memory)
    | _ => none

theorem exampleIsrKernel_linked : exampleIsrKernel.Linked where
  placed := exampleImage_placed
  isrHandler w c result calls run := by
    have low : 0x8000 + 4 ≤ (c.reg .esp).toNat := calls.low
    refine ⟨saveEbp c result.memory, congrArg (Option.map _) run, ?_⟩
    exact saveEbp_returns c _ (show 4 ≤ 4 from le_rfl) (show 4 ≤ _ by omega)
  room := by decide
  textbuf position inText := by
    have above : 0x20000 ≤ position := inText.1
    refine ⟨fun on => ?_, fun inTable => ?_, fun inGdt => ?_⟩
    · have below : position < 0x9000 := on.2
      omega
    · have below : position < 0x11800 := inTable.2
      omega
    · have below := ((exampleImage_table position).mp inGdt).2
      omega

end Hlos.Idt
