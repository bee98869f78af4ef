import Hlos.Drivers.Printk
import Hlos.Idt.Irq
import Hlos.Lib.Pit8253
import Hlos.Libs.NumberLine

/-!
# `drivers/timer.c`

`init_timer` registers the handler of the timer interrupt and loads the timer,
and the handler counts the interrupts and prints the count.  A division by zero
has no result.
-/

set_option linter.style.nameCheck false

namespace Hlos.Drivers

open Hlos.Lib Hlos.Lib.Pit8253 Hlos.Include Hlos.Idt Hlos.Libs

def IRQ0 : BitVec 8 := 32

/-- The memory and the interval timer. -/
structure TimerBoard where
  mem : Memory
  pit : Pit

def initTimer (o : IdtObjects) (timer_callback frequency : Word)
    (b : TimerBoard) : Option TimerBoard :=
  let mem := registerInterruptHandler o IRQ0 timer_callback b.mem
  if frequency = 0 then none
  else
    let divisor : Word := 1193180 / frequency
    let pit := b.pit.outb 0x43 0x36
    let low := (divisor &&& 0xFF).setWidth 8
    let high := (divisor >>> 8 &&& 0xFF).setWidth 8
    let pit := pit.outb 0x40 low
    let pit := pit.outb 0x40 high
    some ⟨mem, pit⟩

/-- The bytes of an entry of `interrupt_handlers`. -/
def handlerBytes (o : IdtObjects) (n : BitVec 8) : Set Nat :=
  {position | o.interrupt_handlers.toNat + 4 * n.toNat ≤ position ∧
    position < o.interrupt_handlers.toNat + 4 * n.toNat + 4}

/-! ## The period -/

/-- The two bytes of a word, put together again. -/
theorem low_bytes (divisor : Word) :
    (((divisor >>> 8 &&& 0xFF).setWidth 8 ++ (divisor &&& 0xFF).setWidth 8 :
      BitVec 16)).toNat = divisor.toNat % 65536 := by
  have bound := divisor.isLt
  have byte (x : Word) : (x &&& 0xFF).toNat = x.toNat % 2 ^ 8 :=
    and_low_mask x 0xFF rfl
  refine (append_toNat _ _).trans ?_
  rw [BitVec.toNat_setWidth, BitVec.toNat_setWidth, byte, byte,
    BitVec.toNat_ushiftRight, Nat.shiftRight_eq_div_pow]
  omega

section InitTimer

variable (o : IdtObjects) (timer_callback frequency : Word) (b : TimerBoard)

/-- The counter behind the three writes. -/
theorem period_loaded (divisor : Word) :
    ({ Counter.setUp 0x36 with
        low := (divisor &&& 0xFF).setWidth 8
        count := some ((divisor >>> 8 &&& 0xFF).setWidth 8 ++
          (divisor &&& 0xFF).setWidth 8) } : Counter).period =
      some ((divisor.toNat + 65535) % 65536 + 1) := by
  have isSquare : (Counter.setUp 0x36).mode.extractLsb' 1 1 = 1 := by decide
  have isBinary : (Counter.setUp 0x36).decimal = false := by decide
  have number := low_bytes divisor
  rw [Counter.period, if_pos isSquare, Option.map_some]
  simp only [Counter.number, isBinary, Bool.false_eq_true, if_false]
  refine congrArg some ?_
  split
  · next zero =>
      rw [zero] at number
      change 0 = _ at number
      omega
  · next nonzero =>
      have positive : divisor.toNat % 65536 ≠ 0 := by
        rw [← number]
        exact fun isZero => nonzero (BitVec.eq_of_toNat_eq isZero)
      rw [number]
      omega

/-- What the three writes leave, whatever the timer was before. -/
theorem pit_loaded (pit : Pit) (low high : BitVec 8) :
    ((pit.outb 0x43 0x36).outb 0x40 low).outb 0x40 high =
      ⟨Function.update pit.counters .zero
        { Counter.setUp 0x36 with low := low, count := some (high ++ low) }⟩ := by
  have setUp : pit.outb 0x43 0x36 =
      ⟨Function.update pit.counters .zero (Counter.setUp 0x36)⟩ := rfl
  have loads (counter : Counter) (value : BitVec 8) :
      Pit.outb 0x40 value ⟨Function.update pit.counters .zero counter⟩ =
        ⟨Function.update pit.counters .zero (counter.load value)⟩ := by
    simp [Pit.outb, Pit.load]
  rw [setUp, loads, loads, setUp_load_load (by decide)]

theorem divisor_exact {frequency : Nat} (nonzero : frequency ≠ 0) :
    ((1193180 / frequency + 65535) % 65536 + 1 = 1193180 / frequency ↔
      19 ≤ frequency ∧ frequency ≤ 1193180) := by
  have low : 1193180 / frequency < 65537 ↔ 19 ≤ frequency := by
    rw [Nat.div_lt_iff_lt_mul (by omega)]
    omega
  have high : 1 ≤ 1193180 / frequency ↔ frequency ≤ 1193180 := by
    rw [Nat.le_div_iff_mul_le (by omega), Nat.one_mul]
  omega

/-- The timer interrupts at the frequency that was asked for if this is neither
below 19 nor above the input clock; with any other frequency but zero the
divisor does not fit into its sixteen bits.  The handler is registered and no
other one is touched. -/
theorem init_timer_period :
    (initTimer o timer_callback frequency b = none ↔ frequency = 0) ∧
      ∀ b', initTimer o timer_callback frequency b = some b' →
        handlerAt o 32 b'.mem = timer_callback ∧
        Memory.WritesWithin (handlerBytes o IRQ0) b.mem b'.mem ∧
        (∀ index, index ≠ .zero →
          b'.pit.counters index = b.pit.counters index) ∧
        ∃ period, (b'.pit.counters .zero).period = some period ∧
          0 < period ∧ period ≤ 65536 ∧
          (period = 1193180 / frequency.toNat ↔
            19 ≤ frequency.toNat ∧ frequency.toNat ≤ 1193180) := by
  by_cases zero : frequency = 0
  · have fault : initTimer o timer_callback frequency b = none := if_pos zero
    refine ⟨iff_of_true fault zero, ?_⟩
    intro b' run
    rw [fault] at run
    cases run
  have loaded : initTimer o timer_callback frequency b = some _ := if_neg zero
  refine ⟨iff_of_false (by rw [loaded]; simp) zero, ?_⟩
  intro b' run
  rw [loaded] at run
  obtain rfl := Option.some.inj run
  rw [pit_loaded]
  have inEntry : ∀ offset, offset < 4 →
      o.interrupt_handlers.toNat + 4 * IRQ0.toNat + offset ∈
        handlerBytes o IRQ0 :=
    fun offset small => ⟨Nat.le_add_right _ _, Nat.add_lt_add_left small _⟩
  refine ⟨Memory.load32_store32_self _ _ _,
    Memory.store32_writesWithin _ _ inEntry,
    fun index other => Function.update_of_ne other _ _, ?_⟩
  simp only [Function.update_self]
  refine ⟨_, period_loaded _, Nat.succ_pos _, by omega, ?_⟩
  have value : (1193180 / frequency : Word).toNat = 1193180 / frequency.toNat :=
    BitVec.toNat_udiv
  rw [value]
  exact divisor_exact fun isZero => zero (BitVec.eq_of_toNat_eq isZero)

end InitTimer

/-- The kernel asks for 200 interrupts in a second. -/
theorem init_timer_period_200 :
    ∃ b', initTimer ⟨0x10000, 0x11000, 0x12000⟩ 0xC0101000 200
        ⟨⟨fun _ => 0, []⟩, ⟨fun _ => Counter.setUp 0⟩⟩ = some b' ∧
      (b'.pit.counters .zero).period = some 5965 := by
  obtain ⟨_, general⟩ := init_timer_period ⟨0x10000, 0x11000, 0x12000⟩
    0xC0101000 200 ⟨⟨fun _ => 0, []⟩, ⟨fun _ => Counter.setUp 0⟩⟩
  obtain ⟨_, _, _, period, isPeriod, _, _, exact_⟩ := general _ rfl
  rw [exact_.mpr ⟨by decide, by decide⟩] at isPeriod
  exact ⟨_, rfl, isPeriod⟩

/-! ## The handler -/

/-- The counter of `timer_callback` and the buffer of `printk`. -/
structure TimerObjects where
  tick : Word
  textbuf : Word

structure TimerObjects.Placed (t : TimerObjects) : Prop where
  room : t.textbuf.toNat + 1024 ≤ 2 ^ 32
  apart : t.tick.toNat + 4 ≤ t.textbuf.toNat ∨
    t.textbuf.toNat + 1024 ≤ t.tick.toNat

def tickBefore : List Byte :=
  [0x0A, ch 'T', ch 'i', ch 'c', ch 'k', ch ':', ch ' ']

def tickBehind : List Byte := [0x0A]

/-- `"\nTick: %d\n"`. -/
def tickFormat : Format := numberLine tickBefore tickBehind

/-- `num` is not initialised in `vsnprintf`. -/
def timerCallback (t : TimerObjects) (num : BitVec 64) (s : PrintkState) :
    Option PrintkState := do
  let tick := s.memory.load32 t.tick.toNat
  let memory := s.memory.store32 t.tick.toNat (tick + 1)
  let (_, s) ← printk t.textbuf (oneArgument tick memory) num tickFormat.chars
    { s with memory := memory }
  return s

/-- The handler is called again and again. -/
def timerCallbacks (t : TimerObjects) :
    List (BitVec 64) → PrintkState → Option PrintkState
  | [], s => some s
  | num :: nums, s => do
      let s ← timerCallback t num s
      timerCallbacks t nums s

/-- What the calls from a count on print. -/
def tickLines (first count : Nat) : List Byte :=
  (List.range' first count).flatMap fun tick =>
    messageText tickBefore tickBehind (BitVec.ofNat 32 tick)

/-- The bytes of the counter and of the buffer. -/
def TimerObjects.bytes (t : TimerObjects) : Set Nat :=
  {position | t.tick.toNat ≤ position ∧ position < t.tick.toNat + 4} ∪
    textArea t.textbuf

section Ticks

variable {t : TimerObjects}

theorem tickBefore_literal : Literal tickBefore := by
  constructor <;> decide

theorem tickBehind_literal : Literal tickBehind := by
  constructor <;> decide

/-- One call counts and prints. -/
theorem timerCallback_spec (placed : t.Placed) {s : PrintkState} {tick : Nat}
    (isTick : s.memory.load32 t.tick.toNat = BitVec.ofNat 32 tick)
    (small : tick < 100000000) (num : BitVec 64) {old : List Byte}
    (shows_ : Shows s.console (linesOf old) (topLine old)) :
    ∃ s', timerCallback t num s = some s' ∧
      s'.memory.load32 t.tick.toNat = BitVec.ofNat 32 (tick + 1) ∧
      Printed t.bytes old (tickLines tick 1) s s' := by
  have value : (BitVec.ofNat 32 tick).toNat < 100000000 := by
    rw [BitVec.toNat_ofNat]
    omega
  have inTick : ∀ offset, offset < 4 → t.tick.toNat + offset ∈ t.bytes :=
    fun offset small => Or.inl ⟨Nat.le_add_right _ _,
      Nat.add_lt_add_left small _⟩
  have counted := Memory.store32_writesWithin (BitVec.ofNat 32 tick + 1) s.memory
    inTick
  obtain ⟨_, s', run, printed⟩ :=
    @printk_message t.textbuf tickBefore tickBehind (BitVec.ofNat 32 tick)
      (s.memory.store32 t.tick.toNat (BitVec.ofNat 32 tick + 1)) num
      { s with memory :=
        s.memory.store32 t.tick.toNat (BitVec.ofNat 32 tick + 1) }
      tickBefore_literal tickBehind_literal (by decide) value placed.room old
      shows_
  have lines : tickLines tick 1 =
      messageText tickBefore tickBehind (BitVec.ofNat 32 tick) := by
    simp [tickLines]
  rw [← lines] at printed
  refine ⟨s', ?_, ?_, printed.screen, counted.trans
    (printed.writes.mono fun _ inside => Or.inr inside), printed.counts⟩
  · rw [timerCallback, isTick]
    change (printk _ _ _ (numberLine tickBefore tickBehind).chars _).bind _ = _
    rw [run]
    rfl
  · have apart := placed.apart
    have outside : ∀ offset, offset < 4 →
        t.tick.toNat + offset ∉ textArea t.textbuf := by
      rintro offset inside ⟨low, high⟩
      omega
    rw [printed.writes.load32_eq outside, BitVec.ofNat_add]
    exact Memory.load32_store32_self _ _ _

theorem tickLines_add (first before behind : Nat) :
    tickLines first (before + behind) =
      tickLines first before ++ tickLines (first + before) behind := by
  rw [tickLines, List.range'_append_1.symm, List.flatMap_append]
  rfl

/-- As long as the counter stays below a hundred million, every call prints its
line. -/
theorem timerCallbacks_spec (placed : t.Placed) (nums : List (BitVec 64))
    {s : PrintkState} {first : Nat}
    (isTick : s.memory.load32 t.tick.toNat = BitVec.ofNat 32 first)
    (small : first + nums.length ≤ 100000000) {old : List Byte}
    (shows_ : Shows s.console (linesOf old) (topLine old)) :
    ∃ s', timerCallbacks t nums s = some s' ∧
      s'.memory.load32 t.tick.toNat = BitVec.ofNat 32 (first + nums.length) ∧
      Printed t.bytes old (tickLines first nums.length) s s' := by
  induction nums generalizing s first old with
  | nil => exact ⟨s, rfl, isTick, Printed.nothing shows_⟩
  | cons num nums inductionRest =>
      rw [List.length_cons] at small
      obtain ⟨s₁, run₁, isTick₁, printed₁⟩ :=
        timerCallback_spec placed isTick (by omega) num shows_
      obtain ⟨s', run, isTick', printed⟩ :=
        inductionRest isTick₁ (by omega) printed₁.screen
      have both := printed₁.trans printed
      rw [← tickLines_add, Nat.add_comm 1] at both
      rw [Nat.add_assoc, Nat.add_comm 1] at isTick'
      refine ⟨s', ?_, isTick', both⟩
      rw [timerCallbacks, run₁]
      exact run

/-- The hundred millionth call does not return. -/
theorem timerCallback_eq_none {s : PrintkState}
    (isTick : s.memory.load32 t.tick.toNat = 100000000) (num : BitVec 64) :
    timerCallback t num s = none := by
  rw [timerCallback, isTick]
  change (printk _ _ _ (numberLine tickBefore tickBehind).chars _).bind _ = _
  rw [printk_message_eq_none tickBefore_literal (by decide)]
  rfl

theorem timerCallbacks_append (nums more : List (BitVec 64))
    (s : PrintkState) :
    timerCallbacks t (nums ++ more) s =
      (timerCallbacks t nums s).bind (timerCallbacks t more) := by
  induction nums generalizing s with
  | nil => rfl
  | cons num nums inductionRest =>
      rw [List.cons_append, timerCallbacks, timerCallbacks]
      cases timerCallback t num s with
      | none => rfl
      | some next => exact inductionRest next

/-- The timer interrupts show their numbers from zero on, one line each, and
write nothing but the counter and the buffer, until a hundred million of them
have been counted: the next one does not return. -/
theorem ticks_shown (placed : t.Placed) {s : PrintkState}
    (started : s.memory.load32 t.tick.toNat = 0) {old : List Byte}
    (shows_ : Shows s.console (linesOf old) (topLine old))
    (nums : List (BitVec 64)) :
    (nums.length ≤ 100000000 →
      ∃ s', timerCallbacks t nums s = some s' ∧
        Shows s'.console (linesOf (old ++ tickLines 0 nums.length))
          (topLine (old ++ tickLines 0 nums.length)) ∧
        s'.memory.load32 t.tick.toNat = BitVec.ofNat 32 nums.length ∧
        Memory.WritesWithin t.bytes s.memory s'.memory ∧
        s'.counts = s.counts) ∧
      (100000000 < nums.length → timerCallbacks t nums s = none) := by
  constructor
  · intro small
    obtain ⟨s', run, isTick, printed⟩ := @timerCallbacks_spec t placed nums s 0
      started (by omega) old shows_
    rw [Nat.zero_add] at isTick
    exact ⟨s', run, printed.screen, isTick, printed.writes, printed.counts⟩
  · intro large
    have length : (nums.take 100000000).length = 100000000 :=
      List.length_take_of_le (by omega)
    obtain ⟨num, more, isMore⟩ : ∃ num more,
        nums.drop 100000000 = num :: more := by
      cases rest : nums.drop 100000000 with
      | nil =>
          have short := congrArg List.length rest
          rw [List.length_drop, List.length_nil] at short
          omega
      | cons num more => exact ⟨num, more, rfl⟩
    obtain ⟨s', first, isTick, _⟩ := @timerCallbacks_spec t placed
      (nums.take 100000000) s 0 started (by omega) old shows_
    rw [length] at isTick
    rw [← List.take_append_drop 100000000 nums, timerCallbacks_append, first,
      isMore]
    change (timerCallback t num s').bind _ = none
    rw [timerCallback_eq_none isTick]
    rfl

end Ticks

theorem ticks_shown_two :
    ∃ console s', consoleInit ⟨0, 0, fun _ => 0, []⟩ = some console ∧
      timerCallbacks ⟨0xC0106000, 0xC0107000⟩ [0, 0]
        ⟨⟨fun _ => 0, []⟩, console, []⟩ = some s' ∧
      Shows s'.console (linesOf (tickLines 0 2)) (topLine (tickLines 0 2)) := by
  obtain ⟨console, init, shows_⟩ := consoleInit_shows ⟨0, 0, fun _ => 0, []⟩
  obtain ⟨two, _⟩ := @ticks_shown ⟨0xC0106000, 0xC0107000⟩
    ⟨by decide, Or.inl (by decide)⟩ ⟨⟨fun _ => 0, []⟩, console, []⟩
    (show Memory.load32 0xC0106000 ⟨fun _ => 0, []⟩ = 0 by decide) [] shows_
    [0, 0]
  obtain ⟨s', run, shows', _⟩ := two (by decide)
  exact ⟨console, s', init, run, shows'⟩

end Hlos.Drivers
