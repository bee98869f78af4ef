import Hlos.Idt.Irq

/-!
# Runs of the interrupt system

Every request of a device is answered once: by its handler, in the order of
priority, and without a trace in the interrupted program.
-/

namespace Hlos.Idt

open Hlos.Lib Hlos.Lib.X86 Hlos.Lib.Pic8259 Hlos.Include Hlos.Gdt

structure System where
  cpu : Cpu
  pics : Pics
  gdtr : TableRegister
  idtr : TableRegister

/-- The processor takes an interrupt: from the acknowledgement to the `iret` of
the stub. -/
def takeInterrupt (k : Kernel) (s : System) : Option (BitVec 8 × System) :=
  if s.cpu.eflags &&& Cpu.ifMask = 0 then none
  else
    match s.pics.acknowledge with
    | none => none
    | some (vector, pics) => do
        let entered ← interrupt s.idtr s.gdtr vector none s.cpu
        let (pics, cpu) ←
          exec s.gdtr k.stub code k.callee 25 (k.fetch entered.eip) pics entered
        some (vector, { s with cpu := cpu, pics := pics })

/-- The kernel runs with the tables of `init_gdt` and `init_idt`. -/
structure System.Ready (k : Kernel) (b : Board) (s : System) : Prop where
  runs : k.Runs b s.cpu
  configured : Configured s.pics
  gdtr : s.gdtr = k.gdtr
  idtr : s.idtr = (initIdt k.objects k.stub b).idtr

/-- A request of the input has been answered by the handler of its vector.  The
free stack apart, only the handler has changed the memory. -/
structure Served (k : Kernel) (s : System) (input : Input) (s' : System) :
    Prop where
  pics : s'.pics = s.pics.clear input
  reg : s'.cpu.reg = s.cpu.reg
  seg : s'.cpu.seg = s.cpu.seg
  eip : s'.cpu.eip = s.cpu.eip
  eflags : s'.cpu.eflags = s.cpu.eflags
  memory : ∃ seen addr, (s.cpu.reg .esp).toNat = addr + 64 ∧
    HandlerSees (k.stub .irqReturn) (irqVector input) none s.cpu addr seen ∧
    ∀ position,
      position < k.stackLow ∨ (s.cpu.reg .esp).toNat ≤ position →
        s'.cpu.mem.bytes position =
          (callHandler k.body
            (handlerAt k.objects (irqVector input).toNat s.cpu.mem)
            (seen.mem.load32 (addr + 4)) seen.mem).bytes position

section Service

variable {k : Kernel} {b : Board} {s : System} {input : Input}

/-- `irq_handler` is called for a request, ends it in the controllers and calls
the registered handler. -/
theorem irqHandler_handles (linked : k.Linked) {c seen : Cpu} {p : Pics}
    {addr : Nat} (runs : k.Runs b c)
    (isEsp : (c.reg .esp).toNat = addr + 64) (configured : Configured p)
    (sees : HandlerSees (k.stub .irqReturn) (irqVector input) none c addr
      seen) :
    let m := callHandler k.body
      (handlerAt k.objects (irqVector input).toNat c.mem)
      (seen.mem.load32 (addr + 4)) seen.mem
    ∃ returned,
      k.callee .irqHandler (p.serve input) seen =
        some (p.clear input, returned) ∧
      k.Handles b (k.stub .irqReturn) (irqVector input) none c addr seen m
        returned ∧ k.intact m := by
  have calls := sees.calls linked.placed runs isEsp
  have low := runs.low
  have high := runs.high
  have small := (irqVector input).isLt
  have argument := sees.argument
  have isNumber : (ptRegsAt (seen.mem.load32 (addr + 4)).toNat
      seen.mem).int_no = (irqVector input).setWidth 32 := by
    rw [argument, sees.regs]
    rfl
  have isMem : (irqHandler k.objects k.body (seen.mem.load32 (addr + 4))
      (p.serve input) seen.mem).2 =
        callHandler k.body
          (handlerAt k.objects (irqVector input).toNat seen.mem)
          (seen.mem.load32 (addr + 4)) seen.mem := by
    rw [irqHandler, isNumber, BitVec.toNat_setWidth,
      Nat.mod_eq_of_lt (by omega)]
  obtain ⟨intact, spares⟩ := @callHandler_spares k linked _ small
    (seen.mem.load32 (addr + 4)) seen.mem calls.intact (by omega) (by omega)
  obtain ⟨returned, run, returns⟩ := linked.irqHandler (p.serve input) seen calls
  rw [sees.esp] at run returns
  rw [irqHandler_pics configured k.objects k.body isNumber] at run
  rw [isMem] at returns
  rw [argument] at spares
  intro m
  have isM : m = callHandler k.body
      (handlerAt k.objects (irqVector input).toNat seen.mem)
      (seen.mem.load32 (addr + 4)) seen.mem := by
    rw [handlerAt_seen linked.placed runs isEsp sees]
  rw [← isM] at returns spares intact
  exact ⟨returned, run, ⟨runs, isEsp, sees, spares, returns⟩, intact⟩

theorem irqVector_back (input : Input) :
    backOf (irqVector input) = .irqReturn := by
  obtain ⟨_, _, _, isHandler, _⟩ := irqVector_stub input
  rw [handlerOf] at isHandler
  split_ifs at isHandler with isException
  exact if_neg isException

/-- The processor takes the first input requested, and its request is
served. -/
theorem takeInterrupt_served (linked : k.Linked) (ready : s.Ready k b)
    (isOn : s.cpu.eflags &&& Cpu.ifMask ≠ 0)
    (isFirst : inputs.find? s.pics.requested = some input) :
    ∃ s', takeInterrupt k s = some (irqVector input, s') ∧
      Served k s input s' ∧ s'.Ready k b := by
  have placed := linked.placed
  have runs := ready.runs
  obtain ⟨addr, isEsp⟩ := runs.exists_esp
  obtain ⟨n, isStub, isLine, isHandler, pushes⟩ := irqVector_stub input
  have acknowledged : s.pics.acknowledge =
      some (irqVector input, s.pics.serve input) := by
    rw [ready.configured.cascaded.acknowledge, isFirst, Option.map_some,
      ready.configured.vectors]
  have sees := @called_sees k.stub s.cpu (irqVector input) none addr isEsp
    (k.stub (.irq n))
  rw [irqVector_back] at sees
  obtain ⟨returned, calls, handles, intact⟩ :=
    irqHandler_handles linked runs isEsp ready.configured sees
  have handles' := handles
  rw [← irqVector_back input] at handles'
  obtain ⟨entered, taken, atStub, executed⟩ := handles'.taken placed isStub
    pushes k.callee (by rw [isHandler]; exact calls)
  refine ⟨{ s with
    cpu := { s.cpu with mem := returned.mem }
    pics := s.pics.clear input }, ?_,
    ⟨rfl, rfl, rfl, rfl, rfl, _, addr, isEsp, sees, ?_⟩,
    ⟨handles.ready placed intact, ready.configured.clear input, ready.gdtr,
      ready.idtr⟩⟩
  · rw [takeInterrupt, if_neg isOn, acknowledged, ready.gdtr, ready.idtr]
    simp only [taken, Option.bind_eq_bind, Option.bind_some, atStub,
      linked.fetch_stub n isLine, executed]
  · intro position outside
    have low := runs.low
    have memory := handles.returns.memory position
    rw [sees.esp] at memory
    exact memory (by omega) (by omega)

/-- Nothing is taken while interrupts are off or nothing is requested. -/
theorem takeInterrupt_none (configured : Configured s.pics)
    (quiet : s.cpu.eflags &&& Cpu.ifMask = 0 ∨
      inputs.find? s.pics.requested = none) : takeInterrupt k s = none := by
  rw [takeInterrupt]
  split_ifs with isOff
  · rfl
  · cases quiet with
    | inl off => exact absurd off isOff
    | inr noRequest =>
        rw [configured.cascaded.acknowledge, noRequest, Option.map_none]

end Service

/-! ## Histories -/

/-- What happens to the kernel. -/
inductive Event where
  | raised (input : Input)
  | ran
  | served (input : Input)
deriving DecidableEq, Repr

/-- A device requests its line, the program runs, or the processor takes an
interrupt. -/
inductive Steps (k : Kernel) (b : Board) : System → Event → System → Prop where
  | raised {s : System} {input : Input} : input ≠ .master 2 →
      Steps k b s (.raised input) { s with pics := s.pics.raise input }
  | ran {s : System} {cpu : Cpu} : k.Runs b cpu →
      Steps k b s .ran { s with cpu := cpu }
  | served {s s' : System} {input : Input} :
      takeInterrupt k s = some (irqVector input, s') →
      Steps k b s (.served input) s'

inductive History (k : Kernel) (b : Board) (start : System) :
    List Event → System → Prop where
  | start : History k b start [] start
  | step {trace : List Event} {event : Event} {s s' : System} :
      History k b start trace s → Steps k b s event s' →
      History k b start (trace ++ [event]) s'

/-- Which requests are open after an event. -/
def openAfter (requests : Input → Bool) : Event → Input → Bool
  | .raised input => Function.update requests input true
  | .ran => requests
  | .served input => Function.update requests input false

/-- The requests that have not been served since they were last raised. -/
def openRequests (trace : List Event) : Input → Bool :=
  trace.foldl openAfter (fun _ => false)

theorem openRequests_concat (trace : List Event) (event : Event) :
    openRequests (trace ++ [event]) =
      openAfter (openRequests trace) event := by
  rw [openRequests, List.foldl_append]
  rfl

/-- The kernel as `init_idt` leaves it, on a board in any state. -/
def startSystem (k : Kernel) (b : Board) (p : Processor) : System :=
  let b' := initIdt k.objects k.stub b
  { cpu := { p.cpu with mem := b'.mem }
    pics := b'.pics
    gdtr := p.gdtr
    idtr := b'.idtr }

/-- `init_idt` is called behind `init_gdt`, which has been called at privilege
level zero and on the kernel's stack. -/
structure Kernel.Boots (k : Kernel) (b : Board) (before p : Processor) :
    Prop where
  run : initGdt k.gdt before = some p
  ring0 : before.cpu.cpl = 0
  notVirtual : before.cpu.eflags.getLsbD vmBit = false
  mem : b.mem = p.cpu.mem
  intact : k.intact (initIdt k.objects k.stub b).mem
  low : k.stackLow + k.stackNeed + 64 ≤ (before.cpu.reg .esp).toNat
  high : (before.cpu.reg .esp).toNat ≤ k.stackHigh

theorem irqVector_injective {input other : Input}
    (same : irqVector input = irqVector other) : input = other := by
  have master : ∀ line line' : Fin 8,
      irqVector (.master line) = irqVector (.master line') → line = line' := by
    decide
  have slave : ∀ line line' : Fin 8,
      irqVector (.slave line) = irqVector (.slave line') → line = line' := by
    decide
  have apart : ∀ line line' : Fin 8,
      irqVector (.master line) ≠ irqVector (.slave line') := by
    decide
  cases input with
  | master line =>
      cases other with
      | master line' => rw [master line line' same]
      | slave line' => exact absurd same (apart line line')
  | slave line =>
      cases other with
      | master line' => exact absurd same.symm (apart line' line)
      | slave line' => rw [slave line line' same]

section Histories

variable {k : Kernel} {b : Board} {s s' : System} {input : Input}

/-- An interrupt that is taken serves the first request. -/
theorem served_of_takeInterrupt (linked : k.Linked) (ready : s.Ready k b)
    (taken : takeInterrupt k s = some (irqVector input, s')) :
    inputs.find? s.pics.requested = some input ∧ s'.Ready k b ∧
      Served k s input s' := by
  by_cases isOn : s.cpu.eflags &&& Cpu.ifMask = 0
  · rw [takeInterrupt_none ready.configured (Or.inl isOn)] at taken
    cases taken
  · cases isFirst : inputs.find? s.pics.requested with
    | none =>
        rw [takeInterrupt_none ready.configured (Or.inr isFirst)] at taken
        cases taken
    | some first =>
        obtain ⟨next, isNext, served, readyNext⟩ :=
          takeInterrupt_served linked ready isOn isFirst
        rw [isNext, Option.some.injEq, Prod.mk.injEq] at taken
        obtain ⟨sameVector, isSame⟩ := taken
        have isInput := irqVector_injective sameVector
        subst isInput
        subst isSame
        exact ⟨rfl, readyNext, served⟩

/-- What one event does to the open requests. -/
theorem Steps.requested (linked : k.Linked) (ready : s.Ready k b)
    {event : Event} (step : Steps k b s event s') :
    s'.Ready k b ∧ s'.pics.requested = openAfter s.pics.requested event ∧
      ∀ input, event = .served input →
        inputs.find? s.pics.requested = some input := by
  cases step with
  | raised isDevice =>
      refine ⟨⟨ready.runs, ready.configured.raise isDevice, ready.gdtr,
        ready.idtr⟩, requested_raise _ _, ?_⟩
      intro input isServed
      cases isServed
  | ran runs =>
      refine ⟨⟨runs, ready.configured, ready.gdtr, ready.idtr⟩, rfl, ?_⟩
      intro input isServed
      cases isServed
  | served taken =>
      obtain ⟨isFirst, ready', served⟩ :=
        served_of_takeInterrupt linked ready taken
      refine ⟨ready', ?_, ?_⟩
      · rw [served.pics, requested_clear]
        rfl
      · intro input isServed
        cases isServed
        exact isFirst

theorem startSystem_ready (linked : k.Linked) {before p : Processor}
    (boots : k.Boots b before p) : (startSystem k b p).Ready k b := by
  obtain ⟨p', loaded⟩ := initGdt_loaded linked.placed.gdt boots.ring0
  have same : p' = p := Option.some.inj (loaded.run.symm.trans boots.run)
  subst same
  have sameEsp := loaded.reg .esp (by decide)
  have gdtr : p'.gdtr = k.gdtr := loaded.gdtr
  refine ⟨⟨fun _ _ _ => rfl, ?_, loaded.segments, ?_, boots.intact, ?_, ?_⟩,
    (remapPics_configured b.pics).1, gdtr, rfl⟩
  · rw [← gdtr]
    exact flatTable_initIdt loaded boots.mem (gdtr ▸ linked.placed.tables)
  · exact loaded.eflags ▸ boots.notVirtual
  · exact sameEsp ▸ boots.low
  · exact sameEsp ▸ boots.high

/-- The state after a history, and what it has served. -/
theorem History.ready (linked : k.Linked) {start : System}
    (ready : start.Ready k b)
    (noRequest : start.pics.requested = fun _ => false) {trace : List Event}
    (history : History k b start trace s) :
    s.Ready k b ∧ s.pics.requested = openRequests trace ∧
      ∀ before input behind, trace = before ++ .served input :: behind →
        inputs.find? (openRequests before) = some input := by
  induction history with
  | start =>
      refine ⟨ready, noRequest, ?_⟩
      intro before input behind split
      simp at split
  | @step trace event s s' history step inductionHypothesis =>
      obtain ⟨readyHere, isOpen, servedFirst⟩ := inductionHypothesis
      obtain ⟨readyNext, isNext, nowFirst⟩ := step.requested linked readyHere
      refine ⟨readyNext, ?_, ?_⟩
      · rw [isNext, isOpen, openRequests_concat]
      · intro before input behind split
        cases isBehind : behind.reverse with
        | nil =>
            rw [List.reverse_eq_nil_iff] at isBehind
            subst isBehind
            obtain ⟨sameTrace, sameEvent⟩ :=
              List.append_inj' split (by simp)
            rw [← sameTrace, ← isOpen]
            exact nowFirst input (List.cons.inj sameEvent).1
        | cons last rest =>
            have isRest : behind = rest.reverse ++ [last] := by
              rw [← List.reverse_reverse behind, isBehind, List.reverse_cons]
            rw [isRest, ← List.cons_append, ← List.append_assoc] at split
            exact servedFirst before input rest.reverse
              (List.append_inj' split rfl).1

/-- Every interrupt answers a request of its own: none is answered twice, and
none is answered that was not raised. -/
theorem served_count_le {trace : List Event}
    (servedFirst : ∀ before input behind,
      trace = before ++ .served input :: behind →
        inputs.find? (openRequests before) = some input)
    (input : Input) :
    trace.count (.served input) + (openRequests trace input).toNat ≤
      trace.count (.raised input) := by
  induction trace using List.reverseRecOn with
  | nil => exact Nat.le_refl 0
  | append_singleton trace event inductionHypothesis =>
      have bound := inductionHypothesis fun before input behind split =>
        servedFirst before input (behind ++ [event]) (by simp [split])
      rw [openRequests_concat, List.count_append, List.count_append]
      cases event with
      | raised other =>
          by_cases same : other = input
          · subst same
            have atMostOne :=
              Bool.toNat_le (openAfter (openRequests trace) (.raised other)
                other)
            have notServed :
                [Event.raised other].count (.served other) = 0 := by
              simp
            rw [notServed, List.count_singleton_self]
            omega
          · simpa [openAfter, List.count_singleton, same, Ne.symm same]
              using bound
      | ran => simpa [openAfter] using bound
      | served other =>
          have isFirst := servedFirst trace other [] rfl
          have isOpen := List.find?_some isFirst
          by_cases same : other = input
          · subst same
            simpa [openAfter, isOpen] using bound
          · simpa [openAfter, List.count_singleton, same, Ne.symm same]
              using bound

/-- When the requests of a list are served one after the other, nothing of them
is left. -/
theorem filter_serve {requests : Input → Bool} {first : Input}
    {rest : List Input} (isFilter : inputs.filter requests = first :: rest) :
    inputs.filter (Function.update requests first false) = rest := by
  have nodup : (inputs.filter requests).Nodup :=
    List.Nodup.filter requests (by decide)
  have split : ∀ input, Function.update requests first false input =
      (requests input && !decide (input = first)) := by
    intro input
    by_cases same : input = first
    · simp [same]
    · simp [same]
  rw [isFilter] at nodup
  have notFirst := (List.nodup_cons.mp nodup).1
  calc
    inputs.filter (Function.update requests first false) =
        (inputs.filter requests).filter (fun input => !decide (input = first)) := by
      rw [List.filter_filter]
      apply List.filter_congr
      intro input _
      rw [split, Bool.and_comm]
    _ = rest := by
      rw [isFilter, List.filter_cons_of_neg (by simp), List.filter_eq_self]
      intro input member
      have different : input ≠ first := fun same => notFirst (same ▸ member)
      simp [different]

/-- With interrupts on, the open requests are served in their order. -/
theorem History.serveAll (linked : k.Linked) {start : System}
    {trace : List Event} {pending : List Input}
    (history : History k b start trace s) (ready : s.Ready k b)
    (isOn : s.cpu.eflags &&& Cpu.ifMask ≠ 0)
    (isPending : inputs.filter s.pics.requested = pending) :
    ∃ s', History k b start (trace ++ pending.map .served) s' ∧
      s'.Ready k b ∧ inputs.filter s'.pics.requested = [] ∧
      s'.cpu.reg = s.cpu.reg ∧ s'.cpu.seg = s.cpu.seg ∧
      s'.cpu.eip = s.cpu.eip ∧ s'.cpu.eflags = s.cpu.eflags := by
  induction pending generalizing s trace with
  | nil => exact ⟨s, by simpa using history, ready, isPending, rfl, rfl, rfl, rfl⟩
  | cons first rest inductionHypothesis =>
      have isFirst : inputs.find? s.pics.requested = some first := by
        rw [← List.head?_filter, isPending]
        rfl
      obtain ⟨next, taken, served, readyNext⟩ :=
        takeInterrupt_served linked ready isOn isFirst
      have isRest : inputs.filter next.pics.requested = rest := by
        rw [served.pics, requested_clear]
        exact filter_serve isPending
      obtain ⟨final, finalHistory, readyFinal, noneLeft, sameReg, sameSeg,
          sameEip, sameEflags⟩ :=
        inductionHypothesis (history.step (.served taken)) readyNext
          (by rw [served.eflags]; exact isOn) isRest
      refine ⟨final, ?_, readyFinal, noneLeft, sameReg.trans served.reg,
        sameSeg.trans served.seg, sameEip.trans served.eip,
        sameEflags.trans served.eflags⟩
      simpa using finalHistory

/-! ## The kernel after `init_idt` -/

/-- In every history from `init_idt` on, each interrupt serves the first open
request, no request is served more often than it was raised, and the next
interrupt, if one can be taken, calls the handler of the first open request and
returns to the program. -/
theorem devices_answered (linked : k.Linked) {before p : Processor}
    (boots : k.Boots b before p) {trace : List Event}
    (history : History k b (startSystem k b p) trace s) :
    (∀ before input behind, trace = before ++ .served input :: behind →
      inputs.find? (openRequests before) = some input) ∧
    (∀ input, trace.count (.served input) + (openRequests trace input).toNat ≤
      trace.count (.raised input)) ∧
    (∀ input, s.cpu.eflags &&& Cpu.ifMask ≠ 0 →
      inputs.find? (openRequests trace) = some input →
        ∃ s', takeInterrupt k s = some (irqVector input, s') ∧
          Served k s input s') ∧
    (s.cpu.eflags &&& Cpu.ifMask = 0 ∨
      inputs.find? (openRequests trace) = none → takeInterrupt k s = none) := by
  obtain ⟨ready, isOpen, servedFirst⟩ := history.ready linked
    (startSystem_ready linked boots) (remapPics_configured b.pics).2
  refine ⟨servedFirst, served_count_le servedFirst, ?_, ?_⟩
  · intro input isOn isFirst
    obtain ⟨s', taken, served, _⟩ :=
      takeInterrupt_served linked ready isOn (isOpen ▸ isFirst)
    exact ⟨s', taken, served⟩
  · intro quiet
    exact takeInterrupt_none ready.configured (isOpen ▸ quiet)

/-- From every history on, with interrupts on, all open requests are served in
the order of priority, no controller is left in service, and the program goes
on as if nothing had happened. -/
theorem devices_drained (linked : k.Linked) {before p : Processor}
    (boots : k.Boots b before p) {trace : List Event}
    (history : History k b (startSystem k b p) trace s)
    (isOn : s.cpu.eflags &&& Cpu.ifMask ≠ 0) :
    ∃ s', History k b (startSystem k b p)
        (trace ++ (inputs.filter (openRequests trace)).map .served) s' ∧
      (∀ input, s'.pics.requested input = false) ∧
      s'.pics.master.inService = noLines ∧
      s'.pics.slave.inService = noLines ∧
      s'.cpu.reg = s.cpu.reg ∧ s'.cpu.seg = s.cpu.seg ∧
      s'.cpu.eip = s.cpu.eip ∧ s'.cpu.eflags = s.cpu.eflags := by
  obtain ⟨ready, isOpen, -⟩ := history.ready linked
    (startSystem_ready linked boots) (remapPics_configured b.pics).2
  obtain ⟨s', history', ready', noneLeft, same⟩ :=
    history.serveAll linked ready isOn (congrArg inputs.filter isOpen)
  have cascaded := ready'.configured.cascaded
  refine ⟨s', history', ?_, cascaded.master.inService,
    cascaded.slave.inService, same⟩
  intro input
  by_cases isDevice : input = .master 2
  · subst isDevice
    exact cascaded.noDevice
  · have notOpen := List.filter_eq_nil_iff.mp noneLeft input
      (mem_inputs.mpr isDevice)
    simpa using notOpen

end Histories

/-! ## Two requests at a time -/

/-- The label at an address of the example. -/
def exampleLabel (address : Word) : Label :=
  match (address.extractLsb' 8 24).toNat with
  | 0x1000 => .isr (address.setWidth 8)
  | _ => .irq (address.setWidth 8)

/-- `irq_handler` saves `ebp` on the stack, and there are no handlers that it
could call. -/
def exampleKernel : Kernel where
  toImage := exampleImage
  fetch address := code (exampleLabel address)
  body _ _ m := m
  callee label pics c :=
    match label with
    | .irqHandler =>
        let regs := c.mem.load32 ((c.reg .esp).toNat + 4)
        let result := irqHandler exampleObjects (fun _ _ m => m) regs pics c.mem
        some (result.1, saveEbp c result.2)
    | _ => none

theorem exampleLabel_irq : ∀ n : BitVec 8,
    exampleLabel (exampleStub (.irq n)) = .irq n := by
  decide

theorem exampleKernel_linked : exampleKernel.Linked where
  placed := exampleImage_placed
  fetch_stub n _ := congrArg code (exampleLabel_irq n)
  irqHandler _ c calls := by
    have low : 0x8000 + 4 ≤ (c.reg .esp).toNat := calls.low
    exact ⟨_, rfl, saveEbp_returns c _ (show 4 ≤ 4 from le_rfl)
      (show 4 ≤ _ by omega)⟩
  body _ _ _ _ _ _ _ _ := ⟨trivial, fun _ _ => rfl⟩

/-- The kernel of the example runs once `init_gdt` has run. -/
theorem exampleKernel_boots {p : Processor}
    (loaded : GdtLoaded exampleGdt exampleBoot p) :
    exampleKernel.Boots (exampleBoard p.cpu.mem) exampleBoot p where
  run := loaded.run
  ring0 := rfl
  notVirtual := by decide
  mem := rfl
  intact := trivial
  low := by decide
  high := by decide

/-- The last line of the first controller. -/
def lastMaster : Input := .master (Fin.last 7)

/-- The last line of the second controller, which comes before it. -/
def lastSlave : Input := .slave (Fin.last 7)

def exampleTrace : List Event := [.raised lastMaster, .raised lastSlave]

def exampleStart (p : Processor) : System :=
  startSystem exampleKernel (exampleBoard p.cpu.mem) p

def exampleSystem (p : Processor) : System :=
  { exampleStart p with
    pics := ((exampleStart p).pics.raise lastMaster).raise lastSlave }

theorem exampleHistory (p : Processor) :
    History exampleKernel (exampleBoard p.cpu.mem) (exampleStart p)
      exampleTrace (exampleSystem p) :=
  (History.start.step (.raised (by decide))).step (.raised (by decide))

theorem exampleSystem_on {p : Processor}
    (loaded : GdtLoaded exampleGdt exampleBoot p) :
    (exampleSystem p).cpu.eflags &&& Cpu.ifMask ≠ 0 := by
  change p.cpu.eflags &&& _ ≠ _
  rw [loaded.eflags]
  decide

theorem devices_answered_twoRequests :
    ∃ p, initGdt exampleGdt exampleBoot = some p ∧
      ∃ s', takeInterrupt exampleKernel (exampleSystem p) = some (47, s') ∧
        Served exampleKernel (exampleSystem p) lastSlave s' := by
  obtain ⟨p, loaded⟩ := exampleBoot_loaded
  have answered := (devices_answered exampleKernel_linked
    (exampleKernel_boots loaded) (exampleHistory p)).2.2.1
  exact ⟨p, loaded.run,
    answered lastSlave (exampleSystem_on loaded) (by decide)⟩

theorem devices_drained_twoRequests :
    ∃ p, initGdt exampleGdt exampleBoot = some p ∧
      ∃ s', History exampleKernel (exampleBoard p.cpu.mem) (exampleStart p)
          (exampleTrace ++ [.served lastSlave, .served lastMaster]) s' ∧
        (∀ input, s'.pics.requested input = false) ∧
        s'.cpu.eip = p.cpu.eip := by
  obtain ⟨p, loaded⟩ := exampleBoot_loaded
  obtain ⟨s', history, noneLeft, -, -, -, -, sameEip, -⟩ :=
    devices_drained exampleKernel_linked (exampleKernel_boots loaded)
      (exampleHistory p) (exampleSystem_on loaded)
  exact ⟨p, loaded.run, s', history, noneLeft, sameEip⟩

end Hlos.Idt
