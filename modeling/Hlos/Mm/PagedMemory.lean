import Hlos.Mm.HeapStart
import Hlos.Mm.PageMap

/-!
# Memory behind the page tables

What `slob_init` stores to kernel addresses ends in physical memory where the
page tables say so.  Every byte is translated by itself, through the tables as
they are at that moment.
-/

namespace Hlos.Mm

open Hlos.Lib Hlos.Include

/-- Physical memory, seen through the page directory at `cr3`. -/
structure PagedMemory where
  memory : Memory
  cr3 : Word

namespace PagedMemory

/-- The kernel runs in supervisor mode without write protection, so that an
access faults only where an entry is not present. -/
def physicalAt (va : Word) (p : PagedMemory) : Option Nat :=
  let found := walk p.memory p.cr3 va
  if Present found.pde ∧ Present found.pte then some found.physical.toNat
  else none

def load8 (va : Word) (p : PagedMemory) : Option (BitVec 8) := do
  let addr ← p.physicalAt va
  return p.memory.load8 addr

def store8 (va : Word) (value : BitVec 8) (p : PagedMemory) :
    Option PagedMemory := do
  let addr ← p.physicalAt va
  return { p with memory := p.memory.store8 addr value }

def load32 (va : Word) (p : PagedMemory) : Option Word := do
  let b0 ← p.load8 va
  let b1 ← p.load8 (va + 1)
  let b2 ← p.load8 (va + 2)
  let b3 ← p.load8 (va + 3)
  return BitVec.ofNat 32
    (b0.toNat + 256 * b1.toNat + 65536 * b2.toNat + 16777216 * b3.toNat)

def store32 (va value : Word) (p : PagedMemory) : Option PagedMemory := do
  let p ← p.store8 va (Memory.byteOf value 0)
  let p ← p.store8 (va + 1) (Memory.byteOf value 1)
  let p ← p.store8 (va + 2) (Memory.byteOf value 2)
  p.store8 (va + 3) (Memory.byteOf value 3)

instance : NodeStore Word PagedMemory where
  null := 0
  getPrev node p := p.load32 node
  getNext node p := p.load32 (node + 4)
  setPrev node value p := p.store32 node value
  setNext node value p := p.store32 (node + 4) value

/-- The statements of `slob_init` that write the first block. -/
def firstBlock (slobHead block : Word) (p : PagedMemory) :
    Option PagedMemory := do
  let info := BlockInfo.ofWord (← p.load32 block)
  let p ← p.store32 block { info with allocated := SLOB_FREE }.toWord
  let info := BlockInfo.ofWord (← p.load32 block)
  let length := ((1 : Word) <<< SLOB_PAGE_ORDER) * PAGE_SIZE - blockSize
  let p ← p.store32 block { info with length := length.setWidth 31 }.toWord
  listAdd (blockList block) slobHead p

section KernelTables

variable {kern_end max_phy_addr : Word} {l : Layout}

/-- The tables of `init_kernel_vmm` are in place. -/
structure KernelTables (l : Layout) (p : PagedMemory) : Prop where
  root : p.cr3 = __pa l.kern_pgd
  filled : TablesFilled l p.memory

/-- The word at `va` is the word at `addr` in the first GiB, apart from the
page tables. -/
structure Reached (kern_end max_phy_addr va : Word) (addr : Nat) : Prop where
  isVa : va.toNat = addr + 0xC0000000
  low : addr + 4 ≤ 2 ^ 30
  present : addr + 4 ≤ max_phy_addr.toNat
  apart : addr + 4 ≤ imageEnd kern_end ∨
    tablesEnd kern_end max_phy_addr ≤ addr

/-- The addresses of a word. -/
def wordBytes (addr : Nat) : Set Nat :=
  {position | addr ≤ position ∧ position < addr + 4}

theorem KernelTables.physicalAt_eq (image : KernelImage kern_end)
    (spec : TablesSpec kern_end max_phy_addr l) {p : PagedMemory}
    (tables : KernelTables l p) {va : Word} {addr : Nat}
    (isVa : va.toNat = addr + 0xC0000000) (below : addr < max_phy_addr.toNat) :
    p.physicalAt va = some addr := by
  have found := tables.filled.translates image spec isVa below
  rw [← tables.root] at found
  rw [physicalAt, ← found.physical]
  exact if_pos ⟨found.pde.1, found.pte.1⟩

theorem Reached.byte {va : Word} {addr : Nat}
    (reached : Reached kern_end max_phy_addr va addr) {i : Nat}
    (inside : i < 4) :
    (va + BitVec.ofNat 32 i).toNat = addr + i + 0xC0000000 := by
  have isVa := reached.isVa
  have low := reached.low
  rw [BitVec.toNat_add, BitVec.toNat_ofNat, isVa]
  omega

theorem KernelTables.load32_eq (image : KernelImage kern_end)
    (spec : TablesSpec kern_end max_phy_addr l) {p : PagedMemory}
    (tables : KernelTables l p) {va : Word} {addr : Nat}
    (reached : Reached kern_end max_phy_addr va addr) :
    p.load32 va = some (p.memory.load32 addr) := by
  have present := reached.present
  have byte : ∀ i, i < 4 →
      p.physicalAt (va + BitVec.ofNat 32 i) = some (addr + i) :=
    fun i inside => tables.physicalAt_eq image spec (reached.byte inside)
      (by omega)
  have first := byte 0 (by decide)
  rw [BitVec.add_zero, Nat.add_zero] at first
  have second : p.physicalAt (va + 1) = some (addr + 1) := byte 1 (by decide)
  have third : p.physicalAt (va + 2) = some (addr + 2) := byte 2 (by decide)
  have fourth : p.physicalAt (va + 3) = some (addr + 3) := byte 3 (by decide)
  simp only [load32, load8, first, second, third, fourth,
    Option.bind_eq_bind, Option.bind_some, Option.pure_def]
  rfl

/-- A store to a byte apart from the tables leaves them in place. -/
theorem KernelTables.store8_spec (image : KernelImage kern_end)
    (spec : TablesSpec kern_end max_phy_addr l) {p : PagedMemory}
    (tables : KernelTables l p) {va : Word} {addr : Nat}
    (value : BitVec 8) (isVa : va.toNat = addr + 0xC0000000)
    (below : addr < max_phy_addr.toNat)
    (apart : addr < imageEnd kern_end ∨
      tablesEnd kern_end max_phy_addr ≤ addr) {range : Set Nat}
    (inside : addr ∈ range) :
    ∃ p', p.store8 va value = some p' ∧ KernelTables l p' ∧
      p.memory.WritesWithin range p'.memory := by
  have found := tables.physicalAt_eq image spec isVa below
  have single := @Memory.store8_writesWithin addr {addr} value p.memory rfl
  refine ⟨⟨p.memory.store8 addr value, p.cr3⟩, ?_, ⟨tables.root, ?_⟩,
    Memory.store8_writesWithin value p.memory inside⟩
  · rw [store8, found]
    rfl
  · apply tables.filled.of_writes image spec single
    rintro position rfl
    exact apart

theorem KernelTables.store32_spec (image : KernelImage kern_end)
    (spec : TablesSpec kern_end max_phy_addr l) {p : PagedMemory}
    (tables : KernelTables l p) {va : Word} {addr : Nat} (value : Word)
    (reached : Reached kern_end max_phy_addr va addr) {range : Set Nat}
    (inside : ∀ position, position ∈ wordBytes addr → position ∈ range) :
    ∃ p', p.store32 va value = some p' ∧ KernelTables l p' ∧
      p.memory.WritesWithin range p'.memory := by
  have present := reached.present
  have apart := reached.apart
  have byte : ∀ (i : Nat) (p : PagedMemory), i < 4 → KernelTables l p →
      ∃ p', p.store8 (va + BitVec.ofNat 32 i) (Memory.byteOf value i) =
          some p' ∧
        KernelTables l p' ∧ p.memory.WritesWithin range p'.memory :=
    fun i p small tables =>
      tables.store8_spec image spec _ (reached.byte small) (by omega)
        (by omega) (inside _ ⟨Nat.le_add_right _ _, by omega⟩)
  obtain ⟨p₁, first, tables₁, writes₁⟩ := byte 0 p (by decide) tables
  obtain ⟨p₂, second, tables₂, writes₂⟩ := byte 1 p₁ (by decide) tables₁
  obtain ⟨p₃, third, tables₃, writes₃⟩ := byte 2 p₂ (by decide) tables₂
  obtain ⟨p₄, fourth, tables₄, writes₄⟩ := byte 3 p₃ (by decide) tables₃
  rw [BitVec.add_zero] at first
  refine ⟨p₄, ?_, tables₄,
    ((writes₁.trans writes₂).trans writes₃).trans writes₄⟩
  rw [store32, first]
  change (p₁.store8 (va + BitVec.ofNat 32 1) _).bind _ = _
  rw [second]
  change (p₂.store8 (va + BitVec.ofNat 32 2) _).bind _ = _
  rw [third]
  exact fourth

/-- The bytes of a header at `block` and of a list head. -/
def headerBytes (block head : Nat) : Set Nat :=
  {position | (block ≤ position ∧ position < block + 12) ∨
    (head ≤ position ∧ position < head + 8)}

/-- The first header is stored where the tables put it, when the list head is
empty and apart from it. -/
theorem KernelTables.firstBlock_spec (image : KernelImage kern_end)
    (spec : TablesSpec kern_end max_phy_addr l) {p : PagedMemory}
    (tables : KernelTables l p) {slobHead block : Word} {place head : Nat}
    (header : ∀ i, i < 3 → Reached kern_end max_phy_addr
      (block + BitVec.ofNat 32 (4 * i)) (place + 4 * i))
    (links : ∀ i, i < 2 → Reached kern_end max_phy_addr
      (slobHead + BitVec.ofNat 32 (4 * i)) (head + 4 * i))
    (apart : head + 8 ≤ place)
    (empty : p.memory.load32 (head + 4) = slobHead) :
    ∃ p', p.firstBlock slobHead block = some p' ∧ KernelTables l p' ∧
      p.memory.WritesWithin (headerBytes place head) p'.memory := by
  have fields := header 0 (by decide)
  rw [BitVec.add_zero, Nat.add_zero] at fields
  have list : Reached kern_end max_phy_addr (blockList block) (place + 4) :=
    header 1 (by decide)
  have listNext : Reached kern_end max_phy_addr (blockList block + 4)
      (place + 8) := by
    rw [blockList, BitVec.add_assoc]
    exact header 2 (by decide)
  have headPrev := links 0 (by decide)
  rw [BitVec.add_zero, Nat.add_zero] at headPrev
  have headNext : Reached kern_end max_phy_addr (slobHead + 4) (head + 4) :=
    links 1 (by decide)
  have store : ∀ {q : PagedMemory} {va : Word} {addr : Nat} (value : Word),
      KernelTables l q → Reached kern_end max_phy_addr va addr →
      (place ≤ addr ∧ addr ≤ place + 8 ∨ head ≤ addr ∧ addr ≤ head + 4) →
      ∃ q', q.store32 va value = some q' ∧ KernelTables l q' ∧
        q.memory.WritesWithin (headerBytes place head) q'.memory := by
    intro q va addr value tables reached inside
    apply tables.store32_spec image spec value reached
    rintro position ⟨low, high⟩
    rcases inside with inBlock | inHead
    · exact Or.inl ⟨by omega, by omega⟩
    · exact Or.inr ⟨by omega, by omega⟩
  -- the fields of the header come first, apart from the list head
  obtain ⟨p₁, first, tables₁, writes₁⟩ := tables.store32_spec image spec
    { BlockInfo.ofWord (p.memory.load32 place) with
      allocated := SLOB_FREE }.toWord fields fun _ member => member
  obtain ⟨p₂, second, tables₂, writes₂⟩ := tables₁.store32_spec image spec
    { BlockInfo.ofWord (p₁.memory.load32 place) with
      length := (((1 : Word) <<< SLOB_PAGE_ORDER) * PAGE_SIZE -
        blockSize).setWidth 31 }.toWord fields fun _ member => member
  have next : p₂.memory.load32 (head + 4) = slobHead := by
    rw [(writes₁.trans writes₂).load32_eq, empty]
    rintro offset small ⟨low, _⟩
    omega
  have inFields : ∀ position, position ∈ wordBytes place →
      position ∈ headerBytes place head :=
    fun position member => Or.inl ⟨member.1, Nat.lt_trans member.2 (by omega)⟩
  obtain ⟨p₃, third, tables₃, writes₃⟩ :=
    store (blockList block) tables₂ headPrev (by omega)
  obtain ⟨p₄, fourth, tables₄, writes₄⟩ :=
    store slobHead tables₃ listNext (by omega)
  obtain ⟨p₅, fifth, tables₅, writes₅⟩ :=
    store slobHead tables₄ list (by omega)
  obtain ⟨p₆, sixth, tables₆, writes₆⟩ :=
    store (blockList block) tables₅ headNext (by omega)
  refine ⟨p₆, ?_, tables₆,
    (writes₁.trans writes₂).mono inFields |>.trans writes₃ |>.trans writes₄
      |>.trans writes₅ |>.trans writes₆⟩
  have load := tables₂.load32_eq image spec headNext
  rw [next] at load
  simp only [firstBlock, tables.load32_eq image spec fields,
    tables₁.load32_eq image spec fields, first, second, listAdd, __listAdd,
    NodeStore.getNext, NodeStore.setPrev, NodeStore.setNext, load, third,
    fourth, fifth, sixth, Option.bind_eq_bind, Option.bind_some]

end KernelTables

end PagedMemory

end Hlos.Mm
