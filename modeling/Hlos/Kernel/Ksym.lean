import Mathlib.Logic.Function.Basic
import Hlos.Include.Page
import Hlos.Lib.ByteMemory

/-!
# `kernel/ksym.c`

Loading the symbol table that the boot loader left in memory, and looking up
addresses in it.  Kernel addresses are read through the boot page tables.  An
access outside the two static arrays has no result.

The loops recurse on the number of turns that are left.  The loop of the
binary search takes fuel instead.
-/

set_option linter.style.nameCheck false

namespace Hlos.Kernel

open Hlos.Lib Hlos.Include

/-- The fields of `multiboot_t` that describe the ELF sections. -/
structure Multiboot where
  num : Word
  addr : Word
  shndx : Word
deriving DecidableEq, Repr

/-- The fields of `elf_section_header_t` that are used. -/
structure SectionHeader where
  name : Word
  addr : Word
  size : Word
deriving DecidableEq, Repr

/-- The fields of `elf_symbol_t` that are used. -/
structure ElfSymbol where
  name : Word
  value : Word
deriving DecidableEq, Repr

/-- `sh[i]`; a header takes 40 bytes. -/
def sectionAt (sh i : Word) (m : Memory) : SectionHeader where
  name := m.load32 (bootPhysical (sh + 40 * i))
  addr := m.load32 (bootPhysical (sh + 40 * i + 12))
  size := m.load32 (bootPhysical (sh + 40 * i + 20))

/-- `ksymtab[i]`; a symbol takes 16 bytes. -/
def symbolAt (ksymtab i : Word) (m : Memory) : ElfSymbol where
  name := m.load32 (bootPhysical (ksymtab + 16 * i))
  value := m.load32 (bootPhysical (ksymtab + 16 * i + 4))

/-- `strcmp` of a string in memory with a literal, given without its NUL. -/
def strcmp (m : Memory) (cs : Word) : List (BitVec 8) → Int
  | [] => if m.load8 (bootPhysical cs) = 0 then 0 else 1
  | c2 :: ct =>
      let c1 := m.load8 (bootPhysical cs)
      if c1 ≠ c2 then
        if c1 < c2 then -1 else 1
      else
        strcmp m (cs + 1) ct

/-- `".strtab"`. -/
def strtabName : List (BitVec 8) := [0x2e, 0x73, 0x74, 0x72, 0x74, 0x61, 0x62]

/-- `".symtab"`. -/
def symtabName : List (BitVec 8) := [0x2e, 0x73, 0x79, 0x6d, 0x74, 0x61, 0x62]

/-- The local variables that the section loop fills in. -/
structure SymbolSource where
  strtab_offset : Word
  ksymtab : Word
  symtab_size : Nat
deriving DecidableEq, Repr

/-- The body of the section loop. -/
def scanSection (shstrtab : Word) (section_ : SectionHeader) (m : Memory)
    (source : SymbolSource) : SymbolSource :=
  let name := shstrtab + section_.name
  let source :=
    if strcmp m name strtabName = 0 then
      { source with strtab_offset := section_.addr + PAGE_OFFSET }
    else source
  if strcmp m name symtabName = 0 then
    { source with
      ksymtab := section_.addr + PAGE_OFFSET
      symtab_size := section_.size.toNat / 16 }
  else source

/-- The section loop. -/
def scanSections (sh shstrtab : Word) (m : Memory) :
    (left i : Nat) → SymbolSource → SymbolSource
  | 0, _, source => source
  | left + 1, i, source =>
      scanSections sh shstrtab m left (i + 1)
        (scanSection shstrtab (sectionAt sh (BitVec.ofNat 32 i) m) m source)

/-- The variables after the section loop.  `strtab_offset` and `ksymtab` are
not initialised before; their first values are those of `stack`. -/
def symbolSource (mb : Multiboot) (stack : Word × Word) (m : Memory) :
    SymbolSource :=
  let sh := mb.addr + PAGE_OFFSET
  let shstrtab := (sectionAt sh mb.shndx m).addr + PAGE_OFFSET
  scanSections sh shstrtab m mb.num.toNat 0 ⟨stack.1, stack.2, 0⟩

/-- The kernel text as the linker script bounds it. -/
structure TextBounds where
  kern_text_start : Word
  kern_text_end : Word
deriving DecidableEq, Repr

def isKernelText (text : TextBounds) (addr : Word) : Bool :=
  decide (text.kern_text_start + PAGE_OFFSET < addr ∧
    addr < text.kern_text_end + PAGE_OFFSET)

def KALLSYMS_NUM_MAX : Nat := 1024

/-- `kallsyms_num`, `kallsyms_addr` and `kallsyms_name`. -/
structure Kallsyms where
  num : Nat
  addr : Nat → Word
  name : Nat → Word

def readAddr (i : Nat) (k : Kallsyms) : Option Word :=
  if i < KALLSYMS_NUM_MAX then some (k.addr i) else none

def readName (i : Nat) (k : Kallsyms) : Option Word :=
  if i < KALLSYMS_NUM_MAX then some (k.name i) else none

def writeAddr (i : Nat) (value : Word) (k : Kallsyms) : Option Kallsyms :=
  if i < KALLSYMS_NUM_MAX then
    some { k with addr := Function.update k.addr i value }
  else none

def writeName (i : Nat) (value : Word) (k : Kallsyms) : Option Kallsyms :=
  if i < KALLSYMS_NUM_MAX then
    some { k with name := Function.update k.name i value }
  else none

/-- The loop that keeps the symbols of the kernel text. -/
def filterSymbols (text : TextBounds) (source : SymbolSource) (m : Memory) :
    (left i : Nat) → Kallsyms → Option Kallsyms
  | 0, _, k => some k
  | left + 1, i, k => do
      let symbol := symbolAt source.ksymtab (BitVec.ofNat 32 i) m
      if isKernelText text symbol.value then
        let k ← writeAddr k.num symbol.value k
        let k ← writeName k.num (source.strtab_offset + symbol.name) k
        filterSymbols text source m left (i + 1) { k with num := k.num + 1 }
      else
        filterSymbols text source m left (i + 1) k

/-- The inner loop of the sort: the index of a least address and the
address. -/
def findLeast (kallsyms : Kallsyms) :
    (left k idx : Nat) → (addr_t : Word) → Option (Nat × Word)
  | 0, _, idx, addr_t => some (idx, addr_t)
  | left + 1, k, idx, addr_t => do
      let candidate ← readAddr k kallsyms
      if addr_t > candidate then
        findLeast kallsyms left (k + 1) k candidate
      else
        findLeast kallsyms left (k + 1) idx addr_t

/-- The exchange of the sort. -/
def exchange (i idx : Nat) (addr_t : Word) (k : Kallsyms) :
    Option Kallsyms := do
  let str_st ← readName idx k
  let addr_i ← readAddr i k
  let k ← writeAddr idx addr_i k
  let name_i ← readName i k
  let k ← writeName idx name_i k
  let k ← writeAddr i addr_t k
  writeName i str_st k

/-- The outer loop of the sort. -/
def sortSymbols : (left i : Nat) → Kallsyms → Option Kallsyms
  | 0, _, k => some k
  | left + 1, i, k => do
      let first ← readAddr i k
      let (idx, addr_t) ← findLeast k (k.num - (i + 1)) (i + 1) i first
      let k ← if i ≠ idx then exchange i idx addr_t k else some k
      sortSymbols left (i + 1) k

def loadKsymFromMultiboot (mb : Multiboot) (text : TextBounds)
    (stack : Word × Word) (m : Memory) (k : Kallsyms) : Option Kallsyms := do
  let source := symbolSource mb stack m
  let k ← filterSymbols text source m source.symtab_size 0 { k with num := 0 }
  sortSymbols k.num 0 k

/-- The binary search.  It has no result when `fuel` turns are not enough. -/
def bisect (k : Kallsyms) (addr : Word) :
    (fuel low high : Nat) → Option Nat
  | 0, low, high => if high - low > 1 then none else some low
  | fuel + 1, low, high =>
      if high - low > 1 then do
        let mid := low + (high - low) / 2
        let value ← readAddr mid k
        if value ≤ addr then
          bisect k addr fuel mid high
        else
          bisect k addr fuel low mid
      else
        some low

/-- The search for the first aliased symbol. -/
def firstAlias (k : Kallsyms) : Nat → Option Nat
  | 0 => some 0
  | low + 1 => do
      let before ← readAddr low k
      let here ← readAddr (low + 1) k
      if before = here then firstAlias k low else some (low + 1)

/-- The index and the offset. -/
def getSymbolPos (addr : Word) (k : Kallsyms) : Option (Nat × Word) := do
  let low ← bisect k addr k.num 0 k.num
  let low ← firstAlias k low
  let symbol_start ← readAddr low k
  return (low, addr - symbol_start)

def ksymLookupName (addr : Word) (k : Kallsyms) : Option Word := do
  let (idx, _) ← getSymbolPos addr k
  readName idx k

end Hlos.Kernel
