import Hlos.Include.List
import Hlos.Include.ListHead

/-!
# `mm/slob.c`

The heap in byte memory.  A block is a 12-byte header, a bit field and a list
node, followed by the payload.  All addresses are 32-bit words, and an access
to memory never faults.

`slobHead` is the address of the static list head.  The walk over the list has
no result when `BLOCKS_MAX` turns are not enough.
-/

set_option linter.style.nameCheck false

namespace Hlos.Mm

open Hlos.Lib Hlos.Include

/-- The bit field of `slob_block_t`, `allocated` in the low bit. -/
structure BlockInfo where
  allocated : BitVec 1
  length : BitVec 31
deriving DecidableEq, Repr

namespace BlockInfo

def ofWord (word : Word) : BlockInfo where
  allocated := word.extractLsb' 0 1
  length := word.extractLsb' 1 31

def toWord (info : BlockInfo) : Word := info.length ++ info.allocated

end BlockInfo

/-- `sizeof(slob_block_t)`. -/
def blockSize : Word := 12

def SLOB_USED : BitVec 1 := 1

def SLOB_FREE : BitVec 1 := 0

def SLOB_PAGE_ORDER : Nat := 10

def SLOB_MIN_PART : Word := 0x20

/-- `&block->list`. -/
def blockList (block : Word) : Word := block + 4

def leToBlock (le : Word) : Word := le - 4

def blockInfo (block : Word) (m : Memory) : BlockInfo :=
  BlockInfo.ofWord (m.load32 block.toNat)

/-- `block->allocated`. -/
def allocated (block : Word) (m : Memory) : BitVec 1 :=
  (blockInfo block m).allocated

/-- `block->length`. -/
def length (block : Word) (m : Memory) : Word :=
  (blockInfo block m).length.setWidth 32

def setAllocated (block : Word) (value : BitVec 1) (m : Memory) : Memory :=
  m.store32 block.toNat { blockInfo block m with allocated := value }.toWord

def setLength (block : Word) (value : Word) (m : Memory) : Memory :=
  m.store32 block.toNat
    { blockInfo block m with length := value.setWidth 31 }.toWord

def splitChunk (chunk_block len : Word) (m : Memory) : Option Memory := do
  let left := length chunk_block m - len
  if left < blockSize + SLOB_MIN_PART then
    return m
  else
    let new_chunk := chunk_block + len
    let m := setAllocated new_chunk SLOB_FREE m
    let m := setLength new_chunk left m
    let m ← listAdd (blockList new_chunk) (blockList chunk_block) m
    let m := setLength chunk_block (len - blockSize) m
    return setAllocated chunk_block SLOB_USED m

/-- The first half of `glue_chunk`: the block that remains, and memory. -/
def gluePrev (slobHead chunk_block prev : Word) (m : Memory) :
    Option (Word × Memory) := do
  let prev_block := leToBlock prev
  if prev ≠ slobHead ∧ allocated prev_block m = SLOB_FREE then
    let m := setLength prev_block
      (length prev_block m + (length chunk_block m + blockSize)) m
    let m ← listDel (blockList chunk_block) m
    return (prev_block, m)
  else
    return (chunk_block, m)

/-- The second half of `glue_chunk`. -/
def glueNext (slobHead chunk_block next : Word) (m : Memory) :
    Option Memory := do
  let next_block := leToBlock next
  if next ≠ slobHead ∧ allocated next_block m = SLOB_FREE then
    let m := setLength chunk_block
      (length chunk_block m + (length next_block m + blockSize)) m
    listDel (blockList next_block) m
  else
    return m

def glueChunk (slobHead chunk_block : Word) (m : Memory) : Option Memory := do
  let prev ← NodeStore.getPrev (blockList chunk_block) m
  let next ← NodeStore.getNext (blockList chunk_block) m
  let (chunk_block, m) ← gluePrev slobHead chunk_block prev m
  glueNext slobHead chunk_block next m

/-- More turns than the arena has room for blocks. -/
def BLOCKS_MAX : Nat := 2 ^ 20

/-- The condition of the loop of `kmalloc`. -/
def Fits (len : Word) (info : BlockInfo) : Prop :=
  info.allocated = SLOB_FREE ∧ info.length.setWidth 32 > len

instance (len : Word) (info : BlockInfo) : Decidable (Fits len info) :=
  inferInstanceAs (Decidable (_ ∧ _))

/-- The loop of `kmalloc`, entered with the cursor `le`. -/
def kmallocLoop (slobHead len : Word) (m : Memory) :
    (fuel : Nat) → (le : Word) → Option (Word × Memory)
  | 0, le => if le = slobHead then some (0, m) else none
  | fuel + 1, le =>
      if le = slobHead then
        some (0, m)
      else do
        let block := leToBlock le
        if Fits len (blockInfo block m) then
          let m ← splitChunk block len m
          return (block + blockSize, m)
        else
          let le ← NodeStore.getNext le m
          kmallocLoop slobHead len m fuel le

/-- The bytes `kmalloc` looks for: the rounded size and a header. -/
def requestLength (size : Word) : Word :=
  (if size > SLOB_MIN_PART then size else SLOB_MIN_PART) + blockSize

/-- The returned address is zero when no block fits. -/
def kmalloc (slobHead size : Word) (m : Memory) : Option (Word × Memory) := do
  let le ← NodeStore.getNext slobHead m
  kmallocLoop slobHead (requestLength size) m BLOCKS_MAX le

def kfree (slobHead addr : Word) (m : Memory) : Option Memory :=
  let block := addr - blockSize
  if allocated block m ≠ SLOB_USED then
    some m
  else
    glueChunk slobHead block (setAllocated block SLOB_FREE m)

/-- A statement of `slob_test`: `addrN = kmalloc(size)` or `kfree(addrN)`. -/
inductive HeapCall where
  | kmalloc (var : Nat) (size : Word)
  | kfree (var : Nat)
deriving DecidableEq, Repr

/-- Run statements with the given values of the variables. -/
def runCalls (slobHead : Word) :
    List HeapCall → (vars : Nat → Word) → Memory → Option Memory
  | [], _, m => some m
  | .kmalloc var size :: rest, vars, m => do
      let (addr, m) ← kmalloc slobHead size m
      runCalls slobHead rest (Function.update vars var addr) m
  | .kfree var :: rest, vars, m => do
      let m ← kfree slobHead (vars var) m
      runCalls slobHead rest vars m

def slobTestCalls : List HeapCall :=
  [.kmalloc 1 100, .kfree 1,
    .kmalloc 1 100, .kmalloc 2 200, .kmalloc 3 300, .kfree 2, .kfree 3,
    .kmalloc 4 2220, .kmalloc 5 240, .kmalloc 6 2230, .kfree 6, .kfree 1,
    .kmalloc 7 220, .kmalloc 8 1200, .kfree 4, .kfree 8, .kfree 7, .kfree 5]

def slobTest (slobHead : Word) (m : Memory) : Option Memory :=
  runCalls slobHead slobTestCalls (fun _ => 0) m

/-- `slob_init` behind the call of `__slob_alloc_pages`, which delivers
`block`. -/
def slobInit (slobHead block : Word) (m : Memory) : Option Memory := do
  let m := setAllocated block SLOB_FREE m
  let m := setLength block
    (((1 : Word) <<< SLOB_PAGE_ORDER) * PAGE_SIZE - blockSize) m
  let m ← listAdd (blockList block) slobHead m
  slobTest slobHead m

end Hlos.Mm
