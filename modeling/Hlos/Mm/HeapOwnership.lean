import Hlos.Mm.HeapRuns

/-!
# Ownership of heap memory

A client owns the ranges that `kmalloc` returned and that it did not free
since, and may store into them.  The ranges are disjoint as long as every
block that `kmalloc` hands out is divided.  A block that is hardly longer than
the request is handed out without a mark, and then handed out again.
-/

namespace Hlos.Mm

open Hlos.Lib Hlos.Include

/-- Address and requested size. -/
abbrev Allocation : Type := Word × Word

/-- The bytes of an allocation. -/
def Allocation.bytes (range : Allocation) : Set Nat :=
  {position | range.1.toNat ≤ position ∧
    position < range.1.toNat + range.2.toNat}

structure ClientState where
  memory : Memory
  outstanding : List Allocation

inductive ClientOp where
  | kmalloc (size : Word)
  | kfree (addr : Word)
  | store (addr : Nat) (value : BitVec 8)
deriving DecidableEq, Repr

/-- Clients free what they own and store into what they own. -/
def clientLegal (s : ClientState) : ClientOp → Prop
  | .kmalloc size => size.toNat + 12 < 2 ^ 32
  | .kfree addr => ∃ size, (addr, size) ∈ s.outstanding
  | .store addr _ => ∃ range, range ∈ s.outstanding ∧
      addr ∈ Allocation.bytes range

def clientStep (slobHead : Word) (s : ClientState) :
    ClientOp → Option ClientState
  | .kmalloc size => do
      let (addr, m) ← kmalloc slobHead size s.memory
      return ⟨m, if addr = 0 then s.outstanding
        else (addr, size) :: s.outstanding⟩
  | .kfree addr => do
      let m ← kfree slobHead addr s.memory
      return ⟨m, s.outstanding.eraseP fun range => range.1 = addr⟩
  | .store addr value =>
      some { s with memory := s.memory.store8 addr value }

def clientMachine (slobHead : Word) : Machine ClientState ClientOp where
  legal := clientLegal
  step := clientStep slobHead

/-- The first listed block that fits, which is the one `kmalloc` takes. -/
def FirstFitting (slobHead len : Word) (m : Memory) (block : Word) : Prop :=
  ∃ before after,
    Ring (nextLink m) (prevLink m) slobHead
      (before ++ blockList block :: after) ∧
    slobHead ∉ before ++ blockList block :: after ∧
    (∀ le, le ∈ before → ¬ Fits len (blockInfo (leToBlock le) m)) ∧
    Fits len (blockInfo block m)

/-- The block that `kmalloc` takes, if there is one, is longer than the
request by a header and 32 bytes. -/
def TakesDivisible (slobHead : Word) (s : ClientState) : ClientOp → Prop
  | .kmalloc size => ∀ block,
      FirstFitting slobHead (requestLength size) s.memory block →
      (requestLength size).toNat + 44 ≤ (length block s.memory).toNat
  | _ => True

/-- Outstanding allocations are disjoint and lie in the arena. -/
structure OwnedApart (base : Word) (outstanding : List Allocation) :
    Prop where
  disjoint : outstanding.Pairwise fun left right =>
    ∀ position, position ∈ left.bytes → position ∉ right.bytes
  inside : ∀ range, range ∈ outstanding →
    base.toNat ≤ range.1.toNat ∧
      range.1.toNat + range.2.toNat ≤ base.toNat + arenaLength

/-- Every outstanding allocation is the payload of its own used block. -/
structure Owns (base : Word) (chunks : List Chunk)
    (outstanding : List Allocation) : Prop where
  owned : ∀ range, range ∈ outstanding →
    ∃ block, block ∈ blocks base chunks ∧ block.2.used = true ∧
      range.1 = blockAddress block + blockSize ∧
      range.2.toNat ≤ block.2.length
  distinct : (outstanding.map Prod.fst).Nodup

def ClientInvariant (slobHead base : Word) (s : ClientState) : Prop :=
  ∃ chunks, HeapTiles chunks ∧ HeapAt slobHead base s.memory chunks ∧
    Owns base chunks s.outstanding

variable {slobHead base : Word} {chunks before after : List Chunk}
  {chunk : Chunk} {m : Memory} {outstanding : List Allocation}

/-! ## Owned blocks -/

theorem payload_toNat (arena : Arena slobHead base)
    (fits : Chunks.span headerLength chunks ≤ arenaLength)
    {block : Nat × Chunk} (member : block ∈ blocks base chunks)
    (positive : 0 < block.2.length) :
    (blockAddress block + blockSize).toNat = block.1 + 12 := by
  have bounds := block_bounds fits member
  have inside := arena.inside
  have address := blockAddress_toNat arena fits member
  have twelve : blockSize.toNat = 12 := by decide
  rw [BitVec.toNat_add, address, twelve]
  omega

/-- Two used blocks with one payload address are the same. -/
theorem block_unique (arena : Arena slobHead base)
    (fits : Chunks.span headerLength chunks ≤ arenaLength)
    {left right : Nat × Chunk} (leftMember : left ∈ blocks base chunks)
    (rightMember : right ∈ blocks base chunks)
    (same : blockAddress left = blockAddress right) : left = right := by
  have leftAddress := blockAddress_toNat arena fits leftMember
  have rightAddress := blockAddress_toNat arena fits rightMember
  rw [same, rightAddress] at leftAddress
  rcases blocks_apart leftMember rightMember with isSame | apart
  · exact isSame
  · omega

/-- An owned range lies in the payload of a used block. -/
theorem Owns.payload (owns : Owns base chunks outstanding)
    (arena : Arena slobHead base) (tiles : HeapTiles chunks)
    {range : Allocation} (member : range ∈ outstanding) :
    ∃ block, block ∈ blocks base chunks ∧ block.2.used = true ∧
      range.1 = blockAddress block + blockSize ∧
      range.1.toNat = block.1 + 12 ∧ range.2.toNat ≤ block.2.length := by
  obtain ⟨block, blockMember, used, address, length⟩ := owns.owned range member
  have long := tiles.long block.2 (Chunks.mem_of_placed blockMember)
  have place := payload_toNat arena tiles.fits blockMember (by omega)
  exact ⟨block, blockMember, used, address, by rw [address, place], length⟩

theorem Owns.apart (owns : Owns base chunks outstanding)
    (arena : Arena slobHead base) (tiles : HeapTiles chunks) :
    OwnedApart base outstanding := by
  constructor
  · refine (List.pairwise_map.mp owns.distinct).imp_of_mem ?_
    intro left right leftMember rightMember different position inLeft inRight
    obtain ⟨block, blockMember, _, address, place, length⟩ :=
      owns.payload arena tiles leftMember
    obtain ⟨other, otherMember, _, otherAddress, otherPlace, otherLength⟩ :=
      owns.payload arena tiles rightMember
    obtain ⟨low, high⟩ := inLeft
    obtain ⟨otherLow, otherHigh⟩ := inRight
    rcases blocks_apart blockMember otherMember with rfl | apart
    · exact different (address.trans otherAddress.symm)
    · omega
  · intro range member
    obtain ⟨block, blockMember, _, _, place, length⟩ :=
      owns.payload arena tiles member
    have bounds := block_bounds tiles.fits blockMember
    omega

/-- Heap calls do not write into owned ranges. -/
theorem Owns.heapArea_outside (owns : Owns base chunks outstanding)
    (arena : Arena slobHead base) (tiles : HeapTiles chunks)
    {range : Allocation} (member : range ∈ outstanding) :
    ∀ position, position ∈ heapArea slobHead base chunks →
      position ∉ range.bytes := by
  obtain ⟨block, blockMember, used, _, place, length⟩ :=
    owns.payload arena tiles member
  have bounds := block_bounds tiles.fits blockMember
  have headApart := arena.headApart
  rintro position (inHead | ⟨_, _, unused⟩) ⟨low, high⟩
  · omega
  · have outside := unused block blockMember used
    omega

/-- Stores elsewhere leave the heap in place. -/
theorem HeapAt.frame (heap : HeapAt slobHead base m chunks)
    (arena : Arena slobHead base)
    (fits : Chunks.span headerLength chunks ≤ arenaLength) {m' : Memory}
    {range : Set Nat} (writes : Memory.WritesWithin range m m')
    (apart : ∀ position, position ∈ range →
      position ∉ headerBytes slobHead base chunks) :
    HeapAt slobHead base m' chunks := by
  have separate := nodes_separate arena fits
  have inNode : ∀ node, node ∈ slobHead :: blockNodes base chunks →
      ∀ offset, offset < 8 →
        node.toNat + offset ∈ headerBytes slobHead base chunks := by
    intro node isNode offset bound
    rcases List.mem_cons.mp isNode with rfl | isBlock
    · exact Or.inl ⟨by omega, by omega⟩
    · obtain ⟨block, member, rfl⟩ := block_of_node isBlock
      rw [blockNode_toNat arena fits member]
      unfold headerBytes headerLength
      exact Or.inr ⟨block, member, by omega, by omega⟩
  constructor
  · intro block member
    have address := blockAddress_toNat arena fits member
    rw [← heap.headers block member, blockInfo, blockInfo, writes.load32_eq]
    intro offset bound inRange
    apply apart _ inRange
    rw [address]
    unfold headerBytes headerLength
    exact Or.inr ⟨block, member, by omega, by omega⟩
  · apply heap.ring.transport
    · intro node isNode
      apply writes.load32_eq
      intro offset bound inRange
      apply apart _ inRange
      rw [separate.next_toNat isNode, Nat.add_assoc]
      exact inNode node isNode (4 + offset) (by omega)
    · intro node isNode
      apply writes.load32_eq
      intro offset bound inRange
      exact apart _ inRange (inNode node isNode offset (by omega))

/-- A client store hits no header. -/
theorem Owns.bytes_outside (owns : Owns base chunks outstanding)
    (arena : Arena slobHead base) (tiles : HeapTiles chunks)
    {range : Allocation} (member : range ∈ outstanding) :
    ∀ position, position ∈ range.bytes →
      position ∉ headerBytes slobHead base chunks := by
  intro position inRange inHeader
  exact owns.heapArea_outside arena tiles member position
    (headerBytes_heapArea tiles.fits (fun _ isBlock _ => isBlock) position
      inHeader) inRange

/-! ## Steps -/

/-- The chunk that first fit finds is the first listed block that fits. -/
theorem HeapAt.firstFitting (heap : HeapAt slobHead base m chunks)
    (arena : Arena slobHead base)
    (fits : Chunks.span headerLength chunks ≤ arenaLength) {len : Word}
    (found : Chunks.firstFit len.toNat chunks = some (before, chunk, after)) :
    FirstFitting slobHead len m (blockAddress (endOf base before, chunk)) := by
  obtain ⟨split, free, long⟩ := Chunks.firstFit_some found
  have passed := Chunks.firstFit_before found
  have fresh := (List.nodup_cons.mp (nodes_nodup arena fits)).1
  have ring := heap.ring
  subst split
  have nodes := blockNodes_middle base before [chunk] after
  change blockNodes base (before ++ chunk :: after) = _ ++ (_ :: _) at nodes
  rw [nodes] at ring fresh
  have small := chunk_length_lt fits
  refine ⟨blockNodes base before, _, ring, fresh, ?_, ?_⟩
  · intro le member
    obtain ⟨placed, placedMember, rfl⟩ := block_of_node member
    have inHeap : placed ∈ blocks base (before ++ ([chunk] ++ after)) :=
      mem_blocks_middle.mpr (Or.inl placedMember)
    have bounds := block_bounds fits inHeap
    unfold arenaLength at bounds
    rw [blockNode, leToBlock_blockList, heap.headers placed inHeap,
      fits_iff (by omega)]
    exact passed placed.2 (Chunks.mem_of_placed placedMember)
  · have fitting := @fits_iff chunk len (by omega)
    rw [heap.headers _ (middle_mem base before chunk after)]
    exact fitting.mpr ⟨free, long⟩

theorem payloadAt_ne_zero (arena : Arena slobHead base)
    (fits : Chunks.span headerLength (before ++ chunk :: after) ≤ arenaLength)
    (positive : 0 < chunk.length) :
    payloadAt base (Chunks.span headerLength before) ≠ 0 := by
  have place := payload_toNat arena fits
    (middle_mem base before chunk after) positive
  intro zero
  change (payloadAt base (Chunks.span headerLength before)).toNat = _ at place
  rw [zero] at place
  change 0 = endOf base before + 12 at place
  omega

/-- A divided block becomes a new allocation. -/
theorem Owns.divide (owns : Owns base (before ++ chunk :: after) outstanding)
    (arena : Arena slobHead base) {len size : Word}
    (fits : Chunks.span headerLength (before ++ chunk :: after) ≤ arenaLength)
    (free : chunk.used = false) (header : 12 ≤ len.toNat)
    (long : len.toNat ≤ chunk.length) (room : size.toNat + 12 ≤ len.toNat) :
    Owns base (before ++ takenChunk len :: restChunk chunk len :: after)
      ((payloadAt base (Chunks.span headerLength before), size) ::
        outstanding) := by
  constructor
  · intro range member
    rcases List.mem_cons.mp member with rfl | isOld
    · refine ⟨(endOf base before, takenChunk len), ?_, rfl, rfl, ?_⟩
      · exact middle_mem base before (takenChunk len) _
      · change size.toNat ≤ len.toNat - 12
        omega
    · obtain ⟨block, blockMember, used, address, length⟩ :=
        owns.owned range isOld
      exact ⟨block, mem_blocks_divided header long free blockMember used,
        used, address, length⟩
  · refine List.nodup_cons.mpr ⟨?_, owns.distinct⟩
    intro member
    obtain ⟨range, isOld, sameAddress⟩ := List.mem_map.mp member
    obtain ⟨block, blockMember, used, address, _⟩ := owns.owned range isOld
    have same : blockAddress block =
        blockAddress (endOf base before, chunk) := by
      have payload := address.symm.trans sameAddress
      exact (BitVec.add_left_inj blockSize).mp payload
    rw [block_unique arena fits blockMember
      (middle_mem base before chunk after) same] at used
    exact absurd (free.symm.trans used) (by decide)

theorem mem_of_mem_eraseP {addr : Word} {outstanding : List Allocation}
    {range : Allocation} (nodup : (outstanding.map Prod.fst).Nodup)
    (member : range ∈ outstanding.eraseP fun range => range.1 = addr) :
    range ∈ outstanding ∧ range.1 ≠ addr := by
  induction outstanding with
  | nil => simp at member
  | cons first rest inductionRest =>
      obtain ⟨fresh, restNodup⟩ := List.nodup_cons.mp nodup
      by_cases isFirst : first.1 = addr
      · rw [List.eraseP_cons_of_pos (by simpa using isFirst)] at member
        refine ⟨List.mem_cons_of_mem first member, ?_⟩
        intro same
        exact fresh (List.mem_map.mpr
          ⟨range, member, same.trans isFirst.symm⟩)
      · rw [List.eraseP_cons_of_neg (by simpa using isFirst)] at member
        rcases List.mem_cons.mp member with rfl | inRest
        · exact ⟨List.mem_cons_self, isFirst⟩
        · obtain ⟨isOld, different⟩ := inductionRest restNodup inRest
          exact ⟨List.mem_cons_of_mem first isOld, different⟩

/-- A released block leaves the other allocations alone. -/
theorem Owns.release (owns : Owns base (before ++ chunk :: after) outstanding)
    {addr : Word} (isAddr : addr = payloadAt base
      (Chunks.span headerLength before)) :
    Owns base
      (Chunks.release headerLength { chunk with used := false } after before)
      (outstanding.eraseP fun range => range.1 = addr) := by
  constructor
  · intro range member
    obtain ⟨isOld, different⟩ := mem_of_mem_eraseP owns.distinct member
    obtain ⟨block, blockMember, used, address, length⟩ := owns.owned range isOld
    refine ⟨block, ?_, used, address, length⟩
    refine @Chunks.mem_place_release headerLength chunk
      { chunk with used := false } rfl after block used before base.toNat
      blockMember ?_
    intro samePlace
    apply different
    rw [address, isAddr, blockAddress, samePlace, payloadAt]
  · exact owns.distinct.sublist (List.eraseP_sublist.map Prod.fst)

/-- The clients whose calls of `kmalloc` all take a divisible block. -/
def dividingMachine (slobHead : Word) : Machine ClientState ClientOp :=
  (clientMachine slobHead).restrict (TakesDivisible slobHead)

theorem clientStep_kmalloc {s : ClientState} {size addr : Word} {m' : Memory}
    (run : kmalloc slobHead size s.memory = some (addr, m'))
    (nonzero : addr ≠ 0) :
    clientStep slobHead s (.kmalloc size) =
      some ⟨m', (addr, size) :: s.outstanding⟩ := by
  simp only [clientStep, run, Option.bind_eq_bind, Option.bind_some,
    if_neg nonzero]
  rfl

theorem kmalloc_keeps (arena : Arena slobHead base) {s : ClientState}
    (tiles : HeapTiles chunks) (heap : HeapAt slobHead base s.memory chunks)
    (owns : Owns base chunks s.outstanding) {size : Word}
    (noWrap : size.toNat + 12 < 2 ^ 32)
    (divisible : TakesDivisible slobHead s (.kmalloc size)) :
    ∃ s', clientStep slobHead s (.kmalloc size) = some s' ∧
      ClientInvariant slobHead base s' ∧
      Memory.WritesWithin (heapArea slobHead base chunks)
        s.memory s'.memory := by
  have request := requestLength_toNat noWrap
  have call := kmalloc_refines arena noWrap tiles.fits heap
  cases found : Chunks.firstFit (requestLength size).toNat chunks with
  | none =>
      simp only [allocateChunk, found] at call
      refine ⟨s, ?_, ⟨chunks, tiles, heap, owns⟩,
        Memory.WritesWithin.refl _ s.memory⟩
      simp [clientStep, call]
  | some place =>
      obtain ⟨before, chunk, after⟩ := place
      obtain ⟨split, free, long⟩ := Chunks.firstFit_some found
      have enough := divisible _ (heap.firstFitting arena tiles.fits found)
      subst split
      have small := chunk_length_lt tiles.fits
      have isLength : (length (blockAddress (endOf base before, chunk))
          s.memory).toNat = chunk.length := by
        rw [heap.length_eq tiles.fits (middle_mem base before chunk after),
          BitVec.toNat_ofNat]
        exact Nat.mod_eq_of_lt (by change chunk.length < _; omega)
      rw [isLength] at enough
      have notShort : ¬ chunk.length < (requestLength size).toNat + 44 := by
        omega
      have taken : allocateChunk (requestLength size).toNat
          (before ++ chunk :: after) =
            some (Chunks.span headerLength before,
              before ++ takenChunk (requestLength size) ::
                restChunk chunk (requestLength size) :: after) := by
        simp only [allocateChunk, found, if_neg notShort]
        rfl
      have newTiles := allocateChunk_tiles noWrap tiles taken
      rw [taken] at call
      obtain ⟨m', run, heap', writes⟩ := call
      have nonzero := payloadAt_ne_zero arena tiles.fits (by omega)
      exact ⟨_, clientStep_kmalloc run nonzero, ⟨_, newTiles, heap',
        owns.divide arena tiles.fits free (by omega) (by omega) (by omega)⟩,
        writes⟩

theorem kfree_keeps (arena : Arena slobHead base) {s : ClientState}
    (tiles : HeapTiles chunks) (heap : HeapAt slobHead base s.memory chunks)
    (owns : Owns base chunks s.outstanding) {addr : Word}
    (legal : clientLegal s (.kfree addr)) :
    ∃ s', clientStep slobHead s (.kfree addr) = some s' ∧
      ClientInvariant slobHead base s' ∧
      Memory.WritesWithin (heapArea slobHead base chunks)
        s.memory s'.memory := by
  obtain ⟨size, member⟩ := legal
  obtain ⟨block, blockMember, used, address, _⟩ := owns.owned _ member
  obtain ⟨before, after, split, place⟩ :=
    Chunks.exists_split_of_mem blockMember
  have isAddr : addr = payloadAt base (Chunks.span headerLength before) := by
    change addr = _ at address
    rw [address, blockAddress, place, payloadAt]
  have found := Chunks.findAt_span (by decide : 0 < headerLength) block.2 after
    before
  rw [← split] at found
  obtain ⟨m', run, heap', writes⟩ := kfree_refines arena tiles.fits heap found
  have released : Chunks.releaseAt headerLength
      (Chunks.span headerLength before) chunks =
        Chunks.release headerLength { block.2 with used := false } after
          before := by
    simp only [Chunks.releaseAt, found, used, if_true]
  have newTiles : HeapTiles (Chunks.releaseAt headerLength
    (Chunks.span headerLength before) chunks) := releaseAt_tiles tiles
  rw [released] at heap' newTiles
  rw [split] at owns
  refine ⟨⟨m', s.outstanding.eraseP fun range => range.1 = addr⟩, ?_,
    ⟨_, newTiles, heap', owns.release isAddr⟩, writes⟩
  rw [isAddr]
  simp [clientStep, run]

theorem store_keeps (arena : Arena slobHead base) {s : ClientState}
    (tiles : HeapTiles chunks) (heap : HeapAt slobHead base s.memory chunks)
    (owns : Owns base chunks s.outstanding) {addr : Nat} {value : BitVec 8}
    (legal : clientLegal s (.store addr value)) :
    ∃ s', clientStep slobHead s (.store addr value) = some s' ∧
      ClientInvariant slobHead base s' := by
  obtain ⟨range, member, inside⟩ := legal
  exact ⟨_, rfl, chunks, tiles,
    heap.frame arena tiles.fits
      (Memory.store8_writesWithin value s.memory inside)
      (owns.bytes_outside arena tiles member), owns⟩

/-- Dividing clients keep their allocations apart. -/
theorem dividingMachine_keeps (arena : Arena slobHead base) :
    (dividingMachine slobHead).Keeps (ClientInvariant slobHead base) := by
  rintro s op ⟨chunks, tiles, heap, owns⟩ ⟨legal, divisible⟩
  cases op with
  | kmalloc size =>
      obtain ⟨s', run, inv, _⟩ :=
        kmalloc_keeps arena tiles heap owns legal divisible
      exact ⟨s', run, inv⟩
  | kfree addr =>
      obtain ⟨s', run, inv, _⟩ := kfree_keeps arena tiles heap owns legal
      exact ⟨s', run, inv⟩
  | store addr value => exact store_keeps arena tiles heap owns legal

/-- The clients begin behind `slob_init`. -/
theorem clientStart_invariant {m₀ m₁ : Memory} (arena : Arena slobHead base)
    (empty : Ring (nextLink m₀) (prevLink m₀) slobHead [])
    (init : slobInit slobHead base m₀ = some m₁) :
    ClientInvariant slobHead base ⟨m₁, []⟩ := by
  obtain ⟨m', initRun, heap, _⟩ := slobInit_spec arena empty
  rw [init] at initRun
  rw [← Option.some.inj initRun] at heap
  exact ⟨[wholeArena], wholeArena_tiles, heap, by simp, List.nodup_nil⟩

/-- A call of `kmalloc` or `kfree`, as opposed to a client store. -/
def ClientOp.IsCall : ClientOp → Prop
  | .store _ _ => False
  | _ => True

/-- In every state of every run whose calls of `kmalloc` all take a divisible
block, the outstanding allocations are disjoint and lie in the arena, and the
next call of `kmalloc` or `kfree` writes into none of them. -/
theorem heap_ownership {m₀ m₁ : Memory} {s : ClientState}
    (arena : Arena slobHead base)
    (empty : Ring (nextLink m₀) (prevLink m₀) slobHead [])
    (init : slobInit slobHead base m₀ = some m₁)
    (run : (dividingMachine slobHead).Reaches ⟨m₁, []⟩ s) :
    OwnedApart base s.outstanding ∧
      ∀ op, (dividingMachine slobHead).legal s op →
        ∃ s', (dividingMachine slobHead).step s op = some s' ∧
          (op.IsCall → ∀ range, range ∈ s.outstanding →
            Memory.WritesWithin {position | position ∉ range.bytes}
              s.memory s'.memory) := by
  obtain ⟨chunks, tiles, heap, owns⟩ :=
    (dividingMachine_keeps arena).reaches
      (clientStart_invariant arena empty init) run
  refine ⟨owns.apart arena tiles, ?_⟩
  rintro op ⟨legal, divisible⟩
  cases op with
  | kmalloc size =>
      obtain ⟨s', step, _, writes⟩ :=
        kmalloc_keeps arena tiles heap owns legal divisible
      exact ⟨s', step, fun _ range member =>
        writes.mono (owns.heapArea_outside arena tiles member)⟩
  | kfree addr =>
      obtain ⟨s', step, _, writes⟩ := kfree_keeps arena tiles heap owns legal
      exact ⟨s', step, fun _ range member =>
        writes.mono (owns.heapArea_outside arena tiles member)⟩
  | store addr value => exact ⟨_, rfl, fun isCall => False.elim isCall⟩

/-- On a heap of one free block all small requests find a divisible block. -/
theorem takesDivisible_wholeArena (arena : Arena slobHead base)
    {s : ClientState} (heap : HeapAt slobHead base s.memory [wholeArena])
    {size : Word}
    (small : (requestLength size).toNat + 44 ≤ wholeArena.length) :
    TakesDivisible slobHead s (.kmalloc size) := by
  rintro block ⟨front, back, ring, fresh, _, _⟩
  have fits := wholeArena_tiles.fits
  have listed : Listed slobHead s.memory block :=
    ⟨_, ring, fresh, by simp⟩
  obtain ⟨placed, member, rfl⟩ := (heap.listed_iff arena fits).mp listed
  have isWhole : placed = (base.toNat, wholeArena) :=
    List.mem_singleton.mp member
  rw [heap.length_eq fits member, isWhole, BitVec.toNat_ofNat]
  exact small

theorem heap_ownership_after_kmalloc :
    ∃ m₁ s,
      slobInit 0xC0108000 0xC0200000 (emptyListMemory 0xC0108000) = some m₁ ∧
      (clientMachine 0xC0108000).step ⟨m₁, []⟩ (.kmalloc 100) = some s ∧
      OwnedApart 0xC0200000 s.outstanding := by
  obtain ⟨m₁, init, heap, _⟩ := slobInit_spec arena_sample emptyListMemory_ring
  have divisible : TakesDivisible 0xC0108000 ⟨m₁, []⟩ (.kmalloc 100) :=
    takesDivisible_wholeArena arena_sample heap (by decide)
  have noWrap : (100 : Word).toNat + 12 < 2 ^ 32 := by decide
  have legal : (dividingMachine 0xC0108000).legal ⟨m₁, []⟩ (.kmalloc 100) :=
    ⟨noWrap, divisible⟩
  obtain ⟨s, step, _⟩ := (heap_ownership arena_sample emptyListMemory_ring init
    Machine.Reaches.start).2 _ legal
  have apart := (heap_ownership arena_sample emptyListMemory_ring init
    (Machine.Reaches.step Machine.Reaches.start legal step)).1
  exact ⟨m₁, s, init, step, apart⟩

/-- Requests of 4194279 bytes take the whole arena and leave it unmarked, so
two of them get the same address. -/
theorem allocations_overlap :
    ¬ ∀ (slobHead base : Word) (m₀ m₁ : Memory) (s : ClientState),
      Arena slobHead base →
      Ring (nextLink m₀) (prevLink m₀) slobHead [] →
      slobInit slobHead base m₀ = some m₁ →
      (clientMachine slobHead).Reaches ⟨m₁, []⟩ s →
      OwnedApart base s.outstanding := by
  intro general
  obtain ⟨m₁, init, heap₁, _⟩ :=
    slobInit_spec arena_sample emptyListMemory_ring
  have fits := wholeArena_tiles.fits
  have noWrap : (4194279 : Word).toNat + 12 < 2 ^ 32 := by decide
  have taken : allocateChunk (requestLength 4194279).toNat [wholeArena] =
      some (0, [wholeArena]) := by decide
  have first := kmalloc_refines arena_sample noWrap fits heap₁
  rw [taken] at first
  obtain ⟨m₂, firstRun, heap₂, _⟩ := first
  have second := kmalloc_refines arena_sample noWrap fits heap₂
  rw [taken] at second
  obtain ⟨m₃, secondRun, _⟩ := second
  have nonzero : payloadAt 0xC0200000 0 ≠ 0 := by decide
  have once : (clientMachine 0xC0108000).Reaches ⟨m₁, []⟩
      ⟨m₂, [(payloadAt 0xC0200000 0, 4194279)]⟩ :=
    @Machine.Reaches.step _ _ _ _ _ _ (.kmalloc 4194279) Machine.Reaches.start
      noWrap (clientStep_kmalloc firstRun nonzero)
  have twice : (clientMachine 0xC0108000).Reaches ⟨m₁, []⟩
      ⟨m₃, [(payloadAt 0xC0200000 0, 4194279),
        (payloadAt 0xC0200000 0, 4194279)]⟩ :=
    @Machine.Reaches.step _ _ _ _ _ _ (.kmalloc 4194279) once
      noWrap (clientStep_kmalloc secondRun nonzero)
  have apart := (general _ _ _ m₁ _ arena_sample emptyListMemory_ring init
    twice).disjoint
  have inside : (payloadAt 0xC0200000 0).toNat ∈
      Allocation.bytes (payloadAt 0xC0200000 0, 4194279) :=
    ⟨by decide, by decide⟩
  exact (List.pairwise_cons.mp apart).1 _ List.mem_cons_self _ inside inside

end Hlos.Mm
