import Hlos.Mm.HeapOwnership

/-!
# Requests of every size

`kmalloc` adds the header to the requested size before it compares the sum
with the length of a block, which does not count the header.  Sizes from
`2 ^ 32 - 12` on wrap around in the addition, and a free block that is longer
than a request by at most one header is passed over.
-/

namespace Hlos.Mm

open Hlos.Lib Hlos.Include

/-- Clients that request any size, and free any listed block. -/
def requestLegal (slobHead : Word) (m : Memory) : HeapOp → Prop
  | .kmalloc _ => True
  | .kfree addr => Listed slobHead m (addr - blockSize)

def requestMachine (slobHead : Word) : Machine Memory HeapOp where
  legal := requestLegal slobHead
  step := heapStep slobHead

/-- A listed block is free and has room for `room` bytes. -/
def FreeListed (slobHead : Word) (m : Memory) (room : Nat) : Prop :=
  ∃ block, Listed slobHead m block ∧ allocated block m = SLOB_FREE ∧
    room ≤ (length block m).toNat

/-- The size does not wrap around, or no block is free. -/
def SizeKept (slobHead : Word) (m : Memory) : HeapOp → Prop
  | .kmalloc size => size.toNat + 12 < 2 ^ 32 ∨ ¬ FreeListed slobHead m 0
  | .kfree _ => True

/-- The answer is `NULL` on an unchanged heap, or the payload of a listed
block that is long enough. -/
def HonoursSize (slobHead base size : Word) (m : Memory) : Prop :=
  kmalloc slobHead size m = some (0, m) ∨
    ∃ block info m' listed,
      kmalloc slobHead size m = some (block + blockSize, m') ∧
      ArenaTiled slobHead base m' listed ∧ (block, info) ∈ listed ∧
      size.toNat ≤ info.length.toNat ∧ base.toNat ≤ block.toNat ∧
      block.toNat + 12 + info.length.toNat ≤ base.toNat + arenaLength

variable {slobHead base : Word} {chunks : List Chunk} {m : Memory}

/-! ## Free blocks -/

/-- The free listed blocks are the free chunks. -/
theorem HeapAt.freeListed_iff (heap : HeapAt slobHead base m chunks)
    (arena : Arena slobHead base)
    (fits : Chunks.span headerLength chunks ≤ arenaLength) (room : Nat) :
    FreeListed slobHead m room ↔
      ∃ chunk, chunk ∈ chunks ∧ chunk.used = false ∧ room ≤ chunk.length := by
  have fields : ∀ placed, placed ∈ blocks base chunks →
      allocated (blockAddress placed) m = (chunkInfo placed.2).allocated ∧
        (length (blockAddress placed) m).toNat = placed.2.length := by
    intro placed member
    have bounds := block_bounds fits member
    unfold arenaLength at bounds
    refine ⟨congrArg BlockInfo.allocated (heap.headers placed member), ?_⟩
    rw [heap.length_eq fits member, BitVec.toNat_ofNat]
    exact Nat.mod_eq_of_lt (by omega)
  constructor
  · intro freeListed
    obtain ⟨block, listed, free, enough⟩ := freeListed
    obtain ⟨placed, member, rfl⟩ := (heap.listed_iff arena fits).mp listed
    obtain ⟨mark, long⟩ := fields placed member
    rw [mark, chunkInfo_free] at free
    rw [long] at enough
    exact ⟨placed.2, Chunks.mem_of_placed member, free, enough⟩
  · intro freeChunk
    obtain ⟨chunk, member, free, enough⟩ := freeChunk
    obtain ⟨before, after, rfl⟩ := List.append_of_mem member
    have placed := middle_mem base before chunk after
    obtain ⟨mark, long⟩ := fields _ placed
    refine ⟨blockAddress (endOf base before, chunk),
      (heap.listed_iff arena fits).mpr ⟨_, placed, rfl⟩, ?_, ?_⟩
    · rw [mark]
      exact chunkInfo_free.mpr free
    · rw [long]
      exact enough

/-! ## Sizes that wrap around -/

theorem requestLength_wraps {size : Word} (wraps : 2 ^ 32 ≤ size.toNat + 12) :
    (requestLength size).toNat < 12 := by
  have header : blockSize.toNat = 12 := by decide
  have least : SLOB_MIN_PART.toNat = 32 := by decide
  have bound := size.isLt
  have large : size > SLOB_MIN_PART := by
    rw [gt_iff_lt, BitVec.lt_def]
    omega
  rw [requestLength, if_pos large, BitVec.toNat_add, header]
  omega

/-- Without a free block the answer is `NULL` for every size. -/
theorem kmalloc_full (arena : Arena slobHead base) (tiles : HeapTiles chunks)
    (heap : HeapAt slobHead base m chunks) (full : ¬ FreeListed slobHead m 0)
    (size : Word) : kmalloc slobHead size m = some (0, m) := by
  have nothing :
      Chunks.firstFit (requestLength size).toNat chunks = none := by
    apply Chunks.firstFit_eq_none_iff.mpr
    intro chunk member fits
    apply full
    rw [heap.freeListed_iff arena tiles.fits]
    exact ⟨chunk, member, fits.1, Nat.zero_le _⟩
  rw [kmalloc_eq arena size tiles.fits heap, nothing]
  rfl

/-- `kmalloc` returns `NULL`, or the payload address of a block. -/
theorem kmalloc_address (arena : Arena slobHead base) (tiles : HeapTiles chunks)
    (heap : HeapAt slobHead base m chunks) {size addr : Word} {m' : Memory}
    (run : kmalloc slobHead size m = some (addr, m')) :
    Chunks.firstFit (requestLength size).toNat chunks = none ∨ addr ≠ 0 := by
  rw [kmalloc_eq arena size tiles.fits heap] at run
  cases found : Chunks.firstFit (requestLength size).toNat chunks with
  | none => exact Or.inl rfl
  | some place =>
      obtain ⟨before, chunk, after⟩ := place
      obtain ⟨rfl, _, long⟩ := Chunks.firstFit_some found
      rw [found] at run
      obtain ⟨m₁, _, result⟩ := Option.bind_eq_some_iff.mp run
      have isPayload :
          blockAddress (endOf base before, chunk) + blockSize = addr :=
        congrArg Prod.fst (Option.some.inj result)
      have payload := payload_toNat arena tiles.fits
        (middle_mem base before chunk after)
        (by change 0 < chunk.length; omega)
      rw [isPayload] at payload
      refine Or.inr fun isZero => ?_
      rw [isZero] at payload
      change 0 = _ + 12 at payload
      omega

/-- A wrapped request takes the first free block, however small. -/
theorem not_honoursSize_of_wraps (arena : Arena slobHead base)
    (tiles : HeapTiles chunks) (heap : HeapAt slobHead base m chunks)
    {size : Word} (wraps : 2 ^ 32 ≤ size.toNat + 12)
    (free : FreeListed slobHead m 0) :
    ¬ HonoursSize slobHead base size m := by
  intro honours
  cases honours with
  | inl null =>
      obtain ⟨chunk, member, isFree, _⟩ :=
        (heap.freeListed_iff arena tiles.fits 0).mp free
      have small := requestLength_wraps wraps
      have long := tiles.long chunk member
      cases kmalloc_address arena tiles heap null with
      | inl nothing =>
          exact Chunks.firstFit_eq_none_iff.mp nothing chunk member
            ⟨isFree, by omega⟩
      | inr notNull => exact notNull rfl
  | inr payload =>
      obtain ⟨_, info, _, _, _, _, _, long, _⟩ := payload
      have bound := info.length.isLt
      omega

/-! ## The other sizes -/

/-- The block taken is found in the new list. -/
theorem allocateChunk_block {size : Word} {position : Nat}
    {chunks' : List Chunk} (noWrap : size.toNat + 12 < 2 ^ 32)
    (taken : allocateChunk (requestLength size).toNat chunks =
      some (position, chunks')) :
    ∃ before chunk after, chunks' = before ++ chunk :: after ∧
      position = Chunks.span headerLength before ∧
      size.toNat ≤ chunk.length := by
  have request := requestLength_toNat noWrap
  rw [allocateChunk] at taken
  cases found : Chunks.firstFit (requestLength size).toNat chunks with
  | none => simp [found] at taken
  | some place =>
      obtain ⟨before, chunk, after⟩ := place
      obtain ⟨split, free, long⟩ := Chunks.firstFit_some found
      simp only [found, Option.some.injEq, Prod.mk.injEq] at taken
      obtain ⟨isPosition, isList⟩ := taken
      by_cases short : chunk.length < (requestLength size).toNat + 44
      · rw [if_pos short] at isList
        exact ⟨before, chunk, after, isList.symm.trans split,
          isPosition.symm, by omega⟩
      · rw [if_neg short] at isList
        refine ⟨before, _, _, isList.symm, isPosition.symm, ?_⟩
        change size.toNat ≤ (requestLength size).toNat - 12
        omega

theorem honoursSize_of_noWrap (arena : Arena slobHead base)
    (tiles : HeapTiles chunks) (heap : HeapAt slobHead base m chunks)
    {size : Word} (noWrap : size.toNat + 12 < 2 ^ 32) :
    HonoursSize slobHead base size m := by
  have call := kmalloc_refines arena noWrap tiles.fits heap
  cases taken : allocateChunk (requestLength size).toNat chunks with
  | none =>
      rw [taken] at call
      exact Or.inl call
  | some result =>
      obtain ⟨position, chunks'⟩ := result
      rw [taken] at call
      obtain ⟨m', run, heap', _⟩ := call
      have tiles' := allocateChunk_tiles noWrap tiles taken
      obtain ⟨before, chunk, after, rfl, rfl, long⟩ :=
        allocateChunk_block noWrap taken
      have member := middle_mem base before chunk after
      have bounds := block_bounds tiles'.fits member
      have address := blockAddress_toNat arena tiles'.fits member
      have small := chunk_length_lt tiles'.fits
      have length : (chunkInfo chunk).length.toNat = chunk.length := by
        rw [chunkInfo, BitVec.toNat_ofNat]
        exact Nat.mod_eq_of_lt (by omega)
      refine Or.inr ⟨blockAddress (endOf base before, chunk), chunkInfo chunk,
        m', _, run, heap'.arenaTiled arena tiles',
        List.mem_map_of_mem member, ?_, ?_, ?_⟩
      · rw [length]
        exact long
      · rw [address]
        exact bounds.1
      · rw [address, length]
        exact bounds.2

/-! ## Runs -/

/-- Clients whose requests keep their size. -/
def keptMachine (slobHead : Word) : Machine Memory HeapOp :=
  (requestMachine slobHead).restrict (SizeKept slobHead)

theorem keptMachine_keeps (arena : Arena slobHead base) :
    (keptMachine slobHead).Keeps (HeapInvariant slobHead base) := by
  intro m op invariant legal
  obtain ⟨legal, kept⟩ := legal
  cases op with
  | kmalloc size =>
      cases kept with
      | inl noWrap =>
          exact heapMachine_keeps arena m (.kmalloc size) invariant noWrap
      | inr full =>
          obtain ⟨chunks, tiles, heap⟩ := invariant
          have null := kmalloc_full arena tiles heap full size
          exact ⟨m, congrArg (Option.map Prod.snd) null, chunks, tiles, heap⟩
  | kfree addr => exact heapMachine_keeps arena m (.kfree addr) invariant legal

/-- As long as requests keep their size, a request is honoured if and only if
it keeps its size too. -/
theorem kmalloc_honours_size_iff {m₀ m₁ : Memory} (arena : Arena slobHead base)
    (empty : Ring (nextLink m₀) (prevLink m₀) slobHead [])
    (init : slobInit slobHead base m₀ = some m₁)
    (run : (keptMachine slobHead).Reaches m₁ m) (size : Word) :
    HonoursSize slobHead base size m ↔
      SizeKept slobHead m (.kmalloc size) := by
  obtain ⟨chunks, tiles, heap⟩ :=
    (keptMachine_keeps arena).reaches (slobInit_invariant arena empty init) run
  constructor
  · intro honours
    by_contra notKept
    rw [SizeKept, not_or, not_not] at notKept
    exact not_honoursSize_of_wraps arena tiles heap (by omega) notKept.2
      honours
  · intro kept
    cases kept with
    | inl noWrap => exact honoursSize_of_noWrap arena tiles heap noWrap
    | inr full => exact Or.inl (kmalloc_full arena tiles heap full size)

theorem kmalloc_honours_size_100 :
    ∃ m₁,
      slobInit 0xC0108000 0xC0200000 (emptyListMemory 0xC0108000) = some m₁ ∧
      HonoursSize 0xC0108000 0xC0200000 100 m₁ := by
  obtain ⟨m₁, init, _⟩ := slobInit_spec arena_sample emptyListMemory_ring
  refine ⟨m₁, init, (kmalloc_honours_size_iff arena_sample
    emptyListMemory_ring init Machine.Reaches.start 100).mpr (Or.inl ?_)⟩
  decide

theorem freeListed_wholeArena {m : Memory} (arena : Arena slobHead base)
    (heap : HeapAt slobHead base m [wholeArena]) {room : Nat}
    (enough : room ≤ wholeArena.length) : FreeListed slobHead m room := by
  rw [heap.freeListed_iff arena wholeArena_tiles.fits]
  exact ⟨wholeArena, List.mem_cons_self, rfl, enough⟩

/-- The largest size is answered with the only block of the arena. -/
theorem kmalloc_dishonours_size :
    ¬ ∀ (slobHead base size : Word) (m₀ m₁ m : Memory), Arena slobHead base →
      Ring (nextLink m₀) (prevLink m₀) slobHead [] →
      slobInit slobHead base m₀ = some m₁ →
      (requestMachine slobHead).Reaches m₁ m →
      HonoursSize slobHead base size m := by
  intro general
  obtain ⟨m₁, init, heap, _⟩ := slobInit_spec arena_sample emptyListMemory_ring
  have free : FreeListed 0xC0108000 m₁ 0 :=
    freeListed_wholeArena arena_sample heap (Nat.zero_le _)
  exact not_honoursSize_of_wraps arena_sample wholeArena_tiles heap
    (by decide) free
    (general _ _ 0xFFFFFFFF _ m₁ m₁ arena_sample emptyListMemory_ring init
      Machine.Reaches.start)

/-! ## Failing requests -/

/-- If a free block has room for the rounded size, the answer is not
`NULL`. -/
def FindsRoom (slobHead size : Word) (m : Memory) : Prop :=
  FreeListed slobHead m (max size.toNat 32) →
    ∃ addr m', kmalloc slobHead size m = some (addr, m') ∧ addr ≠ 0

/-- No free block has room for the rounded size, or one has room for more than
12 bytes beyond it. -/
def RoomToSpare (slobHead size : Word) (m : Memory) : Prop :=
  ¬ FreeListed slobHead m (max size.toNat 32) ∨
    FreeListed slobHead m (max size.toNat 32 + 13)

/-- `kmalloc` succeeds if and only if a free block is longer than the rounded
size and a header. -/
theorem kmalloc_succeeds_iff (arena : Arena slobHead base)
    (tiles : HeapTiles chunks) (heap : HeapAt slobHead base m chunks)
    {size : Word} (noWrap : size.toNat + 12 < 2 ^ 32) :
    (∃ addr m', kmalloc slobHead size m = some (addr, m') ∧ addr ≠ 0) ↔
      FreeListed slobHead m (max size.toNat 32 + 13) := by
  have request := requestLength_toNat noWrap
  rw [heap.freeListed_iff arena tiles.fits]
  constructor
  · intro succeeds
    obtain ⟨addr, m', run, notNull⟩ := succeeds
    rw [kmalloc_eq arena size tiles.fits heap] at run
    cases found : Chunks.firstFit (requestLength size).toNat chunks with
    | none =>
        rw [found] at run
        have isNull : 0 = addr := congrArg Prod.fst (Option.some.inj run)
        exact absurd isNull.symm notNull
    | some place =>
        obtain ⟨before, chunk, after⟩ := place
        obtain ⟨rfl, free, long⟩ := Chunks.firstFit_some found
        exact ⟨chunk, by simp, free, by omega⟩
  · intro freeChunk
    obtain ⟨chunk, member, free, enough⟩ := freeChunk
    have call := kmalloc_refines arena noWrap tiles.fits heap
    cases taken : allocateChunk (requestLength size).toNat chunks with
    | none =>
        have nothing :
            Chunks.firstFit (requestLength size).toNat chunks = none := by
          rw [allocateChunk] at taken
          cases found : Chunks.firstFit (requestLength size).toNat chunks with
          | none => rfl
          | some place => simp [found] at taken
        exact absurd ⟨free, by omega⟩
          (Chunks.firstFit_eq_none_iff.mp nothing chunk member)
    | some result =>
        obtain ⟨position, chunks'⟩ := result
        rw [taken] at call
        obtain ⟨m', run, _⟩ := call
        refine ⟨_, m', run, ?_⟩
        cases kmalloc_address arena tiles heap run with
        | inl nothing => simp [allocateChunk, nothing] at taken
        | inr notNull => exact notNull

/-- A free block that is long enough is found if and only if some free block
is longer by more than a header. -/
theorem no_spurious_null_iff {m₀ m₁ : Memory} (arena : Arena slobHead base)
    (empty : Ring (nextLink m₀) (prevLink m₀) slobHead [])
    (init : slobInit slobHead base m₀ = some m₁)
    (run : (keptMachine slobHead).Reaches m₁ m) (size : Word) :
    FindsRoom slobHead size m ↔ RoomToSpare slobHead size m := by
  obtain ⟨chunks, tiles, heap⟩ :=
    (keptMachine_keeps arena).reaches (slobInit_invariant arena empty init) run
  by_cases noWrap : size.toNat + 12 < 2 ^ 32
  · rw [FindsRoom, kmalloc_succeeds_iff arena tiles heap noWrap]
    exact imp_iff_not_or
  · -- no block of the arena is that long
    have noRoom : ¬ FreeListed slobHead m (max size.toNat 32) := by
      rw [heap.freeListed_iff arena tiles.fits]
      intro freeChunk
      obtain ⟨chunk, member, _, enough⟩ := freeChunk
      obtain ⟨before, after, rfl⟩ := List.append_of_mem member
      have small := chunk_length_lt tiles.fits
      omega
    exact ⟨fun _ => Or.inl noRoom, fun _ room => absurd room noRoom⟩

theorem no_spurious_null_100 :
    ∃ m₁,
      slobInit 0xC0108000 0xC0200000 (emptyListMemory 0xC0108000) = some m₁ ∧
      FindsRoom 0xC0108000 100 m₁ := by
  obtain ⟨m₁, init, heap, _⟩ := slobInit_spec arena_sample emptyListMemory_ring
  exact ⟨m₁, init, (no_spurious_null_iff arena_sample emptyListMemory_ring init
    Machine.Reaches.start 100).mpr
      (Or.inr (freeListed_wholeArena arena_sample heap (by decide)))⟩

/-- The block of 4194292 bytes is not found by a request of its length. -/
theorem spurious_null :
    ¬ ∀ (slobHead base size : Word) (m₀ m₁ m : Memory), Arena slobHead base →
      Ring (nextLink m₀) (prevLink m₀) slobHead [] →
      slobInit slobHead base m₀ = some m₁ →
      (requestMachine slobHead).Reaches m₁ m →
      FindsRoom slobHead size m := by
  intro general
  obtain ⟨m₁, init, heap, _⟩ := slobInit_spec arena_sample emptyListMemory_ring
  have room : FreeListed 0xC0108000 m₁ (max (4194292 : Word).toNat 32) :=
    freeListed_wholeArena arena_sample heap (by decide)
  have found := general _ _ 4194292 _ m₁ m₁ arena_sample emptyListMemory_ring
    init Machine.Reaches.start room
  rw [kmalloc_succeeds_iff arena_sample wholeArena_tiles heap (by decide),
    heap.freeListed_iff arena_sample wholeArena_tiles.fits] at found
  obtain ⟨chunk, member, _, enough⟩ := found
  rw [List.mem_singleton.mp member] at enough
  exact absurd enough (by decide)

end Hlos.Mm
