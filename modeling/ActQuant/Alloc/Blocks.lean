import Mathlib.Data.List.Basic

namespace ActQuant.Alloc

/-! The array of free blocks of a chunk. -/

structure FreeBlock where
  offset : Nat
  size : Nat

def FreeBlock.stop (b : FreeBlock) : Nat := b.offset + b.size

def maxFreeBlocks : Nat := 256

/-- What ends the process, or leaves the language. -/
inductive Fault where
  | outOfFreeBlocks
  | outOfMemory
  | outOfBounds
deriving DecidableEq

/-- `tallocr_chunk`; the array holds `maxFreeBlocks` blocks, of which the first count. -/
structure TallocrChunk where
  freeBlocks : Nat → FreeBlock
  nFreeBlocks : Nat
  maxSize : Nat

def readBlock (bs : Nat → FreeBlock) (i : Nat) : Except Fault FreeBlock :=
  if i < maxFreeBlocks then .ok (bs i) else .error .outOfBounds

def writeBlock (bs : Nat → FreeBlock) (i : Nat) (b : FreeBlock) :
    Except Fault (Nat → FreeBlock) :=
  if i < maxFreeBlocks then .ok (Function.update bs i b) else .error .outOfBounds

/-- The loop for the place of a new block, with so many blocks left to look at. -/
def insertPos (bs : Nat → FreeBlock) (offset : Nat) : Nat → Nat → Except Fault Nat
  | 0, pos => .ok pos
  | k + 1, pos => do
    let b ← readBlock bs pos
    if b.offset < offset then insertPos bs offset k (pos + 1) else .ok pos

/-- The loop that makes room: `i` goes down to the place. -/
def shiftUp (pos : Nat) : Nat → (Nat → FreeBlock) → Except Fault (Nat → FreeBlock)
  | 0, bs => .ok bs
  | i + 1, bs =>
    if pos < i + 1 then do
      let b ← readBlock bs i
      let bs ← writeBlock bs (i + 1) b
      shiftUp pos i bs
    else .ok bs

/-- The loop that closes a gap, with so many turns left. -/
def shiftDown : Nat → Nat → (Nat → FreeBlock) → Except Fault (Nat → FreeBlock)
  | 0, _, bs => .ok bs
  | k + 1, i, bs => do
    let b ← readBlock bs (i + 1)
    let bs ← writeBlock bs i b
    shiftDown k (i + 1) bs

/-- `ggml_dyn_tallocr_insert_block`. -/
def insertBlock (chunk : TallocrChunk) (offset size : Nat) : Except Fault TallocrChunk :=
  if chunk.nFreeBlocks < maxFreeBlocks then do
    let pos ← insertPos chunk.freeBlocks offset chunk.nFreeBlocks 0
    let bs ← shiftUp pos chunk.nFreeBlocks chunk.freeBlocks
    let bs ← writeBlock bs pos ⟨offset, size⟩
    return { chunk with freeBlocks := bs, nFreeBlocks := chunk.nFreeBlocks + 1 }
  else .error .outOfFreeBlocks

/-- `ggml_dyn_tallocr_remove_block`. -/
def removeBlock (chunk : TallocrChunk) (idx : Nat) : Except Fault TallocrChunk := do
  let bs ← shiftDown (chunk.nFreeBlocks - idx) idx chunk.freeBlocks
  return { chunk with freeBlocks := bs, nFreeBlocks := chunk.nFreeBlocks - 1 }

theorem readBlock_eq (h : i < maxFreeBlocks) (bs : Nat → FreeBlock) :
    readBlock bs i = .ok (bs i) := if_pos h

theorem writeBlock_eq (h : i < maxFreeBlocks) (bs : Nat → FreeBlock) (b : FreeBlock) :
    writeBlock bs i b = .ok (Function.update bs i b) := if_pos h

/-- The place of a new block: those before it start earlier, the one there does not. -/
theorem insertPos_eq (bs : Nat → FreeBlock) (offset k pos : Nat) (h : pos + k ≤ maxFreeBlocks) :
    ∃ p, insertPos bs offset k pos = .ok p ∧ pos ≤ p ∧ p ≤ pos + k ∧
      (∀ i, pos ≤ i → i < p → (bs i).offset < offset) ∧
      (p < pos + k → offset ≤ (bs p).offset) := by
  induction k generalizing pos with
  | zero => exact ⟨pos, rfl, by omega, by omega, by omega, by omega⟩
  | succ k ih =>
    rw [insertPos, readBlock_eq (by omega)]
    by_cases hlt : (bs pos).offset < offset
    · obtain ⟨p, hp, hle, hhi, hbefore, hat⟩ := ih (pos + 1) (by omega)
      refine ⟨p, ?_, by omega, by omega, fun i hi hip => ?_, fun hlt => hat (by omega)⟩
      · simp only [bind, Except.bind, if_pos hlt, hp]
      · rcases Nat.eq_or_lt_of_le hi with rfl | hi
        · exact hlt
        · exact hbefore i hi hip
    · refine ⟨pos, ?_, by omega, by omega, by omega, fun _ => by omega⟩
      simp only [bind, Except.bind, if_neg hlt]

theorem shiftUp_eq (pos n : Nat) (bs : Nat → FreeBlock) (h : n < maxFreeBlocks) :
    ∃ bs', shiftUp pos n bs = .ok bs' ∧
      ∀ i, bs' i = if pos < i ∧ i ≤ n then bs (i - 1) else bs i := by
  induction n generalizing bs with
  | zero => exact ⟨bs, rfl, fun i => (if_neg (by omega)).symm⟩
  | succ n ih =>
    rw [shiftUp]
    by_cases hlt : pos < n + 1
    · obtain ⟨bs', hbs', hat⟩ := ih (Function.update bs (n + 1) (bs n)) (by omega)
      refine ⟨bs', ?_, fun i => ?_⟩
      · rw [if_pos hlt, readBlock_eq (by omega)]
        simp only [bind, Except.bind, writeBlock_eq h]
        exact hbs'
      · rw [hat]
        by_cases hi : i = n + 1
        · subst hi
          rw [if_neg (by omega), if_pos (by omega), Function.update_self]
          rfl
        · rw [Function.update_of_ne hi]
          by_cases hin : pos < i ∧ i ≤ n
          · rw [if_pos hin, if_pos (by omega), Function.update_of_ne (by omega)]
          · rw [if_neg hin, if_neg (by omega)]
    · exact ⟨bs, if_neg hlt, fun i => (if_neg (by omega)).symm⟩

theorem shiftDown_eq (k i : Nat) (bs : Nat → FreeBlock) (h : i + k < maxFreeBlocks) :
    ∃ bs', shiftDown k i bs = .ok bs' ∧
      ∀ j, bs' j = if i ≤ j ∧ j < i + k then bs (j + 1) else bs j := by
  induction k generalizing i bs with
  | zero => exact ⟨bs, rfl, fun j => (if_neg (by omega)).symm⟩
  | succ k ih =>
    obtain ⟨bs', hbs', hat⟩ := ih (i + 1) (Function.update bs i (bs (i + 1))) (by omega)
    refine ⟨bs', ?_, fun j => ?_⟩
    · rw [shiftDown, readBlock_eq (by omega)]
      simp only [bind, Except.bind, writeBlock_eq (show i < maxFreeBlocks by omega)]
      exact hbs'
    · rw [hat]
      by_cases hj : j = i
      · subst hj
        rw [if_neg (by omega), if_pos (by omega), Function.update_self]
      · rw [Function.update_of_ne hj]
        by_cases hin : i + 1 ≤ j ∧ j < i + 1 + k
        · rw [if_pos hin, if_pos (by omega), Function.update_of_ne (by omega)]
        · rw [if_neg hin, if_neg (by omega)]

/-- The last turn reads behind the last block, which a full array does not have. -/
theorem shiftDown_full (k i : Nat) (bs : Nat → FreeBlock) (h : i + (k + 1) = maxFreeBlocks) :
    shiftDown (k + 1) i bs = .error .outOfBounds := by
  induction k generalizing i bs with
  | zero =>
    rw [shiftDown, readBlock, if_neg (by omega)]
    rfl
  | succ k ih =>
    rw [shiftDown, readBlock_eq (by omega)]
    simp only [bind, Except.bind, writeBlock_eq (show i < maxFreeBlocks by omega)]
    exact ih (i + 1) _ (by omega)

/-- Where the array is not full, a removal moves the blocks behind one place down. -/
theorem removeBlock_eq {chunk : TallocrChunk} (hidx : idx < chunk.nFreeBlocks)
    (h : chunk.nFreeBlocks < maxFreeBlocks) :
    ∃ bs, removeBlock chunk idx = .ok ⟨bs, chunk.nFreeBlocks - 1, chunk.maxSize⟩ ∧
      ∀ i < chunk.nFreeBlocks - 1,
        bs i = if i < idx then chunk.freeBlocks i else chunk.freeBlocks (i + 1) := by
  obtain ⟨bs, hbs, hat⟩ := shiftDown_eq (chunk.nFreeBlocks - idx) idx chunk.freeBlocks (by omega)
  refine ⟨bs, ?_, fun i hi => ?_⟩
  · rw [removeBlock, hbs]
    rfl
  · rw [hat]
    by_cases hlt : i < idx
    · rw [if_neg (by omega), if_pos hlt]
    · rw [if_pos (by omega), if_neg hlt]

theorem removeBlock_full {chunk : TallocrChunk} (hidx : idx < chunk.nFreeBlocks)
    (h : chunk.nFreeBlocks = maxFreeBlocks) : removeBlock chunk idx = .error .outOfBounds := by
  obtain ⟨k, hk⟩ : ∃ k, chunk.nFreeBlocks - idx = k + 1 :=
    ⟨chunk.nFreeBlocks - idx - 1, by omega⟩
  rw [removeBlock, hk, shiftDown_full k idx _ (by omega)]
  rfl

theorem insertBlock_eq {chunk : TallocrChunk} (h : chunk.nFreeBlocks < maxFreeBlocks)
    (offset size : Nat) :
    ∃ pos bs, insertBlock chunk offset size = .ok ⟨bs, chunk.nFreeBlocks + 1, chunk.maxSize⟩ ∧
      pos ≤ chunk.nFreeBlocks ∧ (∀ i < pos, (chunk.freeBlocks i).offset < offset) ∧
      (pos < chunk.nFreeBlocks → offset ≤ (chunk.freeBlocks pos).offset) ∧
      ∀ i < chunk.nFreeBlocks + 1,
        bs i = if i < pos then chunk.freeBlocks i else if i = pos then ⟨offset, size⟩
          else chunk.freeBlocks (i - 1) := by
  obtain ⟨pos, hpos, _, hle, hbefore, hat⟩ :=
    insertPos_eq chunk.freeBlocks offset chunk.nFreeBlocks 0 (by omega)
  obtain ⟨bs, hbs, hshift⟩ := shiftUp_eq pos chunk.nFreeBlocks chunk.freeBlocks h
  refine ⟨pos, Function.update bs pos ⟨offset, size⟩, ?_, by omega,
    fun i hi => hbefore i (Nat.zero_le i) hi, fun hlt => hat (by omega), fun i hi => ?_⟩
  · rw [insertBlock, if_pos h, hpos]
    simp only [bind, Except.bind, hbs, writeBlock_eq (show pos < maxFreeBlocks by omega)]
    rfl
  · by_cases hip : i = pos
    · subst hip
      rw [Function.update_self, if_neg (Nat.lt_irrefl _), if_pos rfl]
    · rw [Function.update_of_ne hip, hshift, if_neg (c := i = pos) hip]
      by_cases hlt : i < pos
      · rw [if_neg (by omega), if_pos hlt]
      · rw [if_pos (by omega), if_neg hlt]

/-! The dynamic tensor allocator. -/

def sizeMax : Nat := 18446744073709551615

/-- `GGML_VBUFFER_MAX_CHUNKS`. -/
def maxChunks : Nat := 16

structure DynTallocr where
  alignment : Nat
  maxChunkSize : Nat
  chunks : List TallocrChunk

/-- `buffer_address`. -/
structure Address where
  chunk : Nat
  offset : Nat

/-- `ggml_dyn_tallocr_new`. -/
def newTallocr (alignment maxBufferSize : Nat) : DynTallocr :=
  ⟨alignment, min maxBufferSize (sizeMax / 2), []⟩

/-- `aligned_offset` from a null buffer. -/
def alignedOffset (offset alignment : Nat) : Nat :=
  offset + (alignment - offset % alignment) % alignment

/-- The size of the only free block of a new chunk. -/
def newChunkSize (alloc : DynTallocr) (minSize : Nat) : Nat :=
  if alloc.chunks.length = maxChunks - 1 then sizeMax / 2 else max minSize alloc.maxChunkSize

/-- `ggml_dyn_tallocr_new_chunk`; the array starts as zeros. -/
def newChunk (alloc : DynTallocr) (minSize : Nat) : Option DynTallocr :=
  if maxChunks ≤ alloc.chunks.length then none
  else
    let chunk : TallocrChunk :=
      ⟨fun i => if i = 0 then ⟨0, newChunkSize alloc minSize⟩ else ⟨0, 0⟩, 1, 0⟩
    some { alloc with chunks := alloc.chunks ++ [chunk] }

/-- The blocks of one chunk, with so many left to look at; of equal sizes the last one is taken. -/
def scanBlocks (c : Nat) (bs : Nat → FreeBlock) (size : Nat) :
    Nat → Nat → Nat → Option (Nat × Nat) → Except Fault (Option (Nat × Nat))
  | 0, _, _, best => .ok best
  | k + 1, i, bestFitSize, best => do
    let b ← readBlock bs i
    if size ≤ b.size ∧ b.size ≤ bestFitSize then
      scanBlocks c bs size k (i + 1) b.size (some (c, i))
    else scanBlocks c bs size k (i + 1) bestFitSize best

/-- The best fitting block that is not the last of its chunk; later chunks go first. -/
def scanChunks (size : Nat) :
    List TallocrChunk → Nat → Option (Nat × Nat) → Except Fault (Option (Nat × Nat))
  | [], _, best => .ok best
  | chunk :: chunks, c, best => do
    let best ← scanBlocks c chunk.freeBlocks size (chunk.nFreeBlocks - 1) 0 sizeMax best
    scanChunks size chunks (c + 1) best

/-- The first chunk whose last block is large enough. -/
def scanLast (size : Nat) : List TallocrChunk → Nat → Except Fault (Option (Nat × Nat))
  | [], _ => .ok none
  | chunk :: chunks, c =>
    if 0 < chunk.nFreeBlocks then do
      let b ← readBlock chunk.freeBlocks (chunk.nFreeBlocks - 1)
      if size ≤ b.size then .ok (some (c, chunk.nFreeBlocks - 1)) else scanLast size chunks (c + 1)
    else scanLast size chunks (c + 1)

/-- The chunk and the block for a size, which may be those of a new chunk. -/
def chooseBlock (alloc : DynTallocr) (size : Nat) : Except Fault (DynTallocr × Nat × Nat) := do
  match ← scanChunks size alloc.chunks 0 none with
  | some best => .ok (alloc, best)
  | none =>
    match ← scanLast size alloc.chunks 0 with
    | some best => .ok (alloc, best)
    | none =>
      match newChunk alloc size with
      | some alloc' => .ok (alloc', alloc.chunks.length, 0)
      | none => .error .outOfMemory

def chunkAt (alloc : DynTallocr) (c : Nat) : TallocrChunk :=
  alloc.chunks.getD c ⟨fun _ => ⟨0, 0⟩, 0, 0⟩

/-- The start of a block is handed out, and the block is removed if nothing is left of it. -/
def carve (chunk : TallocrChunk) (i size : Nat) : Except Fault (TallocrChunk × Nat) := do
  let b ← readBlock chunk.freeBlocks i
  let bs ← writeBlock chunk.freeBlocks i ⟨b.offset + size, b.size - size⟩
  let chunk ←
    if b.size - size = 0 then removeBlock { chunk with freeBlocks := bs } i
    else .ok { chunk with freeBlocks := bs }
  return ({ chunk with maxSize := max chunk.maxSize (b.offset + size) }, b.offset)

/-- `ggml_dyn_tallocr_alloc`. -/
def tallocrAlloc (alloc : DynTallocr) (size : Nat) : Except Fault (DynTallocr × Address) := do
  let size := alignedOffset size alloc.alignment
  let (alloc, c, i) ← chooseBlock alloc size
  let (chunk, offset) ← carve (chunkAt alloc c) i size
  return ({ alloc with chunks := alloc.chunks.set c chunk }, ⟨c, offset⟩)

/-- The freed memory follows a block, and the next block may follow it. -/
def growEnd (chunk : TallocrChunk) (i size : Nat) : Except Fault TallocrChunk := do
  let b ← readBlock chunk.freeBlocks i
  let bs ← writeBlock chunk.freeBlocks i ⟨b.offset, b.size + size⟩
  if i + 1 < chunk.nFreeBlocks then
    let next ← readBlock bs (i + 1)
    if b.offset + (b.size + size) = next.offset then
      let bs ← writeBlock bs i ⟨b.offset, b.size + size + next.size⟩
      removeBlock { chunk with freeBlocks := bs } (i + 1)
    else return { chunk with freeBlocks := bs }
  else return { chunk with freeBlocks := bs }

/-- A block follows the freed memory, and the freed memory may follow the block before. -/
def growStart (chunk : TallocrChunk) (i offset size : Nat) : Except Fault TallocrChunk := do
  let b ← readBlock chunk.freeBlocks i
  let bs ← writeBlock chunk.freeBlocks i ⟨offset, b.size + size⟩
  if 0 < i then
    let prev ← readBlock bs (i - 1)
    if prev.offset + prev.size = offset then
      let bs ← writeBlock bs (i - 1) ⟨prev.offset, prev.size + (b.size + size)⟩
      removeBlock { chunk with freeBlocks := bs } i
    else return { chunk with freeBlocks := bs }
  else return { chunk with freeBlocks := bs }

/-- The loop for a block that the freed memory touches, with so many left to look at. -/
def freeLoop (chunk : TallocrChunk) (offset size : Nat) :
    Nat → Nat → Except Fault TallocrChunk
  | 0, _ => insertBlock chunk offset size
  | k + 1, i => do
    let b ← readBlock chunk.freeBlocks i
    if b.offset + b.size = offset then growEnd chunk i size
    else if offset + size = b.offset then growStart chunk i offset size
    else freeLoop chunk offset size k (i + 1)

/-- `ggml_dyn_tallocr_free_tensor`. -/
def tallocrFree (alloc : DynTallocr) (addr : Address) (size : Nat) : Except Fault DynTallocr := do
  let size := alignedOffset size alloc.alignment
  let chunk := chunkAt alloc addr.chunk
  let chunk ← freeLoop chunk addr.offset size chunk.nFreeBlocks 0
  return { alloc with chunks := alloc.chunks.set addr.chunk chunk }

end ActQuant.Alloc
