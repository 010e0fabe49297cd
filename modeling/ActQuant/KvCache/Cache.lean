import ActQuant.KvCache.CellsOps
import ActQuant.Lib.Sweep

namespace ActQuant.KvCache
open ActQuant.Lib ActQuant.Batch

/-- `llama_swa_type`. -/
inductive SwaType where
  | none
  | standard
  | chunked
  | symmetric
deriving DecidableEq

/-- What the cache is made with; the context checks the number of sequences. -/
structure Params where
  unified : Bool
  nSeqMax : Nat
  seqMax_pos : 0 < nSeqMax
  seqMax_le : nSeqMax ≤ LLAMA_MAX_SEQ
  nPad : Nat
  nSwa : Nat
  swaType : SwaType

namespace Params

def nStream (p : Params) : Nat := if p.unified then 1 else p.nSeqMax

/-- The size of `seq_to_stream`. -/
def nSeqIds (p : Params) : Nat := if 1 < p.nStream then p.nStream else LLAMA_MAX_SEQ

/-- `seq_to_stream`. -/
def stream (p : Params) (s : Nat) : Nat := if 1 < p.nStream then s else 0

def isMaskedSwa (p : Params) (p₀ p₁ : Int) : Bool :=
  match p.swaType with
  | .none => false
  | .standard => (p.nSwa : Int) ≤ p₁ - p₀
  | .chunked => p₀ < p₁ / p.nSwa * p.nSwa
  | .symmetric =>
    let half := (p.nSwa : Int) / 2
    p₁ - p₀ < -half || half < p₁ - p₀

end Params

/-- `llama_kv_cache`: the cells and the head of each stream and the copies of buffers to come. -/
structure Cache where
  cells : Nat → Cells
  head : Nat → Nat
  copies : List (Nat × Nat)

/-- A pass over all cells of a stream, with the first cell that becomes empty, or the size. -/
def Cells.sweep (c : Cells) (turn : Cells → Nat → Option (Cells × Bool)) : Option (Cells × Nat) :=
  (List.range c.size).foldlM
    (fun st i => (turn st.1 i).map fun r => (r.1, if r.2 && st.2 == c.size then i else st.2))
    (c, c.size)

/-- A negative start of a range. -/
def fromPos (p₀ : Int) : Int := if p₀ < 0 then 0 else p₀

theorem fromPos_nonneg (p₀ : Int) : 0 ≤ fromPos p₀ := by
  rw [fromPos]
  split <;> omega

/-- A negative end of a range. -/
def toPos (p₁ : Int) : Int := if p₁ < 0 then posMax else p₁

namespace Cache

def create (kvSize : Nat) : Cache where
  cells := fun _ => Cells.resize kvSize
  head := fun _ => 0
  copies := []

def setStream (k : Cache) (t : Nat) (c : Cells) (head : Nat) : Cache :=
  { k with cells := Function.update k.cells t c, head := Function.update k.head t head }

/-- The head after a pass: a cell that was freed before it. -/
def lowerHead (k : Cache) (t : Nat) (c : Cells) (newHead : Nat) : Cache :=
  k.setStream t c (if newHead ≠ c.size ∧ newHead < k.head t then newHead else k.head t)

def clear (p : Params) (k : Cache) : Cache :=
  { k with
    cells := fun t => if t < p.nStream then (k.cells t).reset else k.cells t
    head := fun t => if t < p.nStream then 0 else k.head t }

/-- `seq_id >= 0 && seq_id < seq_to_stream.size()`. -/
def validSeq (p : Params) (s : Int) : Bool := 0 ≤ s && s.toNat < p.nSeqIds

/-- The pass of `seq_rm` for one sequence. -/
def seqRmTurn (s : Nat) (p₀ p₁ : Int) (c : Cells) (i : Nat) : Option (Cells × Bool) :=
  if (c.cell i).posIn p₀ p₁ && (c.cell i).seqHas s then c.seqRm i s else some (c, false)

/-- The pass of `seq_rm` for any sequence. -/
def rmTurn (p₀ p₁ : Int) (c : Cells) (i : Nat) : Option (Cells × Bool) :=
  if (c.cell i).posIn p₀ p₁ then (c.rm i).map fun c => (c, true) else some (c, false)

def seqRm (p : Params) (k : Cache) (s : Int) (p₀ p₁ : Int) : Option Cache :=
  if s = -1 ∨ validSeq p s then
    if 0 ≤ s then do
      let t := p.stream s.toNat
      let (c, newHead) ← (k.cells t).sweep (seqRmTurn s.toNat (fromPos p₀) (toPos p₁))
      return k.lowerHead t c newHead
    else
      (List.range p.nStream).foldlM (fun k t => do
        let (c, newHead) ← (k.cells t).sweep (rmTurn (fromPos p₀) (toPos p₁))
        return k.lowerHead t c newHead) k
  else none

/-- The pass of `seq_cp` within a stream. -/
def cpTurn (src dst : Nat) (p₀ p₁ : Int) (c : Cells) (i : Nat) : Option (Cells × Bool) :=
  if (c.cell i).posIn p₀ p₁ && (c.cell i).seqHas src then
    (c.seqAdd i dst).map fun c => (c, false)
  else some (c, false)

/-- One cell of a copy between streams: its position is set as it was before the pending shift, and
the shift is added again. -/
def copyCell (from' : Cells) (src dst : Nat) (c : Cells) (i : Nat) : Option Cells :=
  let x := from'.cell i
  if x.seqHas src then
    if x.pos = -1 then none
    else if x.shift ≠ 0 then do
      let pos ← addInt32 x.pos (-x.shift)
      if pos < 0 then none
      else do
        let c ← c.posSet i pos
        let c ← c.seqAdd i dst
        let (c, _) ← c.posAdd i x.shift
        return c
    else do
      let c ← c.posSet i x.pos
      c.seqAdd i dst
  else some c

/-- The test of `seq_cp` for a copy of the full buffer; the sum of the greatest position overflows
to a negative one. -/
def isFull (size : Nat) (p₀ p₁ : Int) : Bool :=
  !(0 < p₀ && (p₀ = posMax || p₀ + 1 < size)) && !(0 < p₁ && (p₁ = posMax || p₁ + 1 < size))

def seqCp (p : Params) (k : Cache) (src dst : Int) (p₀ p₁ : Int) : Option Cache :=
  if validSeq p src && validSeq p dst then
    let t₀ := p.stream src.toNat
    let t₁ := p.stream dst.toNat
    if t₀ = t₁ then
      if src = dst then some k
      else do
        let (c, _) ← (k.cells t₀).sweep (cpTurn src.toNat dst.toNat (fromPos p₀) (toPos p₁))
        return k.setStream t₀ c (k.head t₀)
    else if isFull (k.cells (p.stream 0)).size p₀ p₁ then do
      let c ← (List.range (k.cells t₀).size).foldlM
        (copyCell (k.cells t₀) src.toNat dst.toNat) (k.cells t₁).reset
      return { k.setStream t₁ c (k.head t₀) with copies := k.copies ++ [(t₀, t₁)] }
    else none
  else none

def seqKeep (p : Params) (k : Cache) (s : Int) : Option Cache :=
  if validSeq p s then do
    let t := p.stream s.toNat
    let (c, newHead) ← (k.cells t).sweep fun c i => c.seqKeep i s.toNat
    return k.lowerHead t c newHead
  else none

def addTurn (s : Nat) (p₀ p₁ d : Int) (c : Cells) (i : Nat) : Option (Cells × Bool) :=
  if (c.cell i).posIn p₀ p₁ && (c.cell i).seqHas s then c.posAdd i d else some (c, false)

def seqAdd (p : Params) (k : Cache) (s : Int) (p₀ p₁ d : Int) : Option Cache :=
  if validSeq p s then
    if d = 0 ∨ fromPos p₀ = toPos p₁ then some k
    else do
      let t := p.stream s.toNat
      let (c, newHead) ← (k.cells t).sweep (addTurn s.toNat (fromPos p₀) (toPos p₁) d)
      return k.setStream t c (if newHead ≠ c.size then newHead else 0)
  else none

def divTurn (s : Nat) (p₀ p₁ d : Int) (c : Cells) (i : Nat) : Option (Cells × Bool) :=
  if (c.cell i).posIn p₀ p₁ && (c.cell i).seqHas s then
    (c.posDiv i d).map fun c => (c, false)
  else some (c, false)

def seqDiv (p : Params) (k : Cache) (s : Int) (p₀ p₁ d : Int) : Option Cache :=
  if validSeq p s then
    if d = 1 ∨ fromPos p₀ = toPos p₁ then some k
    else do
      let t := p.stream s.toNat
      let (c, _) ← (k.cells t).sweep (divTurn s.toNat (fromPos p₀) (toPos p₁) d)
      return k.setStream t c (k.head t)
  else none

def seqPosMin (p : Params) (k : Cache) (s : Nat) : Int := (k.cells (p.stream s)).seqPosMin s

def seqPosMax (p : Params) (k : Cache) (s : Nat) : Int := (k.cells (p.stream s)).seqPosMax s

def getHasShift (p : Params) (k : Cache) : Bool :=
  (List.range p.nStream).any fun t => (k.cells t).hasShift

/-- What `update` does to the cells: after the copies and the rotation no shift is left. -/
def update (p : Params) (k : Cache) (doShift : Bool) : Cache :=
  { k with
    cells := fun t => if doShift && t < p.nStream then (k.cells t).resetShift else k.cells t
    copies := [] }

end Cache

/-- `slot_info`: the streams of an ubatch, each with the cells its tokens go to. -/
structure SlotInfo where
  rows : List (Nat × List Nat)
deriving DecidableEq

/-- The places of the tokens, in their order. -/
def SlotInfo.places (r : SlotInfo) : List (Nat × Nat) :=
  r.rows.flatMap fun x => x.2.map fun i => (x.1, i)

namespace Cache

/-- `can_use`: the cell is empty, or its only sequence has moved its window past it. -/
def canUse (p : Params) (c : Cells) (i : Nat) : Bool :=
  (c.cell i).isEmpty ||
    ((c.cell i).seqCount == 1 &&
      p.isMaskedSwa (c.cell i).pos (c.seqPosMax (c.cell i).seqGet + 1))

/-- The inner loop of the search: so many cells from the head are tested, a continuous slot ends
with the first that cannot be used. The head, the number of cells tested and the slot so far, or
nothing where the assertion of `is_empty` fails. -/
def testCells (p : Params) (c : Cells) (cont : Bool) :
    Nat → Nat → Nat → List Nat → Option (Nat × Nat × List Nat)
  | 0, head, tested, idxs => some (head, tested, idxs)
  | n + 1, head, tested, idxs =>
    if ¬ (c.cell head).Regular then none
    else if canUse p c head then testCells p c cont n (head + 1) (tested + 1) (idxs ++ [head])
    else if cont then some (head + 1, tested + 1, idxs)
    else testCells p c cont n (head + 1) (tested + 1) idxs

/-- The outer loop of the search. -/
def search (p : Params) (c : Cells) (cont : Bool) (nTokens : Nat) :
    Nat → Nat → Nat → List Nat → Option (Option (List Nat))
  | 0, _, _, _ => none
  | fuel + 1, head, tested, idxs =>
    let nTest := if cont then nTokens else 1
    if c.size < head + nTest then search p c cont nTokens fuel 0 (tested + (c.size - head)) idxs
    else
      (testCells p c cont nTest head tested idxs).bind fun (head, tested, idxs) =>
        if idxs.length = nTokens then some (some idxs)
        else if c.size ≤ tested then some none
        else search p c cont nTokens fuel head tested (if cont then [] else idxs)

/-- The cells of one sequence's stream for so many tokens. -/
def slotFor (p : Params) (k : Cache) (cont : Bool) (nTokens t : Nat) : Option (Option (List Nat)) :=
  let c := k.cells t
  let head := if c.getUsed + 2 * nTokens < k.head t then 0 else k.head t
  if c.size < nTokens then some none
  else search p c cont nTokens (2 * c.size + 2) head 0 []

/-- The loop of `find_slot` over the sequences; with streams each must have its tokens to itself. -/
def findSlots (p : Params) (k : Cache) (u : Ubatch) (cont : Bool) (nTokens : Nat) :
    Nat → List Nat → Option (Option SlotInfo)
  | _, [] => some (some ⟨[]⟩)
  | n, s :: seqs =>
    if 1 < p.nStream ∧ (u.tokens[n * nTokens]?).map Token.seqId ≠ some [s] then none
    else
      (slotFor p k cont nTokens (p.stream s)).bind fun
        | none => some none
        | some idxs =>
          (findSlots p k u cont nTokens (n + 1) seqs).map fun r =>
            r.map fun r => ⟨(p.stream s, idxs) :: r.rows⟩

/-- `find_slot`: no result where an assertion fails, an empty one where there is no slot. -/
def findSlot (p : Params) (k : Cache) (u : Ubatch) (cont : Bool) : Option (Option SlotInfo) :=
  if 1 < p.nStream then
    if u.seqIdUnq ≠ [] ∧ u.nTokens % u.seqIdUnq.length = 0 then
      findSlots p k u cont (u.nTokens / u.seqIdUnq.length) 0 u.seqIdUnq
    else none
  else
    match u.seqIdUnq with
    | [] => none
    | s :: _ => findSlots p k u cont u.nTokens 0 [s]

/-- Give a cell to a token. -/
def writeToken (c : Cells) (i : Nat) (x : Token) : Option Cells :=
  (c.posSet i x.pos).bind fun c => x.seqId.foldlM (fun c s => c.seqAdd i s) c

/-- One turn of the loop of `apply_ubatch`, with the greatest position overwritten so far of each
sequence. -/
def placeToken (st : Cache × (Nat → Int)) (x : (Nat × Nat) × Token) :
    Option (Cache × (Nat → Int)) :=
  let (k, maxRm) := st
  let ((t, i), tok) := x
  let c := k.cells t
  let y := c.cell i
  if ¬ y.Regular then none
  else if y.isEmpty then
    (writeToken c i tok).map fun c => (k.setStream t c (k.head t), maxRm)
  else if y.seqCount = 1 then
    ((c.rm i).bind fun c => writeToken c i tok).map fun c =>
      (k.setStream t c (k.head t),
        Function.update maxRm y.seqGet (max (maxRm y.seqGet) y.pos))
  else none

/-- The positions up to the overwritten ones leave the cache. -/
def purge (p : Params) (maxRm : Nat → Int) (k : Cache) (s : Nat) : Option Cache :=
  if maxRm s = -1 then some k
  else if s < p.nSeqIds then
    if k.seqPosMin p s ≤ maxRm s then k.seqRm p s (k.seqPosMin p s) (maxRm s + 1) else some k
  else none

/-- The head moves behind the slot. -/
def moveHead (k : Cache) (x : Nat × List Nat) : Option Cache :=
  x.2.getLast?.map fun i => { k with head := Function.update k.head x.1 (i + 1) }

/-- The tokens in their cells, before the purge. -/
def placeTokens (k : Cache) (r : SlotInfo) (u : Ubatch) : Option (Cache × (Nat → Int)) :=
  if u.nTokens = r.places.length then
    (r.places.zip u.tokens).foldlM placeToken (k, fun _ => -1)
  else none

def applyUbatch (p : Params) (k : Cache) (r : SlotInfo) (u : Ubatch) : Option Cache := do
  let (k, maxRm) ← placeTokens k r u
  let k ← (List.range LLAMA_MAX_SEQ).foldlM (purge p maxRm) k
  r.rows.foldlM moveHead k

end Cache

/-- `state_t`: what `prepare` keeps of the cache from before an ubatch. -/
structure State where
  sinfo : SlotInfo
  vHeadsOld : Nat → Nat
  vCells : List (List Cell)

namespace Cache

def saveState (k : Cache) (r : SlotInfo) : Option State :=
  (r.rows.mapM fun x => (k.cells x.1).cp x.2).map fun xs => ⟨r, k.head, xs⟩

/-- The trial: each ubatch is put into the slot that is found for it. The states from before, and
whether there was a slot for every ubatch. -/
def trial (p : Params) : Cache → List Ubatch → Option (Cache × List State × Bool)
  | k, [] => some (k, [], true)
  | k, u :: us =>
    (findSlot p k u false).bind fun
      | none => some (k, [], false)
      | some r => do
        let state ← saveState k r
        let k ← applyUbatch p k r u
        let (k, states, success) ← trial p k us
        return (k, state :: states, success)

/-- The cells of one stream go back, and its head; the old heads are read by the number of the
row, not by the stream. -/
def restoreRow (vHeadsOld : Nat → Nat) (k : Cache) (x : ((Nat × List Nat) × List Cell) × Nat) :
    Option Cache :=
  ((k.cells x.1.1.1).set x.1.1.2 x.1.2).map fun c => k.setStream x.1.1.1 c (vHeadsOld x.2)

def restore (k : Cache) (state : State) : Option Cache :=
  (state.sinfo.rows.zip state.vCells).zipIdx.foldlM (restoreRow state.vHeadsOld) k

/-- `prepare`: the slots of the ubatches, none where one of them has none. -/
def prepare (p : Params) (k : Cache) (us : List Ubatch) : Option (Cache × List SlotInfo) := do
  let (k, states, success) ← trial p k us
  if states = [] ∧ success then none
  else
    let k ← states.reverse.foldlM restore k
    return (k, if success then states.map State.sinfo else [])

end Cache
end ActQuant.KvCache

namespace ActQuant.KvCache.Cache
open ActQuant.Lib ActQuant.Batch

/-! What `llama_context::decode` does to the cache. -/

/-- `memory_update`, with whether there was something to do. Where the rotation fails the shifts
stay. -/
def memoryUpdate (p : Params) (rotates : Bool) (k : Cache) : Cache × Bool :=
  if k.getHasShift p ∨ k.copies ≠ [] then (k.update p (k.getHasShift p && rotates), true)
  else (k, false)

/-- The slots of the ubatches; after a failure they are tried once more if an update does
something. -/
def initBatch (p : Params) (rotates : Nat → Bool) (k : Cache) (us : List Ubatch) :
    Option (Cache × List SlotInfo) := do
  let (k, slots) ← prepare p (memoryUpdate p (rotates 0) k).1 us
  if slots = [] then
    let (k, done) := memoryUpdate p (rotates 1) k
    if done then prepare p k us else return (k, [])
  else return (k, slots)

/-- The least position of each sequence that is the first of a token. -/
def posMin (u : Ubatch) : Option (Nat → Int) :=
  u.tokens.foldlM (fun m x => x.seqId.head?.map fun s => Function.update m s (min (m s) x.pos))
    fun _ => posMax

/-- The positions of the last ubatch are removed. -/
def rollback (p : Params) (k : Cache) (u : Ubatch) : Option Cache :=
  (posMin u).bind fun m =>
    (List.range LLAMA_MAX_SEQ).foldlM
      (fun k s => if m s = posMax then some k else k.seqRm p s (m s) (-1)) k

/-- How a decode ends: there is no slot, the graph of an ubatch fails, or all went well. -/
inductive Outcome where
  | noSlot
  | failed (i : Nat)
  | done
deriving DecidableEq

/-- The loop over the ubatches. -/
def processUbatches (p : Params) (graph : Nat → Bool) :
    Nat → Cache → List (SlotInfo × Ubatch) → Option (Cache × Outcome)
  | _, k, [] => some (k, .done)
  | i, k, (r, u) :: rest =>
    (applyUbatch p k r u).bind fun k =>
      if graph i then processUbatches p graph (i + 1) k rest
      else (rollback p k u).map fun k => (k, .failed i)

def decode (p : Params) (rotates graph : Nat → Bool) (k : Cache) (us : List Ubatch) :
    Option (Cache × Outcome) := do
  let (k, slots) ← initBatch p rotates k us
  if slots = [] then return (k, .noSlot)
  else processUbatches p graph 0 k (slots.zip us)

end ActQuant.KvCache.Cache
