import ActQuant.KvCache.Cache
import ActQuant.Lib.Fibres
import Mathlib.Data.Finset.Sort

namespace ActQuant.Recurrent
open ActQuant.Batch ActQuant.KvCache ActQuant.Lib

/-- `mem_cell` without `tail`; an index of -1 is none. -/
structure MemCell where
  pos : Int
  src : Option Nat
  src0 : Option Nat
  seqId : Finset Nat
deriving DecidableEq

namespace MemCell

def isEmpty (x : MemCell) : Bool := x.seqId = ∅

/-- A cell that nobody has any more. -/
def vacate (x : MemCell) : MemCell := { x with pos := -1, src := none, seqId := ∅ }

end MemCell

/-- `llama_memory_recurrent`. The field `tail` of a cell is about the sequence of that number and
not about the cell, so that the tails stand apart here. -/
structure Memory where
  head : Nat
  size : Nat
  used : Nat
  n : Nat
  rsZ : Option Nat
  cell : Nat → MemCell
  tail : Nat → Option Nat

namespace Memory

def create (memSize : Nat) : Memory where
  head := 0
  size := memSize
  used := 0
  n := 0
  rsZ := none
  cell := fun _ => ⟨-1, none, none, ∅⟩
  tail := fun _ => none

def put (m : Memory) (i : Nat) (x : MemCell) : Memory :=
  { m with cell := Function.update m.cell i x }

def setTail (m : Memory) (s : Nat) (t : Option Nat) : Memory :=
  { m with tail := Function.update m.tail s t }

def clear (m : Memory) : Memory :=
  { m with head := 0, used := 0, cell := fun i => (m.cell i).vacate, tail := fun _ => none }

/-! ### Operations on sequences -/

/-- A removal of a sequence, or of all, is about the cell. -/
def Touches (s : Option Nat) (p₀ p₁ : Int) (x : MemCell) : Prop :=
  p₀ ≤ x.pos ∧ x.pos < p₁ ∧ ∀ a ∈ s, a ∈ x.seqId

instance (s : Option Nat) (p₀ p₁ : Int) (x : MemCell) : Decidable (Touches s p₀ p₁ x) :=
  inferInstanceAs (Decidable (_ ∧ _))

/-- The cell after a removal. -/
def rmCell (s : Option Nat) (p₀ p₁ : Int) (x : MemCell) : MemCell :=
  if Touches s p₀ p₁ x then
    let left := s.elim ∅ x.seqId.erase
    if left = ∅ then x.vacate else { x with seqId := left }
  else x

/-- One turn of the loop of `seq_rm`, with the first cell that was freed. -/
def rmTurn (s : Option Nat) (p₀ p₁ : Int) (st : Memory × Nat) (i : Nat) : Memory × Nat :=
  let x := st.1.cell i
  let y := rmCell s p₀ p₁ x
  if Touches s p₀ p₁ x ∧ y.isEmpty then
    ({ st.1.put i y with used := if 0 ≤ x.pos then st.1.used - 1 else st.1.used },
      if st.2 = st.1.size then i else st.2)
  else (st.1.put i y, st.2)

/-- The search starts at the first freed slot. -/
def lowerHead (st : Memory × Nat) : Memory :=
  { st.1 with head := if st.2 ≠ st.1.size ∧ st.2 < st.1.head then st.2 else st.1.head }

def rmPass (m : Memory) (s : Option Nat) (p₀ p₁ : Int) : Memory :=
  lowerHead ((List.range m.size).foldl (rmTurn s p₀ p₁) (m, m.size))

/-- `seq_rm` for a sequence, where a part of a state cannot be erased. -/
def seqRmOf (m : Memory) (s : Nat) (p₀ p₁ : Int) : Bool × Memory :=
  (m.tail s).elim (true, m.rmPass (some s) p₀ p₁) fun t =>
    let pos := (m.cell t).pos
    if (0 < p₀ ∧ p₀ < pos) ∨ (0 < p₁ ∧ p₁ ≤ pos) then (false, m)
    else (true, (if p₀ ≤ pos ∧ pos < p₁ then m.setTail s none else m).rmPass (some s) p₀ p₁)

def seqRm (m : Memory) (seqId p₀ p₁ : Int) : Bool × Memory :=
  let p₀ := fromPos p₀
  let p₁ := toPos p₁
  if (m.size : Int) ≤ seqId then (false, m)
  else if 0 ≤ seqId then m.seqRmOf seqId.toNat p₀ p₁
  -- for all sequences the range has to include everything or nothing
  else if p₀ ≠ p₁ ∧ (p₀ ≠ 0 ∨ p₁ ≠ posMax) then (false, m)
  else (true, m.rmPass none p₀ p₁)

/-- A sequence leaves the cell it is in. -/
def leave (m : Memory) (s : Nat) : Memory :=
  (m.tail s).elim m fun t =>
    let x := { m.cell t with seqId := (m.cell t).seqId.erase s }
    if x.isEmpty then { (m.put t x.vacate).setTail s none with used := m.used - 1 }
    else (m.put t x).setTail s none

def seqCpOf (m : Memory) (src dst : Nat) : Memory :=
  let m := m.leave dst
  (m.tail src).elim m fun t =>
    (m.put t { m.cell t with seqId := insert dst (m.cell t).seqId }).setTail dst (some t)

/-- `seq_cp`, which copies the whole state whatever the range is. -/
def seqCp (m : Memory) (src dst : Int) : Memory :=
  if src = dst then m
  else if 0 ≤ src ∧ src < m.size ∧ 0 ≤ dst ∧ dst < m.size then m.seqCpOf src.toNat dst.toNat
  else m

/-- One turn of the loop of `seq_keep`, with the first cell that was freed. -/
def keepTurn (seqId : Int) (st : Memory × Nat) (i : Nat) : Memory × Nat :=
  let x := st.1.cell i
  let m := if (i : Int) ≠ seqId then st.1.setTail i none else st.1
  if 0 ≤ seqId ∧ seqId.toNat ∈ x.seqId then (m.put i { x with seqId := {seqId.toNat} }, st.2)
  else
    ({ m.put i x.vacate with used := if 0 ≤ x.pos then m.used - 1 else m.used },
      if st.2 = m.size then i else st.2)

def seqKeep (m : Memory) (seqId : Int) : Memory :=
  lowerHead ((List.range m.size).foldl (keepTurn seqId) (m, m.size))

/-- Only the position of the last token changes, where it is in the range; none where the arithmetic
is undefined. -/
def mapPos (m : Memory) (seqId p₀ p₁ : Int) (f : Int → Option Int) : Option Memory :=
  if fromPos p₀ ≠ toPos p₁ ∧ 0 ≤ seqId ∧ seqId < m.size then
    (m.tail seqId.toNat).elim (some m) fun t =>
      let x := m.cell t
      if seqId.toNat ∈ x.seqId ∧ fromPos p₀ ≤ x.pos ∧ x.pos < toPos p₁ then
        (f x.pos).map fun p => m.put t { x with pos := p }
      else some m
  else some m

def seqAdd (m : Memory) (seqId p₀ p₁ shift : Int) : Option Memory :=
  if shift = 0 then some m else m.mapPos seqId p₀ p₁ (addInt32 · shift)

/-- The quotient of a position, rounded towards zero; a division by 0 traps. -/
def quotient (d p : Int) : Option Int := if d = 0 then none else some (p.tdiv d)

def seqDiv (m : Memory) (seqId p₀ p₁ d : Int) : Option Memory :=
  if d = 1 then some m else m.mapPos seqId p₀ p₁ (quotient d)

end Memory

/-! ### Sequence sets of a ubatch -/

section Sets
variable (u : Ubatch)

def noToken : Token := ⟨0, [], false⟩

/-- `seq_id` of the first token of a set. -/
def seqsOf (k : Nat) : List Nat := (u.tokens.getD (k * u.nSeqTokens) noToken).seqId

/-- The first sequence of a set, which the state is of. -/
def owner (k : Nat) : Nat := (seqsOf u k).headD 0

def lastPos (k : Nat) : Int :=
  (u.tokens.getD (k * u.nSeqTokens + u.nSeqTokens - 1) noToken).pos

/-- The sequences of the sets, each with its place in its own set. -/
def seqPlaces : List (Nat × Nat) := (List.range u.nSeqs).flatMap fun k => (seqsOf u k).zipIdx

end Sets

/-! ### Slots -/

/-- What the debug check reports. -/
inductive TailError
  | duplicate (s i j : Nat)
  | wrong (s : Nat) (tail verif : Option Nat)
deriving DecidableEq

/-- The cells of the sequences so far, with the reports. -/
abbrev Verif := List TailError × (Nat → Option Nat)

namespace Memory

def verifTurn (i : Nat) (v : Verif) (s : Nat) : Verif :=
  ((v.2 s).elim v.1 fun j => v.1 ++ [.duplicate s i j], Function.update v.2 s (some i))

def verifCells (m : Memory) : Verif :=
  (List.range m.size).foldl
    (fun v i => ((m.cell i).seqId.sort (· ≤ ·)).foldl (verifTurn i) v) ([], fun _ => none)

/-- The debug check of `find_slot`. -/
def tailErrors (m : Memory) : List TailError :=
  let v := m.verifCells
  v.1 ++ (List.range m.size).filterMap fun s =>
    if v.2 s ≠ m.tail s then some (.wrong s (m.tail s) (v.2 s)) else none

/-- One turn of the check of the sequences; the memory comes back as an error where the function
gives up. -/
def unshareTurn (m : Memory) (a : Nat × Nat) : Except Memory Memory :=
  if m.size ≤ a.1 then .error m else if 0 < a.2 then .ok (m.leave a.1) else .ok m

/-- The sequences of the sets are below the size, and all but the first of a set are cleared. -/
def unshare (u : Ubatch) (m : Memory) : Except Memory Memory := (seqPlaces u).foldlM unshareTurn m

def emptyAt (m : Memory) (i : Nat) : Bool := (m.cell i).isEmpty

/-- The first search for an empty cell. -/
def firstEmpty (m : Memory) : Nat := cyclicFrom m.emptyAt m.size m.size m.head

/-- The search for the next empty cell. -/
def nextEmpty (m : Memory) (i : Nat) : Nat := cyclicAfter m.emptyAt m.size m.size i

/-- The memory with the next empty cell and the range of the cells used so far. -/
structure Range where
  mem : Memory
  next : Nat
  min : Nat
  max : Nat

def Range.widen (r : Range) (i : Nat) : Range :=
  { r with min := if i < r.min then i else r.min, max := if r.max < i then i else r.max }

/-- The old state of a shared cell is copied into an empty one; none where no sequence is left. -/
def copyTail (m : Memory) (s t e : Nat) : Option Memory :=
  let left := (m.cell t).seqId.erase s
  if left = ∅ then none
  else
    some <| (m.put t { m.cell t with seqId := left }).put e
      { m.cell e with
        pos := (m.cell t).pos, src := (m.cell t).src, seqId := insert s (m.cell e).seqId }

/-- A sequence takes the next empty cell, which has to be there. -/
def takeEmpty (u : Ubatch) (r : Range) (k : Nat) : Option Range := do
  let s := owner u k
  let e := r.next
  if r.mem.size ≤ e ∨ ¬ r.mem.emptyAt e then none
  else
    let m ← (r.mem.tail s).elim (some r.mem) fun t => r.mem.copyTail s t e
    let m := m.setTail s (some e)
    let next := if k + 1 < u.nSeqs then m.nextEmpty e else e
    return (⟨m, next, r.min, r.max⟩ : Range).widen e

/-- One turn of the search for a usable range of cells. -/
def claimTurn (u : Ubatch) (r : Range) (k : Nat) : Option Range :=
  (r.mem.tail (owner u k)).elim (takeEmpty u r k) fun t =>
    let x := r.mem.cell t
    if owner u k ∉ x.seqId then none
    else if x.seqId.card = 1 then some (r.widen t)
    else takeEmpty u r k

/-- The contents of two cells are swapped, with the tails that point there. -/
def exchange (m : Memory) (dst src : Nat) : Memory :=
  { m with
    cell := fun i =>
      let y := m.cell (Equiv.swap dst src i)
      { m.cell i with pos := y.pos, src := y.src, seqId := y.seqId }
    tail := fun s => (m.tail s).map (Equiv.swap dst src) }

/-- One turn of the reordering; a sequence without a cell is out of bounds. -/
def gatherTurn (u : Ubatch) (min : Nat) (m : Memory) (k : Nat) : Option Memory :=
  (m.tail (owner u k)).map fun src => if k + min ≠ src then m.exchange (k + min) src else m

def placeTurn (u : Ubatch) (min : Nat) (m : Memory) (k : Nat) : Memory :=
  let x := m.cell (k + min)
  let m := m.put (k + min) { x with pos := lastPos u k, seqId := (seqsOf u k).toFinset }
  (seqsOf u k).foldl (fun m s => m.setTail s (some (k + min))) m

def refcount (m : Memory) (j : Nat) : Nat :=
  ((List.range m.size).filter fun i => (m.cell i).src = some j).length

/-- The first cell of the range that is no source, to be used as the cleared state. -/
def firstUnreferenced (m : Memory) (min max : Nat) : Option Nat :=
  (List.range' min (max + 1 - min)).find? fun i => m.refcount i == 0

/-- The source of a cell is staged, and the cell is its own source from then on. -/
def stageCell (rsZ : Option Nat) (min max i : Nat) (x : MemCell) : MemCell :=
  if min ≤ i ∧ i ≤ max then
    { x with src0 := if x.src = none then rsZ else x.src, src := some i }
  else x

/-- The sources of the range; none where a state has to be cleared and no cell is free for it. -/
def stage (m : Memory) (min max : Nat) : Option Memory :=
  let rsZ := m.firstUnreferenced min max
  if rsZ = none ∧ (List.range' min (max + 1 - min)).any fun i => (m.cell i).src = none then none
  else some { m with rsZ := rsZ, cell := fun i => stageCell rsZ min max i (m.cell i) }

/-- The number of the cells that are not empty. -/
def usedCells (m : Memory) : Nat := ((Finset.range m.size).filter fun i => ¬ m.emptyAt i).card

/-- The range that was found is the one of the next graph. -/
def finish (m : Memory) (min max : Nat) : Memory :=
  { m with head := min, n := max + 1 - min, used := m.usedCells }

/-- What `find_slot` returns, with the memory and the reports. -/
structure Found where
  ok : Bool
  mem : Memory
  errors : List TailError

/-- `find_slot` after the sequences were checked. -/
def findRange (u : Ubatch) (m : Memory) : Option Found := do
  let start : Range := ⟨m, m.firstEmpty, m.size - 1, 0⟩
  let r ← (List.range u.nSeqs).foldlM (claimTurn u) start
  let gathered ← (List.range u.nSeqs).foldlM (gatherTurn u r.min) r.mem
  let placed := (List.range u.nSeqs).foldl (placeTurn u r.min) gathered
  let staged ← placed.stage r.min r.max
  let done := staged.finish r.min r.max
  return ⟨u.nSeqs ≤ done.n, done, m.tailErrors⟩

/-- `find_slot`; none where an assertion fails. -/
def findSlot (m : Memory) (u : Ubatch) : Option Found :=
  let m := { m with head := if m.used + 2 * u.nSeqs < m.head then 0 else m.head }
  if ¬ u.equalSeqs then none
  else
    match unshare u m with
    | .error m => some ⟨false, m, []⟩
    | .ok m => findRange u m

end Memory

theorem MemCell.isEmpty_iff {x : MemCell} : x.isEmpty = true ↔ x.seqId = ∅ := by
  rw [isEmpty, decide_eq_true_eq]

namespace Memory

theorem emptyAt_iff {m : Memory} : m.emptyAt i = true ↔ (m.cell i).seqId = ∅ :=
  MemCell.isEmpty_iff

@[simp] theorem put_self (m : Memory) (i : Nat) (x : MemCell) : (m.put i x).cell i = x :=
  Function.update_self ..

theorem put_other (h : j ≠ i) (m : Memory) (x : MemCell) : (m.put i x).cell j = m.cell j :=
  Function.update_of_ne h ..

theorem setTail_tail (m : Memory) (s : Nat) (t : Option Nat) :
    (m.setTail s t).tail = Function.update m.tail s t := rfl

/-- The sequences whose tail is a cell. -/
def tailsAt (m : Memory) (i : Nat) : Finset Nat := fibre m.tail m.size i

theorem mem_tailsAt {m : Memory} : s ∈ m.tailsAt i ↔ s < m.size ∧ m.tail s = some i := mem_fibre

/-- Tails, sets, counts and sources agree with each other. -/
structure Booked (m : Memory) : Prop where
  tails : ∀ s < m.size, ∀ i, m.tail s = some i → i < m.size
  sets : ∀ i < m.size, (m.cell i).seqId = m.tailsAt i
  vacant : ∀ i < m.size, (m.cell i).seqId = ∅ → (m.cell i).pos = -1
  used : m.used = m.usedCells
  own : ∀ i < m.size, ∀ j, (m.cell i).src = some j → j = i
  kept : ∀ i < m.size, (m.cell i).seqId ≠ ∅ → (m.cell i).src = some i
  head : m.head ≤ m.size

/-- A tail is the cell that contains the sequence. -/
theorem Booked.tail_iff {m : Memory} (h : m.Booked) (hs : s < m.size) :
    m.tail s = some i ↔ i < m.size ∧ s ∈ (m.cell i).seqId := by
  constructor
  · intro ht
    have hi := h.tails s hs i ht
    refine ⟨hi, ?_⟩
    rw [h.sets i hi]
    exact mem_tailsAt.2 ⟨hs, ht⟩
  · rintro ⟨hi, hm⟩
    rw [h.sets i hi] at hm
    exact (mem_tailsAt.1 hm).2

theorem clear_booked (m : Memory) : m.clear.Booked where
  tails := fun _ _ _ h => by cases h
  sets := by
    intro i _
    refine (Finset.eq_empty_of_forall_notMem fun s hs => ?_).symm
    cases (mem_tailsAt.1 hs).2
  vacant := fun _ _ _ => rfl
  used := by
    rw [usedCells, Finset.filter_false_of_mem]
    · rfl
    · intro i _
      rw [not_not]
      exact emptyAt_iff.2 rfl
  own := fun _ _ _ h => by cases h
  kept := fun _ _ h => (h rfl).elim
  head := Nat.zero_le _

theorem create_booked (n : Nat) : (create n).Booked := clear_booked (create n)

/-- Cells lose sequences and otherwise keep their sources, until they are empty. -/
structure Shrunk (m m' : Memory) : Prop where
  size : m'.size = m.size
  subset : ∀ i < m.size, (m'.cell i).seqId ⊆ (m.cell i).seqId
  src : ∀ i < m.size, (m'.cell i).src = (m.cell i).src ∧
      ((m'.cell i).seqId = ∅ → (m.cell i).seqId = ∅) ∨
    (m'.cell i).src = none ∧ (m'.cell i).seqId = ∅

theorem Shrunk.refl (m : Memory) : Shrunk m m :=
  ⟨rfl, fun _ _ => Finset.Subset.refl _, fun _ _ => .inl ⟨rfl, id⟩⟩

theorem Shrunk.trans {m₁ m₂ m₃ : Memory} (h : Shrunk m₁ m₂) (h' : Shrunk m₂ m₃) :
    Shrunk m₁ m₃ where
  size := h'.size.trans h.size
  subset := fun i hi => (h'.subset i (h.size ▸ hi)).trans (h.subset i hi)
  src := by
    intro i hi
    have hi' : i < m₂.size := h.size ▸ hi
    rcases h'.src i hi' with ⟨hsrc', hempty'⟩ | hnone
    · rcases h.src i hi with ⟨hsrc, hempty⟩ | ⟨hsrc, hempty⟩
      · exact .inl ⟨hsrc'.trans hsrc, hempty ∘ hempty'⟩
      · refine .inr ⟨hsrc'.trans hsrc, Finset.subset_empty.1 ?_⟩
        rw [← hempty]
        exact h'.subset i hi'
    · exact .inr hnone

/-- Sources stay right where cells shrink. -/
theorem Shrunk.booked {m m' : Memory} (hs : Shrunk m m') (h : m.Booked)
    (tails : ∀ s < m.size, ∀ i, m'.tail s = some i → m.tail s = some i)
    (sets : ∀ i < m.size, (m'.cell i).seqId = m'.tailsAt i)
    (vacant : ∀ i < m.size, (m'.cell i).seqId = ∅ → (m'.cell i).pos = -1)
    (used : m'.used = m'.usedCells) (head : m'.head ≤ m.head) : m'.Booked where
  tails := by
    intro a ha i hi
    rw [hs.size] at ha ⊢
    exact h.tails a ha i (tails a ha i hi)
  sets := fun i hi => sets i (hs.size ▸ hi)
  vacant := fun i hi => vacant i (hs.size ▸ hi)
  used := used
  own := by
    intro i hi j hj
    rw [hs.size] at hi
    rcases hs.src i hi with ⟨hsrc, _⟩ | ⟨hsrc, _⟩
    · exact h.own i hi j (hsrc ▸ hj)
    · rw [hsrc] at hj
      cases hj
  kept := by
    intro i hi hne
    rw [hs.size] at hi
    rcases hs.src i hi with ⟨hsrc, _⟩ | ⟨_, he⟩
    · rw [hsrc]
      exact h.kept i hi fun he => hne (Finset.subset_empty.1 (he ▸ hs.subset i hi))
    · exact (hne he).elim
  head := by
    rw [hs.size]
    exact Nat.le_trans head h.head

/-! ### Counts of cells that are used -/

theorem usedCells_congr {m n : Memory} (hsize : n.size = m.size)
    (h : ∀ i < m.size, ((n.cell i).seqId = ∅ ↔ (m.cell i).seqId = ∅)) :
    n.usedCells = m.usedCells := by
  rw [usedCells, usedCells, hsize]
  refine congrArg Finset.card (Finset.filter_congr fun i hi => ?_)
  rw [emptyAt_iff, emptyAt_iff, h i (Finset.mem_range.1 hi)]

theorem usedCells_freed {m n : Memory} (hsize : n.size = m.size)
    (h : ∀ j, j ≠ i → n.cell j = m.cell j) (hi : i < m.size) (hold : (m.cell i).seqId ≠ ∅)
    (hnew : (n.cell i).seqId = ∅) : n.usedCells = m.usedCells - 1 := by
  have hmem : i ∈ (Finset.range m.size).filter fun i => ¬ m.emptyAt i :=
    Finset.mem_filter.2 ⟨Finset.mem_range.2 hi, fun he => hold (emptyAt_iff.1 he)⟩
  rw [usedCells, usedCells, ← Finset.card_erase_of_mem hmem, hsize]
  refine congrArg Finset.card ?_
  ext j
  rw [Finset.mem_erase, Finset.mem_filter, Finset.mem_filter, emptyAt_iff, emptyAt_iff]
  by_cases hj : j = i
  · subst hj
    exact iff_of_false (fun hf => hf.2 hnew) fun hf => hf.1 rfl
  · rw [h j hj, and_iff_right hj]

/-! ### Passes over all cells -/

/-- A turn of a pass changes one cell, by `g`, and the tail of that number, by `w`. -/
structure Turn (g : MemCell → MemCell) (w : Nat → Option Nat → Option Nat)
    (turn : Memory × Nat → Nat → Memory × Nat) (st : Memory × Nat) (i : Nat) : Prop where
  size : (turn st i).1.size = st.1.size
  head : (turn st i).1.head = st.1.head
  cell : (turn st i).1.cell = Function.update st.1.cell i (g (st.1.cell i))
  tail : (turn st i).1.tail = Function.update st.1.tail i (w i (st.1.tail i))
  used : st.1.used = st.1.usedCells → (turn st i).1.used = (turn st i).1.usedCells

/-- The memory after a pass. -/
structure Passed (g : MemCell → MemCell) (w : Nat → Option Nat → Option Nat) (n : Nat)
    (m m' : Memory) : Prop where
  size : m'.size = m.size
  head : m'.head ≤ m.head
  cell : ∀ i, m'.cell i = if i < n then g (m.cell i) else m.cell i
  tail : ∀ s, m'.tail s = if s < n then w s (m.tail s) else m.tail s
  used : m'.used = m'.usedCells

theorem pass_spec {g : MemCell → MemCell} {w : Nat → Option Nat → Option Nat}
    {turn : Memory × Nat → Nat → Memory × Nat} {m : Memory} (hused : m.used = m.usedCells)
    (hturn : ∀ st i, st.1.size = m.size → i < m.size → st.1.cell i = m.cell i →
      Turn g w turn st i) :
    Passed g w m.size m (lowerHead ((List.range m.size).foldl turn (m, m.size))) := by
  have hpass : ∀ n ≤ m.size, Passed g w n m ((List.range n).foldl turn (m, m.size)).1 := by
    intro n hn
    induction n with
    | zero =>
      exact ⟨rfl, Nat.le_refl _, fun i => (if_neg (Nat.not_lt_zero i)).symm,
        fun s => (if_neg (Nat.not_lt_zero s)).symm, hused⟩
    | succ n ih =>
      have hp := ih (by omega)
      have hcell : ((List.range n).foldl turn (m, m.size)).1.cell n = m.cell n := by
        rw [hp.cell, if_neg (Nat.lt_irrefl n)]
      have htail : ((List.range n).foldl turn (m, m.size)).1.tail n = m.tail n := by
        rw [hp.tail, if_neg (Nat.lt_irrefl n)]
      have ht := hturn _ n hp.size (by omega) hcell
      rw [List.range_succ, List.foldl_append, List.foldl_cons, List.foldl_nil]
      refine ⟨ht.size.trans hp.size, ht.head.trans_le hp.head, fun i => ?_, fun s => ?_,
        ht.used hp.used⟩
      · rw [ht.cell, hcell]
        by_cases hi : i = n
        · subst hi
          rw [Function.update_self, if_pos (Nat.lt_succ_self i)]
        · rw [Function.update_of_ne hi, hp.cell]
          exact if_congr (by omega) rfl rfl
      · rw [ht.tail, htail]
        by_cases hs : s = n
        · subst hs
          rw [Function.update_self, if_pos (Nat.lt_succ_self s)]
        · rw [Function.update_of_ne hs, hp.tail]
          exact if_congr (by omega) rfl rfl
  have hp := hpass m.size (Nat.le_refl _)
  refine ⟨hp.size, ?_, hp.cell, hp.tail, hp.used⟩
  refine Nat.le_trans ?_ hp.head
  rw [lowerHead]
  dsimp only
  split
  · case isTrue h => exact Nat.le_of_lt h.2
  · exact Nat.le_refl _

end Memory
end ActQuant.Recurrent
