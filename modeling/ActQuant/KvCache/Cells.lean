import ActQuant.Batch.Split
import ActQuant.Lib.Tally
import Mathlib.Algebra.BigOperators.Ring.Finset
import Mathlib.Algebra.Order.BigOperators.Group.Finset
import Mathlib.Algebra.Order.Ring.Nat
import Mathlib.Data.Finset.Update
import Mathlib.Order.Lattice.Nat

namespace ActQuant.KvCache
open ActQuant.Lib ActQuant.Batch

/-- `std::numeric_limits<llama_pos>::max()`. -/
def posMax : Int := 2147483647

/-- A sum of two 32-bit integers; an overflow is undefined. -/
def addInt32 (a b : Int) : Option Int :=
  if -2147483648 ≤ a + b ∧ a + b ≤ 2147483647 then some (a + b) else none

/-- The entries of the vectors `pos`, `shift` and `seq` for one cell. -/
structure Cell where
  pos : Int
  shift : Int
  seq : Finset Nat
deriving DecidableEq

def Cell.vacant : Cell := ⟨-1, 0, ∅⟩

/-- The assertion of `is_empty`: a position is -1 or not negative. -/
def Cell.Regular (x : Cell) : Prop := x.pos = -1 ∨ 0 ≤ x.pos

instance : DecidablePred Cell.Regular := fun _ => inferInstanceAs (Decidable (_ ∨ _))

/-- What `is_empty` returns behind its assertion. -/
def Cell.isEmpty (x : Cell) : Bool := x.pos == -1

def Cell.posIn (x : Cell) (p₀ p₁ : Int) : Bool := p₀ ≤ x.pos && x.pos < p₁

def Cell.seqHas (x : Cell) (s : Nat) : Bool := s ∈ x.seq

def Cell.seqCount (x : Cell) : Nat := x.seq.card

/-- The sequence of a cell that has exactly one. -/
def Cell.seqGet (x : Cell) : Nat := x.seq.min.untopD LLAMA_MAX_SEQ

theorem Cell.seqGet_of_eq {x : Cell} {s : Nat} (h : x.seq = {s}) : x.seqGet = s := by
  rw [Cell.seqGet, h, Finset.min_singleton, WithTop.untopD_coe]

/-- The cell holds a sequence at a position. -/
def Cell.Holds (x : Cell) (s : Nat) (p : Int) : Prop := s ∈ x.seq ∧ x.pos = p

instance (x : Cell) (s : Nat) (p : Int) : Decidable (x.Holds s p) :=
  inferInstanceAs (Decidable (_ ∧ _))

/-- `llama_kv_cells`. -/
structure Cells where
  size : Nat
  hasShift : Bool
  used : Finset Nat
  cell : Nat → Cell
  seqPos : Nat → Tally Int

namespace Cells

/-- `resize`, which resets. -/
def resize (n : Nat) : Cells where
  size := n
  hasShift := false
  used := ∅
  cell := fun _ => Cell.vacant
  seqPos := fun _ => Tally.empty

def reset (c : Cells) : Cells := resize c.size

def resetShift (c : Cells) : Cells :=
  { c with hasShift := false, cell := fun i => { c.cell i with shift := 0 } }

def getUsed (c : Cells) : Nat := c.used.card

def usedMaxP1 (c : Cells) : Nat := c.used.sup Nat.succ

def seqPosMin (c : Cells) (s : Nat) : Int := (c.seqPos s).least?.getD (-1)

def seqPosMax (c : Cells) (s : Nat) : Int := (c.seqPos s).greatest?.getD (-1)

def put (c : Cells) (i : Nat) (x : Cell) : Cells :=
  { c with cell := Function.update c.cell i x }

/-- `seq_pos_dec`, whose assertion asks for the counter. -/
def seqPosDec (c : Cells) (s : Nat) (p : Int) : Option Cells :=
  if 0 < (c.seqPos s).count p then
    some { c with seqPos := Function.update c.seqPos s ((c.seqPos s).dec p) }
  else none

def seqPosInc (c : Cells) (s : Nat) (p : Int) : Cells :=
  { c with seqPos := Function.update c.seqPos s ((c.seqPos s).inc p) }

/-- `seq_pos_rm`: a `seq_pos_dec` for every sequence of the cell. -/
def seqPosRm (c : Cells) (i : Nat) : Option Cells :=
  if ∀ s ∈ (c.cell i).seq, 0 < (c.seqPos s).count (c.cell i).pos then
    some { c with
      seqPos := fun s =>
        if s ∈ (c.cell i).seq then (c.seqPos s).dec (c.cell i).pos else c.seqPos s }
  else none

/-- `seq_pos_add`: a `seq_pos_inc` for every sequence of the cell. -/
def seqPosAdd (c : Cells) (i : Nat) : Cells :=
  { c with
    seqPos := fun s =>
      if s ∈ (c.cell i).seq then (c.seqPos s).inc (c.cell i).pos else c.seqPos s }

/-- Empty a cell whose counters are already gone. -/
def vacate (c : Cells) (i : Nat) : Cells :=
  { c.put i Cell.vacant with used := c.used.erase i }

def rm (c : Cells) (i : Nat) : Option Cells :=
  if i < c.size ∧ (c.cell i).pos ≠ -1 then (c.seqPosRm i).map fun c' => c'.vacate i else none

/-- `seq_rm`, with whether the cell becomes empty. -/
def seqRm (c : Cells) (i s : Nat) : Option (Cells × Bool) :=
  if i < c.size ∧ s ∈ (c.cell i).seq ∧ (c.cell i).pos ≠ -1 then
    (c.seqPosDec s (c.cell i).pos).map fun c' =>
      if (c.cell i).seq.erase s = ∅ then (c'.vacate i, true)
      else (c'.put i { c.cell i with seq := (c.cell i).seq.erase s }, false)
  else none

/-- `seq_keep`, with whether the cell becomes empty. -/
def seqKeep (c : Cells) (i s : Nat) : Option (Cells × Bool) :=
  if i < c.size then
    if s ∈ (c.cell i).seq then
      (c.seqPosRm i).map fun c' =>
        ((c'.put i { c.cell i with seq := {s} }).seqPosInc s (c.cell i).pos, false)
    else if (c.cell i).seq ≠ ∅ then
      (c.seqPosRm i).map fun c' => (c'.vacate i, true)
    else if (c.cell i).pos = -1 then some (c, false)
    else none
  else none

def seqAdd (c : Cells) (i s : Nat) : Option Cells :=
  if i < c.size ∧ (c.cell i).pos ≠ -1 ∧ s < LLAMA_MAX_SEQ ∧ s ∉ (c.cell i).seq then
    some ((c.put i { c.cell i with seq := insert s (c.cell i).seq }).seqPosInc s (c.cell i).pos)
  else none

def posSet (c : Cells) (i : Nat) (p : Int) : Option Cells :=
  if i < c.size ∧ (c.cell i).pos = -1 ∧ (c.cell i).seq = ∅ then
    some { c.put i { c.cell i with pos := p } with used := insert i c.used }
  else none

/-- `pos_add`, with whether the cell becomes empty. -/
def posAdd (c : Cells) (i : Nat) (d : Int) : Option (Cells × Bool) :=
  if i < c.size ∧ (c.cell i).pos ≠ -1 then do
    let c' ← c.seqPosRm i
    let pos ← addInt32 (c.cell i).pos d
    let shift ← addInt32 (c.cell i).shift d
    let c' := { c' with hasShift := true }
    if pos < 0 then
      return (c'.vacate i, true)
    else
      return ((c'.put i { c.cell i with pos := pos, shift := shift }).seqPosAdd i, false)
  else none

/-- `pos_div`: a division by zero is undefined. -/
def posDiv (c : Cells) (i : Nat) (d : Int) : Option Cells :=
  if i < c.size ∧ (c.cell i).pos ≠ -1 ∧ d ≠ 0 then do
    let pOld := (c.cell i).pos
    let c' ← c.seqPosRm i
    let pos := pOld.tdiv d
    let shift ← addInt32 (c.cell i).shift (pOld - pos)
    let c' := (c'.put i { c.cell i with pos := pos, shift := shift }).seqPosAdd i
    return { c' with hasShift := true }
  else none

/-- `cp` of some cells: their positions and sequences. The copy is only read by `set`. -/
def cp (c : Cells) : List Nat → Option (List Cell)
  | [] => some []
  | i :: is =>
    if i < c.size ∧ (c.cell i).shift = 0 then
      (c.cp is).map fun xs => { c.cell i with shift := 0 } :: xs
    else none

/-- What `set` makes of the used cells. -/
def setUsed (c : Cells) (i : Nat) (x : Cell) : Finset Nat :=
  if (c.cell i).pos = -1 then if x.pos ≠ -1 then insert i c.used else c.used
  else if x.pos = -1 then c.used.erase i else c.used

/-- One turn of `set`; its assertion comes last. -/
def setOne (c : Cells) (i : Nat) (x : Cell) : Option Cells :=
  if i < c.size then
    (if (c.cell i).pos ≠ -1 then c.seqPosRm i else some c).bind fun c' =>
      let d : Cells :=
        { c'.put i { c.cell i with pos := x.pos, seq := x.seq } with used := c.setUsed i x }
      if (c.cell i).shift = 0 then some (if x.pos ≠ -1 then d.seqPosAdd i else d) else none
  else none

/-- `set` of some cells from their copies. -/
def set (c : Cells) : List Nat → List Cell → Option Cells
  | i :: is, x :: xs => (c.setOne i x).bind fun c => c.set is xs
  | [], [] => some c
  | _, _ => none

/-- How many cells hold a sequence at a position. -/
def held (c : Cells) (s : Nat) (p : Int) : Nat :=
  ((Finset.range c.size).filter fun i => (c.cell i).Holds s p).card

/-- The bookkeeping agrees with the cells. -/
structure WellFormed (c : Cells) : Prop where
  used : ∀ i, i ∈ c.used ↔ i < c.size ∧ (c.cell i).pos ≠ -1
  empty : ∀ i < c.size, (c.cell i).pos = -1 → (c.cell i).seq = ∅ ∧ (c.cell i).shift = 0
  count : ∀ s p, (c.seqPos s).count p = c.held s p

end Cells

/-! What each operation on the cells makes of its cell, and that it keeps the bookkeeping. -/

def Cell.without (x : Cell) (s : Nat) : Cell :=
  if x.seq.erase s = ∅ then Cell.vacant else { x with seq := x.seq.erase s }

def Cell.only (x : Cell) (s : Nat) : Cell :=
  if s ∈ x.seq then { x with seq := {s} } else if x.seq ≠ ∅ then Cell.vacant else x

def Cell.joined (x : Cell) (s : Nat) : Cell := { x with seq := insert s x.seq }

def Cell.moved (x : Cell) (d : Int) : Cell :=
  if x.pos + d < 0 then Cell.vacant else { x with pos := x.pos + d, shift := x.shift + d }

def Cell.divided (x : Cell) (d : Int) : Cell :=
  { x with pos := x.pos.tdiv d, shift := x.shift + (x.pos - x.pos.tdiv d) }

def Cell.mark (x : Cell) (s : Nat) (p : Int) : Nat := if x.Holds s p then 1 else 0

@[simp] theorem Cell.mark_vacant (s : Nat) (p : Int) : Cell.vacant.mark s p = 0 :=
  if_neg fun h => Finset.notMem_empty s h.1

theorem addInt32_eq_some {a b r : Int} :
    addInt32 a b = some r ↔ (-2147483648 ≤ a + b ∧ a + b ≤ 2147483647) ∧ r = a + b := by
  rw [addInt32, Option.ite_none_right_eq_some, Option.some_inj]
  exact and_congr_right fun _ => eq_comm

theorem addInt32_isSome {a b : Int} :
    (addInt32 a b).isSome ↔ -2147483648 ≤ a + b ∧ a + b ≤ 2147483647 := by
  rw [addInt32]
  split
  · case isTrue h => exact ⟨fun _ => h, fun _ => rfl⟩
  · case isFalse h => exact ⟨fun h => (nomatch h), fun h' => (h h').elim⟩

namespace Cells

@[simp] theorem put_size (c : Cells) (i : Nat) (x : Cell) : (c.put i x).size = c.size := rfl
@[simp] theorem put_used (c : Cells) (i : Nat) (x : Cell) : (c.put i x).used = c.used := rfl
@[simp] theorem put_seqPos (c : Cells) (i : Nat) (x : Cell) : (c.put i x).seqPos = c.seqPos := rfl
@[simp] theorem put_cell (c : Cells) (i : Nat) (x : Cell) :
    (c.put i x).cell = Function.update c.cell i x := rfl
@[simp] theorem vacate_cell (c : Cells) (i : Nat) :
    (c.vacate i).cell = Function.update c.cell i Cell.vacant := rfl
@[simp] theorem vacate_seqPos (c : Cells) (i : Nat) : (c.vacate i).seqPos = c.seqPos := rfl
@[simp] theorem vacate_used (c : Cells) (i : Nat) : (c.vacate i).used = c.used.erase i := rfl
@[simp] theorem seqPosInc_cell (c : Cells) (s : Nat) (p : Int) :
    (c.seqPosInc s p).cell = c.cell := rfl
@[simp] theorem seqPosInc_used (c : Cells) (s : Nat) (p : Int) :
    (c.seqPosInc s p).used = c.used := rfl
@[simp] theorem seqPosAdd_cell (c : Cells) (i : Nat) : (c.seqPosAdd i).cell = c.cell := rfl
@[simp] theorem seqPosAdd_used (c : Cells) (i : Nat) : (c.seqPosAdd i).used = c.used := rfl

theorem held_eq_sum (c : Cells) (s : Nat) (p : Int) :
    c.held s p = ∑ i ∈ Finset.range c.size, (c.cell i).mark s p :=
  Finset.card_filter _ _

/-- Replacing a cell moves its own contribution only. -/
theorem held_put (c : Cells) (hi : i < c.size) (x : Cell) (s : Nat) (p : Int) :
    (c.put i x).held s p + (c.cell i).mark s p = c.held s p + x.mark s p := by
  have hmem : i ∈ Finset.range c.size := Finset.mem_range.2 hi
  have hrest : ∀ j ∈ (Finset.range c.size).erase i,
      ((c.put i x).cell j).mark s p = (c.cell j).mark s p := by
    intro j hj
    rw [put_cell, Function.update_of_ne (Finset.ne_of_mem_erase hj)]
  rw [held_eq_sum, held_eq_sum, put_size, ← Finset.sum_erase_add _ _ hmem,
    ← Finset.sum_erase_add (a := i) _ (fun j => (c.cell j).mark s p) hmem,
    Finset.sum_congr rfl hrest, put_cell, Function.update_self]
  omega

theorem mark_le_held (c : Cells) (hi : i < c.size) (s : Nat) (p : Int) :
    (c.cell i).mark s p ≤ c.held s p := by
  rw [held_eq_sum]
  exact Finset.single_le_sum (f := fun j => (c.cell j).mark s p) (fun _ _ => Nat.zero_le _)
    (Finset.mem_range.2 hi)

theorem held_congr {c c' : Cells} (hsize : c'.size = c.size)
    (hcell : ∀ i < c.size, c'.cell i = c.cell i) (s : Nat) (p : Int) :
    c'.held s p = c.held s p := by
  rw [held, held, hsize]
  congr 1
  apply Finset.filter_congr
  intro i hi
  rw [hcell i (Finset.mem_range.1 hi)]

theorem held_pos {c : Cells} : 0 < c.held s p ↔ ∃ i < c.size, (c.cell i).Holds s p := by
  rw [held, Finset.card_pos]
  constructor
  · rintro ⟨i, hi⟩
    rw [Finset.mem_filter, Finset.mem_range] at hi
    exact ⟨i, hi⟩
  · rintro ⟨i, hi⟩
    exact ⟨i, Finset.mem_filter.2 ⟨Finset.mem_range.2 hi.1, hi.2⟩⟩

/-- The bookkeeping after one cell was replaced and its counters were moved with it. -/
theorem WellFormed.edit {c c' : Cells} (hc : c.WellFormed) (hi : i < c.size)
    (hsize : c'.size = c.size) (hcell : c'.cell = Function.update c.cell i x)
    (hused : ∀ j, j ∈ c'.used ↔ if j = i then x.pos ≠ -1 else j ∈ c.used)
    (hempty : x.pos = -1 → x.seq = ∅ ∧ x.shift = 0)
    (hcount : ∀ s p, (c'.seqPos s).count p + (c.cell i).mark s p =
      (c.seqPos s).count p + x.mark s p) : c'.WellFormed where
  used := by
    intro j
    rw [hused, hsize, hcell]
    by_cases hj : j = i
    · subst hj
      rw [if_pos rfl, Function.update_self]
      exact (and_iff_right hi).symm
    · rw [if_neg hj, Function.update_of_ne hj]
      exact hc.used j
  empty := by
    intro j hj
    rw [hcell]
    by_cases hji : j = i
    · subst hji
      rw [Function.update_self]
      exact hempty
    · rw [Function.update_of_ne hji]
      exact hc.empty j (hsize ▸ hj)
  count := by
    intro s p
    have hput := held_put c hi x s p
    have hle := mark_le_held c hi s p
    have hheld : c'.held s p = (c.put i x).held s p :=
      held_congr (c := c.put i x) hsize (fun j _ => by rw [hcell, put_cell]) s p
    have hcs := hcount s p
    rw [hc.count] at hcs
    omega

theorem WellFormed.count_pos {c : Cells} (hc : c.WellFormed) (hi : i < c.size)
    (h : (c.cell i).Holds s p) : 0 < (c.seqPos s).count p := by
  rw [hc.count]
  exact held_pos.2 ⟨i, hi, h⟩

theorem WellFormed.pos_ne {c : Cells} (hc : c.WellFormed) (hi : i < c.size)
    (hs : s ∈ (c.cell i).seq) : (c.cell i).pos ≠ -1 := by
  intro h
  rw [(hc.empty i hi h).1] at hs
  exact Finset.notMem_empty s hs

theorem resize_wellFormed (n : Nat) : (resize n).WellFormed where
  used i := ⟨fun h => (Finset.notMem_empty i h).elim, fun h => (h.2 rfl).elim⟩
  empty _ _ _ := ⟨rfl, rfl⟩
  count s p := by
    symm
    change (resize n).held s p = 0
    rw [held, Finset.card_eq_zero, Finset.filter_eq_empty_iff]
    intro i _ h
    exact Finset.notMem_empty s h.1

theorem WellFormed.resetShift {c : Cells} (hc : c.WellFormed) : c.resetShift.WellFormed where
  used := hc.used
  empty i hi h := ⟨(hc.empty i hi h).1, rfl⟩
  count := hc.count

/-- The counters give the least position of a sequence. -/
theorem WellFormed.seqPosMin_eq {c : Cells} (hc : c.WellFormed) (hp : c.seqPosMin s ≠ -1) :
    0 < c.held s (c.seqPosMin s) ∧ ∀ p, 0 < c.held s p → c.seqPosMin s ≤ p := by
  rw [seqPosMin] at hp ⊢
  cases h : (c.seqPos s).least? with
  | none =>
    rw [h] at hp
    exact (hp rfl).elim
  | some k =>
    obtain ⟨hk, hle⟩ := Tally.least?_eq_some.1 h
    rw [hc.count] at hk
    refine ⟨hk, fun p hp => hle p ?_⟩
    rw [hc.count]
    exact hp

theorem WellFormed.seqPosMax_eq {c : Cells} (hc : c.WellFormed) (hp : c.seqPosMax s ≠ -1) :
    0 < c.held s (c.seqPosMax s) ∧ ∀ p, 0 < c.held s p → p ≤ c.seqPosMax s := by
  rw [seqPosMax] at hp ⊢
  cases h : (c.seqPos s).greatest? with
  | none =>
    rw [h] at hp
    exact (hp rfl).elim
  | some k =>
    obtain ⟨hk, hle⟩ := Tally.greatest?_eq_some.1 h
    rw [hc.count] at hk
    refine ⟨hk, fun p hp => hle p ?_⟩
    rw [hc.count]
    exact hp

theorem WellFormed.held_ne {c : Cells} (hc : c.WellFormed) (h : 0 < c.held s p) : p ≠ -1 := by
  obtain ⟨i, hi, hs, rfl⟩ := held_pos.1 h
  exact hc.pos_ne hi hs

/-- No least position means that no cell holds the sequence. -/
theorem WellFormed.seqPosMin_none {c : Cells} (hc : c.WellFormed) :
    c.seqPosMin s = -1 ↔ ∀ i < c.size, s ∉ (c.cell i).seq := by
  have hnone : (∀ i < c.size, s ∉ (c.cell i).seq) ↔ ∀ p, (c.seqPos s).count p = 0 := by
    constructor
    · intro h p
      rw [hc.count]
      by_contra hne
      obtain ⟨i, hi, hs, _⟩ := held_pos.1 (Nat.pos_of_ne_zero hne)
      exact h i hi hs
    · intro h i hi hs
      have hpos := hc.count_pos hi ⟨hs, rfl⟩
      rw [h] at hpos
      exact Nat.lt_irrefl 0 hpos
  rw [hnone, ← Tally.least?_eq_none, seqPosMin]
  cases h : (c.seqPos s).least? with
  | none => exact ⟨fun _ => rfl, fun _ => rfl⟩
  | some k =>
    refine ⟨fun hk => ?_, fun hk => (nomatch hk)⟩
    have hk0 := (Tally.least?_eq_some.1 h).1
    rw [hc.count] at hk0
    exact (hc.held_ne hk0 hk).elim

theorem WellFormed.seqPosMax_none {c : Cells} (hc : c.WellFormed) :
    c.seqPosMax s = -1 ↔ ∀ i < c.size, s ∉ (c.cell i).seq := by
  rw [← hc.seqPosMin_none, seqPosMin, seqPosMax]
  cases hg : (c.seqPos s).greatest? with
  | none =>
    rw [Tally.least?_eq_none.2 (Tally.greatest?_eq_none.1 hg)]
  | some k =>
    have hk := (Tally.greatest?_eq_some.1 hg).1
    cases hl : (c.seqPos s).least? with
    | none => exact absurd (Tally.least?_eq_none.1 hl k) (Nat.ne_of_gt hk)
    | some k' =>
      have hk' := (Tally.least?_eq_some.1 hl).1
      rw [hc.count] at hk hk'
      exact iff_of_false (hc.held_ne hk) (hc.held_ne hk')

end Cells
end ActQuant.KvCache
