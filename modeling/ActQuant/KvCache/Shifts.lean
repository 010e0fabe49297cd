import ActQuant.KvCache.Reachable

namespace ActQuant.KvCache
open ActQuant.Lib ActQuant.Batch

/-! The shifts that `update` rotates the stored K by. -/

/-- A cache with what became of the stored K of each cell: the position it was last rotated for, and
whether a division has lowered the cell's position since its token was written. -/
structure Stored where
  cache : Cache
  rot : Nat × Nat → Int
  lowered : Nat × Nat → Bool

/-- What moves, writes or empties cells between two decodes. -/
inductive ShiftOp where
  | add (s p₀ p₁ d : Int)
  | div (s p₀ p₁ d : Int)
  | write (r : SlotInfo) (u : Ubatch)
  | rm (s p₀ p₁ : Int)
  | keep (s : Int)
  | update

namespace Stored

/-- The cell at a place. -/
def cell (R : Stored) (y : Nat × Nat) : Cell := R.cache.at' y

/-- The K of a token is stored for the token's position. -/
def store (R : Stored) (k : Cache) (xs : List ((Nat × Nat) × Token)) : Stored where
  cache := k
  rot := xs.foldl (fun f x => Function.update f x.1 x.2.pos) R.rot
  lowered := xs.foldl (fun f x => Function.update f x.1 false) R.lowered

def step (p : Params) (R : Stored) : ShiftOp → Option Stored
  | .add s p₀ p₁ d => (R.cache.seqAdd p s p₀ p₁ d).map fun k => { R with cache := k }
  | .div s p₀ p₁ d => (R.cache.seqDiv p s p₀ p₁ d).map fun k =>
    { R with
      cache := k
      lowered := fun y => R.lowered y || (k.at' y).pos != (R.cache.at' y).pos }
  | .write r u => (R.cache.applyUbatch p r u).map fun k => R.store k (r.places.zip u.tokens)
  | .rm s p₀ p₁ => (R.cache.seqRm p s p₀ p₁).map fun k => { R with cache := k }
  | .keep s => (R.cache.seqKeep p s).map fun k => { R with cache := k }
  | .update => some
    { R with
      cache := R.cache.update p true
      rot := fun y => if y.1 < p.nStream then R.rot y + (R.cell y).shift else R.rot y }

end Stored

/-- A division is by more than one. -/
def ShiftOp.Proper : ShiftOp → Prop
  | .div _ _ _ d => 1 < d
  | _ => True

namespace Stored

/-- A cell that is not in use, or whose K is stored for its position. -/
structure Fresh (R : Stored) (y : Nat × Nat) : Prop where
  shift : (R.cell y).shift = 0
  rot : (R.cell y).pos ≠ -1 → R.rot y = (R.cell y).pos
  lowered : R.lowered y = false

/-- The shift of a cell in use is off by twice what the divisions have taken off its position. -/
structure Tracked (x : Cell) (q : Int) (l : Bool) : Prop where
  empty : x.pos = -1 → x.shift = 0
  off : x.pos ≠ -1 → ∃ n : Int, 0 ≤ n ∧ x.shift = x.pos - q + 2 * n ∧ (l = true ↔ n ≠ 0)

theorem Tracked.vacant (q : Int) (l : Bool) : Tracked Cell.vacant q l :=
  ⟨fun _ => rfl, fun h => (h rfl).elim⟩

theorem Tracked.thinned {x y : Cell} (hx : Tracked x q l) (h : y.Thinned x) :
    Tracked y q l := by
  rcases h with rfl | ⟨hpos, hshift, _⟩
  · exact .vacant q l
  · exact ⟨by rw [hpos, hshift]; exact hx.empty, by rw [hpos, hshift]; exact hx.off⟩

theorem Tracked.moved {x : Cell} (hx : Tracked x q l) (hpos : x.pos ≠ -1) (d : Int) :
    Tracked (x.moved d) q l := by
  rw [Cell.moved]
  split
  · exact .vacant q l
  · case isFalse hnn =>
    obtain ⟨n, hn, hshift, hlow⟩ := hx.off hpos
    refine ⟨fun h => ?_, fun _ => ⟨n, hn, ?_, hlow⟩⟩
    · simp only at h
      omega
    · simp only [hshift]
      omega

/-- A division adds to the shift what it takes off the position. -/
theorem Tracked.divided {x : Cell} (hx : Tracked x q l) (hpos : 0 ≤ x.pos) (hd : 1 < d) :
    Tracked (x.divided d) q (l || (x.divided d).pos != x.pos) := by
  have hnn : 0 ≤ x.pos.tdiv d := Int.tdiv_nonneg hpos (by omega)
  have hle : x.pos.tdiv d ≤ x.pos := Int.tdiv_le_self d hpos
  obtain ⟨n, hn, hshift, hlow⟩ := hx.off (by omega)
  refine ⟨fun h => ?_, fun _ => ⟨n + (x.pos - x.pos.tdiv d), by omega, ?_, ?_⟩⟩
  · simp only [Cell.divided] at h
    omega
  · simp only [Cell.divided, hshift]
    omega
  · simp only [Cell.divided, Bool.or_eq_true, hlow, bne_iff_ne]
    omega

theorem Tracked.placed {x : Cell} (hx : Tracked x q l) (tok : Token) :
    Tracked (x.placed tok) tok.pos false := by
  have hshift : (x.placed tok).shift = 0 := by
    rw [Cell.placed]
    split
    · case isTrue h => exact hx.empty (Cell.isEmpty_eq.1 h)
    · rfl
  refine ⟨fun _ => hshift, fun _ => ⟨0, le_rfl, ?_, by simp⟩⟩
  rw [hshift]
  change (0 : Int) = tok.pos - tok.pos + 2 * 0
  omega

theorem Tracked.of_fresh {R : Stored} (h : R.Fresh y) :
    Tracked (R.cell y) (R.rot y) (R.lowered y) := by
  refine ⟨fun _ => h.shift, fun hpos => ⟨0, le_rfl, ?_, ?_⟩⟩
  · rw [h.shift, h.rot hpos]
    omega
  · simp only [h.lowered, Bool.false_eq_true, ne_eq, not_true_eq_false]

theorem posIn_nonneg {x : Cell} (h : (x.posIn (fromPos p₀) p₁ && x.seqHas s) = true) :
    0 ≤ x.pos :=
  (fromPos_nonneg p₀).trans (Cache.posIn_seqHas.1 h).1.1

theorem Tracked.added {x : Cell} (hx : Tracked x q l) (s : Nat) (p₀ p₁ d : Int) :
    Tracked (Cache.addCell s (fromPos p₀) p₁ d x) q l := by
  rw [Cache.addCell]
  split
  · case isTrue h =>
    have hpos := posIn_nonneg h
    exact hx.moved (by omega) d
  · exact hx

theorem Tracked.divideds {x : Cell} (hx : Tracked x q l) (hd : 1 < d) (s : Nat) (p₀ p₁ : Int) :
    Tracked (Cache.divCell s (fromPos p₀) p₁ d x) q
      (l || (Cache.divCell s (fromPos p₀) p₁ d x).pos != x.pos) := by
  rw [Cache.divCell]
  split
  · case isTrue h => exact hx.divided (posIn_nonneg h) hd
  · rw [bne_self_eq_false, Bool.or_false]
    exact hx

/-- The tokens of an ubatch, one after the other. -/
theorem tracked_placed {xs : List ((Nat × Nat) × Token)} {st st' : Cache × (Nat → Int)}
    (h : xs.foldlM Cache.placeToken st = some st') {f : Nat × Nat → Int} {g : Nat × Nat → Bool}
    (hy : Tracked (st.1.at' y) (f y) (g y)) :
    Tracked (st'.1.at' y) (xs.foldl (fun f x => Function.update f x.1 x.2.pos) f y)
      (xs.foldl (fun g x => Function.update g x.1 false) g y) := by
  induction xs generalizing st f g with
  | nil =>
    cases h
    exact hy
  | cons x xs ih =>
    obtain ⟨u, hu, hrest⟩ := foldlM_cons_eq_some.1 h
    refine ih hrest ?_
    rw [(Cache.placeToken_spec hu).cell]
    dsimp only
    by_cases he : y = x.1
    · subst he
      rw [Function.update_self, Function.update_self, Function.update_self]
      exact hy.placed x.2
    · rw [Function.update_of_ne he, Function.update_of_ne he, Function.update_of_ne he]
      exact hy

/-- Each step keeps track of the shift of a cell. -/
theorem step_tracked {p : Params} {R R' : Stored} {op : ShiftOp} (hop : op.Proper)
    (h : R.step p op = some R') (hy : Tracked (R.cell y) (R.rot y) (R.lowered y)) :
    Tracked (R'.cell y) (R'.rot y) (R'.lowered y) := by
  cases op with
  | add s p₀ p₁ d =>
    obtain ⟨k, hk, rfl⟩ := Option.map_eq_some_iff.1 h
    change Tracked (k.at' y) _ _
    rcases (Cache.seqAdd_passed hk).2.cases y with he | he
    · rw [he]
      split
      · exact hy
      · exact hy.added _ _ _ _
    · rw [he]
      exact hy
  | div s p₀ p₁ d =>
    obtain ⟨k, hk, rfl⟩ := Option.map_eq_some_iff.1 h
    change Tracked (k.at' y) _ (R.lowered y || (k.at' y).pos != (R.cache.at' y).pos)
    have hsame : Tracked (R.cache.at' y) (R.rot y)
        (R.lowered y || (R.cache.at' y).pos != (R.cache.at' y).pos) := by
      rw [bne_self_eq_false, Bool.or_false]
      exact hy
    rcases (Cache.seqDiv_passed hk).2.cases y with he | he
    · rw [he]
      split
      · exact hsame
      · exact hy.divideds hop _ _ _
    · rw [he]
      exact hsame
  | write r u =>
    obtain ⟨k, hk, rfl⟩ := Option.map_eq_some_iff.1 h
    obtain ⟨k₁, m, k₂, h₁, h₂, h₃⟩ := Cache.applyUbatch_eq_some.1 hk
    rw [Cache.placeTokens, Option.ite_none_right_eq_some] at h₁
    refine (tracked_placed h₁.2 hy).thinned ?_
    change (k.at' y).Thinned _
    rw [Cache.at', (Cache.moveHeads_cells h₃).1]
    exact Cache.purges_thinned h₂ y
  | rm s p₀ p₁ =>
    obtain ⟨k, hk, rfl⟩ := Option.map_eq_some_iff.1 h
    exact hy.thinned (Cache.seqRm_thinned hk y)
  | keep s =>
    obtain ⟨k, hk, rfl⟩ := Option.map_eq_some_iff.1 h
    exact hy.thinned (Cache.seqKeep_thinned hk y)
  | update =>
    cases h
    rw [cell, Cache.at', Cache.update]
    by_cases ht : y.1 < p.nStream
    · simp only [Bool.true_and, decide_eq_true_eq, if_pos ht]
      refine ⟨fun _ => rfl, fun hpos => ?_⟩
      obtain ⟨n, hn, hshift, hlow⟩ := hy.off hpos
      refine ⟨n, hn, ?_, hlow⟩
      change (0 : Int) = (R.cell y).pos - (R.rot y + (R.cell y).shift) + 2 * n
      omega
    · simp only [Bool.true_and, decide_eq_true_eq, if_neg ht]
      exact hy

/-- In every run, from a cell whose K is stored for its position, the shift of the cell is the way
from the position its K was rotated for exactly where no division has lowered its position. -/
theorem shift_eq_iff {p : Params} {R R' : Stored} {ops : List ShiftOp} {y : Nat × Nat}
    (hops : ∀ op ∈ ops, op.Proper) (hy : R.Fresh y) (h : ops.foldlM (step p) R = some R')
    (hpos : (R'.cell y).pos ≠ -1) :
    (R'.cell y).shift = (R'.cell y).pos - R'.rot y ↔ R'.lowered y = false := by
  have htracked : Tracked (R'.cell y) (R'.rot y) (R'.lowered y) :=
    sweep_invariant (I := fun R : Stored => Tracked (R.cell y) (R.rot y) (R.lowered y))
      (fun hop hR hstep => step_tracked (hops _ hop) hstep hR) (.of_fresh hy) h
  obtain ⟨n, _, hshift, hlow⟩ := htracked.off hpos
  rw [← Bool.not_eq_true, hlow, hshift]
  omega

/-- An empty cache. -/
def start : Stored := ⟨Cache.create 2, fun _ => -1, fun _ => false⟩

theorem start_fresh (y : Nat × Nat) : start.Fresh y := ⟨rfl, fun h => (h rfl).elim, rfl⟩

/-- One token in the first cell. -/
def writeOne : ShiftOp := .write ⟨[(0, [0])]⟩ ⟨false, 1, [⟨4, [0], true⟩]⟩

set_option maxRecDepth 8000 in
theorem shift_eq_added : ∃ R,
    [writeOne, .add 0 0 (-1) 3].foldlM (step Cache.oneStream) start = some R ∧
      ((R.cell (0, 0)).shift = (R.cell (0, 0)).pos - R.rot (0, 0) ↔ R.lowered (0, 0) = false) :=
  have hops : ∀ op ∈ [writeOne, .add 0 0 (-1) 3], op.Proper := by
    simp only [List.mem_cons, List.not_mem_nil, or_false, forall_eq_or_imp, forall_eq, writeOne,
      ShiftOp.Proper, and_self]
  ⟨_, rfl, shift_eq_iff (p := Cache.oneStream) (R := start) hops (start_fresh _) rfl
    (by decide +kernel)⟩

set_option maxRecDepth 8000 in
/-- A division of position 4 by 2 shifts the K the wrong way. -/
theorem shift_divided : ∃ R,
    [writeOne, .div 0 0 (-1) 2].foldlM (step Cache.oneStream) start = some R ∧
      (R.cell (0, 0)).pos ≠ -1 ∧
      (R.cell (0, 0)).shift ≠ (R.cell (0, 0)).pos - R.rot (0, 0) :=
  ⟨_, rfl, by decide +kernel, by decide +kernel⟩

end Stored
end ActQuant.KvCache
