import ActQuant.KvCache.Cache

namespace ActQuant.KvCache
open ActQuant.Lib ActQuant.Batch

/-! What a pass over the cells makes of each of them. -/

namespace Cells

variable {turn : Cells → Nat → Option (Cells × Bool)} {g : Cell → Cell}

/-- One turn of a pass, with the first cell that became empty. -/
def sweepTurn (n : Nat) (turn : Cells → Nat → Option (Cells × Bool)) (st : Cells × Nat) (i : Nat) :
    Option (Cells × Nat) :=
  (turn st.1 i).map fun r => (r.1, if r.2 && st.2 == n then i else st.2)

theorem sweep_eq (c : Cells) (turn : Cells → Nat → Option (Cells × Bool)) :
    c.sweep turn = (List.range c.size).foldlM (sweepTurn c.size turn) (c, c.size) := rfl

theorem sweepTurn_get (hturn : ∀ {c i d b}, turn c i = some (d, b) → Replaced c i (g (c.cell i)) d)
    {st st' : Cells × Nat} (h : sweepTurn n turn st i = some st') :
    st'.1.cell = Function.update st.1.cell i (g (st.1.cell i)) ∧ st'.1.size = st.1.size := by
  rw [sweepTurn, Option.map_eq_some_iff] at h
  obtain ⟨⟨d, b⟩, hr, rfl⟩ := h
  have hrep := hturn hr
  exact ⟨hrep.cell, hrep.size⟩

/-- A pass changes every cell by its turn. -/
theorem sweep_cell (hturn : ∀ {c i d b}, turn c i = some (d, b) → Replaced c i (g (c.cell i)) d)
    {c d : Cells} (h : c.sweep turn = some (d, n)) :
    d.size = c.size ∧ ∀ i, d.cell i = if i < c.size then g (c.cell i) else c.cell i := by
  rw [sweep_eq] at h
  have hget : ∀ {st : Cells × Nat} {i : Nat} {st' : Cells × Nat}, i ∈ List.range c.size →
      sweepTurn c.size turn st i = some st' →
      st'.1.cell = Function.update st.1.cell (id i) (g (st.1.cell (id i))) :=
    fun _ hst => (sweepTurn_get hturn hst).1
  refine ⟨sweep_invariant (I := fun st : Cells × Nat => st.1.size = c.size) ?_ rfl h, ?_⟩
  · intro st i st' _ hsize hst
    rw [(sweepTurn_get hturn hst).2, hsize]
  · intro i
    have hnd : ((List.range c.size).map id).Nodup := by
      rw [List.map_id]
      exact List.nodup_range
    split
    · case isTrue hi =>
      exact sweep_get (fun st : Cells × Nat => st.1.cell) id (fun _ => g) hget hnd h
        (List.mem_range.2 hi)
    · case isFalse hi =>
      refine sweep_get_other (fun st : Cells × Nat => st.1.cell) id (fun _ => g) hget ?_ h
      rintro j hj rfl
      exact hi (List.mem_range.1 hj)

/-- A pass that can do each of its turns keeps the bookkeeping. -/
theorem WellFormed.sweep (turn : Cells → Nat → Option (Cells × Bool)) (g : Cell → Cell)
    (ok : Cell → Prop)
    (hturn : ∀ {c i d b}, turn c i = some (d, b) → Replaced c i (g (c.cell i)) d)
    (hwf : ∀ {c : Cells} {i}, c.WellFormed → i < c.size → ok (c.cell i) →
      ∃ r, turn c i = some r ∧ r.1.WellFormed)
    {c : Cells} (hc : c.WellFormed) (hok : ∀ i < c.size, ok (c.cell i)) :
    ∃ r, c.sweep turn = some r ∧ r.1.WellFormed := by
  rw [sweep_eq]
  have hnd : ((List.range c.size).map id).Nodup := by
    rw [List.map_id]
    exact List.nodup_range
  have hstep : ∀ {st : Cells × Nat} {i : Nat}, i ∈ List.range c.size →
      (st.1.WellFormed ∧ st.1.size = c.size) → ok (st.1.cell (id i)) →
      ∃ st', sweepTurn c.size turn st i = some st' ∧ st'.1.WellFormed ∧ st'.1.size = c.size := by
    intro st i hi hI hoki
    obtain ⟨r, hr, hrwf⟩ := hwf (i := i) hI.1 (hI.2 ▸ List.mem_range.1 hi) hoki
    refine ⟨_, by rw [sweepTurn, hr]; rfl, hrwf, ?_⟩
    rw [← hI.2]
    exact (hturn (d := r.1) (b := r.2) hr).size
  obtain ⟨st, hst, hI⟩ := sweep_succeeds (fun st : Cells × Nat => st.1.cell) id
    (fun _ => g) (fun _ => ok) (I := fun st => st.1.WellFormed ∧ st.1.size = c.size)
    (s := (c, c.size)) (fun _ hst => (sweepTurn_get hturn hst).1) hstep hnd ⟨hc, rfl⟩
    (fun i hi => hok i (List.mem_range.1 hi))
  exact ⟨st, hst, hI.1⟩

end Cells

namespace Cache

/-! The cell functions of the passes. -/

def rmCell (s : Nat) (p₀ p₁ : Int) (x : Cell) : Cell :=
  if x.posIn p₀ p₁ && x.seqHas s then x.without s else x

def rmAnyCell (p₀ p₁ : Int) (x : Cell) : Cell := if x.posIn p₀ p₁ then Cell.vacant else x

def cpCell (src dst : Nat) (p₀ p₁ : Int) (x : Cell) : Cell :=
  if x.posIn p₀ p₁ && x.seqHas src then x.joined dst else x

def addCell (s : Nat) (p₀ p₁ d : Int) (x : Cell) : Cell :=
  if x.posIn p₀ p₁ && x.seqHas s then x.moved d else x

def divCell (s : Nat) (p₀ p₁ d : Int) (x : Cell) : Cell :=
  if x.posIn p₀ p₁ && x.seqHas s then x.divided d else x

theorem seqRmTurn_replaced (h : seqRmTurn s p₀ p₁ c i = some (d, b)) :
    Cells.Replaced c i (rmCell s p₀ p₁ (c.cell i)) d := by
  rw [seqRmTurn] at h
  rw [rmCell]
  split at h
  · case isTrue hc =>
    rw [if_pos hc]
    exact (Cells.seqRm_replaced h).1
  · case isFalse hc =>
    rw [if_neg hc]
    cases h
    exact Cells.Replaced.refl c i

theorem rmTurn_replaced (h : rmTurn p₀ p₁ c i = some (d, b)) :
    Cells.Replaced c i (rmAnyCell p₀ p₁ (c.cell i)) d := by
  rw [rmTurn] at h
  rw [rmAnyCell]
  split at h
  · case isTrue hc =>
    rw [if_pos hc]
    rw [Option.map_eq_some_iff] at h
    obtain ⟨e, he, hd⟩ := h
    cases hd
    exact Cells.rm_replaced he
  · case isFalse hc =>
    rw [if_neg hc]
    cases h
    exact Cells.Replaced.refl c i

theorem cpTurn_replaced (h : cpTurn src dst p₀ p₁ c i = some (d, b)) :
    Cells.Replaced c i (cpCell src dst p₀ p₁ (c.cell i)) d := by
  rw [cpTurn] at h
  rw [cpCell]
  split at h
  · case isTrue hc =>
    rw [if_pos hc]
    rw [Option.map_eq_some_iff] at h
    obtain ⟨e, he, hd⟩ := h
    cases hd
    exact (Cells.seqAdd_replaced he).1
  · case isFalse hc =>
    rw [if_neg hc]
    cases h
    exact Cells.Replaced.refl c i

theorem addTurn_replaced (h : addTurn s p₀ p₁ n c i = some (d, b)) :
    Cells.Replaced c i (addCell s p₀ p₁ n (c.cell i)) d := by
  rw [addTurn] at h
  rw [addCell]
  split at h
  · case isTrue hc =>
    rw [if_pos hc]
    exact (Cells.posAdd_replaced h).1
  · case isFalse hc =>
    rw [if_neg hc]
    cases h
    exact Cells.Replaced.refl c i

theorem divTurn_replaced (h : divTurn s p₀ p₁ n c i = some (d, b)) :
    Cells.Replaced c i (divCell s p₀ p₁ n (c.cell i)) d := by
  rw [divTurn] at h
  rw [divCell]
  split at h
  · case isTrue hc =>
    rw [if_pos hc]
    rw [Option.map_eq_some_iff] at h
    obtain ⟨e, he, hd⟩ := h
    cases hd
    exact Cells.posDiv_replaced he
  · case isFalse hc =>
    rw [if_neg hc]
    cases h
    exact Cells.Replaced.refl c i

theorem keepTurn_replaced {c d : Cells} (h : c.seqKeep i s = some (d, b)) :
    Cells.Replaced c i ((c.cell i).only s) d :=
  (Cells.seqKeep_replaced h).1

/-- The cells of a stream under a pass. -/
def passed (c : Cells) (g : Cell → Cell) (i : Nat) : Cell :=
  if i < c.size then g (c.cell i) else c.cell i

/-- The result of a cache operation on one stream: the others are left alone. -/
structure StreamPassed (k : Cache) (t : Nat) (g : Cell → Cell) (k' : Cache) : Prop where
  size : (k'.cells t).size = (k.cells t).size
  cell : (k'.cells t).cell = passed (k.cells t) g
  other : ∀ t', t' ≠ t → k'.cells t' = k.cells t'

theorem sweep_passed {turn : Cells → Nat → Option (Cells × Bool)}
    (hturn : ∀ {c i d b}, turn c i = some (d, b) → Cells.Replaced c i (g (c.cell i)) d)
    (h : (k.cells t).sweep turn = some (d, n)) (head : Nat) :
    StreamPassed k t g (k.setStream t d head) := by
  obtain ⟨hsize, hcell⟩ := Cells.sweep_cell hturn h
  have hself : (k.setStream t d head).cells t = d := Function.update_self _ _ _
  refine ⟨by rw [hself, hsize], ?_, fun t' ht' => Function.update_of_ne ht' _ _⟩
  rw [hself]
  funext i
  exact hcell i

/-- `seq_rm` of one sequence. -/
theorem seqRm_seq_passed (hs : 0 ≤ s) (h : k.seqRm p s p₀ p₁ = some k') :
    validSeq p s ∧
      StreamPassed k (p.stream s.toNat) (rmCell s.toNat (fromPos p₀) (toPos p₁)) k' := by
  rw [seqRm, Option.ite_none_right_eq_some, if_pos hs] at h
  obtain ⟨hv, h⟩ := h
  obtain ⟨⟨d, n⟩, hd, h⟩ := Option.bind_eq_some_iff.1 h
  cases h
  exact ⟨hv.resolve_left (by omega), sweep_passed seqRmTurn_replaced hd _⟩

theorem seqKeep_passed (h : k.seqKeep p s = some k') :
    validSeq p s ∧ StreamPassed k (p.stream s.toNat) (fun x => x.only s.toNat) k' := by
  rw [seqKeep, Option.ite_none_right_eq_some] at h
  obtain ⟨hv, h⟩ := h
  obtain ⟨⟨d, n⟩, hd, h⟩ := Option.bind_eq_some_iff.1 h
  cases h
  exact ⟨hv, sweep_passed keepTurn_replaced hd _⟩

/-- `seq_cp` within a stream. -/
theorem seqCp_same_passed (ht : p.stream src.toNat = p.stream dst.toNat)
    (h : k.seqCp p src dst p₀ p₁ = some k') :
    validSeq p src ∧ validSeq p dst ∧
      StreamPassed k (p.stream src.toNat)
        (fun x => if src = dst then x else
          cpCell src.toNat dst.toNat (fromPos p₀) (toPos p₁) x) k' := by
  rw [seqCp, Option.ite_none_right_eq_some] at h
  obtain ⟨hv, h⟩ := h
  rw [if_pos ht] at h
  rw [Bool.and_eq_true] at hv
  refine ⟨hv.1, hv.2, ?_⟩
  split at h
  · case isTrue he =>
    cases h
    refine ⟨rfl, ?_, fun _ _ => rfl⟩
    funext i
    simp only [passed, if_pos he, ite_self]
  · case isFalse he =>
    obtain ⟨⟨d, n⟩, hd, h⟩ := Option.bind_eq_some_iff.1 h
    cases h
    simp only [if_neg he]
    exact sweep_passed cpTurn_replaced hd _

/-- The cell that a copy between streams makes of a cell of the source. -/
def copiedCell (x : Cell) (src dst : Nat) (y : Cell) : Cell :=
  if x.seqHas src then
    if x.shift ≠ 0 then (Cell.joined { y with pos := x.pos + -x.shift } dst).moved x.shift
    else Cell.joined { y with pos := x.pos } dst
  else y

theorem copyCell_replaced {c : Cells} (h : copyCell from' src dst c i = some d) :
    Cells.Replaced c i (copiedCell (from'.cell i) src dst (c.cell i)) d ∧
      ((from'.cell i).seqHas src → i < c.size) := by
  rw [copyCell] at h
  rw [copiedCell]
  dsimp only at h
  split at h
  case isFalse hs =>
    cases h
    rw [if_neg hs]
    exact ⟨Cells.Replaced.refl _ i, fun h => (hs h).elim⟩
  case isTrue hs =>
    rw [if_pos hs]
    split at h
    case isTrue => cases h
    case isFalse =>
      split at h
      case isTrue hshift =>
        rw [if_pos hshift]
        obtain ⟨pos, hpos, h⟩ := Option.bind_eq_some_iff.1 h
        obtain ⟨_, rfl⟩ := addInt32_eq_some.1 hpos
        split at h
        case isTrue => cases h
        case isFalse =>
          obtain ⟨d₁, h₁, h⟩ := Option.bind_eq_some_iff.1 h
          obtain ⟨d₂, h₂, h⟩ := Option.bind_eq_some_iff.1 h
          obtain ⟨⟨d₃, b⟩, h₃, h⟩ := Option.bind_eq_some_iff.1 h
          cases h
          obtain ⟨hr₁, hi, _⟩ := Cells.posSet_replaced h₁
          have hr₂ := (Cells.seqAdd_replaced h₂).1
          have hr₃ := (Cells.posAdd_replaced h₃).1
          rw [hr₂.self, hr₁.self] at hr₃
          exact ⟨(hr₁.trans hr₂).trans hr₃, fun _ => hi⟩
      case isFalse hshift =>
        rw [if_neg hshift]
        obtain ⟨d₁, h₁, h⟩ := Option.bind_eq_some_iff.1 h
        obtain ⟨hr₁, hi, _⟩ := Cells.posSet_replaced h₁
        have hr₂ := (Cells.seqAdd_replaced h).1
        rw [hr₁.self] at hr₂
        exact ⟨hr₁.trans hr₂, fun _ => hi⟩

theorem copyCell_cell (h : copyCell from' src dst c i = some c') : c'.cell =
    Function.update c.cell (id i) (copiedCell (from'.cell i) src dst (c.cell (id i))) :=
  (copyCell_replaced h).1.cell

/-- The result of `seq_cp` between streams: the stream of the copy is written anew. -/
structure StreamCopied (k : Cache) (t₀ t₁ src dst : Nat) (k' : Cache) : Prop where
  size : (k'.cells t₁).size = (k.cells t₁).size
  cell : ∀ i, (k'.cells t₁).cell i =
    if i < (k.cells t₀).size then copiedCell ((k.cells t₀).cell i) src dst Cell.vacant
    else Cell.vacant
  bound : ∀ i < (k.cells t₀).size, ((k.cells t₀).cell i).seqHas src → i < (k.cells t₁).size
  other : ∀ t, t ≠ t₁ → k'.cells t = k.cells t

theorem seqCp_cross_copied (ht : p.stream src.toNat ≠ p.stream dst.toNat)
    (h : k.seqCp p src dst p₀ p₁ = some k') :
    validSeq p src ∧ validSeq p dst ∧ isFull (k.cells (p.stream 0)).size p₀ p₁ ∧
      StreamCopied k (p.stream src.toNat) (p.stream dst.toNat) src.toNat dst.toNat k' := by
  rw [seqCp, Option.ite_none_right_eq_some] at h
  obtain ⟨hv, h⟩ := h
  rw [if_neg ht, Option.ite_none_right_eq_some] at h
  obtain ⟨hfull, h⟩ := h
  rw [Bool.and_eq_true] at hv
  refine ⟨hv.1, hv.2, hfull, ?_⟩
  obtain ⟨d, hd, h⟩ := Option.bind_eq_some_iff.1 h
  cases h
  have hstep : ∀ {c : Cells} {i : Nat} {c' : Cells},
      i ∈ List.range (k.cells (p.stream src.toNat)).size →
      c.size = (k.cells (p.stream dst.toNat)).size →
      copyCell (k.cells (p.stream src.toNat)) src.toNat dst.toNat c i = some c' →
      c'.size = (k.cells (p.stream dst.toNat)).size ∧
        (((k.cells (p.stream src.toNat)).cell i).seqHas src.toNat →
          i < (k.cells (p.stream dst.toNat)).size) := by
    intro c i c' _ hsize h
    obtain ⟨hrep, hbound⟩ := copyCell_replaced h
    exact ⟨hrep.size.trans hsize, fun hs => hsize ▸ hbound hs⟩
  have hnd : ((List.range (k.cells (p.stream src.toNat)).size).map id).Nodup := by
    rw [List.map_id]
    exact List.nodup_range
  have hreset : (k.cells (p.stream dst.toNat)).reset.size = (k.cells (p.stream dst.toNat)).size :=
    rfl
  refine ⟨?_, ?_, ?_, fun t ht' => Function.update_of_ne ht' _ _⟩
  · simp only [setStream, Function.update_self]
    exact sweep_invariant (I := fun c : Cells => c.size = (k.cells (p.stream dst.toNat)).size)
      (fun hx hI h => (hstep hx hI h).1) hreset hd
  · intro i
    simp only [setStream, Function.update_self]
    split
    · case isTrue hi =>
      exact sweep_get (fun c : Cells => c.cell) id
        (fun i => copiedCell ((k.cells (p.stream src.toNat)).cell i) src.toNat dst.toNat)
        (fun _ => copyCell_cell) hnd hd (List.mem_range.2 hi)
    · case isFalse hi =>
      refine sweep_get_other (fun c : Cells => c.cell) id
        (fun i => copiedCell ((k.cells (p.stream src.toNat)).cell i) src.toNat dst.toNat)
        (fun _ => copyCell_cell) ?_ hd
      rintro j hj rfl
      exact hi (List.mem_range.1 hj)
  · intro i hi hs
    exact sweep_forall (I := fun c : Cells => c.size = (k.cells (p.stream dst.toNat)).size)
      hstep hreset hd (List.mem_range.2 hi) hs

theorem seqAdd_passed (h : k.seqAdd p s p₀ p₁ n = some k') :
    validSeq p s ∧ StreamPassed k (p.stream s.toNat)
      (fun x => if n = 0 ∨ fromPos p₀ = toPos p₁ then x else
        addCell s.toNat (fromPos p₀) (toPos p₁) n x) k' := by
  rw [seqAdd, Option.ite_none_right_eq_some] at h
  obtain ⟨hv, h⟩ := h
  refine ⟨hv, ?_⟩
  split at h
  · case isTrue he =>
    cases h
    refine ⟨rfl, ?_, fun _ _ => rfl⟩
    funext i
    simp only [passed, if_pos he, ite_self]
  · case isFalse he =>
    obtain ⟨⟨d, m⟩, hd, h⟩ := Option.bind_eq_some_iff.1 h
    cases h
    simp only [if_neg he]
    exact sweep_passed addTurn_replaced hd _

theorem seqDiv_passed (h : k.seqDiv p s p₀ p₁ n = some k') :
    validSeq p s ∧ StreamPassed k (p.stream s.toNat)
      (fun x => if n = 1 ∨ fromPos p₀ = toPos p₁ then x else
        divCell s.toNat (fromPos p₀) (toPos p₁) n x) k' := by
  rw [seqDiv, Option.ite_none_right_eq_some] at h
  obtain ⟨hv, h⟩ := h
  refine ⟨hv, ?_⟩
  split at h
  · case isTrue he =>
    cases h
    refine ⟨rfl, ?_, fun _ _ => rfl⟩
    funext i
    simp only [passed, if_pos he, ite_self]
  · case isFalse he =>
    obtain ⟨⟨d, m⟩, hd, h⟩ := Option.bind_eq_some_iff.1 h
    cases h
    simp only [if_neg he]
    exact sweep_passed divTurn_replaced hd _

end Cache
end ActQuant.KvCache
