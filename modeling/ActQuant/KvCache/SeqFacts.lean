import ActQuant.KvCache.CacheSpec

namespace ActQuant.KvCache
open ActQuant.Lib ActQuant.Batch

/-! The sequence operations on what the cache is for: which sequence has which position, in which
cell. -/

structure Fact where
  seq : Nat
  pos : Int
  cell : Nat

namespace Cache

/-- What the cache holds, each sequence in its own stream. -/
def facts (p : Params) (k : Cache) : Set Fact :=
  {f | f.seq < p.nSeqIds ∧ f.cell < (k.cells (p.stream f.seq)).size ∧
    ((k.cells (p.stream f.seq)).cell f.cell).Holds f.seq f.pos}

/-- The documented range: a negative start is zero, a negative end has no bound. -/
def InRange (p₀ p₁ pos : Int) : Prop := fromPos p₀ ≤ pos ∧ (p₁ < 0 ∨ pos < p₁)

inductive SeqOp where
  | rm (s p₀ p₁ : Int)
  | cp (src dst p₀ p₁ : Int)
  | keep (s : Int)

def SeqOp.run (p : Params) (k : Cache) : SeqOp → Option Cache
  | .rm s p₀ p₁ => k.seqRm p s p₀ p₁
  | .cp src dst p₀ p₁ => k.seqCp p src dst p₀ p₁
  | .keep s => k.seqKeep p s

/-- A sequence that has no position. -/
def Absent (F : Set Fact) (s : Int) : Prop := ∀ f ∈ F, (f.seq : Int) ≠ s

/-- What the header documents, from the facts before to the facts after. -/
def SeqOp.Documented (F F' : Set Fact) : SeqOp → Prop
  | .rm s p₀ p₁ =>
    ∀ f, f ∈ F' ↔ f ∈ F ∧ ¬ ((s < 0 ∨ (f.seq : Int) = s) ∧ InRange p₀ p₁ f.pos)
  | .cp src dst p₀ p₁ =>
    Absent F dst →
      (∀ pos i, (⟨dst.toNat, pos, i⟩ : Fact) ∈ F' ↔
        (⟨src.toNat, pos, i⟩ : Fact) ∈ F ∧ InRange p₀ p₁ pos) ∧
      ∀ f, (f.seq : Int) ≠ dst → (f ∈ F' ↔ f ∈ F)
  | .keep s => ∀ f, f ∈ F' ↔ f ∈ F ∧ (f.seq : Int) = s

/-- A copy between streams keeps the cell: it drops a cell with a shift and no position. -/
def Carried (p : Params) (k : Cache) (f : Fact) : Prop :=
  ((k.cells (p.stream f.seq)).cell f.cell).shift = 0 ∨ 0 ≤ f.pos

/-- Where an operation does what the header documents: an open range does not reach the greatest
position, a copy between streams is of all positions, the others are kept out of their own
streams only. -/
def SeqOp.Exact (p : Params) (k : Cache) : SeqOp → Prop
  | .rm s p₀ p₁ =>
    p₁ < 0 → ∀ f ∈ facts p k, (s < 0 ∨ (f.seq : Int) = s) → fromPos p₀ ≤ f.pos → f.pos < posMax
  | .cp src dst p₀ p₁ =>
    Absent (facts p k) dst → ∀ f ∈ facts p k, (f.seq : Int) = src →
      if p.stream src.toNat = p.stream dst.toNat then
        p₁ < 0 → fromPos p₀ ≤ f.pos → f.pos < posMax
      else Carried p k f ↔ InRange p₀ p₁ f.pos
  | .keep s =>
    ∀ f ∈ facts p k, p.stream f.seq = p.stream s.toNat ∨ (f.seq : Int) = s

theorem posIn_eq {x : Cell} : x.posIn p₀ p₁ = true ↔ p₀ ≤ x.pos ∧ x.pos < p₁ := by
  rw [Cell.posIn, Bool.and_eq_true, decide_eq_true_eq, decide_eq_true_eq]

theorem posIn_seqHas {x : Cell} :
    (x.posIn p₀ p₁ && x.seqHas s) = true ↔ (p₀ ≤ x.pos ∧ x.pos < p₁) ∧ s ∈ x.seq := by
  rw [Bool.and_eq_true, posIn_eq, Cell.seqHas, decide_eq_true_eq]

theorem not_holds_vacant : ¬ Cell.vacant.Holds s pos := fun h => Finset.notMem_empty s h.1

theorem holds_without {x : Cell} : (x.without s).Holds q pos ↔ x.Holds q pos ∧ q ≠ s := by
  rw [Cell.without]
  split
  · case isTrue hempty =>
    refine ⟨fun h => (not_holds_vacant h).elim, ?_⟩
    rintro ⟨⟨hq, _⟩, hne⟩
    exact (Finset.notMem_empty q (hempty ▸ Finset.mem_erase.2 ⟨hne, hq⟩)).elim
  · simp only [Cell.Holds, Finset.mem_erase]
    exact ⟨fun h => ⟨⟨h.1.2, h.2⟩, h.1.1⟩, fun h => ⟨⟨h.2, h.1.1⟩, h.1.2⟩⟩

theorem holds_rmCell {x : Cell} :
    (rmCell s p₀ p₁ x).Holds q pos ↔ x.Holds q pos ∧ ¬ (q = s ∧ p₀ ≤ pos ∧ pos < p₁) := by
  rw [rmCell]
  split
  · case isTrue h =>
    have hin := (posIn_seqHas.1 h).1
    rw [holds_without]
    refine and_congr_right fun hx => not_congr ⟨fun hq => ⟨hq, ?_⟩, fun h => h.1⟩
    rw [← hx.2]
    exact hin
  · case isFalse h =>
    refine ⟨fun hx => ⟨hx, ?_⟩, fun hx => hx.1⟩
    rintro ⟨rfl, hin⟩
    apply h
    rw [← hx.2] at hin
    exact posIn_seqHas.2 ⟨hin, hx.1⟩

theorem holds_rmAnyCell {x : Cell} :
    (rmAnyCell p₀ p₁ x).Holds q pos ↔ x.Holds q pos ∧ ¬ (p₀ ≤ pos ∧ pos < p₁) := by
  rw [rmAnyCell]
  split
  · case isTrue h =>
    refine ⟨fun hx => (not_holds_vacant hx).elim, ?_⟩
    rintro ⟨hx, hin⟩
    rw [← hx.2] at hin
    exact (hin (posIn_eq.1 h)).elim
  · case isFalse h =>
    refine ⟨fun hx => ⟨hx, fun hin => ?_⟩, fun hx => hx.1⟩
    rw [← hx.2] at hin
    exact h (posIn_eq.2 hin)

theorem holds_only {x : Cell} : (x.only s).Holds q pos ↔ x.Holds q pos ∧ q = s := by
  rw [Cell.only]
  split
  · case isTrue hs =>
    simp only [Cell.Holds, Finset.mem_singleton]
    constructor
    · rintro ⟨rfl, hp⟩
      exact ⟨⟨hs, hp⟩, rfl⟩
    · rintro ⟨⟨_, hp⟩, hq⟩
      exact ⟨hq, hp⟩
  · case isFalse hs =>
    have hno : ¬ (x.Holds q pos ∧ q = s) := by
      rintro ⟨hx, rfl⟩
      exact hs hx.1
    split
    · exact ⟨fun h => (not_holds_vacant h).elim, fun h => (hno h).elim⟩
    · case isFalse hempty =>
      refine ⟨fun h => ?_, fun h => (hno h).elim⟩
      have hseq := not_not.1 hempty
      exact (Finset.notMem_empty q (hseq ▸ h.1)).elim

theorem holds_cpCell {x : Cell} :
    (cpCell src dst p₀ p₁ x).Holds q pos ↔
      x.Holds q pos ∨ q = dst ∧ x.Holds src pos ∧ p₀ ≤ pos ∧ pos < p₁ := by
  rw [cpCell]
  split
  · case isTrue h =>
    obtain ⟨hin, hs⟩ := posIn_seqHas.1 h
    simp only [Cell.joined, Cell.Holds, Finset.mem_insert]
    constructor
    · rintro ⟨rfl | hq, rfl⟩
      · exact .inr ⟨rfl, ⟨hs, rfl⟩, hin⟩
      · exact .inl ⟨hq, rfl⟩
    · rintro (⟨hq, hp⟩ | ⟨hq, ⟨_, hp⟩, _⟩)
      · exact ⟨.inr hq, hp⟩
      · exact ⟨.inl hq, hp⟩
  · case isFalse h =>
    refine ⟨.inl, ?_⟩
    rintro (hx | ⟨_, hx, hin⟩)
    · exact hx
    · rw [← hx.2] at hin
      exact (h (posIn_seqHas.2 ⟨hin, hx.1⟩)).elim

theorem holds_copiedCell {x : Cell} :
    (copiedCell x src dst Cell.vacant).Holds q pos ↔
      q = dst ∧ x.Holds src pos ∧ (x.shift = 0 ∨ 0 ≤ pos) := by
  rw [copiedCell]
  simp only [Cell.seqHas, decide_eq_true_eq]
  have hseq : q ∈ insert dst Cell.vacant.seq ↔ q = dst := by
    rw [Finset.mem_insert]
    exact or_iff_left (Finset.notMem_empty q)
  split
  · case isTrue hs =>
    split
    · case isTrue hshift =>
      have hback : x.pos + -x.shift + x.shift = x.pos := by omega
      rw [Cell.moved]
      simp only [Cell.joined, hback]
      split
      · case isTrue hneg =>
        refine ⟨fun h => (not_holds_vacant h).elim, ?_⟩
        rintro ⟨_, ⟨_, rfl⟩, h | h⟩
        · exact (hshift h).elim
        · omega
      · case isFalse hneg =>
        simp only [Cell.Holds, hseq, hs, true_and]
        constructor
        · rintro ⟨hq, rfl⟩
          exact ⟨hq, rfl, .inr (not_lt.1 hneg)⟩
        · rintro ⟨hq, hp, _⟩
          exact ⟨hq, hp⟩
    · case isFalse hshift =>
      simp only [Cell.joined, Cell.Holds, hseq, hs, true_and, not_not.1 hshift, true_or, and_true]
  · case isFalse hs =>
    exact ⟨fun h => (not_holds_vacant h).elim, fun h => (hs h.2.1.1).elim⟩

/-- The facts after a pass over one stream. -/
theorem facts_passed (h : StreamPassed k t g k') (f : Fact) :
    f ∈ facts p k' ↔ f.seq < p.nSeqIds ∧ f.cell < (k.cells (p.stream f.seq)).size ∧
      (if p.stream f.seq = t then g ((k.cells (p.stream f.seq)).cell f.cell)
        else (k.cells (p.stream f.seq)).cell f.cell).Holds f.seq f.pos := by
  change _ ∧ _ ∧ _ ↔ _
  by_cases ht : p.stream f.seq = t
  · rw [if_pos ht, ht, h.size, h.cell]
    refine and_congr_right fun _ => and_congr_right fun hi => ?_
    rw [passed, if_pos hi]
  · rw [if_neg ht, h.other _ ht]

theorem validSeq_eq : validSeq p s = true ↔ 0 ≤ s ∧ s.toNat < p.nSeqIds := by
  rw [validSeq, Bool.and_eq_true, decide_eq_true_eq, decide_eq_true_eq]

theorem natCast_eq_toNat {s : Int} (hs : 0 ≤ s) {n : Nat} : (n : Int) = s ↔ n = s.toNat := by
  omega

theorem stream_lt {p : Params} {s : Nat} (hs : s < p.nSeqIds) : p.stream s < p.nStream := by
  rw [Params.nSeqIds] at hs
  rw [Params.stream]
  split
  · case isTrue h =>
    rw [if_pos h] at hs
    exact hs
  · rw [Params.nStream]
    split
    · exact Nat.one_pos
    · exact p.seqMax_pos

/-- The facts after `seq_rm` of one sequence. -/
theorem facts_seqRm_seq (hs : 0 ≤ s) (h : k.seqRm p s p₀ p₁ = some k') (f : Fact) :
    f ∈ facts p k' ↔
      f ∈ facts p k ∧ ¬ ((f.seq : Int) = s ∧ fromPos p₀ ≤ f.pos ∧ f.pos < toPos p₁) := by
  obtain ⟨_, hp⟩ := seqRm_seq_passed hs h
  rw [facts_passed hp, natCast_eq_toNat hs]
  by_cases ht : p.stream f.seq = p.stream s.toNat
  · rw [if_pos ht, holds_rmCell, ← and_assoc, ← and_assoc, and_assoc (a := f.seq < _)]
    rfl
  · have hne : f.seq ≠ s.toNat := fun h => ht (congrArg p.stream h)
    rw [if_neg ht, eq_false hne, false_and, not_false_iff, and_true]
    rfl

/-- `seq_rm` of any sequence, stream after stream. -/
theorem rmAny_passed {ts : List Nat} (hnd : ts.Nodup)
    (h : ts.foldlM (fun (k : Cache) t => do
      let (c, newHead) ← (k.cells t).sweep (rmTurn p₀ p₁)
      return k.lowerHead t c newHead) k = some k') (t : Nat) :
    (k'.cells t).size = (k.cells t).size ∧
      (k'.cells t).cell = if t ∈ ts then passed (k.cells t) (rmAnyCell p₀ p₁)
        else (k.cells t).cell := by
  induction ts generalizing k with
  | nil =>
    cases h
    exact ⟨rfl, rfl⟩
  | cons t₀ ts ih =>
    obtain ⟨u, hu, hrest⟩ := foldlM_cons_eq_some.1 h
    obtain ⟨⟨d, n⟩, hd, hu⟩ := Option.bind_eq_some_iff.1 hu
    cases hu
    have hp := sweep_passed rmTurn_replaced hd
      (if n ≠ d.size ∧ n < k.head t₀ then n else k.head t₀)
    obtain ⟨hnot, hnd⟩ := List.nodup_cons.1 hnd
    obtain ⟨hsize, hcell⟩ := ih hnd hrest
    rw [hsize, hcell]
    change ((k.setStream t₀ d _).cells t).size = _ ∧ _
    by_cases ht : t = t₀
    · subst ht
      rw [if_neg hnot, if_pos List.mem_cons_self]
      exact ⟨hp.size, hp.cell⟩
    · have hsame : (k.lowerHead t₀ d n).cells t = k.cells t := hp.other t ht
      have hmem : t ∈ t₀ :: ts ↔ t ∈ ts := List.mem_cons.trans (or_iff_right ht)
      rw [if_congr hmem rfl rfl, hsame]
      exact ⟨congrArg Cells.size (hp.other t ht), rfl⟩

theorem facts_seqRm_any (h : k.seqRm p (-1) p₀ p₁ = some k') (f : Fact) :
    f ∈ facts p k' ↔ f ∈ facts p k ∧ ¬ (fromPos p₀ ≤ f.pos ∧ f.pos < toPos p₁) := by
  rw [seqRm, if_pos (.inl rfl), if_neg (by omega)] at h
  obtain ⟨hsize, hcell⟩ := rmAny_passed List.nodup_range h (p.stream f.seq)
  change _ ∧ _ ∧ _ ↔ (_ ∧ _ ∧ _) ∧ _
  rw [hsize, hcell, and_assoc, and_assoc]
  refine and_congr_right fun hs => and_congr_right fun hi => ?_
  rw [if_pos (List.mem_range.2 (stream_lt hs)), passed, if_pos hi, holds_rmAnyCell]

theorem seqRm_valid {k : Cache} (h : k.seqRm p s p₀ p₁ = some k') : s = -1 ∨ 0 ≤ s := by
  rw [seqRm, Option.ite_none_right_eq_some] at h
  exact h.1.imp_right fun hv => (validSeq_eq.1 hv).1

/-- The facts after `seq_rm`. -/
theorem facts_seqRm (h : k.seqRm p s p₀ p₁ = some k') (f : Fact) :
    f ∈ facts p k' ↔ f ∈ facts p k ∧
      ¬ ((s < 0 ∨ (f.seq : Int) = s) ∧ fromPos p₀ ≤ f.pos ∧ f.pos < toPos p₁) := by
  rcases seqRm_valid h with rfl | hs
  · rw [facts_seqRm_any h]
    have htrue : (-1 : Int) < 0 ∨ (f.seq : Int) = -1 := .inl (by omega)
    rw [eq_true htrue, true_and]
  · have hneg : ¬ s < 0 := not_lt.2 hs
    rw [facts_seqRm_seq hs h, eq_false hneg, false_or]

/-- The facts after `seq_keep`. -/
theorem facts_seqKeep (h : k.seqKeep p s = some k') (f : Fact) :
    f ∈ facts p k' ↔
      f ∈ facts p k ∧ (p.stream f.seq = p.stream s.toNat → (f.seq : Int) = s) := by
  obtain ⟨hv, hp⟩ := seqKeep_passed h
  have hs := (validSeq_eq.1 hv).1
  rw [facts_passed hp, natCast_eq_toNat hs]
  by_cases ht : p.stream f.seq = p.stream s.toNat
  · rw [if_pos ht, holds_only, ← and_assoc, ← and_assoc, and_assoc (a := f.seq < _), eq_true ht,
      true_implies]
    rfl
  · rw [if_neg ht, eq_false ht, false_implies, and_true]
    rfl

/-- The facts after `seq_cp` within a stream. -/
theorem facts_seqCp_same (ht : p.stream src.toNat = p.stream dst.toNat)
    (h : k.seqCp p src dst p₀ p₁ = some k') (f : Fact) :
    f ∈ facts p k' ↔ f ∈ facts p k ∨ src ≠ dst ∧ (f.seq : Int) = dst ∧
      (⟨src.toNat, f.pos, f.cell⟩ : Fact) ∈ facts p k ∧
        fromPos p₀ ≤ f.pos ∧ f.pos < toPos p₁ := by
  obtain ⟨hvs, hvd, hp⟩ := seqCp_same_passed ht h
  obtain ⟨hs, hsn⟩ := validSeq_eq.1 hvs
  obtain ⟨hd, hdn⟩ := validSeq_eq.1 hvd
  rw [facts_passed hp, natCast_eq_toNat hd]
  by_cases he : src = dst
  · have hno : ¬ src ≠ dst := not_not.2 he
    rw [eq_false hno, false_and, or_false]
    simp only [if_pos he, ite_self]
    rfl
  have hne : src ≠ dst := he
  rw [eq_true hne, true_and]
  simp only [if_neg he]
  by_cases htf : p.stream f.seq = p.stream src.toNat
  · rw [if_pos htf, holds_cpCell]
    change _ ↔ (_ ∧ _ ∧ _) ∨ _ ∧ (_ ∧ _ ∧ _) ∧ _
    dsimp only
    rw [htf]
    constructor
    · rintro ⟨hf, hi, hx | ⟨hq, hx, hin⟩⟩
      · exact .inl ⟨hf, hi, hx⟩
      · exact .inr ⟨hq, ⟨hsn, hi, hx⟩, hin⟩
    · rintro (⟨hf, hi, hx⟩ | ⟨hq, ⟨_, hi, hx⟩, hin⟩)
      · exact ⟨hf, hi, .inl hx⟩
      · exact ⟨hq ▸ hdn, hi, .inr ⟨hq, hx, hin⟩⟩
  · rw [if_neg htf]
    have hne : f.seq ≠ dst.toNat := by
      intro h
      exact htf (by rw [h, ← ht])
    rw [eq_false hne, false_and, or_false]
    rfl

/-- The facts after `seq_cp` between streams. -/
theorem facts_seqCp_cross (ht : p.stream src.toNat ≠ p.stream dst.toNat)
    (h : k.seqCp p src dst p₀ p₁ = some k') (f : Fact) :
    f ∈ facts p k' ↔
      if p.stream f.seq = p.stream dst.toNat then
        (f.seq : Int) = dst ∧ ∃ g ∈ facts p k, (g.seq : Int) = src ∧ g.pos = f.pos ∧
          g.cell = f.cell ∧ Carried p k g
      else f ∈ facts p k := by
  obtain ⟨hvs, hvd, _, hc⟩ := seqCp_cross_copied ht h
  obtain ⟨hs, hsn⟩ := validSeq_eq.1 hvs
  obtain ⟨hd, hdn⟩ := validSeq_eq.1 hvd
  change _ ∧ _ ∧ _ ↔ _
  by_cases htf : p.stream f.seq = p.stream dst.toNat
  · rw [if_pos htf, htf, hc.size, hc.cell, natCast_eq_toNat hd]
    constructor
    · rintro ⟨_, _, hx⟩
      split at hx
      · case isTrue hi =>
        obtain ⟨hq, hx, hcar⟩ := holds_copiedCell.1 hx
        exact ⟨hq, ⟨src.toNat, f.pos, f.cell⟩, ⟨hsn, hi, hx⟩, Int.toNat_of_nonneg hs, rfl, rfl,
          hcar⟩
      · exact (not_holds_vacant hx).elim
    · rintro ⟨hq, ⟨q, pos, i⟩, ⟨_, hi, hx⟩, hgs, hpos, hcell, hcar⟩
      dsimp only at hgs hpos hcell hi hx
      rw [natCast_eq_toNat hs] at hgs
      subst hgs hpos hcell
      have hsh : ((k.cells (p.stream src.toNat)).cell f.cell).seqHas src.toNat = true :=
        decide_eq_true hx.1
      refine ⟨hq ▸ hdn, hc.bound _ hi hsh, ?_⟩
      rw [if_pos hi]
      exact holds_copiedCell.2 ⟨hq, hx, hcar⟩
  · rw [if_neg htf, hc.other _ htf]
    rfl

theorem inRange_eq {p₀ p₁ pos : Int} (h : p₁ < 0 → fromPos p₀ ≤ pos → pos < posMax) :
    fromPos p₀ ≤ pos ∧ pos < toPos p₁ ↔ InRange p₀ p₁ pos := by
  rw [InRange, toPos]
  refine and_congr_right fun hle => ?_
  split
  · case isTrue hneg => exact ⟨fun _ => .inl hneg, fun _ => h hneg hle⟩
  · case isFalse hneg => exact (or_iff_right hneg).symm

/-- An operation does what the header documents exactly where its range, or its streams, let it. -/
theorem documented_iff_exact {op : SeqOp} (h : op.run p k = some k') :
    op.Documented (facts p k) (facts p k') ↔ op.Exact p k := by
  cases op with
  | rm s p₀ p₁ =>
    have hfacts := facts_seqRm h
    constructor
    · intro hdoc hneg f hf hs hle
      by_contra hge
      have hin : InRange p₀ p₁ f.pos := ⟨hle, .inl hneg⟩
      have hgone : f ∉ facts p k' := fun hf' => ((hdoc f).1 hf').2 ⟨hs, hin⟩
      apply hgone
      rw [hfacts, toPos, if_pos hneg]
      exact ⟨hf, fun h => hge h.2.2⟩
    · intro hex f
      rw [hfacts]
      refine and_congr_right fun hf => not_congr (and_congr_right fun hs => ?_)
      exact inRange_eq fun hneg hle => hex hneg f hf hs hle
  | cp src dst p₀ p₁ =>
    change (Absent _ _ → _) ↔ (Absent _ _ → _)
    refine imp_congr_right fun habs => ?_
    by_cases ht : p.stream src.toNat = p.stream dst.toNat
    · obtain ⟨hvs, hvd, _⟩ := seqCp_same_passed ht h
      have hs := (validSeq_eq.1 hvs).1
      have hd := (validSeq_eq.1 hvd).1
      have hfacts := facts_seqCp_same ht h
      have hdst (pos : Int) (i : Nat) : (⟨dst.toNat, pos, i⟩ : Fact) ∉ facts p k :=
        fun hf => habs _ hf (Int.toNat_of_nonneg hd)
      constructor
      · rintro ⟨hdoc, _⟩ f hf hsrc
        rw [if_pos ht]
        intro hneg hle
        by_contra hge
        have hf' : (⟨src.toNat, f.pos, f.cell⟩ : Fact) ∈ facts p k := by
          rw [← (natCast_eq_toNat hs).1 hsrc]
          exact hf
        have hnew := (hdoc f.pos f.cell).2 ⟨hf', hle, .inl hneg⟩
        rcases (hfacts _).1 hnew with hold | ⟨_, _, _, hin⟩
        · exact hdst _ _ hold
        · rw [toPos, if_pos hneg] at hin
          exact hge hin.2
      · intro hex
        refine ⟨fun pos i => ?_, fun f hf => ?_⟩
        · rw [hfacts, or_iff_right (hdst pos i)]
          have hin : (⟨src.toNat, pos, i⟩ : Fact) ∈ facts p k →
              (fromPos p₀ ≤ pos ∧ pos < toPos p₁ ↔ InRange p₀ p₁ pos) := by
            intro hf
            have hex := hex _ hf (Int.toNat_of_nonneg hs)
            rw [if_pos ht] at hex
            exact inRange_eq hex
          constructor
          · rintro ⟨_, _, hf, hr⟩
            exact ⟨hf, (hin hf).1 hr⟩
          · rintro ⟨hf, hr⟩
            refine ⟨?_, Int.toNat_of_nonneg hd, hf, (hin hf).2 hr⟩
            rintro rfl
            exact hdst _ _ hf
        · rw [hfacts]
          exact or_iff_left fun h => hf h.2.1
    · obtain ⟨hvs, hvd, _, _⟩ := seqCp_cross_copied ht h
      have hs := (validSeq_eq.1 hvs).1
      have hd := (validSeq_eq.1 hvd).1
      have hfacts := facts_seqCp_cross ht h
      have hcopy (pos : Int) (i : Nat) : (⟨dst.toNat, pos, i⟩ : Fact) ∈ facts p k' ↔
          (⟨src.toNat, pos, i⟩ : Fact) ∈ facts p k ∧
            Carried p k ⟨src.toNat, pos, i⟩ := by
        rw [hfacts, if_pos rfl]
        constructor
        · rintro ⟨_, ⟨q, pos', i'⟩, hg, hgs, hpos, hcell, hcar⟩
          dsimp only at hgs hpos hcell
          rw [natCast_eq_toNat hs] at hgs
          subst hgs hpos hcell
          exact ⟨hg, hcar⟩
        · rintro ⟨hg, hcar⟩
          exact ⟨Int.toNat_of_nonneg hd, _, hg, Int.toNat_of_nonneg hs, rfl, rfl, hcar⟩
      constructor
      · rintro ⟨hdoc, _⟩ ⟨q, pos, i⟩ hf hsrc
        rw [if_neg ht]
        dsimp only at hsrc
        rw [natCast_eq_toNat hs] at hsrc
        subst hsrc
        have hboth := (hcopy pos i).symm.trans (hdoc pos i)
        rwa [and_congr_right_iff, eq_true hf, true_implies] at hboth
      · intro hex
        refine ⟨fun pos i => ?_, fun f hf => ?_⟩
        · rw [hcopy]
          refine and_congr_right fun hf => ?_
          have hex := hex _ hf (Int.toNat_of_nonneg hs)
          rwa [if_neg ht] at hex
        · rw [hfacts]
          split
          · case isTrue htf =>
            refine ⟨fun h => (hf h.1).elim, fun hfk => ?_⟩
            have hmulti : 1 < p.nStream := by
              by_contra hle
              exact ht (by simp only [Params.stream, if_neg hle])
            simp only [Params.stream, if_pos hmulti] at htf
            exact (hf ((natCast_eq_toNat hd).2 htf)).elim
          · exact Iff.rfl
  | keep s =>
    have hfacts := facts_seqKeep h
    constructor
    · intro hdoc f hf
      by_contra hno
      rw [not_or] at hno
      have hin := (hfacts f).2 ⟨hf, fun ht => (hno.1 ht).elim⟩
      exact hno.2 ((hdoc f).1 hin).2
    · intro hex f
      rw [hfacts]
      refine and_congr_right fun hf => ⟨fun himp => ?_, fun hs _ => hs⟩
      rcases hex f hf with ht | hs
      · exact himp ht
      · exact hs

end Cache
end ActQuant.KvCache
