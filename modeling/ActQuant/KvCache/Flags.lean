import ActQuant.KvCache.TrialReplay

namespace ActQuant.KvCache
open ActQuant.Lib ActQuant.Batch

/-! What the cells in use come from, and the flags that tell of the shifts that wait. -/

/-- A cell in use: it has sequences, all of its stream, and a position, as well without its pending
shift. -/
structure Cell.Rooted (p : Params) (t : Nat) (x : Cell) : Prop where
  seq : x.seq ≠ ∅
  stream : ∀ s ∈ x.seq, p.stream s = t
  pos : 0 ≤ x.pos ∧ x.pos ≤ posMax
  root : 0 ≤ x.pos - x.shift ∧ x.pos - x.shift ≤ posMax

/-- A cell that is not half in use. -/
def Cell.Tended (p : Params) (t : Nat) (x : Cell) : Prop := x = Cell.vacant ∨ x.Rooted p t

/-- A cell that comes from another: it is vacant, or both are in use, and the row that was stored
for the one is that of the other. -/
def Cell.Stems (p : Params) (t : Nat) (x y : Cell) : Prop :=
  y = Cell.vacant ∨ x.pos ≠ -1 ∧ y.Rooted p t ∧ y.pos - y.shift = x.pos - x.shift

theorem Cell.Stems.tended (h : Cell.Stems p t x y) : y.Tended p t := h.imp_right fun h => h.2.1

namespace Cell.Rooted
variable {p : Params} {x : Cell}

theorem pos_ne (hx : x.Rooted p t) : x.pos ≠ -1 := by
  have hnn := hx.pos.1
  omega

theorem stems (hx : x.Rooted p t) : x.Stems p t x := .inr ⟨hx.pos_ne, hx, rfl⟩

theorem with_seq (hx : x.Rooted p t) {seq : Finset Nat} (hne : seq ≠ ∅)
    (hseq : ∀ s ∈ seq, p.stream s = t) : x.Stems p t { x with seq := seq } :=
  .inr ⟨hx.pos_ne, ⟨hne, hseq, hx.pos, hx.root⟩, rfl⟩

theorem moved (hx : x.Rooted p t) (hd : (addInt32 x.pos d).isSome) :
    x.Stems p t (x.moved d) := by
  rw [Cell.moved]
  split
  · exact .inl rfl
  · case isFalse hnn =>
    have hroot : x.pos + d - (x.shift + d) = x.pos - x.shift := by omega
    have hle := (addInt32_isSome.1 hd).2
    exact .inr ⟨hx.pos_ne, ⟨hx.seq, hx.stream, ⟨not_lt.1 hnn, hle⟩, hroot.symm ▸ hx.root⟩, hroot⟩

end Cell.Rooted

namespace Cell.Tended
variable {p : Params} {x : Cell}

theorem rooted (hx : x.Tended p t) (hs : s ∈ x.seq) : x.Rooted p t := by
  rcases hx with rfl | hx
  · exact absurd hs (Finset.notMem_empty s)
  · exact hx

theorem pos_nonneg (hx : x.Tended p t) (hs : s ∈ x.seq) : 0 ≤ x.pos := (hx.rooted hs).pos.1

theorem seq_ne (hx : x.Tended p t) (hpos : x.pos ≠ -1) : x.seq ≠ ∅ := by
  rcases hx with rfl | hx
  · exact absurd rfl hpos
  · exact hx.seq

theorem stems (hx : x.Tended p t) : x.Stems p t x := by
  rcases hx with hx | hx
  · exact .inl hx
  · exact hx.stems

theorem pared {y : Cell} (hx : x.Tended p t) (h : y.Pared x) : x.Stems p t y := by
  rcases hx with rfl | hx
  · exact .inl h.of_vacant
  · rcases h with rfl | ⟨hpos, hshift, hsub, hseq⟩
    · exact .inl rfl
    · refine .inr ⟨hx.pos_ne, ⟨fun he => hx.seq (hseq he), fun s hs => hx.stream s (hsub hs), ?_, ?_⟩,
        by rw [hpos, hshift]⟩
      · exact hpos ▸ hx.pos
      · exact hpos ▸ hshift ▸ hx.root

theorem only (hx : x.Tended p t) (s : Nat) : x.Stems p t (x.only s) := by
  rw [Cell.only]
  split
  · case isTrue hs =>
    apply (hx.rooted hs).with_seq (Finset.singleton_ne_empty s)
    intro q hq
    rw [Finset.mem_singleton.1 hq]
    exact (hx.rooted hs).stream s hs
  · split
    · exact .inl rfl
    · exact hx.stems

theorem joined (hx : x.Tended p t) (hs : s ∈ x.seq) (hd : p.stream d = t) :
    x.Stems p t (x.joined d) := by
  apply (hx.rooted hs).with_seq (Finset.insert_ne_empty d x.seq)
  intro q hq
  rcases Finset.mem_insert.1 hq with rfl | hq
  · exact hd
  · exact (hx.rooted hs).stream q hq

theorem unshifts (hx : x.Tended p t) (hs : s ∈ x.seq) : Cache.Unshifts x := by
  intro _
  obtain ⟨_, _, hpos, hroot⟩ := hx.rooted hs
  simp only [posMax] at *
  omega

/-- A copy in another stream has the position and the pending shift. -/
theorem copied (hx : x.Tended p t) (src dst : Nat) :
    x.Stems p (p.stream dst) (Cache.copiedCell x src dst Cell.vacant) := by
  rw [Cache.copiedCell]
  split
  · case isTrue hs =>
    have hroot := hx.rooted (of_decide_eq_true hs)
    have hstream : ∀ s ∈ insert dst Cell.vacant.seq, p.stream s = p.stream dst := by
      intro s hs
      rcases Finset.mem_insert.1 hs with rfl | hs
      · rfl
      · exact absurd hs (Finset.notMem_empty s)
    have hbase (q : Int) (hq : 0 ≤ q ∧ q ≤ posMax) :
        (Cell.joined { Cell.vacant with pos := q } dst).Rooted p (p.stream dst) :=
      ⟨Finset.insert_ne_empty dst _, hstream, hq, (Int.sub_zero q).symm ▸ hq⟩
    split
    · have hback : x.pos + -x.shift + x.shift = x.pos := by omega
      have hsome : (addInt32 (x.pos + -x.shift) x.shift).isSome := by
        rw [addInt32_isSome, hback]
        have hpos := hroot.pos
        exact ⟨by omega, hpos.2⟩
      have hsub : x.pos + -x.shift = x.pos - x.shift := rfl
      rcases (hbase _ (hsub ▸ hroot.root)).moved hsome with hv | ⟨_, hmoved, hsame⟩
      · exact .inl hv
      · exact .inr ⟨hroot.pos_ne, hmoved, hsame.trans (Int.sub_zero _)⟩
    · case isFalse hshift =>
      refine .inr ⟨hroot.pos_ne, hbase x.pos hroot.pos, ?_⟩
      rw [not_not.1 hshift]
      rfl
  · exact .inl rfl

theorem placed (hx : x.Tended p t) {tok : Token} (hseq : tok.seqId ≠ [])
    (hstream : ∀ s ∈ tok.seqId, p.stream s = t) (hpos : 0 ≤ tok.pos ∧ tok.pos ≤ posMax) :
    (x.placed tok).Rooted p t := by
  have hshift : (x.placed tok).shift = 0 := by
    rw [Cell.placed]
    split
    · case isTrue hempty =>
      rcases hx with rfl | hx
      · rfl
      · exact absurd (Cell.isEmpty_eq.1 hempty) hx.pos_ne
    · rfl
  refine ⟨fun he => hseq (List.toFinset_eq_empty_iff _ |>.1 he),
    fun s hs => hstream s (List.mem_toFinset.1 hs), hpos, ?_⟩
  rw [hshift, Int.sub_zero]
  exact hpos

end Cell.Tended

namespace Cells

/-- Without the flag no shift waits. -/
def Flagged (c : Cells) : Prop := c.hasShift = false → ∀ i, (c.cell i).shift = 0

namespace Flagged
variable {c d : Cells}

theorem edit (hc : c.Flagged) (hr : Replaced c i x d) (hflag : d.hasShift = c.hasShift)
    (hx : x.shift = (c.cell i).shift ∨ x.shift = 0) : d.Flagged := by
  intro hno j
  have hall := hc (hflag ▸ hno)
  rw [hr.cell]
  by_cases hj : j = i
  · rw [hj, Function.update_self]
    rcases hx with hx | hx
    · rw [hx, hall]
    · exact hx
  · rw [Function.update_of_ne hj]
    exact hall j

theorem of_set (h : c.hasShift = true) : c.Flagged := fun hno => absurd (h.symm.trans hno) nofun

theorem seqPosRm_flag (h : c.seqPosRm i = some d) : d.hasShift = c.hasShift := by
  rw [seqPosRm, Option.ite_none_right_eq_some] at h
  cases h.2
  rfl

theorem seqRm (hc : c.Flagged) (h : c.seqRm i s = some (d, b)) : d.Flagged := by
  have hflag : d.hasShift = c.hasShift := by
    rw [Cells.seqRm, Option.ite_none_right_eq_some, Option.map_eq_some_iff] at h
    obtain ⟨_, e, he, h⟩ := h
    rw [seqPosDec, Option.ite_none_right_eq_some] at he
    cases he.2
    split at h
    · cases h
      rfl
    · cases h
      rfl
  apply hc.edit (seqRm_replaced h).1 hflag
  rw [Cell.without]
  split
  · exact .inr rfl
  · exact .inl rfl

theorem seqKeep (hc : c.Flagged) (h : c.seqKeep i s = some (d, b)) : d.Flagged := by
  have hflag : d.hasShift = c.hasShift := by
    rw [Cells.seqKeep, Option.ite_none_right_eq_some] at h
    obtain ⟨_, h⟩ := h
    split at h
    · obtain ⟨e, he, h⟩ := Option.map_eq_some_iff.1 h
      have hsame := seqPosRm_flag he
      cases h
      exact hsame
    · split at h
      · obtain ⟨e, he, h⟩ := Option.map_eq_some_iff.1 h
        have hsame := seqPosRm_flag he
        cases h
        exact hsame
      · rw [Option.ite_none_right_eq_some] at h
        cases h.2
        rfl
  apply hc.edit (seqKeep_replaced h).1 hflag
  rw [Cell.only]
  split
  · exact .inl rfl
  · split
    · exact .inr rfl
    · exact .inl rfl

theorem posAdd (h : c.posAdd i n = some (d, b)) : d.Flagged := by
  apply of_set
  rw [Cells.posAdd, Option.ite_none_right_eq_some] at h
  obtain ⟨_, h⟩ := h
  obtain ⟨e, _, h⟩ := Option.bind_eq_some_iff.1 h
  obtain ⟨pos, _, h⟩ := Option.bind_eq_some_iff.1 h
  obtain ⟨shift, _, h⟩ := Option.bind_eq_some_iff.1 h
  dsimp only at h
  split at h
  · cases h
    rfl
  · cases h
    rfl

theorem posDiv (h : c.posDiv i n = some d) : d.Flagged := by
  apply of_set
  rw [Cells.posDiv, Option.ite_none_right_eq_some] at h
  obtain ⟨_, h⟩ := h
  obtain ⟨e, _, h⟩ := Option.bind_eq_some_iff.1 h
  obtain ⟨shift, _, h⟩ := Option.bind_eq_some_iff.1 h
  cases h
  rfl

theorem kept : Kept Flagged where
  resize _ := fun _ _ => rfl
  rm hc h := edit hc (rm_replaced h) (Cache.rm_hasShift h) (.inr rfl)
  seqRm := seqRm
  seqKeep := seqKeep
  seqAdd hc h := by
    apply edit hc (seqAdd_replaced h).1 _ (.inl rfl)
    rw [Cells.seqAdd, Option.ite_none_right_eq_some] at h
    cases h.2
    rfl
  posSet hc h := by
    apply edit hc (posSet_replaced h).1 _ (.inl rfl)
    rw [Cells.posSet, Option.ite_none_right_eq_some] at h
    cases h.2
    rfl
  posAdd _ h := posAdd h
  posDiv _ h := posDiv h

end Flagged
end Cells

namespace Cache
variable {p : Params} {k k' : Cache}

/-- No cell of a cache is half in use, and its flags tell of all shifts. -/
structure Tended (p : Params) (k : Cache) : Prop where
  cells : ∀ y, (k.at' y).Tended p y.1
  flagged : ∀ t, (k.cells t).Flagged

/-- What an operation leaves of a cache: each cell comes from the one at its place. -/
structure Stems (p : Params) (k k' : Cache) : Prop where
  cells : ∀ y, (k.at' y).Stems p y.1 (k'.at' y)
  rest : (∀ t, (k'.cells t).Flagged) ∧ k'.copies = k.copies

theorem Stems.tended (h : Stems p k k') : k'.Tended p :=
  ⟨fun y => (h.cells y).tended, h.rest.1⟩

/-- Each token goes to the stream of its sequences. -/
def Aligned (p : Params) (r : SlotInfo) (u : Ubatch) : Prop :=
  ∀ x ∈ r.places.zip u.tokens, ∀ s ∈ x.2.seqId, p.stream s = x.1.1

instance : Decidable (Aligned p r u) := inferInstanceAs (Decidable (∀ x ∈ _, ∀ s ∈ _, _ = _))

/-- Where the cells of a stream come from that are copied from another. -/
def copySource (t₀ t₁ : Nat) (y : Nat × Nat) : Nat × Nat := if y.1 = t₁ then (t₀, y.2) else y

namespace Tended

theorem create (n : Nat) : (create n).Tended p :=
  ⟨fun _ => .inl rfl, fun _ => Cells.Flagged.kept.resize n⟩

theorem clear (hk : k.Tended p) (q : Params) : (k.clear q).Tended p := by
  constructor
  · intro y
    rw [at', Cache.clear]
    dsimp only
    split
    · exact .inl rfl
    · exact hk.cells y
  · intro t
    rw [Cache.clear]
    dsimp only
    split
    · exact Cells.Flagged.kept.resize _
    · exact hk.flagged t

theorem update (hk : k.Tended p) (q : Params) (doShift : Bool) :
    (k.update q doShift).Tended p := by
  constructor
  · intro y
    rw [at', Cache.update]
    dsimp only
    split
    · rcases hk.cells y with hv | hx
      · refine .inl ?_
        change { k.at' y with shift := 0 } = Cell.vacant
        rw [hv]
        rfl
      · refine .inr ⟨hx.seq, hx.stream, hx.pos, ?_⟩
        change 0 ≤ (k.at' y).pos - 0 ∧ (k.at' y).pos - 0 ≤ posMax
        rw [Int.sub_zero]
        exact hx.pos
    · exact hk.cells y
  · intro t
    rw [Cache.update]
    dsimp only
    split
    · exact fun _ _ => rfl
    · exact hk.flagged t

theorem stems_passed (hk : k.Tended p) (h : StreamPassed k t g k')
    (hg : ∀ y, y.1 = t → y.2 < (k.cells t).size → (k.at' y).Stems p t (g (k.at' y)))
    (y : Nat × Nat) : (k.at' y).Stems p y.1 (k'.at' y) := by
  rcases eq_or_ne y.1 t with rfl | ht
  · change (k.at' y).Stems p y.1 ((k'.cells y.1).cell y.2)
    rw [h.cell, passed]
    split
    · case isTrue hi => exact hg y rfl hi
    · exact (hk.cells y).stems
  · change (k.at' y).Stems p y.1 ((k'.cells y.1).cell y.2)
    rw [h.other _ ht]
    exact (hk.cells y).stems

theorem seqRm (hk : k.Tended p) (h : k.seqRm p s p₀ p₁ = some k') : Stems p k k' := by
  refine ⟨fun y => ?_, seqRm_keeps Cells.Flagged.kept hk.flagged h⟩
  rcases seqRm_valid h with rfl | hs
  · rw [Cache.seqRm, if_pos (.inl rfl), if_neg (by omega)] at h
    change (k.at' y).Stems p y.1 ((k'.cells y.1).cell y.2)
    rw [(rmAny_passed List.nodup_range h y.1).2]
    split
    · rw [passed, rmAnyCell]
      split
      · split
        · exact .inl rfl
        · exact (hk.cells y).stems
      · exact (hk.cells y).stems
    · exact (hk.cells y).stems
  · apply hk.stems_passed (seqRm_seq_passed hs h).2
    intro y ht _
    exact (ht ▸ hk.cells y).pared (rmCell_pared _ _ _ _)

theorem seqKeep (hk : k.Tended p) (h : k.seqKeep p s = some k') : Stems p k k' := by
  refine ⟨hk.stems_passed (seqKeep_passed h).2 ?_, seqKeep_keeps Cells.Flagged.kept hk.flagged h⟩
  intro y ht _
  exact (ht ▸ hk.cells y).only _

theorem seqAdd (hk : k.Tended p) (h : k.seqAdd p s p₀ p₁ d = some k')
    (hmove : ∀ x, Touched p k s p₀ p₁ x → Cells.CanMove x d) : Stems p k k' := by
  refine ⟨hk.stems_passed (seqAdd_passed h).2 ?_, seqAdd_keeps Cells.Flagged.kept hk.flagged h⟩
  intro y ht hi
  have hy : (k.at' y).Tended p (p.stream s.toNat) := ht ▸ hk.cells y
  split
  · exact hy.stems
  · rw [addCell]
    split
    · case isTrue hin =>
      apply (hy.rooted (posIn_seqHas.1 hin).2).moved
      exact (hmove _ ⟨y.2, hi, by rw [at', ht], hin⟩).1
    · exact hy.stems

theorem seqCp_same (hk : k.Tended p) (ht : p.stream src.toNat = p.stream dst.toNat)
    (h : k.seqCp p src dst p₀ p₁ = some k') : Stems p k k' := by
  have hrest := seqCp_keeps Cells.Flagged.kept hk.flagged h
  rw [if_pos ht] at hrest
  refine ⟨hk.stems_passed (seqCp_same_passed ht h).2.2 ?_, hrest⟩
  intro y hy _
  have hx : (k.at' y).Tended p (p.stream src.toNat) := hy ▸ hk.cells y
  split
  · exact hx.stems
  · rw [cpCell]
    split
    · case isTrue hin => exact hx.joined (posIn_seqHas.1 hin).2 ht.symm
    · exact hx.stems

/-- A copy between streams: the cells come from those of the source, and a buffer is to be copied. -/
theorem seqCp_cross (hk : k.Tended p) (ht : p.stream src.toNat ≠ p.stream dst.toNat)
    (h : k.seqCp p src dst p₀ p₁ = some k') :
    (∀ y, (k.at' (copySource (p.stream src.toNat) (p.stream dst.toNat) y)).Stems p y.1 (k'.at' y)) ∧
      k'.Tended p ∧ k'.copies = k.copies ++ [(p.stream src.toNat, p.stream dst.toNat)] := by
  have hcopied := (seqCp_cross_copied ht h).2.2.2
  have hrest := seqCp_keeps Cells.Flagged.kept hk.flagged h
  rw [if_neg ht] at hrest
  have hcells (y : Nat × Nat) : (k.at' (copySource (p.stream src.toNat) (p.stream dst.toNat) y)).Stems
      p y.1 ((k'.cells y.1).cell y.2) := by
    rw [copySource]
    by_cases hy : y.1 = p.stream dst.toNat
    · rw [if_pos hy, hy, hcopied.cell]
      split
      · exact (hk.cells (p.stream src.toNat, y.2)).copied _ _
      · exact .inl rfl
    · rw [if_neg hy, hcopied.other _ hy]
      exact (hk.cells y).stems
  exact ⟨hcells, ⟨fun y => (hcells y).tended, hrest.1⟩, hrest.2⟩

theorem placed {xs : List ((Nat × Nat) × Token)} (hk : k.Tended p)
    (hall : AllPlaced k m xs k' m')
    (hu : ∀ x ∈ xs, x.2.seqId ≠ [] ∧ 0 ≤ x.2.pos ∧ x.2.pos ≤ posMax)
    (hstream : ∀ x ∈ xs, ∀ s ∈ x.2.seqId, p.stream s = x.1.1) : k'.Tended p := by
  constructor
  · intro y
    by_cases hy : ∃ x ∈ xs, x.1 = y
    · obtain ⟨x, hx, rfl⟩ := hy
      rw [hall.cell x hx]
      exact .inr ((hk.cells _).placed (hu x hx).1 (hstream x hx) (hu x hx).2)
    · rw [hall.other y fun x hx he => hy ⟨x, hx, he⟩]
      exact hk.cells y
  · intro t hno i
    rw [hall.shift] at hno
    have hzero := hk.flagged t hno i
    change (k'.at' (t, i)).shift = 0
    by_cases hy : ∃ x ∈ xs, x.1 = (t, i)
    · obtain ⟨x, hx, hxy⟩ := hy
      rw [← hxy, hall.cell x hx, hxy, Cell.placed]
      dsimp only
      split
      · exact hzero
      · rfl
    · rw [hall.other (t, i) fun x hx he => hy ⟨x, hx, he⟩]
      exact hzero

theorem applyUbatch (hk : k.Tended p) (hr : Fillable p k u r)
    (hu : ∀ x ∈ u.tokens, x.seqId ≠ [] ∧ 0 ≤ x.pos ∧ x.pos ≤ posMax)
    (haligned : Aligned p r u) (h : k.applyUbatch p r u = some k') : k'.Tended p ∧ k'.copies = k.copies := by
  obtain ⟨k₁, m, k₂, h₁, h₂, h₃⟩ := applyUbatch_eq_some.1 h
  rw [placeTokens, Option.ite_none_right_eq_some] at h₁
  have hall := placeAll_spec (zip_nodup hr.length hr.nodup) h₁.2
  have hk₁ : k₁.Tended p := hk.placed hall (fun x hx => hu x.2 (mem_of_zip hx).2) haligned
  have hk₂ : k₂.Tended p ∧ k₂.copies = k.copies := by
    refine sweep_invariant (I := fun e : Cache => e.Tended p ∧ e.copies = k.copies) ?_
      ⟨hk₁, hall.copies⟩ h₂
    intro e s e' _ he hpurge
    rw [purge] at hpurge
    split at hpurge
    · cases hpurge
      exact he
    · rw [Option.ite_none_right_eq_some] at hpurge
      obtain ⟨_, hpurge⟩ := hpurge
      split at hpurge
      · have hstems := he.1.seqRm hpurge
        exact ⟨hstems.tended, hstems.rest.2.trans he.2⟩
      · cases hpurge
        exact he
  obtain ⟨hcells, hcopies⟩ := moveHeads_cells h₃
  refine ⟨⟨fun y => ?_, fun t => hcells.symm ▸ hk₂.1.flagged t⟩, hcopies.trans hk₂.2⟩
  rw [at', hcells]
  exact hk₂.1.cells y

end Tended
end Cache
end ActQuant.KvCache
