import ActQuant.KvCache.Cells

namespace ActQuant.KvCache.Cells
open ActQuant.Lib ActQuant.Batch

/-- One cell was replaced and no other. -/
structure Replaced (c : Cells) (i : Nat) (x : Cell) (d : Cells) : Prop where
  size : d.size = c.size
  cell : d.cell = Function.update c.cell i x

/-- Nothing but the counters may have changed. -/
structure SameCells (c d : Cells) : Prop where
  size : d.size = c.size
  cell : d.cell = c.cell
  used : d.used = c.used

theorem Replaced.self {c d : Cells} (h : Replaced c i x d) : d.cell i = x := by
  rw [h.cell, Function.update_self]

theorem Replaced.other {c d : Cells} (h : Replaced c i x d) (hj : j ≠ i) : d.cell j = c.cell j := by
  rw [h.cell, Function.update_of_ne hj]

theorem Replaced.refl (c : Cells) (i : Nat) : Replaced c i (c.cell i) c :=
  ⟨rfl, (Function.update_eq_self i c.cell).symm⟩

theorem Replaced.trans {c d e : Cells} (h : Replaced c i x d) (h' : Replaced d i y e) :
    Replaced c i y e :=
  ⟨h'.size.trans h.size, by rw [h'.cell, h.cell, Function.update_idem]⟩

theorem seqPosRm_same {c d : Cells} (h : c.seqPosRm i = some d) : SameCells c d := by
  rw [seqPosRm, Option.ite_none_right_eq_some] at h
  cases h.2
  exact ⟨rfl, rfl, rfl⟩

theorem seqPosDec_same {c d : Cells} (h : c.seqPosDec s p = some d) : SameCells c d := by
  rw [seqPosDec, Option.ite_none_right_eq_some] at h
  cases h.2
  exact ⟨rfl, rfl, rfl⟩

theorem count_seqPosRm {c d : Cells} (h : c.seqPosRm i = some d) (s : Nat) (p : Int) :
    (d.seqPos s).count p + (c.cell i).mark s p = (c.seqPos s).count p := by
  rw [seqPosRm, Option.ite_none_right_eq_some] at h
  obtain ⟨hpos, h⟩ := h
  cases h
  dsimp only
  by_cases hs : s ∈ (c.cell i).seq
  · rw [if_pos hs, Tally.count_dec, Cell.mark]
    by_cases hp : p = (c.cell i).pos
    · rw [if_pos hp, if_pos ⟨hs, hp.symm⟩, hp]
      have hp := hpos s hs
      omega
    · rw [if_neg hp, if_neg fun h => hp h.2.symm]
      rfl
  · rw [if_neg hs, Cell.mark, if_neg fun h => hs h.1]
    rfl

theorem count_seqPosDec {c d : Cells} (h : c.seqPosDec s q = some d) (s' : Nat) (p : Int) :
    (d.seqPos s').count p + (if s' = s ∧ p = q then 1 else 0) = (c.seqPos s').count p := by
  rw [seqPosDec, Option.ite_none_right_eq_some] at h
  obtain ⟨hpos, h⟩ := h
  cases h
  dsimp only
  by_cases he : s' = s
  · subst he
    rw [Function.update_self, Tally.count_dec]
    simp only [true_and]
    by_cases hp : p = q
    · rw [if_pos hp, hp]
      omega
    · rw [if_neg hp]
      rfl
  · rw [Function.update_of_ne he, if_neg fun h => he h.1]
    rfl

/-- The counters of a cell can be taken away. -/
theorem WellFormed.seqPosRm {c : Cells} (hc : c.WellFormed) (hi : i < c.size) :
    ∃ d, c.seqPosRm i = some d ∧
      ∀ s p, (d.seqPos s).count p + (c.cell i).mark s p = (c.seqPos s).count p := by
  have hpos : ∀ s ∈ (c.cell i).seq, 0 < (c.seqPos s).count (c.cell i).pos :=
    fun s hs => hc.count_pos hi ⟨hs, rfl⟩
  exact ⟨_, if_pos hpos, count_seqPosRm (if_pos hpos)⟩

theorem count_seqPosAdd (c : Cells) (i s : Nat) (p : Int) :
    ((c.seqPosAdd i).seqPos s).count p = (c.seqPos s).count p + (c.cell i).mark s p := by
  rw [seqPosAdd]
  dsimp only
  by_cases hs : s ∈ (c.cell i).seq
  · rw [if_pos hs, Tally.count_inc, Cell.mark]
    by_cases hp : p = (c.cell i).pos
    · rw [if_pos hp, if_pos ⟨hs, hp.symm⟩]
    · rw [if_neg hp, if_neg fun h => hp h.2.symm]
  · rw [if_neg hs, Cell.mark, if_neg fun h => hs h.1]
    rfl

theorem count_seqPosInc (c : Cells) (s s' : Nat) (p p' : Int) :
    ((c.seqPosInc s p).seqPos s').count p' =
      (c.seqPos s').count p' + if s' = s ∧ p' = p then 1 else 0 := by
  rw [seqPosInc]
  dsimp only
  by_cases hs : s' = s
  · subst hs
    rw [Function.update_self, Tally.count_inc]
    simp only [true_and]
  · rw [Function.update_of_ne hs, if_neg fun h => hs h.1]
    rfl

theorem WellFormed.seqPosDec {c : Cells} (hc : c.WellFormed) (hi : i < c.size)
    (hs : s ∈ (c.cell i).seq) :
    ∃ d, c.seqPosDec s (c.cell i).pos = some d ∧
      ∀ s' p, (d.seqPos s').count p + (if s' = s ∧ p = (c.cell i).pos then 1 else 0) =
        (c.seqPos s').count p := by
  have hpos := hc.count_pos hi ⟨hs, rfl⟩
  exact ⟨_, if_pos hpos, count_seqPosDec (if_pos hpos)⟩

/-- A cell becomes empty whose counters were taken away. -/
theorem WellFormed.vacate {c d : Cells} (hc : c.WellFormed) (hi : i < c.size) (h : SameCells c d)
    (hcount : ∀ s p, (d.seqPos s).count p + (c.cell i).mark s p = (c.seqPos s).count p) :
    (d.vacate i).WellFormed := by
  refine hc.edit (x := Cell.vacant) hi h.size ?_ ?_ (fun _ => ⟨rfl, rfl⟩) ?_
  · rw [vacate_cell, h.cell]
  · intro j
    rw [vacate_used, h.used, Finset.mem_erase]
    by_cases hj : j = i
    · rw [if_pos hj]
      exact ⟨fun h => (h.1 hj).elim, fun h => (h rfl).elim⟩
    · rw [if_neg hj]
      exact and_iff_right hj
  · intro s p
    rw [vacate_seqPos, hcount, Cell.mark_vacant, Nat.add_zero]

/-- A cell in use stays so under another position. -/
theorem WellFormed.mem_used {c : Cells} (hc : c.WellFormed) (hi : i < c.size)
    (hpos : (c.cell i).pos ≠ -1) (hp : p ≠ -1) (j : Nat) :
    j ∈ c.used ↔ if j = i then p ≠ -1 else j ∈ c.used := by
  by_cases hj : j = i
  · rw [if_pos hj, hj, hc.used]
    exact iff_of_true ⟨hi, hpos⟩ hp
  · rw [if_neg hj]

/-! ## `rm` -/

theorem rm_replaced {c d : Cells} (h : c.rm i = some d) : Replaced c i Cell.vacant d := by
  rw [rm, Option.ite_none_right_eq_some, Option.map_eq_some_iff] at h
  obtain ⟨_, e, he, rfl⟩ := h
  have hsame := seqPosRm_same he
  exact ⟨hsame.size, by rw [vacate_cell, hsame.cell]⟩

theorem WellFormed.rm {c : Cells} (hc : c.WellFormed) (hi : i < c.size)
    (hpos : (c.cell i).pos ≠ -1) : ∃ d, c.rm i = some d ∧ d.WellFormed := by
  obtain ⟨e, he, hcount⟩ := hc.seqPosRm hi
  refine ⟨e.vacate i, ?_, hc.vacate hi (seqPosRm_same he) hcount⟩
  rw [Cells.rm, if_pos ⟨hi, hpos⟩, he]
  rfl

/-! ## `seq_rm` -/

theorem seqRm_replaced {c d : Cells} (h : c.seqRm i s = some (d, b)) :
    Replaced c i ((c.cell i).without s) d ∧ s ∈ (c.cell i).seq ∧
      (b = true ↔ (c.cell i).seq.erase s = ∅) := by
  rw [seqRm, Option.ite_none_right_eq_some, Option.map_eq_some_iff] at h
  obtain ⟨⟨_, hs, _⟩, e, he, hd⟩ := h
  have hsame := seqPosDec_same he
  rw [Cell.without]
  split at hd
  · case isTrue hempty =>
    cases hd
    rw [if_pos hempty]
    exact ⟨⟨hsame.size, by rw [vacate_cell, hsame.cell]⟩, hs, fun _ => hempty, fun _ => rfl⟩
  · case isFalse hne =>
    cases hd
    rw [if_neg hne]
    exact ⟨⟨hsame.size, by rw [put_cell, hsame.cell]⟩, hs, fun h => (nomatch h),
      fun h => (hne h).elim⟩

theorem WellFormed.seqRm {c : Cells} (hc : c.WellFormed) (hi : i < c.size)
    (hs : s ∈ (c.cell i).seq) : ∃ r, c.seqRm i s = some r ∧ r.1.WellFormed := by
  obtain ⟨e, he, hcount⟩ := hc.seqPosDec hi hs
  have hsame := seqPosDec_same he
  have hpos := hc.pos_ne hi hs
  rw [Cells.seqRm, if_pos ⟨hi, hs, hpos⟩, he]
  refine ⟨_, rfl, ?_⟩
  dsimp only
  split
  · case isTrue hempty =>
    refine hc.vacate hi hsame fun s' p => ?_
    rw [← hcount, Cell.mark]
    congr 1
    have hmem : s' ∈ (c.cell i).seq ↔ s' = s := by
      constructor
      · intro h
        by_contra hne
        exact Finset.notMem_empty s' (hempty ▸ Finset.mem_erase.2 ⟨hne, h⟩)
      · rintro rfl
        exact hs
    exact if_congr (and_congr hmem eq_comm) rfl rfl
  · case isFalse hne =>
    refine hc.edit (x := { c.cell i with seq := (c.cell i).seq.erase s }) hi hsame.size ?_ ?_
      (fun h => (hpos h).elim) ?_
    · rw [put_cell, hsame.cell]
    · rw [put_used, hsame.used]
      exact hc.mem_used hi hpos hpos
    · intro s' p
      rw [put_seqPos, ← hcount, Cell.mark, Cell.mark, Nat.add_assoc]
      congr 1
      simp only [Cell.Holds, Finset.mem_erase]
      by_cases he : s' = s
      · subst he
        simp only [hs, ne_eq, not_true, false_and, if_false, true_and, Nat.add_zero]
        exact if_congr eq_comm rfl rfl
      · simp only [he, ne_eq, not_false_eq_true, true_and, false_and, if_false, Nat.zero_add]
        exact if_congr Iff.rfl rfl rfl

/-! ## `seq_keep` -/

theorem seqKeep_replaced {c d : Cells} (h : c.seqKeep i s = some (d, b)) :
    Replaced c i ((c.cell i).only s) d ∧
      (b = true ↔ s ∉ (c.cell i).seq ∧ (c.cell i).seq ≠ ∅) := by
  rw [seqKeep, Option.ite_none_right_eq_some] at h
  obtain ⟨_, h⟩ := h
  rw [Cell.only]
  split at h
  · case isTrue hs =>
    rw [Option.map_eq_some_iff] at h
    obtain ⟨e, he, hd⟩ := h
    have hsame := seqPosRm_same he
    cases hd
    rw [if_pos hs]
    exact ⟨⟨hsame.size, by rw [seqPosInc_cell, put_cell, hsame.cell]⟩, fun h => (nomatch h),
      fun h => (h.1 hs).elim⟩
  · case isFalse hs =>
    rw [if_neg hs]
    split at h
    · case isTrue hne =>
      rw [Option.map_eq_some_iff] at h
      obtain ⟨e, he, hd⟩ := h
      have hsame := seqPosRm_same he
      cases hd
      rw [if_pos hne]
      exact ⟨⟨hsame.size, by rw [vacate_cell, hsame.cell]⟩, fun _ => ⟨hs, hne⟩, fun _ => rfl⟩
    · case isFalse hempty =>
      rw [if_neg hempty]
      rw [Option.ite_none_right_eq_some] at h
      cases h.2
      exact ⟨Replaced.refl c i, fun h => (nomatch h), fun h => (hempty h.2).elim⟩

theorem WellFormed.seqKeep {c : Cells} (hc : c.WellFormed) (hi : i < c.size)
    (howned : (c.cell i).pos ≠ -1 → (c.cell i).seq ≠ ∅) (s : Nat) :
    ∃ r, c.seqKeep i s = some r ∧ r.1.WellFormed := by
  obtain ⟨e, he, hcount⟩ := hc.seqPosRm hi
  have hsame := seqPosRm_same he
  rw [Cells.seqKeep, if_pos hi, he]
  split
  · case isTrue hs =>
    have hpos := hc.pos_ne hi hs
    refine ⟨_, rfl, ?_⟩
    refine hc.edit (x := { c.cell i with seq := {s} }) hi hsame.size ?_ ?_
      (fun h => (hpos h).elim) ?_
    · rw [seqPosInc_cell, put_cell, hsame.cell]
    · rw [seqPosInc_used, put_used, hsame.used]
      exact hc.mem_used hi hpos hpos
    · intro s' p
      rw [count_seqPosInc, put_seqPos, ← hcount s' p, Cell.mark, Cell.mark]
      have hnew : (if s' = s ∧ p = (c.cell i).pos then 1 else 0) =
          if Cell.Holds { c.cell i with seq := {s} } s' p then 1 else 0 :=
        if_congr (and_congr (Finset.mem_singleton.symm) eq_comm) rfl rfl
      rw [hnew]
      omega
  · case isFalse hs =>
    split
    · exact ⟨_, rfl, hc.vacate hi hsame hcount⟩
    · case isFalse hempty =>
      have hpos : (c.cell i).pos = -1 := by
        by_contra h
        exact hempty (howned h)
      rw [if_pos hpos]
      exact ⟨_, rfl, hc⟩

/-! ## `seq_add` and `pos_set` -/

theorem seqAdd_replaced {c d : Cells} (h : c.seqAdd i s = some d) :
    Replaced c i ((c.cell i).joined s) d ∧ (c.cell i).pos ≠ -1 := by
  rw [seqAdd, Option.ite_none_right_eq_some] at h
  obtain ⟨⟨_, hpos, _⟩, h⟩ := h
  cases h
  exact ⟨⟨rfl, rfl⟩, hpos⟩

theorem WellFormed.seqAdd {c : Cells} (hc : c.WellFormed) (hi : i < c.size)
    (hpos : (c.cell i).pos ≠ -1) (hmax : s < LLAMA_MAX_SEQ) (hs : s ∉ (c.cell i).seq) :
    ∃ d, c.seqAdd i s = some d ∧ d.WellFormed := by
  refine ⟨_, if_pos ⟨hi, hpos, hmax, hs⟩, ?_⟩
  refine hc.edit (x := (c.cell i).joined s) hi rfl rfl ?_ (fun h => (hpos h).elim) ?_
  · rw [seqPosInc_used, put_used]
    exact hc.mem_used hi hpos hpos
  · intro s' p
    rw [count_seqPosInc, put_seqPos, Cell.mark, Cell.mark, Nat.add_assoc]
    congr 1
    simp only [Cell.Holds, Cell.joined, Finset.mem_insert]
    by_cases he : s' = s
    · subst he
      simp only [hs, true_and, false_and, if_false, true_or, Nat.add_zero]
      exact if_congr eq_comm rfl rfl
    · simp only [he, false_and, if_false, false_or, Nat.zero_add]
      exact if_congr Iff.rfl rfl rfl

theorem posSet_replaced {c d : Cells} (h : c.posSet i p = some d) :
    Replaced c i { c.cell i with pos := p } d ∧ i < c.size ∧ (c.cell i).pos = -1 ∧
      (c.cell i).seq = ∅ := by
  rw [posSet, Option.ite_none_right_eq_some] at h
  obtain ⟨⟨hi, hpos, hseq⟩, h⟩ := h
  cases h
  exact ⟨⟨rfl, rfl⟩, hi, hpos, hseq⟩

theorem WellFormed.posSet {c : Cells} (hc : c.WellFormed) (hi : i < c.size)
    (hpos : (c.cell i).pos = -1) (hne : p ≠ -1) : ∃ d, c.posSet i p = some d ∧ d.WellFormed := by
  have hseq := (hc.empty i hi hpos).1
  refine ⟨_, if_pos ⟨hi, hpos, hseq⟩, ?_⟩
  refine hc.edit (x := { c.cell i with pos := p }) hi rfl rfl ?_ (fun h => (hne h).elim) ?_
  · intro j
    by_cases hj : j = i
    · rw [if_pos hj, hj]
      exact ⟨fun _ => hne, fun _ => Finset.mem_insert_self i _⟩
    · rw [if_neg hj]
      exact Finset.mem_insert.trans (or_iff_right hj)
  · intro s q
    rw [put_seqPos, Cell.mark, Cell.mark, if_neg, if_neg]
    · intro h
      exact Finset.notMem_empty s (hseq ▸ h.1)
    · intro h
      exact Finset.notMem_empty s (hseq ▸ h.1)

/-! ## `pos_add` and `pos_div` -/

theorem posAdd_replaced {c d : Cells} (h : c.posAdd i n = some (d, b)) :
    Replaced c i ((c.cell i).moved n) d ∧ (b = true ↔ (c.cell i).pos + n < 0) := by
  rw [posAdd, Option.ite_none_right_eq_some] at h
  obtain ⟨⟨hi, _⟩, h⟩ := h
  obtain ⟨e, he, h⟩ := Option.bind_eq_some_iff.1 h
  have hsame := seqPosRm_same he
  obtain ⟨pos, hp, h⟩ := Option.bind_eq_some_iff.1 h
  obtain ⟨shift, hs, h⟩ := Option.bind_eq_some_iff.1 h
  obtain ⟨_, rfl⟩ := addInt32_eq_some.1 hp
  obtain ⟨_, rfl⟩ := addInt32_eq_some.1 hs
  rw [Cell.moved]
  split at h
  · case isTrue hneg =>
    cases h
    rw [if_pos hneg]
    refine ⟨⟨hsame.size, ?_⟩, fun _ => hneg, fun _ => rfl⟩
    rw [vacate_cell, ← hsame.cell]
  · case isFalse hneg =>
    cases h
    rw [if_neg hneg]
    refine ⟨⟨hsame.size, ?_⟩, fun h => (nomatch h), fun h => (hneg h).elim⟩
    rw [seqPosAdd_cell, put_cell, ← hsame.cell]

/-- A position can be moved where neither it nor the shift overflows. -/
def CanMove (x : Cell) (n : Int) : Prop :=
  (addInt32 x.pos n).isSome ∧ (addInt32 x.shift n).isSome

theorem WellFormed.posAdd {c : Cells} (hc : c.WellFormed) (hi : i < c.size)
    (hpos : (c.cell i).pos ≠ -1) (hn : CanMove (c.cell i) n) :
    ∃ r, c.posAdd i n = some r ∧ r.1.WellFormed := by
  obtain ⟨e, he, hcount⟩ := hc.seqPosRm hi
  have hsame := seqPosRm_same he
  obtain ⟨pos, hp⟩ := Option.isSome_iff_exists.1 hn.1
  obtain ⟨shift, hs⟩ := Option.isSome_iff_exists.1 hn.2
  have hpe := (addInt32_eq_some.1 hp).2
  rw [Cells.posAdd, if_pos ⟨hi, hpos⟩, he]
  simp only [Option.bind_eq_bind, Option.bind_some, hp, hs]
  split
  · exact ⟨_, rfl, hc.vacate hi ⟨hsame.size, hsame.cell, hsame.used⟩ hcount⟩
  · case isFalse hneg =>
    refine ⟨_, rfl, ?_⟩
    refine hc.edit (x := { c.cell i with pos := pos, shift := shift }) hi hsame.size ?_ ?_
      (fun h => by simp only at h; omega) ?_
    · rw [seqPosAdd_cell, put_cell]
      simp only [hsame.cell]
    · rw [seqPosAdd_used, put_used]
      change ∀ j, j ∈ e.used ↔ _
      rw [hsame.used]
      exact hc.mem_used hi hpos (by simp only; omega)
    · intro s p
      rw [count_seqPosAdd, put_seqPos, put_cell, Function.update_self, ← hcount s p]
      change (e.seqPos s).count p + _ + _ = _
      dsimp only
      omega

theorem posDiv_replaced {c d : Cells} (h : c.posDiv i n = some d) :
    Replaced c i ((c.cell i).divided n) d := by
  rw [posDiv, Option.ite_none_right_eq_some] at h
  obtain ⟨_, h⟩ := h
  obtain ⟨e, he, h⟩ := Option.bind_eq_some_iff.1 h
  have hsame := seqPosRm_same he
  obtain ⟨shift, hs, h⟩ := Option.bind_eq_some_iff.1 h
  obtain ⟨_, rfl⟩ := addInt32_eq_some.1 hs
  cases h
  refine ⟨hsame.size, ?_⟩
  change Function.update e.cell i _ = _
  rw [hsame.cell]
  rfl

theorem WellFormed.posDiv {c : Cells} (hc : c.WellFormed) (hi : i < c.size)
    (hpos : 0 ≤ (c.cell i).pos) (hn : 1 < n)
    (hs : (addInt32 (c.cell i).shift ((c.cell i).pos - (c.cell i).pos.tdiv n)).isSome) :
    ∃ d, c.posDiv i n = some d ∧ d.WellFormed := by
  obtain ⟨e, he, hcount⟩ := hc.seqPosRm hi
  have hsame := seqPosRm_same he
  obtain ⟨shift, hs⟩ := Option.isSome_iff_exists.1 hs
  have hne : (c.cell i).pos ≠ -1 := by omega
  have hnn : 0 ≤ (c.cell i).pos.tdiv n := Int.tdiv_nonneg hpos (by omega)
  rw [Cells.posDiv, if_pos ⟨hi, hne, by omega⟩, he]
  simp only [Option.bind_eq_bind, Option.bind_some, hs]
  refine ⟨_, rfl, ?_⟩
  refine hc.edit (x := { c.cell i with pos := (c.cell i).pos.tdiv n, shift := shift }) hi
    hsame.size ?_ ?_ (fun h => by simp only at h; omega) ?_
  · change Function.update e.cell i _ = _
    rw [hsame.cell]
  · change ∀ j, j ∈ e.used ↔ _
    rw [hsame.used]
    exact hc.mem_used hi hne (by simp only; omega)
  · intro s p
    change (((e.put i _).seqPosAdd i).seqPos s).count p + _ = _
    rw [count_seqPosAdd, put_seqPos, put_cell, Function.update_self, ← hcount s p]
    dsimp only
    omega

/-! ## `cp` and `set` -/

/-- The copy of a cell that `cp` makes. -/
def saved (x : Cell) : Cell := { x with shift := 0 }

theorem cp_eq_some {c : Cells} :
    c.cp is = some xs ↔ (∀ i ∈ is, i < c.size ∧ (c.cell i).shift = 0) ∧
      xs = is.map fun i => saved (c.cell i) := by
  induction is generalizing xs with
  | nil =>
    rw [cp, Option.some_inj]
    exact ⟨fun h => ⟨fun _ hi => (List.not_mem_nil hi).elim, h.symm⟩, fun h => h.2.symm⟩
  | cons i is ih =>
    rw [cp, Option.ite_none_right_eq_some, Option.map_eq_some_iff, List.forall_mem_cons,
      List.map_cons]
    constructor
    · rintro ⟨hi, ys, hys, rfl⟩
      obtain ⟨hall, rfl⟩ := ih.1 hys
      exact ⟨⟨hi, hall⟩, rfl⟩
    · rintro ⟨⟨hi, hall⟩, rfl⟩
      exact ⟨hi, _, ih.2 ⟨hall, rfl⟩, rfl⟩

theorem setOne_replaced {c d : Cells} (h : c.setOne i x = some d) :
    Replaced c i { c.cell i with pos := x.pos, seq := x.seq } d ∧ (c.cell i).shift = 0 := by
  rw [setOne, Option.ite_none_right_eq_some] at h
  obtain ⟨_, h⟩ := h
  obtain ⟨e, he, h⟩ := Option.bind_eq_some_iff.1 h
  have hsame : e.size = c.size ∧ e.cell = c.cell := by
    split at he
    · have hsame := seqPosRm_same he
      exact ⟨hsame.size, hsame.cell⟩
    · cases he
      exact ⟨rfl, rfl⟩
  rw [Option.ite_none_right_eq_some] at h
  obtain ⟨hshift, h⟩ := h
  refine ⟨?_, hshift⟩
  split at h
  · cases h
    exact ⟨hsame.1, congrArg (Function.update · i _) hsame.2⟩
  · cases h
    exact ⟨hsame.1, congrArg (Function.update · i _) hsame.2⟩

theorem WellFormed.setOne {c : Cells} (hc : c.WellFormed) (hi : i < c.size)
    (hshift : (c.cell i).shift = 0) (hempty : x.pos = -1 → x.seq = ∅) :
    ∃ d, c.setOne i x = some d ∧ d.WellFormed := by
  have hrm : ∃ e, (if (c.cell i).pos ≠ -1 then c.seqPosRm i else some c) = some e ∧
      SameCells c e ∧
      ∀ s p, (e.seqPos s).count p + (c.cell i).mark s p = (c.seqPos s).count p := by
    by_cases hpos : (c.cell i).pos = -1
    · rw [if_neg (not_not.2 hpos)]
      refine ⟨c, rfl, ⟨rfl, rfl, rfl⟩, fun s p => ?_⟩
      rw [Cell.mark, if_neg, Nat.add_zero]
      intro h
      exact hc.pos_ne hi h.1 hpos
    · rw [if_pos hpos]
      obtain ⟨e, he, hcount⟩ := hc.seqPosRm hi
      exact ⟨e, he, seqPosRm_same he, hcount⟩
  obtain ⟨e, he, hsame, hcount⟩ := hrm
  rw [Cells.setOne, if_pos hi, he]
  simp only [Option.bind_some]
  rw [if_pos hshift]
  refine ⟨_, rfl, ?_⟩
  have hused (j : Nat) : j ∈ c.setUsed i x ↔ if j = i then x.pos ≠ -1 else j ∈ c.used := by
    have hmem := hc.used i
    rw [setUsed]
    by_cases hj : j = i
    · subst hj
      by_cases hpos : (c.cell j).pos = -1 <;> by_cases hx : x.pos = -1 <;>
        simp [hpos, hx, hmem, hi]
    · by_cases hpos : (c.cell i).pos = -1 <;> by_cases hx : x.pos = -1 <;> simp [hpos, hx, hj]
  split
  · case isTrue hx =>
    refine hc.edit (x := { c.cell i with pos := x.pos, seq := x.seq }) hi hsame.size ?_ hused
      (fun h => (hx h).elim) ?_
    · exact congrArg (Function.update · i _) hsame.cell
    · intro s p
      rw [count_seqPosAdd, ← hcount s p]
      change (e.seqPos s).count p + Cell.mark (Function.update e.cell i _ i) s p + _ = _
      rw [Function.update_self]
      dsimp only
      omega
  · case isFalse hx =>
    have hx := not_not.1 hx
    refine hc.edit (x := { c.cell i with pos := x.pos, seq := x.seq }) hi hsame.size ?_ hused
      (fun h => ⟨hempty h, hshift⟩) ?_
    · exact congrArg (Function.update · i _) hsame.cell
    · intro s p
      have hzero : Cell.mark { c.cell i with pos := x.pos, seq := x.seq } s p = 0 :=
        if_neg fun h => Finset.notMem_empty s (hempty hx ▸ h.1)
      rw [← hcount s p, hzero]
      rfl

end ActQuant.KvCache.Cells
