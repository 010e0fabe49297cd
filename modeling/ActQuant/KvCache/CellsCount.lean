import ActQuant.KvCache.CellsOps
import ActQuant.Lib.Sweep

namespace ActQuant.KvCache.Cells
open ActQuant.Lib ActQuant.Batch

/-! Whatever the cells hold, an operation that returns moves the counters and the used cells with
them. -/

/-- Each counter is the number of cells that hold the sequence at the position. -/
def Counted (c : Cells) : Prop := ∀ s p, (c.seqPos s).count p = c.held s p

theorem resize_counted (n : Nat) : (resize n).Counted := (resize_wellFormed n).count

/-- The counters after one cell was replaced. -/
theorem Counted.edit {c d : Cells} (hc : c.Counted) (hi : i < c.size) (hr : Replaced c i x d)
    (hcount : ∀ s p, (d.seqPos s).count p + (c.cell i).mark s p =
      (c.seqPos s).count p + x.mark s p) : d.Counted := by
  intro s p
  have hput := held_put c hi x s p
  have hle := mark_le_held c hi s p
  have hheld : d.held s p = (c.put i x).held s p :=
    held_congr (c := c.put i x) hr.size (fun j _ => by rw [hr.cell, put_cell]) s p
  have hcs := hcount s p
  rw [hc] at hcs
  omega

/-- A cell without a sequence has no mark. -/
theorem mark_eq_zero {x : Cell} (h : s ∉ x.seq) : x.mark s p = 0 := if_neg fun hx => h hx.1

theorem Counted.rm {c d : Cells} (hc : c.Counted) (h : c.rm i = some d) : d.Counted := by
  have hr := rm_replaced h
  rw [Cells.rm, Option.ite_none_right_eq_some, Option.map_eq_some_iff] at h
  obtain ⟨⟨hi, _⟩, e, he, rfl⟩ := h
  refine hc.edit hi hr fun s p => ?_
  rw [vacate_seqPos, count_seqPosRm he, Cell.mark_vacant, Nat.add_zero]

theorem mark_without {x : Cell} (hs : s ∈ x.seq) (s' : Nat) (p : Int) :
    (x.without s).mark s' p + (if s' = s ∧ p = x.pos then 1 else 0) = x.mark s' p := by
  have hold : x.mark s p = if p = x.pos then 1 else 0 :=
    if_congr ⟨fun h => h.2.symm, fun h => ⟨hs, h.symm⟩⟩ rfl rfl
  by_cases he : s' = s
  · subst he
    have hnew : (x.without s').mark s' p = 0 := by
      rw [Cell.without]
      split
      · exact Cell.mark_vacant s' p
      · exact mark_eq_zero fun h => Finset.notMem_erase s' _ h
    simp only [hold, hnew, Nat.zero_add, true_and]
  · rw [if_neg fun h => he h.1, Nat.add_zero, Cell.without]
    split
    · case isTrue hempty =>
      rw [Cell.mark_vacant]
      symm
      exact mark_eq_zero fun h => Finset.notMem_empty s' (hempty ▸ Finset.mem_erase.2 ⟨he, h⟩)
    · refine if_congr (and_congr_left fun _ => ?_) rfl rfl
      exact Finset.mem_erase.trans (and_iff_right he)

theorem Counted.seqRm {c d : Cells} (hc : c.Counted) (h : c.seqRm i s = some (d, b)) :
    d.Counted := by
  obtain ⟨hr, hs, _⟩ := seqRm_replaced h
  rw [Cells.seqRm, Option.ite_none_right_eq_some, Option.map_eq_some_iff] at h
  obtain ⟨⟨hi, _⟩, e, he, hd⟩ := h
  have hpos : d.seqPos = e.seqPos := by
    split at hd
    · cases hd
      rfl
    · cases hd
      rfl
  refine hc.edit hi hr fun s' p => ?_
  have hdec := count_seqPosDec he s' p
  have hmark := mark_without hs s' p
  rw [hpos]
  omega

theorem Counted.seqKeep {c d : Cells} (hc : c.Counted) (h : c.seqKeep i s = some (d, b)) :
    d.Counted := by
  obtain ⟨hr, _⟩ := seqKeep_replaced h
  rw [Cells.seqKeep, Option.ite_none_right_eq_some] at h
  obtain ⟨hi, h⟩ := h
  split at h
  · case isTrue hs =>
    rw [Option.map_eq_some_iff] at h
    obtain ⟨e, he, hd⟩ := h
    cases hd
    refine hc.edit hi hr fun s' p => ?_
    have hrm := count_seqPosRm he s' p
    have hmark : ((c.cell i).only s).mark s' p =
        if s' = s ∧ p = (c.cell i).pos then 1 else 0 := by
      rw [Cell.only, if_pos hs]
      exact if_congr (and_congr Finset.mem_singleton eq_comm) rfl rfl
    rw [count_seqPosInc, put_seqPos, hmark]
    omega
  · case isFalse hs =>
    split at h
    · case isTrue hne =>
      rw [Option.map_eq_some_iff] at h
      obtain ⟨e, he, hd⟩ := h
      cases hd
      refine hc.edit hi hr fun s' p => ?_
      have hrm := count_seqPosRm he s' p
      rw [vacate_seqPos, Cell.only, if_neg hs, if_pos hne, Cell.mark_vacant]
      omega
    · rw [Option.ite_none_right_eq_some] at h
      cases h.2
      exact hc

theorem Counted.seqAdd {c d : Cells} (hc : c.Counted) (h : c.seqAdd i s = some d) :
    d.Counted := by
  obtain ⟨hr, _⟩ := seqAdd_replaced h
  rw [Cells.seqAdd, Option.ite_none_right_eq_some] at h
  obtain ⟨⟨hi, _, _, hs⟩, h⟩ := h
  cases h
  refine hc.edit hi hr fun s' p => ?_
  rw [count_seqPosInc, put_seqPos, Nat.add_assoc]
  congr 1
  by_cases he : s' = s
  · subst he
    rw [mark_eq_zero hs, Nat.add_zero]
    refine if_congr ?_ rfl rfl
    exact and_congr (iff_of_true rfl (Finset.mem_insert_self s' _)) eq_comm
  · rw [if_neg fun h => he h.1, Nat.zero_add]
    refine if_congr (and_congr_left fun _ => ?_) rfl rfl
    exact (Finset.mem_insert.trans (or_iff_right he)).symm

theorem Counted.posSet {c d : Cells} (hc : c.Counted) (h : c.posSet i p = some d) :
    d.Counted := by
  obtain ⟨hr, hi, _, hseq⟩ := posSet_replaced h
  rw [Cells.posSet, Option.ite_none_right_eq_some] at h
  obtain ⟨_, h⟩ := h
  cases h
  refine hc.edit hi hr fun s q => ?_
  have hno : s ∉ (c.cell i).seq := by
    rw [hseq]
    exact Finset.notMem_empty s
  rw [put_seqPos, mark_eq_zero hno, mark_eq_zero]
  exact hno

theorem Counted.posAdd {c d : Cells} (hc : c.Counted) (h : c.posAdd i n = some (d, b)) :
    d.Counted := by
  obtain ⟨hr, _⟩ := posAdd_replaced h
  rw [Cells.posAdd, Option.ite_none_right_eq_some] at h
  obtain ⟨⟨hi, _⟩, h⟩ := h
  obtain ⟨e, he, h⟩ := Option.bind_eq_some_iff.1 h
  obtain ⟨pos, hp, h⟩ := Option.bind_eq_some_iff.1 h
  obtain ⟨shift, hs, h⟩ := Option.bind_eq_some_iff.1 h
  obtain ⟨_, rfl⟩ := addInt32_eq_some.1 hp
  obtain ⟨_, rfl⟩ := addInt32_eq_some.1 hs
  refine hc.edit hi hr fun s p => ?_
  have hrm := count_seqPosRm he s p
  rw [Cell.moved]
  split at h
  · case isTrue hneg =>
    cases h
    rw [if_pos hneg, vacate_seqPos, Cell.mark_vacant]
    exact hrm
  · case isFalse hneg =>
    cases h
    rw [if_neg hneg, count_seqPosAdd, put_seqPos, put_cell, Function.update_self]
    change (e.seqPos s).count p + _ + _ = _
    dsimp only
    omega

theorem Counted.posDiv {c d : Cells} (hc : c.Counted) (h : c.posDiv i n = some d) :
    d.Counted := by
  have hr := posDiv_replaced h
  rw [Cells.posDiv, Option.ite_none_right_eq_some] at h
  obtain ⟨⟨hi, _⟩, h⟩ := h
  obtain ⟨e, he, h⟩ := Option.bind_eq_some_iff.1 h
  obtain ⟨shift, hs, h⟩ := Option.bind_eq_some_iff.1 h
  obtain ⟨_, rfl⟩ := addInt32_eq_some.1 hs
  cases h
  refine hc.edit hi hr fun s p => ?_
  have hrm := count_seqPosRm he s p
  change (((e.put i _).seqPosAdd i).seqPos s).count p + _ = _
  rw [count_seqPosAdd, put_seqPos, put_cell, Function.update_self]
  change _ + ((c.cell i).divided n).mark s p + _ = _
  omega

theorem Counted.setOne {c d : Cells} (hc : c.Counted) (hx : x.pos = -1 → x.seq = ∅)
    (hempty : (c.cell i).pos = -1 → (c.cell i).seq = ∅) (h : c.setOne i x = some d) :
    d.Counted := by
  obtain ⟨hr, _⟩ := setOne_replaced h
  rw [Cells.setOne, Option.ite_none_right_eq_some] at h
  obtain ⟨hi, h⟩ := h
  obtain ⟨e, he, h⟩ := Option.bind_eq_some_iff.1 h
  have hrm : ∀ s p, (e.seqPos s).count p + (c.cell i).mark s p = (c.seqPos s).count p := by
    intro s p
    split at he
    · exact count_seqPosRm he s p
    · case isFalse hpos =>
      cases he
      rw [mark_eq_zero, Nat.add_zero]
      rw [hempty (not_not.1 hpos)]
      exact Finset.notMem_empty s
  rw [Option.ite_none_right_eq_some] at h
  obtain ⟨_, h⟩ := h
  refine hc.edit hi hr fun s p => ?_
  have hrm := hrm s p
  split at h
  · cases h
    rw [count_seqPosAdd]
    change (e.seqPos s).count p + Cell.mark (Function.update e.cell i _ i) s p + _ = _
    rw [Function.update_self]
    dsimp only
    omega
  · case isFalse hpos =>
    cases h
    have hzero : Cell.mark { c.cell i with pos := x.pos, seq := x.seq } s p = 0 :=
      mark_eq_zero (by rw [hx (not_not.1 hpos)]; exact Finset.notMem_empty s)
    rw [hzero]
    exact hrm

end ActQuant.KvCache.Cells
