import ActQuant.KvCache.SeqFacts

namespace ActQuant.KvCache.Cache
open ActQuant.Lib ActQuant.Batch

/-! The sequence operations keep the bookkeeping and return. -/

/-- The bookkeeping of every stream. -/
def WellFormed (p : Params) (k : Cache) : Prop := ∀ t < p.nStream, (k.cells t).WellFormed

/-- All streams have the size the cache was made with. -/
def Sized (p : Params) (n : Nat) (k : Cache) : Prop := ∀ t < p.nStream, (k.cells t).size = n

theorem create_wellFormed (n : Nat) : WellFormed p (create n) :=
  fun _ _ => Cells.resize_wellFormed n

theorem WellFormed.setStream {k : Cache} (hk : WellFormed p k) (hc : c.WellFormed)
    (t head : Nat) : WellFormed p (k.setStream t c head) := by
  intro t' ht'
  by_cases h : t' = t
  · subst h
    simp only [Cache.setStream, Function.update_self]
    exact hc
  · simp only [Cache.setStream, Function.update_of_ne h]
    exact hk t' ht'

theorem clear_wellFormed (p : Params) (k : Cache) : WellFormed p (k.clear p) := by
  intro t ht
  simp only [Cache.clear, if_pos ht]
  exact Cells.resize_wellFormed _

theorem WellFormed.update {k : Cache} (hk : WellFormed p k) (doShift : Bool) :
    WellFormed p (k.update p doShift) := by
  intro t ht
  simp only [Cache.update]
  split
  · exact (hk t ht).resetShift
  · exact hk t ht

theorem seqRmTurn_wellFormed {c : Cells} (hc : c.WellFormed) (hi : i < c.size) :
    ∃ r, seqRmTurn s p₀ p₁ c i = some r ∧ r.1.WellFormed := by
  rw [seqRmTurn]
  split
  · case isTrue h => exact hc.seqRm hi (posIn_seqHas.1 h).2
  · exact ⟨_, rfl, hc⟩

theorem rmTurn_wellFormed (hp : 0 ≤ p₀) {c : Cells} (hc : c.WellFormed) (hi : i < c.size) :
    ∃ r, rmTurn p₀ p₁ c i = some r ∧ r.1.WellFormed := by
  rw [rmTurn]
  split
  · case isTrue h =>
    have hin := (posIn_eq.1 h).1
    obtain ⟨d, hd, hwf⟩ := hc.rm hi (by omega)
    rw [hd]
    exact ⟨_, rfl, hwf⟩
  · exact ⟨_, rfl, hc⟩

theorem cpTurn_wellFormed (hdst : dst < LLAMA_MAX_SEQ) {c : Cells} (hc : c.WellFormed)
    (hi : i < c.size)
    (hno : (c.cell i).posIn p₀ p₁ && (c.cell i).seqHas src → dst ∉ (c.cell i).seq) :
    ∃ r, cpTurn src dst p₀ p₁ c i = some r ∧ r.1.WellFormed := by
  rw [cpTurn]
  split
  · case isTrue h =>
    have hs := (posIn_seqHas.1 h).2
    obtain ⟨d, hd, hwf⟩ := hc.seqAdd hi (hc.pos_ne hi hs) hdst (hno h)
    rw [hd]
    exact ⟨_, rfl, hwf⟩
  · exact ⟨_, rfl, hc⟩

theorem addTurn_wellFormed {c : Cells} (hc : c.WellFormed) (hi : i < c.size)
    (hmove : (c.cell i).posIn p₀ p₁ && (c.cell i).seqHas s → Cells.CanMove (c.cell i) n) :
    ∃ r, addTurn s p₀ p₁ n c i = some r ∧ r.1.WellFormed := by
  rw [addTurn]
  split
  · case isTrue h => exact hc.posAdd hi (hc.pos_ne hi (posIn_seqHas.1 h).2) (hmove h)
  · exact ⟨_, rfl, hc⟩

/-- The shift of a cell can take what a division takes off its position. -/
def CanDivide (x : Cell) (n : Int) : Prop :=
  (addInt32 x.shift (x.pos - x.pos.tdiv n)).isSome

theorem divTurn_wellFormed (hn : 1 < n) (hp : 0 ≤ p₀) {c : Cells} (hc : c.WellFormed)
    (hi : i < c.size)
    (hdiv : (c.cell i).posIn p₀ p₁ && (c.cell i).seqHas s → CanDivide (c.cell i) n) :
    ∃ r, divTurn s p₀ p₁ n c i = some r ∧ r.1.WellFormed := by
  rw [divTurn]
  split
  · case isTrue h =>
    have hin := (posIn_seqHas.1 h).1.1
    obtain ⟨d, hd, hwf⟩ := hc.posDiv hi (hp.trans hin) hn (hdiv h)
    rw [hd]
    exact ⟨_, rfl, hwf⟩
  · exact ⟨_, rfl, hc⟩

theorem stream_toNat_lt (hv : validSeq p s = true) : p.stream s.toNat < p.nStream :=
  stream_lt (validSeq_eq.1 hv).2

theorem WellFormed.seqRm {k : Cache} (hk : WellFormed p k) (hs : s = -1 ∨ validSeq p s)
    (p₀ p₁ : Int) : ∃ k', k.seqRm p s p₀ p₁ = some k' ∧ WellFormed p k' := by
  rw [Cache.seqRm, if_pos hs]
  split
  · case isTrue hnn =>
    have ht := stream_toNat_lt (hs.resolve_left (by omega))
    obtain ⟨⟨d, n⟩, hd, hwf⟩ := (hk _ ht).sweep
      (seqRmTurn s.toNat (fromPos p₀) (toPos p₁)) (rmCell s.toNat (fromPos p₀) (toPos p₁))
      (fun _ => True) seqRmTurn_replaced (fun hc hi _ => seqRmTurn_wellFormed hc hi)
      (fun _ _ => trivial)
    dsimp only
    rw [hd]
    exact ⟨_, rfl, hk.setStream hwf _ _⟩
  · refine sweep_total (I := WellFormed p) (fun {k t} ht hk => ?_) hk
    obtain ⟨⟨d, n⟩, hd, hwf⟩ := (hk t (List.mem_range.1 ht)).sweep
      (rmTurn (fromPos p₀) (toPos p₁)) (rmAnyCell (fromPos p₀) (toPos p₁)) (fun _ => True)
      rmTurn_replaced (fun hc hi _ => rmTurn_wellFormed (fromPos_nonneg p₀) hc hi)
      (fun _ _ => trivial)
    rw [hd]
    exact ⟨_, rfl, hk.setStream hwf _ _⟩

theorem WellFormed.seqKeep {k : Cache} (hk : WellFormed p k) (hs : validSeq p s)
    (howned : ∀ i < (k.cells (p.stream s.toNat)).size,
      ((k.cells (p.stream s.toNat)).cell i).pos ≠ -1 →
        ((k.cells (p.stream s.toNat)).cell i).seq ≠ ∅) :
    ∃ k', k.seqKeep p s = some k' ∧ WellFormed p k' := by
  rw [Cache.seqKeep, if_pos hs]
  obtain ⟨⟨d, n⟩, hd, hwf⟩ := (hk _ (stream_toNat_lt hs)).sweep
    (fun c i => c.seqKeep i s.toNat) (fun x => x.only s.toNat) (fun x => x.pos ≠ -1 → x.seq ≠ ∅)
    keepTurn_replaced (fun hc hi ho => hc.seqKeep hi ho s.toNat) howned
  dsimp only
  rw [hd]
  exact ⟨_, rfl, hk.setStream hwf _ _⟩

theorem nSeqIds_le (p : Params) : p.nSeqIds ≤ LLAMA_MAX_SEQ := by
  rw [Params.nSeqIds]
  split
  · rw [Params.nStream]
    split
    · exact p.seqMax_pos.trans_le p.seqMax_le
    · exact p.seqMax_le
  · exact le_rfl

theorem WellFormed.seqCp_same {k : Cache} (hk : WellFormed p k) (hsrc : validSeq p src)
    (hdst : validSeq p dst) (ht : p.stream src.toNat = p.stream dst.toNat)
    (hno : src ≠ dst → ∀ i < (k.cells (p.stream src.toNat)).size,
      (((k.cells (p.stream src.toNat)).cell i).posIn (fromPos p₀) (toPos p₁) &&
        ((k.cells (p.stream src.toNat)).cell i).seqHas src.toNat) →
        dst.toNat ∉ ((k.cells (p.stream src.toNat)).cell i).seq) :
    ∃ k', k.seqCp p src dst p₀ p₁ = some k' ∧ WellFormed p k' := by
  rw [Cache.seqCp, if_pos (Bool.and_eq_true_iff.2 ⟨hsrc, hdst⟩)]
  dsimp only
  rw [if_pos ht]
  split
  · exact ⟨k, rfl, hk⟩
  · case isFalse hne =>
    have hlt := (validSeq_eq.1 hdst).2.trans_le (nSeqIds_le p)
    obtain ⟨⟨d, n⟩, hd, hwf⟩ := (hk _ (stream_toNat_lt hsrc)).sweep
      (cpTurn src.toNat dst.toNat (fromPos p₀) (toPos p₁))
      (cpCell src.toNat dst.toNat (fromPos p₀) (toPos p₁))
      (fun x => (x.posIn (fromPos p₀) (toPos p₁) && x.seqHas src.toNat) → dst.toNat ∉ x.seq)
      cpTurn_replaced (fun hc hi ho => cpTurn_wellFormed hlt hc hi ho) (hno hne)
    rw [hd]
    exact ⟨_, rfl, hk.setStream hwf _ _⟩

/-- The position of a cell before its pending shift. -/
def Unshifts (x : Cell) : Prop :=
  x.shift ≠ 0 → 0 ≤ x.pos + -x.shift ∧ x.pos + -x.shift ≤ posMax ∧
    -2147483648 ≤ x.shift ∧ x.shift ≤ posMax ∧ x.pos ≤ posMax

theorem copyCell_wellFormed {c : Cells} (hsrc : from'.WellFormed) (hi' : i < from'.size)
    (hsize : from'.size = c.size) (hdst : dst < LLAMA_MAX_SEQ)
    (hun : (from'.cell i).seqHas src → Unshifts (from'.cell i)) (hc : c.WellFormed)
    (hempty : c.cell i = Cell.vacant) :
    ∃ d, copyCell from' src dst c i = some d ∧ d.WellFormed := by
  have hi : i < c.size := hsize ▸ hi'
  have hpos : (c.cell i).pos = -1 := by
    rw [hempty]
    rfl
  rw [copyCell]
  dsimp only
  split
  case isFalse => exact ⟨c, rfl, hc⟩
  case isTrue hs =>
    have hne := hsrc.pos_ne hi' (of_decide_eq_true hs)
    rw [if_neg hne]
    split
    case isFalse =>
      obtain ⟨d₁, h₁, hwf₁⟩ := hc.posSet hi hpos hne
      have hr₁ := (Cells.posSet_replaced h₁).1
      obtain ⟨d₂, h₂, hwf₂⟩ := hwf₁.seqAdd (i := i) (hr₁.size ▸ hi)
        (by rw [hr₁.self]; exact hne) hdst
        (by rw [hr₁.self, hempty]; exact Finset.notMem_empty dst)
      refine ⟨d₂, ?_, hwf₂⟩
      rw [h₁]
      exact h₂
    case isTrue hshift =>
      obtain ⟨hnn, hmax, hlow, hhigh, hpmax⟩ := hun hs hshift
      rw [posMax] at hmax hhigh hpmax
      have hadd : addInt32 (from'.cell i).pos (-(from'.cell i).shift) =
          some ((from'.cell i).pos + -(from'.cell i).shift) := if_pos ⟨by omega, by omega⟩
      rw [hadd]
      simp only [Option.bind_eq_bind, Option.bind_some]
      rw [if_neg (not_lt.2 hnn)]
      have hback : (from'.cell i).pos + -(from'.cell i).shift ≠ -1 := by omega
      obtain ⟨d₁, h₁, hwf₁⟩ := hc.posSet hi hpos hback
      have hr₁ := (Cells.posSet_replaced h₁).1
      obtain ⟨d₂, h₂, hwf₂⟩ := hwf₁.seqAdd (i := i) (hr₁.size ▸ hi)
        (by rw [hr₁.self]; simp only; omega) hdst
        (by rw [hr₁.self, hempty]; exact Finset.notMem_empty dst)
      have hr₂ := (Cells.seqAdd_replaced h₂).1
      have hcell : d₂.cell i = Cell.joined
          { Cell.vacant with pos := (from'.cell i).pos + -(from'.cell i).shift } dst := by
        rw [hr₂.self, hr₁.self, hempty]
      have hmove : Cells.CanMove (d₂.cell i) (from'.cell i).shift := by
        rw [hcell]
        refine ⟨addInt32_isSome.2 ?_, addInt32_isSome.2 ?_⟩
        · simp only [Cell.joined]
          omega
        · simp only [Cell.joined, Cell.vacant]
          omega
      obtain ⟨r, hr, hwf₃⟩ := hwf₂.posAdd (hr₂.size ▸ hr₁.size ▸ hi)
        (by rw [hcell]; simp only [Cell.joined]; omega) hmove
      refine ⟨r.1, ?_, hwf₃⟩
      rw [h₁, Option.bind_some, h₂, Option.bind_some, hr]
      rfl

theorem WellFormed.seqCp_cross {k : Cache} (hk : WellFormed p k) (hsrc : validSeq p src)
    (hdst : validSeq p dst) (ht : p.stream src.toNat ≠ p.stream dst.toNat)
    (hfull : isFull (k.cells (p.stream 0)).size p₀ p₁)
    (hsize : (k.cells (p.stream src.toNat)).size = (k.cells (p.stream dst.toNat)).size)
    (hun : ∀ i < (k.cells (p.stream src.toNat)).size,
      ((k.cells (p.stream src.toNat)).cell i).seqHas src.toNat →
        Unshifts ((k.cells (p.stream src.toNat)).cell i)) :
    ∃ k', k.seqCp p src dst p₀ p₁ = some k' ∧ WellFormed p k' := by
  rw [Cache.seqCp, if_pos (Bool.and_eq_true_iff.2 ⟨hsrc, hdst⟩)]
  dsimp only
  rw [if_neg ht, if_pos hfull]
  have hlt := (validSeq_eq.1 hdst).2.trans_le (nSeqIds_le p)
  have hsrcwf := hk _ (stream_toNat_lt hsrc)
  have hnd : ((List.range (k.cells (p.stream src.toNat)).size).map id).Nodup := by
    rw [List.map_id]
    exact List.nodup_range
  have hstep : ∀ {c : Cells} {i : Nat}, i ∈ List.range (k.cells (p.stream src.toNat)).size →
      (c.WellFormed ∧ c.size = (k.cells (p.stream dst.toNat)).size) →
      c.cell (id i) = Cell.vacant →
      ∃ d, copyCell (k.cells (p.stream src.toNat)) src.toNat dst.toNat c i = some d ∧
        d.WellFormed ∧ d.size = (k.cells (p.stream dst.toNat)).size := by
    intro c i hi hI hvac
    have hi := List.mem_range.1 hi
    obtain ⟨d, hd, hwf⟩ := copyCell_wellFormed hsrcwf hi (hsize.trans hI.2.symm) hlt (hun _ hi)
      hI.1 hvac
    exact ⟨d, hd, hwf, (copyCell_replaced hd).1.size.trans hI.2⟩
  obtain ⟨d, hd, hwf, _⟩ := sweep_succeeds (fun c : Cells => c.cell) id
    (fun i => copiedCell ((k.cells (p.stream src.toNat)).cell i) src.toNat dst.toNat)
    (fun _ x => x = Cell.vacant)
    (I := fun c : Cells => c.WellFormed ∧ c.size = (k.cells (p.stream dst.toNat)).size)
    (s := (k.cells (p.stream dst.toNat)).reset) (fun _ => copyCell_cell) hstep hnd
    ⟨Cells.resize_wellFormed _, rfl⟩ (fun _ _ => rfl)
  rw [hd]
  exact ⟨_, rfl, hk.setStream hwf (p.stream dst.toNat) (k.head (p.stream src.toNat))⟩

theorem WellFormed.seqAdd {k : Cache} (hk : WellFormed p k) (hs : validSeq p s)
    (hmove : n ≠ 0 → ∀ i < (k.cells (p.stream s.toNat)).size,
      (((k.cells (p.stream s.toNat)).cell i).posIn (fromPos p₀) (toPos p₁) &&
        ((k.cells (p.stream s.toNat)).cell i).seqHas s.toNat) →
        Cells.CanMove ((k.cells (p.stream s.toNat)).cell i) n) :
    ∃ k', k.seqAdd p s p₀ p₁ n = some k' ∧ WellFormed p k' := by
  rw [Cache.seqAdd, if_pos hs]
  split
  · exact ⟨k, rfl, hk⟩
  · case isFalse hne =>
    rw [not_or] at hne
    obtain ⟨⟨d, m⟩, hd, hwf⟩ := (hk _ (stream_toNat_lt hs)).sweep
      (addTurn s.toNat (fromPos p₀) (toPos p₁) n) (addCell s.toNat (fromPos p₀) (toPos p₁) n)
      (fun x => (x.posIn (fromPos p₀) (toPos p₁) && x.seqHas s.toNat) → Cells.CanMove x n)
      addTurn_replaced (fun hc hi ho => addTurn_wellFormed hc hi ho) (hmove hne.1)
    dsimp only
    rw [hd]
    exact ⟨_, rfl, hk.setStream hwf _ _⟩

theorem WellFormed.seqDiv {k : Cache} (hk : WellFormed p k) (hs : validSeq p s) (hn : 1 < n)
    (hdiv : ∀ i < (k.cells (p.stream s.toNat)).size,
      (((k.cells (p.stream s.toNat)).cell i).posIn (fromPos p₀) (toPos p₁) &&
        ((k.cells (p.stream s.toNat)).cell i).seqHas s.toNat) →
        CanDivide ((k.cells (p.stream s.toNat)).cell i) n) :
    ∃ k', k.seqDiv p s p₀ p₁ n = some k' ∧ WellFormed p k' := by
  rw [Cache.seqDiv, if_pos hs]
  split
  · exact ⟨k, rfl, hk⟩
  · obtain ⟨⟨d, m⟩, hd, hwf⟩ := (hk _ (stream_toNat_lt hs)).sweep
      (divTurn s.toNat (fromPos p₀) (toPos p₁) n) (divCell s.toNat (fromPos p₀) (toPos p₁) n)
      (fun x => (x.posIn (fromPos p₀) (toPos p₁) && x.seqHas s.toNat) → CanDivide x n)
      divTurn_replaced (fun hc hi ho => divTurn_wellFormed hn (fromPos_nonneg p₀) hc hi ho) hdiv
    dsimp only
    rw [hd]
    exact ⟨_, rfl, hk.setStream hwf _ _⟩

end ActQuant.KvCache.Cache
