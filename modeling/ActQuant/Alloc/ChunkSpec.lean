import ActQuant.Alloc.Blocks

namespace ActQuant.Alloc

/-! What the operations on the blocks of a chunk do to its memory. -/

/-- A place of the chunk is free. -/
def TallocrChunk.Free (chunk : TallocrChunk) (x : Nat) : Prop :=
  ∃ i < chunk.nFreeBlocks, (chunk.freeBlocks i).offset ≤ x ∧ x < (chunk.freeBlocks i).stop

/-- The free blocks are in order, not empty, apart from each other and within the capacity. -/
structure TallocrChunk.Wf (chunk : TallocrChunk) (capacity : Nat) : Prop where
  count : chunk.nFreeBlocks ≤ maxFreeBlocks
  pos : ∀ i < chunk.nFreeBlocks, 0 < (chunk.freeBlocks i).size
  gap : ∀ i, i + 1 < chunk.nFreeBlocks →
    (chunk.freeBlocks i).stop < (chunk.freeBlocks (i + 1)).offset
  bound : ∀ i < chunk.nFreeBlocks, (chunk.freeBlocks i).stop ≤ capacity

/-- The freed memory is just what lies between two blocks. -/
def TallocrChunk.Fills (chunk : TallocrChunk) (offset size : Nat) : Prop :=
  ∃ i, i + 1 < chunk.nFreeBlocks ∧ (chunk.freeBlocks i).stop = offset ∧
    offset + size = (chunk.freeBlocks (i + 1)).offset

/-- The chunk with another block in one place. -/
def TallocrChunk.withBlock (chunk : TallocrChunk) (i : Nat) (b : FreeBlock) : TallocrChunk :=
  { chunk with freeBlocks := Function.update chunk.freeBlocks i b }

variable {chunk : TallocrChunk} {capacity : Nat}

theorem TallocrChunk.Wf.offset_lt (h : chunk.Wf capacity) (hi : i < chunk.nFreeBlocks) :
    (chunk.freeBlocks i).offset < (chunk.freeBlocks i).stop :=
  Nat.lt_add_of_pos_right (h.pos i hi)

theorem TallocrChunk.Wf.stop_lt (h : chunk.Wf capacity) (hij : i < j)
    (hj : j < chunk.nFreeBlocks) : (chunk.freeBlocks i).stop < (chunk.freeBlocks j).offset := by
  induction j with
  | zero => exact absurd hij (Nat.not_lt_zero i)
  | succ j ih =>
    have hgap := h.gap j hj
    rcases Nat.eq_or_lt_of_le (Nat.le_of_lt_succ hij) with rfl | hlt
    · exact hgap
    · have hbefore := ih hlt (by omega)
      have hpos := h.offset_lt (show j < chunk.nFreeBlocks by omega)
      omega

/-- Memory that is not free lies on one side of each free block. -/
theorem TallocrChunk.Wf.apart (h : chunk.Wf capacity) (hsize : 0 < size)
    (hfree : ∀ x, offset ≤ x → x < offset + size → ¬ chunk.Free x) (hi : i < chunk.nFreeBlocks) :
    (chunk.freeBlocks i).stop ≤ offset ∨ offset + size ≤ (chunk.freeBlocks i).offset := by
  have hlt := h.offset_lt hi
  by_contra hover
  obtain ⟨h₁, h₂⟩ := not_or.1 hover
  by_cases hle : offset ≤ (chunk.freeBlocks i).offset
  · exact hfree (chunk.freeBlocks i).offset hle (by omega) ⟨i, hi, Nat.le_refl _, hlt⟩
  · exact hfree offset (Nat.le_refl _) (by omega) ⟨i, hi, by omega, by omega⟩

/-- A block may be changed if it stays apart from its neighbours. -/
theorem TallocrChunk.Wf.update (h : chunk.Wf capacity) (hi : i < chunk.nFreeBlocks)
    {b : FreeBlock} (hpos : 0 < b.size) (hbound : b.stop ≤ capacity)
    (hbefore : ∀ j, j + 1 = i → (chunk.freeBlocks j).stop < b.offset)
    (hafter : i + 1 < chunk.nFreeBlocks → b.stop < (chunk.freeBlocks (i + 1)).offset) :
    (chunk.withBlock i b).Wf capacity where
  count := h.count
  pos := by
    intro j hj
    rw [TallocrChunk.withBlock]
    dsimp only
    by_cases hji : j = i
    · rw [hji, Function.update_self]
      exact hpos
    · rw [Function.update_of_ne hji]
      exact h.pos j hj
  gap := by
    intro j hj
    rw [TallocrChunk.withBlock] at hj ⊢
    dsimp only at hj ⊢
    by_cases hji : j = i
    · subst hji
      rw [Function.update_self, Function.update_of_ne (Nat.succ_ne_self j)]
      exact hafter hj
    · rw [Function.update_of_ne hji]
      by_cases hji' : j + 1 = i
      · rw [hji', Function.update_self]
        exact hbefore j hji'
      · rw [Function.update_of_ne hji']
        exact h.gap j hj
  bound := by
    intro j hj
    rw [TallocrChunk.withBlock]
    dsimp only
    by_cases hji : j = i
    · rw [hji, Function.update_self]
      exact hbound
    · rw [Function.update_of_ne hji]
      exact h.bound j hj

/-- The free places after one block was changed. -/
theorem free_update (hi : i < chunk.nFreeBlocks) (b : FreeBlock) (x : Nat) :
    (chunk.withBlock i b).Free x ↔
      b.offset ≤ x ∧ x < b.stop ∨
        ∃ j < chunk.nFreeBlocks, j ≠ i ∧ (chunk.freeBlocks j).offset ≤ x ∧
          x < (chunk.freeBlocks j).stop := by
  constructor
  · rintro ⟨j, hj, hx⟩
    rw [TallocrChunk.withBlock] at hj hx
    dsimp only at hj hx
    by_cases hji : j = i
    · rw [hji, Function.update_self] at hx
      exact .inl hx
    · rw [Function.update_of_ne hji] at hx
      exact .inr ⟨j, hj, hji, hx⟩
  · rintro (hx | ⟨j, hj, hji, hx⟩)
    · refine ⟨i, hi, ?_⟩
      rw [TallocrChunk.withBlock]
      dsimp only
      rw [Function.update_self]
      exact hx
    · refine ⟨j, hj, ?_⟩
      rw [TallocrChunk.withBlock]
      dsimp only
      rw [Function.update_of_ne hji]
      exact hx

/-- A block that is removed takes its memory out of the free memory. -/
theorem remove_spec (chunk : TallocrChunk) (capacity : Nat) (hidx : idx < chunk.nFreeBlocks) (hfull : chunk.nFreeBlocks < maxFreeBlocks)
    (hpos : ∀ i < chunk.nFreeBlocks, i ≠ idx → 0 < (chunk.freeBlocks i).size)
    (hgap : ∀ i j, i < j → j < chunk.nFreeBlocks → i ≠ idx → j ≠ idx →
      (chunk.freeBlocks i).stop < (chunk.freeBlocks j).offset)
    (hbound : ∀ i < chunk.nFreeBlocks, i ≠ idx → (chunk.freeBlocks i).stop ≤ capacity) :
    ∃ chunk', removeBlock chunk idx = .ok chunk' ∧ chunk'.Wf capacity ∧
      chunk'.maxSize = chunk.maxSize ∧
      ∀ x, chunk'.Free x ↔ ∃ j < chunk.nFreeBlocks, j ≠ idx ∧ (chunk.freeBlocks j).offset ≤ x ∧
        x < (chunk.freeBlocks j).stop := by
  obtain ⟨bs, hbs, hat⟩ := removeBlock_eq hidx hfull
  -- the old place of a block
  have hold (i : Nat) (hi : i < chunk.nFreeBlocks - 1) :
      ∃ j < chunk.nFreeBlocks, j ≠ idx ∧ bs i = chunk.freeBlocks j ∧ i ≤ j ∧ j ≤ i + 1 ∧
        (j = i ↔ i < idx) := by
    by_cases hlt : i < idx
    · exact ⟨i, by omega, by omega, by rw [hat i hi, if_pos hlt], by omega, by omega, by omega⟩
    · exact ⟨i + 1, by omega, by omega, by rw [hat i hi, if_neg hlt], by omega, by omega, by omega⟩
  refine ⟨_, hbs, ⟨?_, fun i hi => ?_, fun i hi => ?_, fun i hi => ?_⟩, rfl, fun x => ?_⟩
  · dsimp only
    omega
  · obtain ⟨j, hj, hne, heq, _⟩ := hold i hi
    dsimp only
    rw [heq]
    exact hpos j hj hne
  · obtain ⟨j, hj, hne, heq, _, _, hji⟩ := hold i (by dsimp only at hi; omega)
    obtain ⟨j', hj', hne', heq', _, _, hji'⟩ := hold (i + 1) hi
    dsimp only
    rw [heq, heq']
    exact hgap j j' (by omega) hj' hne hne'
  · obtain ⟨j, hj, hne, heq, _⟩ := hold i hi
    dsimp only
    rw [heq]
    exact hbound j hj hne
  · constructor
    · rintro ⟨i, hi, hx⟩
      obtain ⟨j, hj, hne, heq, _⟩ := hold i hi
      dsimp only at hx
      rw [heq] at hx
      exact ⟨j, hj, hne, hx⟩
    · rintro ⟨j, hj, hne, hx⟩
      by_cases hlt : j < idx
      · refine ⟨j, by dsimp only; omega, ?_⟩
        dsimp only
        rw [hat j (by omega), if_pos hlt]
        exact hx
      · refine ⟨j - 1, by dsimp only; omega, ?_⟩
        dsimp only
        rw [hat (j - 1) (by omega), if_neg (by omega), Nat.sub_add_cancel (by omega)]
        exact hx

/-- The start of a block is handed out; only a removal from a full array fails. -/
theorem carve_spec (h : chunk.Wf capacity) (hi : i < chunk.nFreeBlocks) (hsize : 0 < size)
    (hle : size ≤ (chunk.freeBlocks i).size) :
    (chunk.nFreeBlocks = maxFreeBlocks ∧ size = (chunk.freeBlocks i).size ∧
      carve chunk i size = .error .outOfBounds) ∨
    ¬ (chunk.nFreeBlocks = maxFreeBlocks ∧ size = (chunk.freeBlocks i).size) ∧
      ∃ chunk', carve chunk i size = .ok (chunk', (chunk.freeBlocks i).offset) ∧
        chunk'.Wf capacity ∧
        chunk'.maxSize = max chunk.maxSize ((chunk.freeBlocks i).offset + size) ∧
        ∀ x, chunk'.Free x ↔ chunk.Free x ∧
          ¬ ((chunk.freeBlocks i).offset ≤ x ∧ x < (chunk.freeBlocks i).offset + size) := by
  have hmax : i < maxFreeBlocks := Nat.lt_of_lt_of_le hi h.count
  have hlt := h.offset_lt hi
  generalize hb : chunk.freeBlocks i = b at hle hlt
  obtain ⟨offset, bsize⟩ := b
  have hcarve : carve chunk i size =
      (if bsize - size = 0 then removeBlock (chunk.withBlock i ⟨offset + size, bsize - size⟩) i
        else .ok (chunk.withBlock i ⟨offset + size, bsize - size⟩)).map
          fun c => ({ c with maxSize := max c.maxSize (offset + size) }, offset) := by
    rw [carve, readBlock_eq hmax, hb]
    simp only [bind, Except.bind, writeBlock_eq hmax]
    rw [TallocrChunk.withBlock]
    split
    · split
      · rename_i hremove
        rw [hremove]
        rfl
      · rename_i hremove
        rw [hremove]
        rfl
    · rfl
  have hothers : ∀ j < chunk.nFreeBlocks, j ≠ i → ∀ x, (chunk.freeBlocks j).offset ≤ x →
      x < (chunk.freeBlocks j).stop → ¬ (offset ≤ x ∧ x < offset + bsize) := by
    intro j hj hji x hx₁ hx₂ ⟨hx₃, hx₄⟩
    rcases Nat.lt_or_gt_of_ne hji with hlt | hlt
    · have hgap := h.stop_lt hlt hi
      rw [hb] at hgap
      dsimp only at hgap
      omega
    · have hgap := h.stop_lt hlt hj
      rw [hb, FreeBlock.stop] at hgap
      dsimp only at hgap
      omega
  have hfree (x : Nat) : chunk.Free x ↔ offset ≤ x ∧ x < offset + bsize ∨
      ∃ j < chunk.nFreeBlocks, j ≠ i ∧ (chunk.freeBlocks j).offset ≤ x ∧
        x < (chunk.freeBlocks j).stop := by
    have hupdate := free_update hi (chunk.freeBlocks i) x
    rw [TallocrChunk.withBlock, Function.update_eq_self, hb] at hupdate
    exact hupdate
  dsimp only at hle ⊢
  by_cases heq : size = bsize
  · by_cases hfull : chunk.nFreeBlocks = maxFreeBlocks
    · refine .inl ⟨hfull, heq, ?_⟩
      have hremove : removeBlock (chunk.withBlock i ⟨offset + size, bsize - size⟩) i =
          .error .outOfBounds := removeBlock_full hi hfull
      rw [hcarve, if_pos (by omega), hremove]
      rfl
    · refine .inr ⟨fun h => hfull h.1, ?_⟩
      have hsame (j : Nat) (hji : j ≠ i) :
          (chunk.withBlock i ⟨offset + size, bsize - size⟩).freeBlocks j = chunk.freeBlocks j :=
        Function.update_of_ne hji _ _
      obtain ⟨chunk', hremove, hwf, hmaxSize, hfree'⟩ :=
        remove_spec (chunk.withBlock i ⟨offset + size, bsize - size⟩) capacity hi (Nat.lt_of_le_of_ne h.count hfull)
          (fun j hj hji => by rw [hsame j hji]; exact h.pos j hj)
          (fun j k hjk hk hj hk' => by rw [hsame j hj, hsame k hk']; exact h.stop_lt hjk hk)
          (fun j hj hji => by rw [hsame j hji]; exact h.bound j hj)
      refine ⟨{ chunk' with maxSize := max chunk'.maxSize (offset + size) }, ?_,
        ⟨hwf.count, hwf.pos, hwf.gap, hwf.bound⟩, ?_, fun x => ?_⟩
      · rw [hcarve, if_pos (by omega), hremove]
        rfl
      · exact congrArg (max · (offset + size)) hmaxSize
      · refine (hfree' x).trans ?_
        rw [hfree x]
        constructor
        · rintro ⟨j, hj, hji, hx⟩
          rw [hsame j hji] at hx
          refine ⟨.inr ⟨j, hj, hji, hx⟩, ?_⟩
          rw [heq]
          exact hothers j hj hji x hx.1 hx.2
        · rintro ⟨hx | ⟨j, hj, hji, hx⟩, hx'⟩
          · rw [heq] at hx'
            exact absurd hx hx'
          · refine ⟨j, hj, hji, ?_⟩
            rw [hsame j hji]
            exact hx
  · refine .inr ⟨fun h => heq h.2, ?_⟩
    have hwf : (chunk.withBlock i ⟨offset + size, bsize - size⟩).Wf capacity := by
      refine h.update hi (show 0 < bsize - size by omega) ?_ ?_ ?_
      · have hbound := h.bound i hi
        rw [hb, FreeBlock.stop] at hbound
        rw [FreeBlock.stop]
        dsimp only at hbound ⊢
        omega
      · intro j hj
        have hgap := h.stop_lt (show j < i by omega) hi
        rw [hb] at hgap
        dsimp only at hgap ⊢
        omega
      · intro hi'
        have hgap := h.gap i hi'
        rw [hb, FreeBlock.stop] at hgap
        rw [FreeBlock.stop]
        dsimp only at hgap ⊢
        omega
    refine ⟨{ chunk.withBlock i ⟨offset + size, bsize - size⟩ with
        maxSize := max chunk.maxSize (offset + size) }, ?_,
      ⟨hwf.count, hwf.pos, hwf.gap, hwf.bound⟩, rfl, fun x => ?_⟩
    · rw [hcarve, if_neg (by omega)]
      rfl
    · refine (free_update hi _ x).trans ?_
      rw [hfree x, FreeBlock.stop]
      dsimp only
      constructor
      · rintro (hx | ⟨j, hj, hji, hx⟩)
        · exact ⟨.inl (by omega), by omega⟩
        · refine ⟨.inr ⟨j, hj, hji, hx⟩, fun hx' => ?_⟩
          exact hothers j hj hji x hx.1 hx.2 (by omega)
      · rintro ⟨hx | hx, hx'⟩
        · exact .inl (by omega)
        · exact .inr hx

theorem TallocrChunk.withBlock_self (chunk : TallocrChunk) (i : Nat) (b : FreeBlock) :
    (chunk.withBlock i b).freeBlocks i = b := Function.update_self _ _ _

theorem TallocrChunk.withBlock_other (chunk : TallocrChunk) (b : FreeBlock) (hji : j ≠ i) :
    (chunk.withBlock i b).freeBlocks j = chunk.freeBlocks j := Function.update_of_ne hji _ _

theorem TallocrChunk.Wf.stop_inj (h : chunk.Wf capacity) (hi : i < chunk.nFreeBlocks)
    (hj : j < chunk.nFreeBlocks) (heq : (chunk.freeBlocks i).stop = (chunk.freeBlocks j).stop) :
    i = j := by
  rcases Nat.lt_trichotomy i j with hlt | heq | hlt
  · have hgap := h.stop_lt hlt hj
    have hpos := h.offset_lt hj
    omega
  · exact heq
  · have hgap := h.stop_lt hlt hi
    have hpos := h.offset_lt hi
    omega

/-- Two neighbours with the memory between them as one block. -/
theorem merge_spec (h : chunk.Wf capacity) (hi : i + 1 < chunk.nFreeBlocks)
    (hfull : chunk.nFreeBlocks < maxFreeBlocks) {b : FreeBlock}
    (hoffset : b.offset = (chunk.freeBlocks i).offset)
    (hstop : b.stop = (chunk.freeBlocks (i + 1)).stop) :
    ∃ chunk', removeBlock (chunk.withBlock i b) (i + 1) = .ok chunk' ∧ chunk'.Wf capacity ∧
      chunk'.maxSize = chunk.maxSize ∧
      ∀ x, chunk'.Free x ↔ chunk.Free x ∨
        (chunk.freeBlocks i).stop ≤ x ∧ x < (chunk.freeBlocks (i + 1)).offset := by
  have hgap := h.gap i hi
  have hleft := h.offset_lt (show i < chunk.nFreeBlocks by omega)
  have hright := h.offset_lt hi
  have hb : b.offset + b.size = b.stop := rfl
  obtain ⟨chunk', hremove, hwf, hmax, hfree⟩ := remove_spec (chunk.withBlock i b) capacity hi hfull
    (fun j hj hji => by
      by_cases hj' : j = i
      · rw [hj', TallocrChunk.withBlock_self]
        omega
      · rw [TallocrChunk.withBlock_other _ _ hj']
        exact h.pos j hj)
    (fun j k hjk hk hj hk' => by
      by_cases hj' : j = i
      · rw [hj', TallocrChunk.withBlock_self, TallocrChunk.withBlock_other _ _ (by omega), hstop]
        exact h.stop_lt (by omega) hk
      · rw [TallocrChunk.withBlock_other _ _ hj']
        by_cases hk'' : k = i
        · rw [hk'', TallocrChunk.withBlock_self, hoffset]
          exact h.stop_lt (by omega) (by omega)
        · rw [TallocrChunk.withBlock_other _ _ hk'']
          exact h.stop_lt hjk hk)
    (fun j hj hji => by
      by_cases hj' : j = i
      · rw [hj', TallocrChunk.withBlock_self, hstop]
        exact h.bound _ hi
      · rw [TallocrChunk.withBlock_other _ _ hj']
        exact h.bound j hj)
  refine ⟨chunk', hremove, hwf, hmax, fun x => (hfree x).trans ?_⟩
  constructor
  · rintro ⟨j, hj, hne, hx⟩
    by_cases hj' : j = i
    · rw [hj', TallocrChunk.withBlock_self, hoffset, hstop] at hx
      by_cases hx₁ : x < (chunk.freeBlocks i).stop
      · exact .inl ⟨i, by omega, hx.1, hx₁⟩
      · by_cases hx₂ : x < (chunk.freeBlocks (i + 1)).offset
        · exact .inr ⟨by omega, hx₂⟩
        · exact .inl ⟨i + 1, hi, by omega, hx.2⟩
    · rw [TallocrChunk.withBlock_other _ _ hj'] at hx
      exact .inl ⟨j, hj, hx⟩
  · have hmerged (hx₁ : (chunk.freeBlocks i).offset ≤ x)
        (hx₂ : x < (chunk.freeBlocks (i + 1)).stop) :
        ∃ j < chunk.nFreeBlocks, j ≠ i + 1 ∧ ((chunk.withBlock i b).freeBlocks j).offset ≤ x ∧
          x < ((chunk.withBlock i b).freeBlocks j).stop := by
      refine ⟨i, by omega, by omega, ?_⟩
      rw [TallocrChunk.withBlock_self, hoffset, hstop]
      exact ⟨hx₁, hx₂⟩
    rintro (⟨j, hj, hx⟩ | hx)
    · by_cases hj' : j = i
      · rw [hj'] at hx
        exact hmerged hx.1 (by omega)
      · by_cases hj'' : j = i + 1
        · rw [hj''] at hx
          exact hmerged (by omega) hx.2
        · refine ⟨j, hj, hj'', ?_⟩
          rw [TallocrChunk.withBlock_other _ _ hj']
          exact hx
    · exact hmerged (by omega) (by omega)

/-- Freed memory is added to the block before it, and to the block behind it where the two meet. -/
theorem growEnd_spec (h : chunk.Wf capacity) (hi : i < chunk.nFreeBlocks) (hsize : 0 < size)
    (hend : (chunk.freeBlocks i).stop = offset)
    (hfree : ∀ x, offset ≤ x → x < offset + size → ¬ chunk.Free x)
    (hcap : offset + size ≤ capacity) :
    (chunk.nFreeBlocks = maxFreeBlocks ∧ chunk.Fills offset size ∧
      growEnd chunk i size = .error .outOfBounds) ∨
    ¬ (chunk.nFreeBlocks = maxFreeBlocks ∧ chunk.Fills offset size) ∧
      ∃ chunk', growEnd chunk i size = .ok chunk' ∧ chunk'.Wf capacity ∧
        chunk'.maxSize = chunk.maxSize ∧
        ∀ x, chunk'.Free x ↔ chunk.Free x ∨ offset ≤ x ∧ x < offset + size := by
  have hmax : i < maxFreeBlocks := Nat.lt_of_lt_of_le hi h.count
  have hcount := h.count
  have hlt := h.offset_lt hi
  have hstop : (chunk.freeBlocks i).offset + (chunk.freeBlocks i).size = offset := hend
  have hgrow : growEnd chunk i size =
      if i + 1 < chunk.nFreeBlocks ∧ offset + size = (chunk.freeBlocks (i + 1)).offset then
        removeBlock (chunk.withBlock i ⟨(chunk.freeBlocks i).offset,
          (chunk.freeBlocks i).size + size + (chunk.freeBlocks (i + 1)).size⟩) (i + 1)
      else .ok (chunk.withBlock i ⟨(chunk.freeBlocks i).offset,
        (chunk.freeBlocks i).size + size⟩) := by
    rw [growEnd, readBlock_eq hmax]
    simp only [bind, Except.bind, writeBlock_eq hmax]
    by_cases hnext : i + 1 < chunk.nFreeBlocks
    · have hother : Function.update chunk.freeBlocks i ⟨(chunk.freeBlocks i).offset,
          (chunk.freeBlocks i).size + size⟩ (i + 1) = chunk.freeBlocks (i + 1) :=
        Function.update_of_ne (Nat.succ_ne_self i) _ _
      rw [if_pos hnext, readBlock_eq (by omega), hother, ← Nat.add_assoc, hstop]
      dsimp only
      by_cases hmeet : offset + size = (chunk.freeBlocks (i + 1)).offset
      · rw [if_pos hmeet, if_pos ⟨hnext, hmeet⟩, Function.update_idem]
        rfl
      · rw [if_neg hmeet, if_neg fun h => hmeet h.2]
        rfl
    · rw [if_neg hnext, if_neg fun h => hnext h.1]
      rfl
  by_cases hfills : i + 1 < chunk.nFreeBlocks ∧ offset + size = (chunk.freeBlocks (i + 1)).offset
  · obtain ⟨hnext, hmeet⟩ := hfills
    rw [if_pos ⟨hnext, hmeet⟩] at hgrow
    by_cases hfull : chunk.nFreeBlocks = maxFreeBlocks
    · refine .inl ⟨hfull, ⟨i, hnext, hend, hmeet⟩, hgrow.trans ?_⟩
      exact removeBlock_full (show i + 1 < (chunk.withBlock i _).nFreeBlocks from hnext) hfull
    · refine .inr ⟨fun h => hfull h.1, ?_⟩
      obtain ⟨chunk', hremove, hwf, hmaxSize, hfree'⟩ := merge_spec h hnext (by omega)
        (b := ⟨(chunk.freeBlocks i).offset,
          (chunk.freeBlocks i).size + size + (chunk.freeBlocks (i + 1)).size⟩) rfl (by
            rw [FreeBlock.stop, FreeBlock.stop]
            dsimp only
            omega)
      refine ⟨chunk', hgrow.trans hremove, hwf, hmaxSize, fun x => ?_⟩
      rw [hfree', hend, hmeet]
  · rw [if_neg hfills] at hgrow
    refine .inr ⟨?_, _, hgrow, ?_, rfl, fun x => ?_⟩
    · rintro ⟨_, j, hj, hstop', hmeet⟩
      have hji := h.stop_inj (show j < chunk.nFreeBlocks by omega) hi (hstop'.trans hend.symm)
      subst hji
      exact hfills ⟨hj, hmeet⟩
    · refine h.update hi (Nat.add_pos_right _ hsize) ?_ ?_ ?_
      · rw [FreeBlock.stop]
        dsimp only
        omega
      · intro j hj
        exact h.stop_lt (by omega) hi
      · intro hnext
        have hgap := h.gap i hnext
        have hpos := h.offset_lt hnext
        have hside := h.apart hsize hfree hnext
        have hne : offset + size ≠ (chunk.freeBlocks (i + 1)).offset := fun h => hfills ⟨hnext, h⟩
        rw [FreeBlock.stop]
        dsimp only
        omega
    · rw [free_update hi, FreeBlock.stop]
      dsimp only
      constructor
      · rintro (hx | ⟨j, hj, _, hx⟩)
        · by_cases hx' : x < offset
          · exact .inl ⟨i, hi, hx.1, hend ▸ hx'⟩
          · exact .inr (by omega)
        · exact .inl ⟨j, hj, hx⟩
      · rintro (⟨j, hj, hx⟩ | hx)
        · by_cases hji : j = i
          · rw [hji, hend] at hx
            exact .inl (by omega)
          · exact .inr ⟨j, hj, hji, hx⟩
        · exact .inl (by omega)

/-- Freed memory is added to the block behind it, where no block ends at it. -/
theorem growStart_spec (h : chunk.Wf capacity) (hi : i < chunk.nFreeBlocks) (hsize : 0 < size)
    (hstart : offset + size = (chunk.freeBlocks i).offset)
    (hnone : ∀ j ≤ i, (chunk.freeBlocks j).stop ≠ offset)
    (hfree : ∀ x, offset ≤ x → x < offset + size → ¬ chunk.Free x) :
    ¬ chunk.Fills offset size ∧ ∃ chunk', growStart chunk i offset size = .ok chunk' ∧
      chunk'.Wf capacity ∧ chunk'.maxSize = chunk.maxSize ∧
      ∀ x, chunk'.Free x ↔ chunk.Free x ∨ offset ≤ x ∧ x < offset + size := by
  have hmax : i < maxFreeBlocks := Nat.lt_of_lt_of_le hi h.count
  have hlt := h.offset_lt hi
  have hgrow : growStart chunk i offset size =
      .ok (chunk.withBlock i ⟨offset, (chunk.freeBlocks i).size + size⟩) := by
    rw [growStart, readBlock_eq hmax]
    simp only [bind, Except.bind, writeBlock_eq hmax]
    by_cases hprev : 0 < i
    · have hother : Function.update chunk.freeBlocks i ⟨offset, (chunk.freeBlocks i).size + size⟩
          (i - 1) = chunk.freeBlocks (i - 1) := Function.update_of_ne (by omega) _ _
      rw [if_pos hprev, readBlock_eq (by omega), hother]
      dsimp only
      -- the block before would have been found first
      have hne : ¬ (chunk.freeBlocks (i - 1)).offset + (chunk.freeBlocks (i - 1)).size = offset :=
        hnone (i - 1) (Nat.sub_le i 1)
      rw [if_neg hne]
      rfl
    · rw [if_neg hprev]
      rfl
  refine ⟨?_, _, hgrow, ?_, rfl, fun x => ?_⟩
  · rintro ⟨j, hj, hstop, hmeet⟩
    rcases Nat.lt_or_ge i j with hij | hij
    · have hgap := h.stop_lt hij (by omega)
      have hpos := h.offset_lt (show j < chunk.nFreeBlocks by omega)
      omega
    · exact hnone j hij hstop
  · refine h.update hi (Nat.add_pos_right _ hsize) ?_ ?_ ?_
    · have hbound := h.bound i hi
      rw [FreeBlock.stop] at hbound ⊢
      dsimp only
      omega
    · intro j hj
      have hgap := h.stop_lt (show j < i by omega) hi
      have hside := h.apart hsize hfree (show j < chunk.nFreeBlocks by omega)
      have hne := hnone j (by omega)
      have hpos := h.offset_lt (show j < chunk.nFreeBlocks by omega)
      dsimp only
      omega
    · intro hnext
      have hgap := h.gap i hnext
      rw [FreeBlock.stop] at hgap ⊢
      dsimp only
      omega
  · rw [free_update hi, FreeBlock.stop]
    rw [FreeBlock.stop] at hlt
    dsimp only
    constructor
    · rintro (hx | ⟨j, hj, _, hx⟩)
      · by_cases hx' : x < offset + size
        · exact .inr ⟨hx.1, hx'⟩
        · refine .inl ⟨i, hi, by omega, ?_⟩
          rw [FreeBlock.stop]
          omega
      · exact .inl ⟨j, hj, hx⟩
    · rintro (⟨j, hj, hx⟩ | hx)
      · by_cases hji : j = i
        · rw [hji, FreeBlock.stop] at hx
          exact .inl (by omega)
        · exact .inr ⟨j, hj, hji, hx⟩
      · exact .inl (by omega)

/-- Freed memory that no block touches becomes a block of its own. -/
theorem insertBlock_spec (h : chunk.Wf capacity) (hsize : 0 < size)
    (hnone : ∀ j < chunk.nFreeBlocks, (chunk.freeBlocks j).stop ≠ offset ∧
      offset + size ≠ (chunk.freeBlocks j).offset)
    (hfree : ∀ x, offset ≤ x → x < offset + size → ¬ chunk.Free x)
    (hcap : offset + size ≤ capacity) :
    chunk.nFreeBlocks = maxFreeBlocks ∧
        insertBlock chunk offset size = .error .outOfFreeBlocks ∨
      ∃ chunk', insertBlock chunk offset size = .ok chunk' ∧ chunk'.Wf capacity ∧
        chunk'.maxSize = chunk.maxSize ∧
        ∀ x, chunk'.Free x ↔ chunk.Free x ∨ offset ≤ x ∧ x < offset + size := by
  have hcount := h.count
  by_cases hfull : chunk.nFreeBlocks < maxFreeBlocks
  · obtain ⟨pos, bs, hinsert, hpos, hbefore, hat, hbs⟩ := insertBlock_eq hfull offset size
    -- the blocks before the place end before the memory, the others start behind it
    have hleft (j : Nat) (hj : j < pos) : (chunk.freeBlocks j).stop < offset := by
      have hlt := hbefore j hj
      have hside := h.apart hsize hfree (show j < chunk.nFreeBlocks by omega)
      have hne := (hnone j (by omega)).1
      omega
    have hright (j : Nat) (hj : pos ≤ j) (hjn : j < chunk.nFreeBlocks) :
        offset + size < (chunk.freeBlocks j).offset := by
      have hle : offset ≤ (chunk.freeBlocks j).offset := by
        have hstart := hat (by omega)
        rcases Nat.eq_or_lt_of_le hj with rfl | hlt
        · exact hstart
        · have hgap := h.stop_lt hlt hjn
          have hlt' := h.offset_lt (show pos < chunk.nFreeBlocks by omega)
          omega
      have hside := h.apart hsize hfree hjn
      have hne := (hnone j hjn).2
      have hlt := h.offset_lt hjn
      omega
    refine .inr ⟨_, hinsert, ⟨hfull, fun i hi => ?_, fun i hi => ?_, fun i hi => ?_⟩, rfl,
      fun x => ?_⟩
    · dsimp only at hi ⊢
      rw [hbs i hi]
      split
      · exact h.pos i (by omega)
      · split
        · exact hsize
        · exact h.pos (i - 1) (by omega)
    · dsimp only at hi ⊢
      rw [hbs i (by omega), hbs (i + 1) hi]
      by_cases hnext : i + 1 < pos
      · rw [if_pos (by omega), if_pos hnext]
        exact h.gap i (by omega)
      · rw [if_neg hnext]
        by_cases hat' : i + 1 = pos
        · rw [if_pos (by omega), if_pos hat']
          exact hleft i (by omega)
        · rw [if_neg hat', if_neg (by omega), Nat.add_sub_cancel]
          by_cases hip : i = pos
          · rw [if_pos hip]
            exact hright i (by omega) (by omega)
          · rw [if_neg hip]
            exact h.stop_lt (by omega) (by omega)
    · dsimp only at hi ⊢
      rw [hbs i hi]
      split
      · exact h.bound i (by omega)
      · split
        · exact hcap
        · exact h.bound (i - 1) (by omega)
    · constructor
      · rintro ⟨i, hi, hx⟩
        dsimp only at hi hx
        rw [hbs i hi] at hx
        split at hx
        · exact .inl ⟨i, by omega, hx⟩
        · split at hx
          · exact .inr hx
          · exact .inl ⟨i - 1, by omega, hx⟩
      · rintro (⟨j, hj, hx⟩ | hx)
        · by_cases hjp : j < pos
          · refine ⟨j, Nat.lt_succ_of_lt hj, ?_⟩
            dsimp only
            rw [hbs j (by omega), if_pos hjp]
            exact hx
          · refine ⟨j + 1, Nat.succ_lt_succ hj, ?_⟩
            dsimp only
            rw [hbs (j + 1) (by omega), if_neg (by omega), if_neg (by omega), Nat.add_sub_cancel]
            exact hx
        · refine ⟨pos, Nat.lt_succ_of_le hpos, ?_⟩
          dsimp only
          rw [hbs pos (by omega), if_neg (Nat.lt_irrefl _), if_pos rfl]
          exact hx
  · refine .inl ⟨by omega, ?_⟩
    rw [insertBlock, if_neg hfull]

/-- Freed memory becomes free; only a full array stands in the way, by the assertion or where the
memory fills the gap between two blocks. -/
theorem freeLoop_spec (h : chunk.Wf capacity) (hsize : 0 < size)
    (hfree : ∀ x, offset ≤ x → x < offset + size → ¬ chunk.Free x)
    (hcap : offset + size ≤ capacity) :
    (chunk.nFreeBlocks = maxFreeBlocks ∧ chunk.Fills offset size ∧
      freeLoop chunk offset size chunk.nFreeBlocks 0 = .error .outOfBounds) ∨
    ¬ (chunk.nFreeBlocks = maxFreeBlocks ∧ chunk.Fills offset size) ∧
      (freeLoop chunk offset size chunk.nFreeBlocks 0 = .error .outOfFreeBlocks ∨
        ∃ chunk', freeLoop chunk offset size chunk.nFreeBlocks 0 = .ok chunk' ∧
          chunk'.Wf capacity ∧ chunk'.maxSize = chunk.maxSize ∧
          ∀ x, chunk'.Free x ↔ chunk.Free x ∨ offset ≤ x ∧ x < offset + size) := by
  have hcount := h.count
  have hfrom (k i : Nat) (hki : i + k = chunk.nFreeBlocks)
      (hnone : ∀ j < i, (chunk.freeBlocks j).stop ≠ offset ∧
        offset + size ≠ (chunk.freeBlocks j).offset) :
      (chunk.nFreeBlocks = maxFreeBlocks ∧ chunk.Fills offset size ∧
        freeLoop chunk offset size k i = .error .outOfBounds) ∨
      ¬ (chunk.nFreeBlocks = maxFreeBlocks ∧ chunk.Fills offset size) ∧
        (freeLoop chunk offset size k i = .error .outOfFreeBlocks ∨
          ∃ chunk', freeLoop chunk offset size k i = .ok chunk' ∧
            chunk'.Wf capacity ∧ chunk'.maxSize = chunk.maxSize ∧
            ∀ x, chunk'.Free x ↔ chunk.Free x ∨ offset ≤ x ∧ x < offset + size) := by
    induction k generalizing i with
    | zero =>
      have hall : ∀ j < chunk.nFreeBlocks, (chunk.freeBlocks j).stop ≠ offset ∧
          offset + size ≠ (chunk.freeBlocks j).offset := fun j hj => hnone j (by omega)
      refine .inr ⟨?_, ?_⟩
      · rintro ⟨_, j, hj, hstop, _⟩
        exact (hall j (by omega)).1 hstop
      · rw [freeLoop]
        rcases insertBlock_spec h hsize hall hfree hcap with ⟨_, herror⟩ | hok
        · exact .inl herror
        · exact .inr hok
    | succ k ih =>
      have hi : i < chunk.nFreeBlocks := by omega
      rw [freeLoop, readBlock_eq (by omega)]
      simp only [bind, Except.bind]
      by_cases hend : (chunk.freeBlocks i).offset + (chunk.freeBlocks i).size = offset
      · rw [if_pos hend]
        rcases growEnd_spec h hi hsize hend hfree hcap with hfault | ⟨hfills, hok⟩
        · exact .inl hfault
        · exact .inr ⟨hfills, .inr hok⟩
      · rw [if_neg hend]
        by_cases hstart : offset + size = (chunk.freeBlocks i).offset
        · rw [if_pos hstart]
          have hbefore : ∀ j ≤ i, (chunk.freeBlocks j).stop ≠ offset := by
            intro j hj
            rcases Nat.eq_or_lt_of_le hj with rfl | hlt
            · exact hend
            · exact (hnone j hlt).1
          obtain ⟨hfills, hok⟩ := growStart_spec h hi hsize hstart hbefore hfree
          exact .inr ⟨fun h => hfills h.2, .inr hok⟩
        · rw [if_neg hstart]
          refine ih (i + 1) (by omega) fun j hj => ?_
          rcases Nat.eq_or_lt_of_le (Nat.le_of_lt_succ hj) with rfl | hlt
          · exact ⟨hend, hstart⟩
          · exact hnone j hlt
  exact hfrom chunk.nFreeBlocks 0 (Nat.zero_add _) fun j hj => absurd hj (Nat.not_lt_zero j)

end ActQuant.Alloc
