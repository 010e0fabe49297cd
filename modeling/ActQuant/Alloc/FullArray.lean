import ActQuant.Alloc.Runs

namespace ActQuant.Alloc

/-! A run that fills the array of a chunk and removes a block from it. -/

/-- Where no block touches the freed memory the loop ends in an insertion. -/
theorem freeLoop_none {chunk : TallocrChunk} (k i : Nat) (hki : i + k ≤ maxFreeBlocks)
    (h : ∀ j, i ≤ j → j < i + k → (chunk.freeBlocks j).stop ≠ offset ∧
      offset + size ≠ (chunk.freeBlocks j).offset) :
    freeLoop chunk offset size k i = insertBlock chunk offset size := by
  induction k generalizing i with
  | zero => rfl
  | succ k ih =>
    obtain ⟨hend, hstart⟩ := h i (Nat.le_refl i) (by omega)
    rw [freeLoop, readBlock_eq (by omega)]
    simp only [bind, Except.bind]
    rw [if_neg (show ¬ (chunk.freeBlocks i).offset + (chunk.freeBlocks i).size = offset from hend),
      if_neg hstart]
    exact ih (i + 1) (by omega) fun j hj hjk => h j (by omega) (by omega)

/-- Of blocks that fit exactly the last one is the best. -/
theorem scanBlocks_exact {bs : Nat → FreeBlock} (k i bestFitSize : Nat)
    (hki : i + (k + 1) ≤ maxFreeBlocks)
    (h : ∀ j, i ≤ j → j < i + (k + 1) → (bs j).size = size) (hfit : size ≤ bestFitSize)
    (best : Option (Nat × Nat)) :
    scanBlocks c bs size (k + 1) i bestFitSize best = .ok (some (c, i + k)) := by
  induction k generalizing i bestFitSize best with
  | zero =>
    have hsize := h i (Nat.le_refl i) (Nat.lt_succ_self i)
    rw [scanBlocks, readBlock_eq (by omega)]
    simp only [bind, Except.bind]
    rw [hsize, if_pos ⟨Nat.le_refl size, hfit⟩]
    rfl
  | succ k ih =>
    have hsize := h i (Nat.le_refl i) (by omega)
    rw [scanBlocks, readBlock_eq (by omega)]
    simp only [bind, Except.bind]
    have hlast : i + (k + 1) = i + 1 + k := by omega
    rw [hsize, if_pos ⟨Nat.le_refl size, hfit⟩, hlast]
    exact ih (i + 1) size (by omega) (fun j hj hjk => h j (by omega) (by omega)) (Nat.le_refl size)
      (some (c, i))

/-- The blocks of one byte, at some places. -/
def bytesAt (places : List Nat) : List Live := places.map fun x => ⟨0, x, 1⟩

/-- A chunk of a thousand bytes, with the last block from some place on. -/
def oneChunk (bs : Nat → FreeBlock) (n maxSize : Nat) : DynTallocr := ⟨1, 1000, [⟨bs, n, maxSize⟩]⟩

abbrev startHeap : Heap := emptyHeap (newTallocr 1 1000)

theorem alignedOffset_one (n : Nat) : alignedOffset n 1 = n := by
  rw [alignedOffset, Nat.mod_one, Nat.add_zero]

theorem bytesAt_append (l₁ l₂ : List Nat) : bytesAt (l₁ ++ l₂) = bytesAt l₁ ++ bytesAt l₂ :=
  List.map_append

theorem fits_byte : (Op.alloc 1).Fits 1 := ⟨Nat.one_pos, by decide⟩

/-- Bytes are handed out one after the other. -/
theorem reaches_bytes (m : Nat) (hm : m < 999) :
    ∃ bs maxSize issued, bs 0 = ⟨m + 1, 1000 - (m + 1)⟩ ∧
      Reaches 1 startHeap ⟨oneChunk bs 1 maxSize, bytesAt (List.range (m + 1)), issued, [1000]⟩ := by
  induction m with
  | zero =>
    exact ⟨_, _, _, rfl, .step .start fits_byte rfl⟩
  | succ m ih =>
    obtain ⟨bs, maxSize, issued, hbs, hreach⟩ := ih (by omega)
    have hlast : scanLast 1 [⟨bs, 1, maxSize⟩] 0 = .ok (some (0, 0)) := by
      rw [scanLast, if_pos Nat.one_pos]
      simp only [bind, Except.bind]
      rw [Nat.sub_self, readBlock_eq (show 0 < maxFreeBlocks by decide), hbs]
      dsimp only
      rw [ if_pos (show 1 ≤ 1000 - (m + 1) by omega)]
    have hchoose : chooseBlock (oneChunk bs 1 maxSize) 1 = .ok (oneChunk bs 1 maxSize, 0, 0) := by
      rw [chooseBlock, oneChunk]
      simp only [bind, Except.bind]
      rw [show scanChunks 1 [⟨bs, 1, maxSize⟩] 0 none = .ok none from rfl]
      dsimp only
      rw [hlast]
    have hcarve : carve ⟨bs, 1, maxSize⟩ 0 1 =
        .ok (⟨Function.update bs 0 ⟨m + 1 + 1, 1000 - (m + 1) - 1⟩, 1, max maxSize (m + 1 + 1)⟩,
          m + 1) := by
      rw [carve, readBlock_eq (by decide)]
      simp only [bind, Except.bind, writeBlock_eq (show 0 < maxFreeBlocks by decide), hbs]
      rw [if_neg (by omega)]
      rfl
    have hstep : heapStep ⟨oneChunk bs 1 maxSize, bytesAt (List.range (m + 1)), issued, [1000]⟩
        (.alloc 1) = .ok ⟨oneChunk (Function.update bs 0 ⟨m + 1 + 1, 1000 - (m + 1) - 1⟩) 1
          (max maxSize (m + 1 + 1)), bytesAt (List.range (m + 1)) ++ [⟨0, m + 1, 1⟩],
          issued ++ [⟨0, m + 1, 1⟩], [1000]⟩ := by
      rw [heapStep, tallocrAlloc]
      simp only [bind, Except.bind]
      rw [show alignedOffset 1 (oneChunk bs 1 maxSize).alignment = 1 from alignedOffset_one 1,
        hchoose]
      dsimp only
      rw [show chunkAt (oneChunk bs 1 maxSize) 0 = ⟨bs, 1, maxSize⟩ from rfl, hcarve]
      rfl
    refine ⟨Function.update bs 0 ⟨m + 1 + 1, 1000 - (m + 1) - 1⟩, max maxSize (m + 1 + 1),
      issued ++ [⟨0, m + 1, 1⟩], ?_, ?_⟩
    · rw [Function.update_self, Nat.sub_sub]
    · rw [List.range_succ, bytesAt_append]
      exact .step hreach fits_byte hstep

/-- The bytes in use when every other one of the first is freed. -/
def remaining (k : Nat) : List Live :=
  bytesAt ((List.range k).map fun j => 2 * j + 1) ++ bytesAt (List.range' (2 * k) (511 - 2 * k))

/-- Every other byte is freed: no two of them touch. -/
theorem reaches_gaps (k : Nat) (hk : k ≤ 255) :
    ∃ bs maxSize issued, (∀ i < k, bs i = ⟨2 * i, 1⟩) ∧ bs k = ⟨511, 489⟩ ∧
      Reaches 1 startHeap ⟨oneChunk bs (k + 1) maxSize, remaining k, issued, [1000]⟩ := by
  induction k with
  | zero =>
    obtain ⟨bs, maxSize, issued, hbs, hreach⟩ := reaches_bytes 510 (by decide)
    refine ⟨bs, maxSize, issued, fun i hi => absurd hi (Nat.not_lt_zero i), hbs, ?_⟩
    have hall : remaining 0 = bytesAt (List.range (510 + 1)) := by
      rw [remaining, List.range_zero, List.map_nil, Nat.mul_zero, Nat.sub_zero,
        ← List.range_eq_range']
      exact List.nil_append _
    rw [hall]
    exact hreach
  | succ k ih =>
    obtain ⟨bs, maxSize, issued, hbs, hlast, hreach⟩ := ih (by omega)
    have hodds : (bytesAt ((List.range k).map fun j => 2 * j + 1)).length = k := by
      rw [bytesAt, List.length_map, List.length_map, List.length_range]
    have hrest : bytesAt (List.range' (2 * k) (511 - 2 * k)) =
        ⟨0, 2 * k, 1⟩ :: ⟨0, 2 * k + 1, 1⟩ ::
          bytesAt (List.range' (2 * (k + 1)) (511 - 2 * (k + 1))) := by
      have hlen : 511 - 2 * k = 511 - 2 * (k + 1) + 1 + 1 := by omega
      rw [hlen, List.range'_succ, List.range'_succ]
      rfl
    have hlive : (remaining k)[k]? = some ⟨0, 2 * k, 1⟩ := by
      rw [remaining, List.getElem?_append_right (Nat.le_of_eq hodds), hodds, Nat.sub_self, hrest]
      rfl
    have herase : (remaining k).eraseIdx k = remaining (k + 1) := by
      rw [remaining, List.eraseIdx_append_of_length_le (Nat.le_of_eq hodds), hodds, Nat.sub_self,
        hrest, remaining, List.range_succ, List.map_append, bytesAt_append, List.append_assoc]
      rfl
    have htouch : ∀ j, 0 ≤ j → j < 0 + (k + 1) → (bs j).stop ≠ 2 * k ∧
        2 * k + 1 ≠ (bs j).offset := by
      intro j _ hj
      by_cases hjk : j < k
      · rw [hbs j hjk, FreeBlock.stop]
        dsimp only
        omega
      · obtain rfl : j = k := by omega
        rw [hlast, FreeBlock.stop]
        dsimp only
        omega
    obtain ⟨pos, bs', hinsert, hpos, hbefore, hat, hbs'⟩ :=
      insertBlock_eq (show (⟨bs, k + 1, maxSize⟩ : TallocrChunk).nFreeBlocks < maxFreeBlocks from by
        show k + 1 < maxFreeBlocks
        rw [maxFreeBlocks]; omega) (2 * k) 1
    have hposk : pos = k := by
      dsimp only at hpos hbefore hat
      by_contra hne
      rcases Nat.lt_or_gt_of_ne hne with hlt | hlt
      · have hle := hat (by omega)
        rw [hbs pos hlt] at hle
        dsimp only at hle
        omega
      · have hlt' := hbefore k hlt
        rw [hlast] at hlt'
        dsimp only at hlt'
        omega
    subst hposk
    dsimp only at hinsert hbs'
    have hfree : freeLoop ⟨bs, pos + 1, maxSize⟩ (2 * pos) 1 (pos + 1) 0 =
        .ok ⟨bs', pos + 1 + 1, maxSize⟩ :=
      (freeLoop_none _ _ (by rw [maxFreeBlocks]; omega) htouch).trans hinsert
    have hstep : heapStep ⟨oneChunk bs (pos + 1) maxSize, remaining pos, issued, [1000]⟩
        (.free pos) =
          .ok ⟨oneChunk bs' (pos + 1 + 1) maxSize, remaining (pos + 1), issued, [1000]⟩ := by
      rw [heapStep, hlive]
      dsimp only
      rw [tallocrFree]
      rw [show alignedOffset 1 (oneChunk bs (pos + 1) maxSize).alignment = 1 from
        alignedOffset_one 1]
      rw [show chunkAt (oneChunk bs (pos + 1) maxSize) 0 = ⟨bs, pos + 1, maxSize⟩ from rfl]
      simp only [bind, Except.bind]
      rw [hfree, herase]
      rfl
    have hfits : (Op.free pos).Fits 1 := trivial
    refine ⟨bs', maxSize, issued, fun i hi => ?_, ?_, .step hreach hfits hstep⟩
    · rw [hbs' i (by omega)]
      by_cases hip : i = pos
      · rw [if_neg (by omega), if_pos hip, hip]
      · rw [if_pos (by omega)]
        exact hbs i (by omega)
    · rw [hbs' (pos + 1) (by omega), if_neg (by omega), if_neg (by omega), Nat.add_sub_cancel]
      exact hlast

/-- With all 256 places of the array in use, to hand out the last byte of a block is to read behind
the array. -/
theorem tallocr_reads_behind :
    ∃ heap, Reaches 1 startHeap heap ∧ (Op.alloc 1).Fits 1 ∧
      heapStep heap (.alloc 1) = .error .outOfBounds := by
  obtain ⟨bs, maxSize, issued, hbs, hlast, hreach⟩ := reaches_gaps 255 (Nat.le_refl _)
  refine ⟨_, hreach, fits_byte, ?_⟩
  have hscan : scanChunks 1 [⟨bs, 255 + 1, maxSize⟩] 0 none = .ok (some (0, 0 + 254)) := by
    rw [scanChunks]
    dsimp only
    rw [Nat.add_sub_cancel, scanBlocks_exact 254 0 sizeMax (by decide) (fun j _ hj => ?_)
      (by decide)]
    · rfl
    · rw [hbs j (by omega)]
  have hchoose : chooseBlock (oneChunk bs (255 + 1) maxSize) 1 =
      .ok (oneChunk bs (255 + 1) maxSize, 0, 254) := by
    rw [chooseBlock, oneChunk]
    simp only [bind, Except.bind]
    rw [hscan]
  have hcarve : carve ⟨bs, 255 + 1, maxSize⟩ 254 1 = .error .outOfBounds := by
    rw [carve, readBlock_eq (by decide)]
    simp only [bind, Except.bind, writeBlock_eq (show 254 < maxFreeBlocks by decide),
      hbs 254 (by decide)]
    rw [if_pos trivial, removeBlock_full (show 254 < 255 + 1 by decide) rfl]
  rw [heapStep, tallocrAlloc]
  simp only [bind, Except.bind]
  rw [show alignedOffset 1 (oneChunk bs (255 + 1) maxSize).alignment = 1 from alignedOffset_one 1,
    hchoose]
  dsimp only
  rw [show chunkAt (oneChunk bs (255 + 1) maxSize) 0 = ⟨bs, 255 + 1, maxSize⟩ from rfl, hcarve]

end ActQuant.Alloc
