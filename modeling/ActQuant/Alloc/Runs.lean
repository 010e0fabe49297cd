import ActQuant.Alloc.ChunkSpec
import Mathlib.Data.List.GetD

namespace ActQuant.Alloc

/-! The allocator with the blocks it has handed out. -/

/-- A block that was handed out: where, and the size that was asked for. -/
structure Live where
  chunk : Nat
  offset : Nat
  size : Nat

/-- The allocator, the blocks that are in use, all blocks that ever were, and the capacities its
chunks were made with. -/
structure Heap where
  alloc : DynTallocr
  live : List Live
  issued : List Live
  capacities : List Nat

inductive Op where
  | alloc (size : Nat)
  | free (i : Nat)

def emptyHeap (alloc : DynTallocr) : Heap := ⟨alloc, [], [], []⟩

/-- One call; a free is of a block in use, with the size it was asked for. -/
def heapStep (h : Heap) : Op → Except Fault Heap
  | .alloc size => do
    let (alloc, addr) ← tallocrAlloc h.alloc size
    let block : Live := ⟨addr.chunk, addr.offset, size⟩
    let capacities :=
      if alloc.chunks.length = h.alloc.chunks.length then h.capacities
      else h.capacities ++ [newChunkSize h.alloc (alignedOffset size h.alloc.alignment)]
    return ⟨alloc, h.live ++ [block], h.issued ++ [block], capacities⟩
  | .free i =>
    match h.live[i]? with
    | none => .ok h
    | some block => do
      let alloc ← tallocrFree h.alloc ⟨block.chunk, block.offset⟩ block.size
      return { h with alloc := alloc, live := h.live.eraseIdx i }

/-- Sizes are positive, and fit the last chunk when they are padded. -/
def Op.Fits (alignment : Nat) : Op → Prop
  | .alloc size => 0 < size ∧ alignedOffset size alignment ≤ sizeMax / 2
  | .free _ => True

/-- The heaps that calls lead to. -/
inductive Reaches (alignment : Nat) (start : Heap) : Heap → Prop where
  | start : Reaches alignment start start
  | step (h : Reaches alignment start heap) (hop : op.Fits alignment)
      (hstep : heapStep heap op = .ok heap') : Reaches alignment start heap'

/-- The memory of a block: its size, padded. -/
def Heap.span (h : Heap) (b : Live) : Nat := alignedOffset b.size h.alloc.alignment

def Heap.capacity (h : Heap) (c : Nat) : Nat := h.capacities.getD c 0

/-- A place of a chunk is in use. -/
def Heap.Used (h : Heap) (c x : Nat) : Prop :=
  ∃ b ∈ h.live, b.chunk = c ∧ b.offset ≤ x ∧ x < b.offset + h.span b

structure Heap.Wf (h : Heap) : Prop where
  /-- Each chunk has its capacity. -/
  capacities_eq : h.capacities.length = h.alloc.chunks.length
  /-- Free blocks are sorted, not empty, and apart from each other. -/
  chunks : ∀ c < h.alloc.chunks.length, (chunkAt h.alloc c).Wf (h.capacity c)
  /-- Blocks in use are in a chunk, not empty, and aligned. -/
  inside : ∀ b ∈ h.live, b.chunk < h.alloc.chunks.length ∧ 0 < h.span b ∧
    b.offset + h.span b ≤ h.capacity b.chunk ∧ h.alloc.alignment ∣ b.offset
  /-- Blocks in use do not overlap. -/
  disjoint : h.live.Pairwise fun b b' => b.chunk = b'.chunk →
    b.offset + h.span b ≤ b'.offset ∨ b'.offset + h.span b' ≤ b.offset
  /-- What is not free is in use, and nothing is both. -/
  cover : ∀ c < h.alloc.chunks.length, ∀ x < h.capacity c,
    (h.Used c x ↔ ¬ (chunkAt h.alloc c).Free x)
  /-- No block ever ended behind the greatest size of its chunk. -/
  issued : ∀ b ∈ h.issued, b.chunk < h.alloc.chunks.length ∧
    b.offset + h.span b ≤ (chunkAt h.alloc b.chunk).maxSize

/-! ### Sizes and starts -/

theorem le_alignedOffset (offset alignment : Nat) : offset ≤ alignedOffset offset alignment :=
  Nat.le_add_right _ _

theorem dvd_alignedOffset (h : 0 < alignment) (offset : Nat) :
    alignment ∣ alignedOffset offset alignment := by
  have hmod := Nat.mod_lt offset h
  have hdiv := Nat.div_add_mod offset alignment
  rw [alignedOffset]
  rcases Nat.eq_zero_or_pos (offset % alignment) with hzero | hpos
  · rw [hzero, Nat.sub_zero, Nat.mod_self, Nat.add_zero]
    exact Nat.dvd_of_mod_eq_zero hzero
  · rw [Nat.mod_eq_of_lt (Nat.sub_lt h hpos)]
    refine ⟨offset / alignment + 1, ?_⟩
    rw [Nat.mul_add, Nat.mul_one]
    omega

theorem TallocrChunk.Wf.free_lt {chunk : TallocrChunk} (h : chunk.Wf capacity)
    (hx : chunk.Free x) : x < capacity := by
  obtain ⟨i, hi, _, hlt⟩ := hx
  exact Nat.lt_of_lt_of_le hlt (h.bound i hi)

/-- In front of a free block nothing is free. -/
theorem TallocrChunk.Wf.not_free_before {chunk : TallocrChunk} (h : chunk.Wf capacity)
    (hi : i < chunk.nFreeBlocks) (hx : x + 1 = (chunk.freeBlocks i).offset) : ¬ chunk.Free x := by
  rintro ⟨j, hj, hx₁, hx₂⟩
  rcases Nat.lt_trichotomy i j with hlt | rfl | hlt
  · have hgap := h.stop_lt hlt hj
    have hpos := h.offset_lt hi
    omega
  · omega
  · have hgap := h.stop_lt hlt hi
    omega

/-- Free blocks are aligned, since they start where a block in use ends. -/
theorem Heap.Wf.aligned {h : Heap} (hw : h.Wf) (ha : 0 < h.alloc.alignment)
    (hc : c < h.alloc.chunks.length) (hi : i < (chunkAt h.alloc c).nFreeBlocks) :
    h.alloc.alignment ∣ ((chunkAt h.alloc c).freeBlocks i).offset := by
  have hchunk := hw.chunks c hc
  have hlt := hchunk.offset_lt hi
  have hbound := hchunk.bound i hi
  cases hoffset : ((chunkAt h.alloc c).freeBlocks i).offset with
  | zero => exact Nat.dvd_zero _
  | succ x =>
    have hnot := hchunk.not_free_before hi hoffset.symm
    obtain ⟨b, hb, hbc, hle, hlt'⟩ := (hw.cover c hc x (by omega)).2 hnot
    -- the block in use ends before the free one starts
    have hend : b.offset + h.span b = x + 1 := by
      by_contra hne
      have hfree : (chunkAt h.alloc c).Free (x + 1) := ⟨i, hi, by omega, by omega⟩
      exact (hw.cover c hc (x + 1) (by omega)).1 ⟨b, hb, hbc, by omega, by omega⟩ hfree
    rw [← hend]
    exact Nat.dvd_add (hw.inside b hb).2.2.2 (dvd_alignedOffset ha b.size)

/-! Every run of the allocator. -/

/-- A block is large enough, and there. -/
def Suits (alloc : DynTallocr) (size : Nat) (p : Nat × Nat) : Prop :=
  p.1 < alloc.chunks.length ∧ p.2 < (chunkAt alloc p.1).nFreeBlocks ∧
    size ≤ ((chunkAt alloc p.1).freeBlocks p.2).size

theorem scanBlocks_eq {bs : Nat → FreeBlock} {P : Nat × Nat → Prop} (k i bestFitSize : Nat)
    (h : i + k ≤ maxFreeBlocks)
    (hP : ∀ j, i ≤ j → j < i + k → size ≤ (bs j).size → P (c, j)) (hbest : ∀ p ∈ best, P p) :
    ∃ best', scanBlocks c bs size k i bestFitSize best = .ok best' ∧ ∀ p ∈ best', P p := by
  induction k generalizing i bestFitSize best with
  | zero => exact ⟨best, rfl, hbest⟩
  | succ k ih =>
    rw [scanBlocks, readBlock_eq (by omega)]
    simp only [bind, Except.bind]
    split
    case isTrue hfit =>
      refine ih (i + 1) _ (by omega) (fun j hj hjk => hP j (by omega) (by omega)) ?_
      intro p hp
      cases hp
      exact hP i (Nat.le_refl i) (by omega) hfit.1
    case isFalse =>
      exact ih (i + 1) _ (by omega) (fun j hj hjk => hP j (by omega) (by omega)) hbest

theorem chunkAt_append {alloc : DynTallocr} (h : alloc.chunks = pre ++ chunk :: post) :
    chunkAt alloc pre.length = chunk := by
  rw [chunkAt, h, List.getD_eq_getElem?_getD, List.getElem?_append_right (Nat.le_refl _),
    Nat.sub_self]
  rfl

theorem scanChunks_eq {alloc : DynTallocr} {chunks : List TallocrChunk} (size : Nat)
    (pre : List TallocrChunk) (best : Option (Nat × Nat))
    (hcount : ∀ chunk ∈ alloc.chunks, chunk.nFreeBlocks ≤ maxFreeBlocks)
    (h : alloc.chunks = pre ++ chunks) (hbest : ∀ p ∈ best, Suits alloc size p) :
    ∃ best', scanChunks size chunks pre.length best = .ok best' ∧
      ∀ p ∈ best', Suits alloc size p := by
  induction chunks generalizing pre best with
  | nil => exact ⟨best, rfl, hbest⟩
  | cons chunk chunks ih =>
    have hat := chunkAt_append h
    have hlen := congrArg List.length h
    rw [List.length_append, List.length_cons] at hlen
    have hle := hcount chunk (by simp [h])
    obtain ⟨best', hscan, hbest'⟩ := scanBlocks_eq (P := Suits alloc size) (c := pre.length)
      (chunk.nFreeBlocks - 1) 0 sizeMax (by omega)
      (fun j _ hj hfit => ⟨by omega, by rw [hat]; omega, by rw [hat]; exact hfit⟩) hbest
    rw [scanChunks, hscan]
    have hrest := ih (pre ++ [chunk]) best' (by rw [h, List.append_assoc]; rfl) hbest'
    rwa [List.length_append, List.length_singleton] at hrest

theorem scanLast_eq {alloc : DynTallocr} {chunks : List TallocrChunk} (size : Nat)
    (pre : List TallocrChunk)
    (hcount : ∀ chunk ∈ alloc.chunks, chunk.nFreeBlocks ≤ maxFreeBlocks)
    (h : alloc.chunks = pre ++ chunks) :
    ∃ best, scanLast size chunks pre.length = .ok best ∧ ∀ p ∈ best, Suits alloc size p := by
  induction chunks generalizing pre with
  | nil => exact ⟨none, rfl, fun p hp => by cases hp⟩
  | cons chunk chunks ih =>
    have hat := chunkAt_append h
    have hlen := congrArg List.length h
    rw [List.length_append, List.length_cons] at hlen
    have hle := hcount chunk (by simp [h])
    have hrest := ih (pre ++ [chunk]) (by rw [h, List.append_assoc]; rfl)
    rw [List.length_append, List.length_singleton] at hrest
    rw [scanLast]
    split
    case isTrue hpos =>
      rw [readBlock_eq (by omega)]
      simp only [bind, Except.bind]
      split
      case isTrue hfit =>
        refine ⟨_, rfl, ?_⟩
        intro p hp
        cases hp
        exact ⟨by omega, by rw [hat]; omega, by rw [hat]; exact hfit⟩
      case isFalse => exact hrest
    case isFalse => exact hrest

/-- A size gets a block that is large enough, or the only block of a new chunk. -/
theorem chooseBlock_eq {alloc : DynTallocr} (size : Nat)
    (hcount : ∀ chunk ∈ alloc.chunks, chunk.nFreeBlocks ≤ maxFreeBlocks) :
    (∃ p, chooseBlock alloc size = .ok (alloc, p) ∧ Suits alloc size p) ∨
      (∃ alloc', newChunk alloc size = some alloc' ∧
        chooseBlock alloc size = .ok (alloc', alloc.chunks.length, 0)) ∨
      chooseBlock alloc size = .error .outOfMemory := by
  obtain ⟨best, hbest, hsuits⟩ := scanChunks_eq size [] none hcount
    (List.nil_append _).symm (fun p hp => by cases hp)
  obtain ⟨last, hlast, hsuits'⟩ := scanLast_eq size [] hcount (List.nil_append _).symm
  rw [List.length_nil] at hbest hlast
  rw [chooseBlock, hbest]
  simp only [bind, Except.bind]
  cases best with
  | some p => exact .inl ⟨p, rfl, hsuits p rfl⟩
  | none =>
    rw [hlast]
    cases last with
    | some p => exact .inl ⟨p, rfl, hsuits' p rfl⟩
    | none =>
      cases hnew : newChunk alloc size with
      | some alloc' => exact .inr (.inl ⟨alloc', rfl, rfl⟩)
      | none => exact .inr (.inr rfl)

theorem chunkAt_set {alloc : DynTallocr} (hc : c < alloc.chunks.length) (chunk : TallocrChunk)
    (c' : Nat) :
    chunkAt { alloc with chunks := alloc.chunks.set c chunk } c' =
      if c' = c then chunk else chunkAt alloc c' := by
  rw [chunkAt, chunkAt, List.getD_eq_getElem?_getD, List.getD_eq_getElem?_getD]
  by_cases h : c' = c
  · subst h
    rw [if_pos rfl, List.getElem?_set_self hc]
    rfl
  · rw [if_neg h, List.getElem?_set_ne (Ne.symm h)]

theorem mem_chunks {alloc : DynTallocr} (h : chunk ∈ alloc.chunks) :
    ∃ c < alloc.chunks.length, chunkAt alloc c = chunk := by
  obtain ⟨c, hc, rfl⟩ := List.getElem_of_mem h
  exact ⟨c, hc, List.getD_eq_getElem _ _ hc⟩

theorem Heap.Wf.count {h : Heap} (hw : h.Wf) :
    ∀ chunk ∈ h.alloc.chunks, chunk.nFreeBlocks ≤ maxFreeBlocks := by
  intro chunk hchunk
  obtain ⟨c, hc, rfl⟩ := mem_chunks hchunk
  exact (hw.chunks c hc).count

theorem wf_emptyHeap (alignment maxBufferSize : Nat) :
    (emptyHeap (newTallocr alignment maxBufferSize)).Wf where
  capacities_eq := rfl
  chunks c hc := absurd hc (Nat.not_lt_zero c)
  inside _ hb := absurd hb List.not_mem_nil
  disjoint := .nil
  cover c hc := absurd hc (Nat.not_lt_zero c)
  issued _ hb := absurd hb List.not_mem_nil

/-- A new chunk is one free block. -/
theorem Heap.Wf.grow {h : Heap} (hw : h.Wf) (hnew : newChunk h.alloc size = some alloc')
    (hsize : 0 < newChunkSize h.alloc size) :
    Heap.Wf ⟨alloc', h.live, h.issued, h.capacities ++ [newChunkSize h.alloc size]⟩ ∧
      alloc'.alignment = h.alloc.alignment ∧
      alloc'.chunks.length = h.alloc.chunks.length + 1 ∧
      (chunkAt alloc' h.alloc.chunks.length).nFreeBlocks = 1 ∧
      ((chunkAt alloc' h.alloc.chunks.length).freeBlocks 0).size = newChunkSize h.alloc size := by
  rw [newChunk] at hnew
  split at hnew
  · cases hnew
  · cases hnew
    have hlast (rest : TallocrChunk) : chunkAt { h.alloc with
        chunks := h.alloc.chunks ++ [rest] } h.alloc.chunks.length = rest :=
      chunkAt_append (show _ = h.alloc.chunks ++ rest :: [] from rfl)
    have hold (rest : TallocrChunk) {c : Nat} (hc : c < h.alloc.chunks.length) :
        chunkAt { h.alloc with chunks := h.alloc.chunks ++ [rest] } c = chunkAt h.alloc c := by
      rw [chunkAt, chunkAt, List.getD_append _ _ _ _ hc]
    have hcapLast : (h.capacities ++ [newChunkSize h.alloc size]).getD h.alloc.chunks.length 0 =
        newChunkSize h.alloc size := by
      rw [← hw.capacities_eq, List.getD_append_right _ _ _ _ (Nat.le_refl _), Nat.sub_self]
      rfl
    have hcapOld {c : Nat} (hc : c < h.alloc.chunks.length) :
        (h.capacities ++ [newChunkSize h.alloc size]).getD c 0 = h.capacity c :=
      List.getD_append _ _ _ _ (by rwa [hw.capacities_eq])
    have hlen (rest : TallocrChunk) :
        (h.alloc.chunks ++ [rest]).length = h.alloc.chunks.length + 1 := by
      rw [List.length_append, List.length_singleton]
    refine ⟨⟨?_, fun c hc => ?_, fun b hb => ?_, hw.disjoint, fun c hc x hx => ?_,
      fun b hb => ?_⟩, rfl, hlen _, ?_, ?_⟩
    · dsimp only
      rw [List.length_append, hw.capacities_eq, hlen]
      rfl
    · rw [hlen] at hc
      rw [Heap.capacity]
      dsimp only
      rcases Nat.eq_or_lt_of_le (Nat.le_of_lt_succ hc) with rfl | hlt
      · rw [hlast, hcapLast]
        refine ⟨Nat.succ_le_of_lt (Nat.zero_lt_succ 255), fun i hi => ?_, fun i hi => ?_,
          fun i hi => ?_⟩
        · cases Nat.lt_one_iff.1 hi
          exact hsize
        · exact absurd (Nat.lt_one_iff.1 hi) (Nat.succ_ne_zero i)
        · cases Nat.lt_one_iff.1 hi
          exact Nat.le_of_eq (Nat.zero_add _)
      · rw [hold _ hlt, hcapOld hlt]
        exact hw.chunks c hlt
    · obtain ⟨hc, hpos, hle, hdvd⟩ := hw.inside b hb
      refine ⟨?_, hpos, ?_, hdvd⟩
      · rw [hlen]
        exact Nat.lt_succ_of_lt hc
      · rw [Heap.capacity, hcapOld hc]
        exact hle
    · rw [hlen] at hc
      rcases Nat.eq_or_lt_of_le (Nat.le_of_lt_succ hc) with rfl | hlt
      · rw [Heap.capacity] at hx
        dsimp only at hx
        rw [hcapLast] at hx
        refine iff_of_false ?_ (not_not.2 ?_)
        · rintro ⟨b, hb, hbc, _⟩
          exact Nat.ne_of_lt (hw.inside b hb).1 hbc
        · dsimp only
          rw [hlast]
          refine ⟨0, Nat.one_pos, Nat.zero_le x, ?_⟩
          rw [FreeBlock.stop]
          dsimp only
          rw [if_pos rfl, Nat.zero_add]
          exact hx
      · rw [Heap.capacity] at hx
        dsimp only at hx ⊢
        rw [hcapOld hlt] at hx
        rw [hold _ hlt]
        exact hw.cover c hlt x hx
    · obtain ⟨hc, hle⟩ := hw.issued b hb
      refine ⟨?_, ?_⟩
      · rw [hlen]
        exact Nat.lt_succ_of_lt hc
      · dsimp only
        rw [hold _ hc]
        exact hle
    · rw [hlast]
    · rw [hlast]
      rfl

/-- The start of a free block is handed out. -/
theorem Heap.Wf.hand {h : Heap} (hw : h.Wf) (ha : 0 < h.alloc.alignment)
    (hc : c < h.alloc.chunks.length) (hi : i < (chunkAt h.alloc c).nFreeBlocks)
    (hpos : 0 < alignedOffset size h.alloc.alignment)
    (hle : alignedOffset size h.alloc.alignment ≤ ((chunkAt h.alloc c).freeBlocks i).size)
    (hwf : chunk'.Wf (h.capacity c))
    (hmax : chunk'.maxSize = max (chunkAt h.alloc c).maxSize
      (((chunkAt h.alloc c).freeBlocks i).offset + alignedOffset size h.alloc.alignment))
    (hfree : ∀ x, chunk'.Free x ↔ (chunkAt h.alloc c).Free x ∧
      ¬ (((chunkAt h.alloc c).freeBlocks i).offset ≤ x ∧
        x < ((chunkAt h.alloc c).freeBlocks i).offset + alignedOffset size h.alloc.alignment)) :
    Heap.Wf ⟨{ h.alloc with chunks := h.alloc.chunks.set c chunk' },
      h.live ++ [⟨c, ((chunkAt h.alloc c).freeBlocks i).offset, size⟩],
      h.issued ++ [⟨c, ((chunkAt h.alloc c).freeBlocks i).offset, size⟩], h.capacities⟩ := by
  have hdvd := hw.aligned ha hc hi
  have hbound := (hw.chunks c hc).bound i hi
  have hstart (x : Nat) (h₁ : ((chunkAt h.alloc c).freeBlocks i).offset ≤ x)
      (h₂ : x < ((chunkAt h.alloc c).freeBlocks i).offset + alignedOffset size h.alloc.alignment) :
      (chunkAt h.alloc c).Free x := ⟨i, hi, h₁, by rw [FreeBlock.stop]; omega⟩
  rw [FreeBlock.stop] at hbound
  generalize ((chunkAt h.alloc c).freeBlocks i).offset = offset at hmax hfree hdvd hbound hstart ⊢
  have hat := chunkAt_set hc chunk'
  refine ⟨?_, fun c' hc' => ?_, fun b hb => ?_, ?_, fun c' hc' x hx => ?_, fun b hb => ?_⟩
  · exact hw.capacities_eq.trans List.length_set.symm
  · rw [List.length_set] at hc'
    dsimp only
    rw [hat]
    split
    case isTrue heq =>
      rw [heq]
      exact hwf
    case isFalse => exact hw.chunks c' hc'
  · dsimp only at hb ⊢
    rw [List.length_set]
    rcases List.mem_append.1 hb with hb | hb
    · exact hw.inside b hb
    · cases List.mem_singleton.1 hb
      refine ⟨hc, hpos, ?_, hdvd⟩
      exact Nat.le_trans (Nat.add_le_add_left hle offset) hbound
  · refine List.pairwise_append.2 ⟨hw.disjoint, List.pairwise_singleton _ _, ?_⟩
    intro b hb b' hb' hchunk
    cases List.mem_singleton.1 hb'
    dsimp only at hchunk ⊢
    by_contra hover
    obtain ⟨h₁, h₂⟩ := not_or.1 hover
    change ¬ b.offset + h.span b ≤ offset at h₁
    change ¬ offset + alignedOffset size h.alloc.alignment ≤ b.offset at h₂
    obtain ⟨_, hspan, hin, _⟩ := hw.inside b hb
    -- a place of both
    have hx : (chunkAt h.alloc c).Free (max b.offset offset) := hstart _ (by omega) (by omega)
    have hlt := (hw.chunks c hc).free_lt hx
    exact (hw.cover c hc _ hlt).1 ⟨b, hb, hchunk, by omega, by omega⟩ hx
  · rw [List.length_set] at hc'
    have hold := hw.cover c' hc' x hx
    have hused : Heap.Used ⟨{ h.alloc with chunks := h.alloc.chunks.set c chunk' },
        h.live ++ [⟨c, offset, size⟩], h.issued ++ [⟨c, offset, size⟩], h.capacities⟩ c' x ↔
          h.Used c' x ∨
            c' = c ∧ offset ≤ x ∧ x < offset + alignedOffset size h.alloc.alignment := by
      constructor
      · rintro ⟨b, hb, hbc, hx⟩
        rcases List.mem_append.1 hb with hb | hb
        · exact .inl ⟨b, hb, hbc, hx⟩
        · cases List.mem_singleton.1 hb
          exact .inr ⟨hbc.symm, hx⟩
      · rintro (⟨b, hb, hbc, hin⟩ | ⟨heq, hin⟩)
        · exact ⟨b, List.mem_append_left _ hb, hbc, hin⟩
        · exact ⟨_, List.mem_append_right _ List.mem_cons_self, heq.symm, hin⟩
    rw [hused, hold]
    dsimp only
    rw [hat]
    split
    case isTrue heq =>
      subst heq
      rw [hfree, not_and_or, not_not]
      simp only [true_and]
    case isFalse hne =>
      refine or_iff_left ?_
      rintro ⟨heq, _⟩
      exact hne heq
  · dsimp only at hb ⊢
    rw [List.length_set, hat]
    rcases List.mem_append.1 hb with hb | hb
    · obtain ⟨hbc, hle'⟩ := hw.issued b hb
      refine ⟨hbc, ?_⟩
      split
      case isTrue heq =>
        rw [hmax, ← heq]
        exact Nat.le_trans hle' (Nat.le_max_left _ _)
      case isFalse => exact hle'
    · cases List.mem_singleton.1 hb
      refine ⟨hc, ?_⟩
      rw [if_pos rfl, hmax]
      exact Nat.le_max_right _ _

/-- A block in use lies apart from the others. -/
theorem Heap.Wf.apart {h : Heap} (hw : h.Wf) (hb : h.live[i]? = some b)
    (hb' : b' ∈ h.live.eraseIdx i) (hchunk : b'.chunk = b.chunk) :
    b'.offset + h.span b' ≤ b.offset ∨ b.offset + h.span b ≤ b'.offset := by
  obtain ⟨j, hji, hj⟩ := List.mem_eraseIdx_iff_getElem?.1 hb'
  obtain ⟨hilt, rfl⟩ := List.getElem?_eq_some_iff.1 hb
  obtain ⟨hjlt, rfl⟩ := List.getElem?_eq_some_iff.1 hj
  have hall := List.pairwise_iff_getElem.1 hw.disjoint
  rcases Nat.lt_or_gt_of_ne hji with hlt | hlt
  · exact hall j i hjlt hilt hlt hchunk
  · exact (hall i j hilt hjlt hlt hchunk.symm).symm

/-- A block in use is freed. -/
theorem Heap.Wf.release {h : Heap} (hw : h.Wf) (hb : h.live[i]? = some b)
    (hwf : chunk'.Wf (h.capacity b.chunk))
    (hmax : chunk'.maxSize = (chunkAt h.alloc b.chunk).maxSize)
    (hfree : ∀ x, chunk'.Free x ↔ (chunkAt h.alloc b.chunk).Free x ∨
      b.offset ≤ x ∧ x < b.offset + h.span b) :
    Heap.Wf ⟨{ h.alloc with chunks := h.alloc.chunks.set b.chunk chunk' }, h.live.eraseIdx i,
      h.issued, h.capacities⟩ := by
  have hmem := List.mem_of_getElem? hb
  obtain ⟨hc, _, _, _⟩ := hw.inside b hmem
  have hat := chunkAt_set hc chunk'
  refine ⟨?_, fun c' hc' => ?_, fun b' hb' => ?_, ?_, fun c' hc' x hx => ?_, fun b' hb' => ?_⟩
  · exact hw.capacities_eq.trans List.length_set.symm
  · rw [List.length_set] at hc'
    dsimp only
    rw [hat]
    split
    case isTrue heq =>
      rw [heq]
      exact hwf
    case isFalse => exact hw.chunks c' hc'
  · dsimp only at hb' ⊢
    rw [List.length_set]
    exact hw.inside b' (List.mem_of_mem_eraseIdx hb')
  · exact hw.disjoint.sublist (List.eraseIdx_sublist _ _)
  · rw [List.length_set] at hc'
    have hold := hw.cover c' hc' x hx
    have hused : Heap.Used ⟨{ h.alloc with chunks := h.alloc.chunks.set b.chunk chunk' },
        h.live.eraseIdx i, h.issued, h.capacities⟩ c' x ↔
          h.Used c' x ∧ ¬ (c' = b.chunk ∧ b.offset ≤ x ∧ x < b.offset + h.span b) := by
      constructor
      · rintro ⟨b', hb', hbc, hin⟩
        refine ⟨⟨b', List.mem_of_mem_eraseIdx hb', hbc, hin⟩, ?_⟩
        rintro ⟨heq, hin'⟩
        change b'.offset ≤ x ∧ x < b'.offset + h.span b' at hin
        have hside := hw.apart hb hb' (hbc.trans heq)
        omega
      · rintro ⟨⟨b', hb', hbc, hin⟩, hnot⟩
        obtain ⟨j, hj, hget⟩ := List.getElem_of_mem hb'
        refine ⟨b', List.mem_eraseIdx_iff_getElem?.2 ⟨j, ?_, ?_⟩, hbc, hin⟩
        · rintro rfl
          rw [List.getElem?_eq_getElem hj, hget] at hb
          cases hb
          exact hnot ⟨hbc.symm, hin⟩
        · rw [List.getElem?_eq_getElem hj, hget]
    rw [hused, hold]
    dsimp only
    rw [hat]
    split
    case isTrue heq =>
      subst heq
      rw [hfree, not_or]
      simp only [true_and]
    case isFalse hne =>
      refine and_iff_left ?_
      rintro ⟨heq, _⟩
      exact hne heq
  · dsimp only at hb' ⊢
    obtain ⟨hbc, hle⟩ := hw.issued b' hb'
    rw [List.length_set, hat]
    refine ⟨hbc, ?_⟩
    split
    case isTrue heq =>
      rw [hmax, ← heq]
      exact hle
    case isFalse => exact hle

/-- The step takes a block out of an array that is full: all of a block is handed out, or a free
fills the gap between two blocks. -/
def RemovesFromFull (h : Heap) : Op → Prop
  | .alloc size => ∃ alloc c i,
      chooseBlock h.alloc (alignedOffset size h.alloc.alignment) = .ok (alloc, c, i) ∧
        (chunkAt alloc c).nFreeBlocks = maxFreeBlocks ∧
        alignedOffset size h.alloc.alignment = ((chunkAt alloc c).freeBlocks i).size
  | .free i => ∃ b, h.live[i]? = some b ∧
      (chunkAt h.alloc b.chunk).nFreeBlocks = maxFreeBlocks ∧
        (chunkAt h.alloc b.chunk).Fills b.offset (h.span b)

/-- What a step does to a heap: it goes on with a heap, or stops with a fault, which is an access
out of bounds if and only if a block is removed from a full array. -/
structure StepSafe (h : Heap) (op : Op) : Prop where
  next : ∀ h', heapStep h op = .ok h' → h'.Wf ∧ h'.alloc.alignment = h.alloc.alignment
  fault : heapStep h op = .error .outOfBounds ↔ RemovesFromFull h op

theorem Heap.Wf.free_step {h : Heap} (hw : h.Wf) (i : Nat) : StepSafe h (.free i) := by
  cases hb : h.live[i]? with
  | none =>
    have hstep : heapStep h (.free i) = .ok h := by
      rw [heapStep, hb]
    constructor
    · intro h' hh'
      cases hstep.symm.trans hh'
      exact ⟨hw, rfl⟩
    · rw [hstep]
      refine iff_of_false (fun h => by cases h) ?_
      rintro ⟨b, hb', _⟩
      cases hb.symm.trans hb'
  | some b =>
    have hmem := List.mem_of_getElem? hb
    obtain ⟨hc, hspan, hin, _⟩ := hw.inside b hmem
    have hnot : ∀ x, b.offset ≤ x → x < b.offset + h.span b →
        ¬ (chunkAt h.alloc b.chunk).Free x := fun x h₁ h₂ =>
      (hw.cover b.chunk hc x (by omega)).1 ⟨b, hmem, rfl, h₁, h₂⟩
    have hstep : heapStep h (.free i) =
        ((freeLoop (chunkAt h.alloc b.chunk) b.offset (h.span b)
          (chunkAt h.alloc b.chunk).nFreeBlocks 0).map fun chunk =>
            (⟨{ h.alloc with chunks := h.alloc.chunks.set b.chunk chunk }, h.live.eraseIdx i,
              h.issued, h.capacities⟩ : Heap)) := by
      rw [heapStep, hb]
      dsimp only
      rw [tallocrFree, ← Heap.span]
      cases freeLoop (chunkAt h.alloc b.chunk) b.offset (h.span b)
        (chunkAt h.alloc b.chunk).nFreeBlocks 0 <;> rfl
    have hiff : RemovesFromFull h (.free i) ↔
        (chunkAt h.alloc b.chunk).nFreeBlocks = maxFreeBlocks ∧
          (chunkAt h.alloc b.chunk).Fills b.offset (h.span b) := by
      constructor
      · rintro ⟨b', hb', hfull⟩
        cases hb.symm.trans hb'
        exact hfull
      · intro hfull
        exact ⟨b, hb, hfull⟩
    rcases freeLoop_spec (hw.chunks _ hc) hspan hnot hin with
      ⟨hfull, hfills, herror⟩ | ⟨hfills, herror | ⟨chunk', hok, hwf, hmax, hfree⟩⟩
    · constructor
      · intro h' hh'
        rw [hstep, herror] at hh'
        cases hh'
      · rw [hstep, herror, hiff]
        exact iff_of_true rfl ⟨hfull, hfills⟩
    · constructor
      · intro h' hh'
        rw [hstep, herror] at hh'
        cases hh'
      · rw [hstep, herror, hiff]
        exact iff_of_false (fun h => by cases h) hfills
    · constructor
      · intro h' hh'
        rw [hstep, hok] at hh'
        cases hh'
        exact ⟨hw.release hb hwf hmax hfree, rfl⟩
      · rw [hstep, hok, hiff]
        exact iff_of_false (fun h => by cases h) hfills

/-- The step when a block is chosen, in the heap that has its chunk. -/
theorem alloc_step_at {h h₁ : Heap} (hw : h₁.Wf) (ha : 0 < h₁.alloc.alignment)
    (halign : h₁.alloc.alignment = h.alloc.alignment) (hlive : h₁.live = h.live)
    (hissued : h₁.issued = h.issued)
    (hcaps : h₁.capacities = if h₁.alloc.chunks.length = h.alloc.chunks.length then h.capacities
      else h.capacities ++ [newChunkSize h.alloc (alignedOffset size h.alloc.alignment)])
    (hsize : 0 < size)
    (hchoose : chooseBlock h.alloc (alignedOffset size h.alloc.alignment) = .ok (h₁.alloc, c, i))
    (hsuits : Suits h₁.alloc (alignedOffset size h.alloc.alignment) (c, i)) :
    StepSafe h (.alloc size) := by
  obtain ⟨hc, hi, hle⟩ := hsuits
  have hpos : 0 < alignedOffset size h.alloc.alignment :=
    Nat.lt_of_lt_of_le hsize (le_alignedOffset _ _)
  have hstep : heapStep h (.alloc size) =
      (carve (chunkAt h₁.alloc c) i (alignedOffset size h.alloc.alignment)).map fun p =>
        (⟨{ h₁.alloc with chunks := h₁.alloc.chunks.set c p.1 }, h₁.live ++ [⟨c, p.2, size⟩],
          h₁.issued ++ [⟨c, p.2, size⟩], h₁.capacities⟩ : Heap) := by
    rw [heapStep, tallocrAlloc, hchoose]
    simp only [bind, Except.bind]
    cases carve (chunkAt h₁.alloc c) i (alignedOffset size h.alloc.alignment) with
    | error f => rfl
    | ok p =>
      dsimp only [Except.map]
      rw [hcaps, hlive, hissued]
      dsimp only [pure, Except.pure]
      rw [List.length_set]
  have hiff : RemovesFromFull h (.alloc size) ↔
      (chunkAt h₁.alloc c).nFreeBlocks = maxFreeBlocks ∧
        alignedOffset size h.alloc.alignment = ((chunkAt h₁.alloc c).freeBlocks i).size := by
    constructor
    · rintro ⟨alloc, c', i', hchoose', hfull⟩
      cases hchoose.symm.trans hchoose'
      exact hfull
    · intro hfull
      exact ⟨_, c, i, hchoose, hfull⟩
  rcases carve_spec (hw.chunks c hc) hi hpos hle with
    ⟨hfull, hall, herror⟩ | ⟨hnot, chunk', hok, hwf, hmax, hfree⟩
  · constructor
    · intro h' hh'
      rw [hstep, herror] at hh'
      cases hh'
    · rw [hstep, herror, hiff]
      exact iff_of_true rfl ⟨hfull, hall⟩
  · constructor
    · intro h' hh'
      rw [hstep, hok] at hh'
      cases hh'
      rw [← halign] at hpos hle hmax hfree
      exact ⟨hw.hand ha hc hi hpos hle hwf hmax hfree, halign⟩
    · rw [hstep, hok, hiff]
      exact iff_of_false (fun h => by cases h) hnot

theorem Heap.Wf.alloc_step {h : Heap} (hw : h.Wf) (ha : 0 < h.alloc.alignment)
    (hop : (Op.alloc size).Fits h.alloc.alignment) : StepSafe h (.alloc size) := by
  obtain ⟨hsize, hfits⟩ := hop
  have hpos : 0 < alignedOffset size h.alloc.alignment :=
    Nat.lt_of_lt_of_le hsize (le_alignedOffset _ _)
  rcases chooseBlock_eq (alignedOffset size h.alloc.alignment) hw.count with
    ⟨p, hchoose, hsuits⟩ | ⟨alloc', hnew, hchoose⟩ | herror
  · exact alloc_step_at hw ha rfl rfl rfl (if_pos rfl).symm hsize hchoose hsuits
  · have hle : alignedOffset size h.alloc.alignment ≤
        newChunkSize h.alloc (alignedOffset size h.alloc.alignment) := by
      rw [newChunkSize]
      split
      · exact hfits
      · exact Nat.le_max_left _ _
    obtain ⟨hw', halign, hlen, hn, hblock⟩ := hw.grow hnew (Nat.lt_of_lt_of_le hpos hle)
    refine alloc_step_at hw' (by rw [halign]; exact ha) halign rfl rfl ?_ hsize hchoose
      ⟨by rw [hlen]; exact Nat.lt_succ_self _, by rw [hn]; exact Nat.one_pos, ?_⟩
    · dsimp only
      rw [hlen, if_neg (Nat.succ_ne_self _)]
    · dsimp only
      rw [hblock]
      exact hle
  · have hstep : heapStep h (.alloc size) = .error .outOfMemory := by
      rw [heapStep, tallocrAlloc, herror]
      rfl
    constructor
    · intro h' hh'
      rw [hstep] at hh'
      cases hh'
    · rw [hstep]
      refine iff_of_false (fun h => by cases h) ?_
      rintro ⟨_, _, _, hchoose, _⟩
      rw [herror] at hchoose
      cases hchoose

/-- In every run the free blocks are sorted, not empty and apart, the blocks in use do not overlap
and are aligned, the two together are the chunks, and an access is out of bounds if and only if the
step removes a block from a full array. -/
theorem tallocr_safe (ha : 0 < alignment)
    (h : Reaches alignment (emptyHeap (newTallocr alignment maxBufferSize)) heap) :
    heap.Wf ∧ ∀ op : Op, op.Fits alignment →
      (heapStep heap op = .error .outOfBounds ↔ RemovesFromFull heap op) := by
  have hall : heap.Wf ∧ heap.alloc.alignment = alignment := by
    induction h with
    | start => exact ⟨wf_emptyHeap _ _, rfl⟩
    | @step heap op heap' _ hop hstep ih =>
      obtain ⟨hw, halign⟩ := ih
      subst halign
      cases op with
      | alloc size => exact (hw.alloc_step ha hop).next _ hstep
      | free i => exact (hw.free_step i).next _ hstep
  obtain ⟨hw, halign⟩ := hall
  subst halign
  refine ⟨hw, fun op hop => ?_⟩
  cases op with
  | alloc size => exact (hw.alloc_step ha hop).fault
  | free i => exact (hw.free_step i).fault

theorem tallocr_safe_byte :
    ∃ heap, heapStep (emptyHeap (newTallocr 1 1000)) (.alloc 1) = .ok heap ∧ heap.Wf ∧
      (heapStep heap (.free 0) = .error .outOfBounds ↔ RemovesFromFull heap (.free 0)) := by
  have hfits : (Op.alloc 1).Fits 1 := ⟨Nat.one_pos, by decide⟩
  obtain ⟨heap, hstep⟩ : ∃ heap, heapStep (emptyHeap (newTallocr 1 1000)) (.alloc 1) = .ok heap :=
    ⟨_, rfl⟩
  obtain ⟨hw, hfault⟩ := tallocr_safe Nat.one_pos (.step .start hfits hstep)
  exact ⟨heap, hstep, hw, hfault (.free 0) trivial⟩

end ActQuant.Alloc
