import ActQuant.KvCache.Rollback

namespace ActQuant.KvCache.Cache
open ActQuant.Lib ActQuant.Batch

/-! The sequence operations refine their documentation, where they do. -/

/-- The arguments an operation takes. A sequence is kept where every cell in use has one; a copy
goes to an empty sequence, and to another stream in full, from cells whose shifts can be undone. -/
def SeqOp.Accepted (p : Params) (k : Cache) : SeqOp → Prop
  | .rm s _ _ => s = -1 ∨ validSeq p s
  | .cp src dst p₀ p₁ => validSeq p src ∧ validSeq p dst ∧
    if p.stream src.toNat = p.stream dst.toNat then Absent (facts p k) dst
    else isFull (k.cells (p.stream 0)).size p₀ p₁ ∧
      ∀ i < (k.cells (p.stream src.toNat)).size,
        ((k.cells (p.stream src.toNat)).cell i).seqHas src.toNat →
          Unshifts ((k.cells (p.stream src.toNat)).cell i)
  | .keep s => validSeq p s ∧ ∀ i < (k.cells (p.stream s.toNat)).size,
      ((k.cells (p.stream s.toNat)).cell i).pos ≠ -1 →
        ((k.cells (p.stream s.toNat)).cell i).seq ≠ ∅

/-- Each fact after stands where it stood, one of a copy where its source stands. -/
def SeqOp.Unmoved (F F' : Set Fact) : SeqOp → Prop
  | .cp src dst _ _ =>
    ∀ f ∈ F', f ∈ F ∨ (f.seq : Int) = dst ∧ (⟨src.toNat, f.pos, f.cell⟩ : Fact) ∈ F
  | _ => ∀ f ∈ F', f ∈ F

theorem SeqOp.accepted_runs {k : Cache} (hk : WellFormed p k) (hn : Sized p n k)
    {op : SeqOp} (hop : op.Accepted p k) : ∃ k', op.run p k = some k' := by
  cases op with
  | rm s p₀ p₁ =>
    obtain ⟨k', hk', _⟩ := hk.seqRm hop p₀ p₁
    exact ⟨k', hk'⟩
  | keep s =>
    obtain ⟨k', hk', _⟩ := hk.seqKeep hop.1 hop.2
    exact ⟨k', hk'⟩
  | cp src dst p₀ p₁ =>
    obtain ⟨hsrc, hdst, hop⟩ := hop
    obtain ⟨hd, hdn⟩ := validSeq_eq.1 hdst
    by_cases ht : p.stream src.toNat = p.stream dst.toNat
    · rw [if_pos ht] at hop
      have hrun : ∃ k', k.seqCp p src dst p₀ p₁ = some k' ∧ WellFormed p k' := by
        apply hk.seqCp_same hsrc hdst ht
        intro _ i hi _ hin
        rw [ht] at hi hin
        exact hop ⟨dst.toNat, ((k.cells (p.stream dst.toNat)).cell i).pos, i⟩
          ⟨hdn, hi, hin, rfl⟩ (Int.toNat_of_nonneg hd)
      obtain ⟨k', hk', _⟩ := hrun
      exact ⟨k', hk'⟩
    · rw [if_neg ht] at hop
      have hsize := (hn _ (stream_toNat_lt hsrc)).trans (hn _ (stream_toNat_lt hdst)).symm
      obtain ⟨k', hk', _⟩ := hk.seqCp_cross hsrc hdst ht hop.1 hsize hop.2
      exact ⟨k', hk'⟩

theorem SeqOp.unmoved {op : SeqOp} (h : op.run p k = some k') :
    op.Unmoved (facts p k) (facts p k') := by
  cases op with
  | rm s p₀ p₁ => exact fun f hf => ((facts_seqRm h f).1 hf).1
  | keep s => exact fun f hf => ((facts_seqKeep h f).1 hf).1
  | cp src dst p₀ p₁ =>
    intro f hf
    by_cases ht : p.stream src.toNat = p.stream dst.toNat
    · rcases (facts_seqCp_same ht h f).1 hf with hf | ⟨_, hseq, hf, _⟩
      · exact .inl hf
      · exact .inr ⟨hseq, hf⟩
    · have hf := (facts_seqCp_cross ht h f).1 hf
      split at hf
      · obtain ⟨hseq, g, hg, hsrc, hpos, hcell, _⟩ := hf
        refine .inr ⟨hseq, ?_⟩
        have hfact : g = ⟨src.toNat, f.pos, f.cell⟩ := by
          cases g
          simp only at hsrc hpos hcell
          rw [← hsrc, hpos, hcell, Int.toNat_natCast]
        exact hfact ▸ hg
      · exact .inl hf

/-- A cache with a stream for each of two sequences. -/
def twoStreams : Params where
  unified := false
  nSeqMax := 2
  seqMax_pos := Nat.two_pos
  seqMax_le := Nat.le_of_ble_eq_true rfl
  nPad := 1
  nSwa := 0
  swaType := .none

/-- The same two sequences in one stream. -/
def oneStream : Params := { twoStreams with unified := true }

/-- A token for each of two sequences. -/
def twoTokens : Ubatch := ⟨true, 2, [⟨0, [0], true⟩, ⟨0, [1], true⟩]⟩

theorem twoTokens_legal : ∀ x ∈ twoTokens.tokens, Legal twoStreams x := by
  intro x hx
  simp only [twoTokens, List.mem_cons, List.not_mem_nil, or_false] at hx
  rcases hx with rfl | rfl
  · exact ⟨by decide, List.nodup_singleton 0, by decide⟩
  · exact ⟨by decide, List.nodup_singleton 1, by decide⟩

/-- The cells of the two tokens. -/
def twoCells : SlotInfo := ⟨[(0, [0]), (1, [0])]⟩

set_option maxRecDepth 8000 in
theorem findSlot_twoTokens :
    findSlot twoStreams (create 2) twoTokens true = some (some twoCells) := by
  decide +kernel

theorem create_inSeqIds (p : Params) (n : Nat) : InSeqIds p (create n) :=
  fun _ _ _ _ s hs => (Finset.notMem_empty s hs).elim

theorem twoTokens_applied :
    ∃ k, applyUbatch twoStreams (create 2) twoCells twoTokens = some k ∧ WellFormed twoStreams k :=
  (create_wellFormed 2).applyUbatch (create_inSeqIds _ 2)
    (fun _ => .inl rfl) ((findSlot_spec (List.cons_ne_nil _ _) findSlot_twoTokens).fillable
      fun x hx => (twoTokens_legal x hx).valid) twoTokens_legal

/-- An operation returns on the arguments it takes and moves no position; what it does is what the
header documents exactly where the range, or the streams, let it. -/
theorem SeqOp.refines (p : Params) (k : Cache) (op : SeqOp) :
    (∀ n, WellFormed p k → Sized p n k → op.Accepted p k → ∃ k', op.run p k = some k') ∧
      ∀ k', op.run p k = some k' → op.Unmoved (facts p k) (facts p k') ∧
        (op.Documented (facts p k) (facts p k') ↔ op.Exact p k) :=
  ⟨fun _ hk hn hop => accepted_runs hk hn hop,
    fun _ h => ⟨op.unmoved h, documented_iff_exact h⟩⟩

/-- The second sequence's token is taken back. -/
theorem SeqOp.refines_twoTokens : ∃ k k',
    applyUbatch twoStreams (create 2) twoCells twoTokens = some k ∧
      (SeqOp.rm 1 0 1).run twoStreams k = some k' ∧
      (SeqOp.rm 1 0 1).Unmoved (facts twoStreams k) (facts twoStreams k') ∧
      (SeqOp.rm 1 0 1).Documented (facts twoStreams k) (facts twoStreams k') := by
  obtain ⟨k, hk, hwf⟩ := twoTokens_applied
  have hsized : Sized twoStreams 2 k := fun t _ => applyUbatch_size hk t
  obtain ⟨hruns, hall⟩ := SeqOp.refines twoStreams k (.rm 1 0 1)
  obtain ⟨k', h⟩ := hruns 2 hwf hsized (.inr rfl)
  obtain ⟨hunmoved, hiff⟩ := hall k' h
  exact ⟨k, k', hk, h, hunmoved, hiff.2 fun hneg => absurd hneg (by decide)⟩

set_option maxRecDepth 8000 in
/-- `seq_keep` of the first sequence leaves the second in its own stream. -/
theorem seqKeep_leaves_stream : ∃ k k',
    findSlot twoStreams (create 2) twoTokens true = some (some twoCells) ∧
      applyUbatch twoStreams (create 2) twoCells twoTokens = some k ∧
      (SeqOp.keep 0).run twoStreams k = some k' ∧
      ¬ (SeqOp.keep 0).Documented (facts twoStreams k) (facts twoStreams k') := by
  refine ⟨_, _, findSlot_twoTokens, rfl, rfl, fun hdoc => ?_⟩
  have hmem := (hdoc ⟨1, 0, 0⟩).1 ⟨by decide +kernel, by decide +kernel, by decide +kernel⟩
  exact absurd hmem.2 (by decide)

/-! The caches that the operations lead to, and what `prepare` and a failed decode leave of them. -/

/-- The caches that the public operations make of an empty one, in any order. The last three are
the steps of a state that is read back: positions and sequences of single cells, and a head. -/
inductive Reachable (p : Params) : Cache → Prop where
  | create (n : Nat) : Reachable p (create n)
  | clear : Reachable p k → Reachable p (k.clear p)
  | seqRm : Reachable p k → k.seqRm p s p₀ p₁ = some k' → Reachable p k'
  | seqCp : Reachable p k → k.seqCp p src dst p₀ p₁ = some k' → Reachable p k'
  | seqKeep : Reachable p k → k.seqKeep p s = some k' → Reachable p k'
  | seqAdd : Reachable p k → k.seqAdd p s p₀ p₁ n = some k' → Reachable p k'
  | seqDiv : Reachable p k → 1 < n → k.seqDiv p s p₀ p₁ n = some k' → Reachable p k'
  | update (doShift : Bool) : Reachable p k → Reachable p (k.update p doShift)
  | prepare : Reachable p k → k.prepare p us = some (k', res) → Reachable p k'
  | applyUbatch : Reachable p k → k.applyUbatch p r u = some k' → Reachable p k'
  | posSet : Reachable p k → (k.cells t).posSet i pos = some c →
      Reachable p (k.setStream t c (k.head t))
  | cellAdd : Reachable p k → (k.cells t).seqAdd i s = some c →
      Reachable p (k.setStream t c (k.head t))
  | setHead (t n : Nat) : Reachable p k → Reachable p { k with head := Function.update k.head t n }

theorem Sound.setStream {k : Cache} (hk : k.Sound) (hc : c.Counted) (hbare : ∀ i, (c.cell i).Bare)
    (t n : Nat) : (k.setStream t c n).Sound := by
  refine ⟨counted_setStream hk.counted hc t n, fun y => ?_⟩
  rw [at'_setStream]
  split
  · exact hbare y.2
  · exact hk.bare y

theorem Sound.replaced {k : Cache} (hk : k.Sound) (hr : Cells.Replaced (k.cells t) i x c)
    (hc : c.Counted) (hx : x.Bare) (n : Nat) : (k.setStream t c n).Sound := by
  refine hk.setStream hc (fun j => ?_) t n
  by_cases hj : j = i
  · subst hj
    rw [hr.self]
    exact hx
  · rw [hr.other hj]
    exact hk.bare (t, j)

/-- Every reachable cache counts right. -/
theorem Reachable.sound {k : Cache} (h : Reachable p k) : k.Sound := by
  induction h with
  | create n => exact create_sound n
  | clear _ ih => exact ih.clear p
  | seqRm _ h ih => exact ih.seqRm h
  | seqCp _ h ih => exact ih.seqCp h
  | seqKeep _ h ih => exact ih.seqKeep h
  | seqAdd _ h ih => exact ih.seqAdd h
  | seqDiv _ hn h ih => exact ih.seqDiv hn h
  | update doShift _ ih => exact ih.update p doShift
  | prepare _ h ih => exact ih.prepare h
  | applyUbatch _ h ih => exact ih.applyUbatch h
  | @posSet k t i pos c _ h ih =>
    obtain ⟨hr, _, hpos, hseq⟩ := Cells.posSet_replaced h
    have hx : Cell.Bare { (k.cells t).cell i with pos := pos } :=
      fun _ => ⟨hseq, (ih.bare (t, i) hpos).2⟩
    exact ih.replaced hr ((ih.counted t).posSet h) hx _
  | @cellAdd k t i s c _ h ih =>
    obtain ⟨hr, hpos⟩ := Cells.seqAdd_replaced h
    have hx : (((k.cells t).cell i).joined s).Bare := fun h => (hpos h).elim
    exact ih.replaced hr ((ih.counted t).seqAdd h) hx _
  | setHead t n _ ih => exact ⟨ih.counted, ih.bare⟩

/-- `prepare` leaves the cells, the counters and the heads as they were exactly where no turn of
its trial takes sequences off a cell outside the slots so far, and the head that is read for each
stream is its own. -/
theorem prepare_restores_iff {p : Params} {k k' : Cache} {us : List Ubatch}
    {res : List SlotInfo} (hk : Reachable p k) (h : k.prepare p us = some (k', res)) :
    (∃ ts kn, Trial p k us ts kn) ∧ ∀ ts kn, Trial p k us ts kn →
      (Restored k k' ↔ (∀ y, Spared y ts) ∧ ∀ t, HeadKept k t ts) := by
  obtain ⟨ts, kn, ht, hu, _⟩ := prepare_undone hk.sound h
  refine ⟨⟨ts, kn, ht⟩, fun ts' kn' ht' => ?_⟩
  obtain ⟨rfl, rfl⟩ := ht.unique ht'
  exact hu.restored_iff hk.sound ht

/-- One token of the second sequence. -/
def secondToken : Ubatch := ⟨true, 1, [⟨0, [1], true⟩]⟩

theorem prepare_restores_second : ∃ k' res ts kn, (create 2).prepare twoStreams [secondToken] =
    some (k', res) ∧ Trial twoStreams (create 2) [secondToken] ts kn ∧
      (Restored (create 2) k' ↔ (∀ y, Spared y ts) ∧ ∀ t, HeadKept (create 2) t ts) := by
  have hruns : ((create 2).prepare twoStreams [secondToken]).isSome = true := by decide +kernel
  obtain ⟨⟨k', res⟩, h⟩ := Option.isSome_iff_exists.1 hruns
  obtain ⟨⟨ts, kn, ht⟩, hiff⟩ := prepare_restores_iff (.create 2) h
  exact ⟨k', res, ts, kn, h, ht, hiff ts kn ht⟩

/-- With a token in the first stream, the trial for the second ends with the head of the first. -/
theorem prepare_moves_head : ∃ k k' res, Reachable twoStreams k ∧
    (create 2).applyUbatch twoStreams ⟨[(0, [0])]⟩ ⟨true, 1, [⟨0, [0], true⟩]⟩ = some k ∧
      k.prepare twoStreams [secondToken] = some (k', res) ∧ ¬ Restored k k' := by
  have hruns : (((create 2).applyUbatch twoStreams ⟨[(0, [0])]⟩
      ⟨true, 1, [⟨0, [0], true⟩]⟩).bind fun k =>
        (k.prepare twoStreams [secondToken]).map fun x => (k.head 1, x.1.head 1)) =
      some (0, 1) := by decide +kernel
  obtain ⟨k, hk, h⟩ := Option.bind_eq_some_iff.1 hruns
  obtain ⟨⟨k', res⟩, hk', h⟩ := Option.map_eq_some_iff.1 h
  refine ⟨k, k', res, .applyUbatch (.create 2) hk, hk, hk', fun hrestored => ?_⟩
  have hhead := congrFun hrestored.2 1
  simp only [Prod.mk.injEq] at h
  omega

/-- After a decode that fails at an ubatch, the cache holds what it held before the ubatch exactly
where the rollback reaches all of the ubatch and nothing else. -/
theorem decode_failed_iff {p : Params} {k k' : Cache} {us : List Ubatch} {i : Nat}
    {rotates graph : Nat → Bool} (hp : p.swaType = .none) (hk : Reachable p k)
    (h : decode p rotates graph k us = some (k', .failed i)) :
    ∃ k₀ slots ki r u, initBatch p rotates k us = some (k₀, slots) ∧
      Reached p k₀ (slots.zip us) i ki r u ∧
        (facts p k' = facts p ki ↔ RolledBack p ki r u) :=
  decode_failed hp hk.sound h

/-- The tokens of the two sequences are taken back. -/
theorem decode_failed_twoTokens : ∃ k', decode oneStream (fun _ => true) (fun _ => false)
    (create 2) [twoTokens] = some (k', .failed 0) ∧
      ∃ k₀ slots ki r u, initBatch oneStream (fun _ => true) (create 2) [twoTokens] =
        some (k₀, slots) ∧ Reached oneStream k₀ (slots.zip [twoTokens]) 0 ki r u ∧
          (facts oneStream k' = facts oneStream ki ↔ RolledBack oneStream ki r u) := by
  have hruns : (decode oneStream (fun _ => true) (fun _ => false) (create 2) [twoTokens]).map
      Prod.snd = some (.failed 0) := by decide +kernel
  obtain ⟨⟨k', o⟩, h, rfl⟩ := Option.map_eq_some_iff.1 hruns
  exact ⟨k', h, decode_failed_iff rfl (.create 2) h⟩

/-- A token of both sequences. -/
def sharedToken : Ubatch := ⟨false, 1, [⟨0, [0, 1], true⟩]⟩

/-- A token of two sequences stays in the second. -/
theorem decode_failed_shared : ∃ k₀ slots k',
    initBatch oneStream (fun _ => true) (create 2) [sharedToken] = some (k₀, slots) ∧
      decode oneStream (fun _ => true) (fun _ => false) (create 2) [sharedToken] =
        some (k', .failed 0) ∧ facts oneStream k' ≠ facts oneStream k₀ := by
  have hready : (initBatch oneStream (fun _ => true) (create 2) [sharedToken]).map
      (fun x => decide ((x.1.cells 0).cell 0 = Cell.vacant)) = some true := by decide +kernel
  have hruns : (decode oneStream (fun _ => true) (fun _ => false) (create 2) [sharedToken]).map
      (fun x => (x.2, (x.1.cells 0).size, (x.1.cells 0).cell 0)) =
        some (.failed 0, 2, ⟨0, 0, {1}⟩) := by decide +kernel
  obtain ⟨⟨k₀, slots⟩, h₀, hvac⟩ := Option.map_eq_some_iff.1 hready
  obtain ⟨⟨k', o⟩, h, hcell⟩ := Option.map_eq_some_iff.1 hruns
  simp only [Prod.mk.injEq] at hcell
  obtain ⟨rfl, hsize, hcell⟩ := hcell
  refine ⟨k₀, slots, k', h₀, h, fun hsame => ?_⟩
  have hin : (⟨1, 0, 0⟩ : Fact) ∈ facts oneStream k' := by
    refine ⟨by decide, ?_, ?_⟩
    · change 0 < (k'.cells 0).size
      omega
    · change ((k'.cells 0).cell 0).Holds 1 0
      rw [hcell]
      decide
  obtain ⟨_, _, hseq, _⟩ := hsame ▸ hin
  change 1 ∈ ((k₀.cells 0).cell 0).seq at hseq
  rw [of_decide_eq_true hvac] at hseq
  exact Finset.notMem_empty 1 hseq

end ActQuant.KvCache.Cache
