import ActQuant.KvCache.Bookkeeping

namespace ActQuant.KvCache
open ActQuant.Lib ActQuant.Batch

/-! The slots that `prepare` finds can be filled in turn: the cells of each are then as they were
in the trial, also where the trial has taken sequences off other cells. -/

/-- A cell after sequences were taken off it, one of which it keeps if it stays in use. -/
def Cell.Pared (y x : Cell) : Prop :=
  y = Cell.vacant ∨
    y.pos = x.pos ∧ y.shift = x.shift ∧ y.seq ⊆ x.seq ∧ (y.seq = ∅ → x.seq = ∅)

namespace Cell.Pared
variable {x y z : Cell}

theorem refl (x : Cell) : x.Pared x := .inr ⟨rfl, rfl, Finset.Subset.refl _, fun h => h⟩

theorem thinned (h : y.Pared x) : y.Thinned x := by
  rcases h with h | ⟨hpos, hshift, hseq, _⟩
  · exact .inl h
  · exact .inr ⟨hpos, hshift, hseq⟩

theorem of_vacant (h : y.Pared Cell.vacant) : y = Cell.vacant := h.thinned.of_vacant

theorem trans (h : z.Pared y) (h' : y.Pared x) : z.Pared x := by
  rcases h' with rfl | ⟨hpos', hshift', hseq', hne'⟩
  · exact .inl h.of_vacant
  · rcases h with h | ⟨hpos, hshift, hseq, hne⟩
    · exact .inl h
    · exact .inr ⟨hpos.trans hpos', hshift.trans hshift', hseq.trans hseq',
        fun hz => hne' (hne hz)⟩

theorem antisymm (h : y.Pared x) (h' : x.Pared y) : y = x := h.thinned.antisymm h'.thinned

end Cell.Pared

namespace Cache

/-! ### Removals -/

section Removals
variable {x y : Cell} {s : Nat} {b : Int}

theorem rmCell_pared (s : Nat) (a b : Int) (x : Cell) : (rmCell s a b x).Pared x := by
  rw [rmCell]
  split
  case isFalse => exact .refl x
  case isTrue =>
    rw [Cell.without]
    split
    case isTrue => exact .inl rfl
    case isFalse hne => exact .inr ⟨rfl, rfl, Finset.erase_subset s _, fun h => absurd h hne⟩

/-- No position below a bound is one of the sequence's. -/
def Gone (s : Nat) (b : Int) (x : Cell) : Prop := s ∈ x.seq → ¬ (0 ≤ x.pos ∧ x.pos < b)

theorem Gone.of_pared (hx : Gone s b x) (h : y.Pared x) : Gone s b y := by
  intro hs
  rcases h with rfl | ⟨hpos, _, hseq, _⟩
  · exact absurd hs (Finset.notMem_empty s)
  · rw [hpos]
    exact hx (hseq hs)

theorem Gone.rmCell_eq (hx : Gone s b x) : rmCell s 0 b x = x := by
  rw [rmCell, if_neg]
  intro h
  obtain ⟨hin, hs⟩ := posIn_seqHas.1 h
  exact hx hs hin

theorem gone_rmCell (s : Nat) (b : Int) (x : Cell) : Gone s b (rmCell s 0 b x) := by
  intro hs hin
  have hholds : (rmCell s 0 b x).Holds s (rmCell s 0 b x).pos := ⟨hs, rfl⟩
  exact (holds_rmCell.1 hholds).2 ⟨rfl, hin⟩

theorem rmCell_mono (s : Nat) (b : Int) (h : y.Pared x) :
    (rmCell s 0 b y).Pared (rmCell s 0 b x) := by
  rcases h with rfl | ⟨hpos, hshift, hseq, hne⟩
  · have hvac : Gone s b Cell.vacant := fun hs => absurd hs (Finset.notMem_empty s)
    rw [hvac.rmCell_eq]
    exact .inl rfl
  · by_cases hx : Gone s b x
    · have hy : Gone s b y := hx.of_pared (.inr ⟨hpos, hshift, hseq, hne⟩)
      rw [hx.rmCell_eq, hy.rmCell_eq]
      exact .inr ⟨hpos, hshift, hseq, hne⟩
    · obtain ⟨hsx, hin⟩ : s ∈ x.seq ∧ (0 ≤ x.pos ∧ x.pos < b) := by
        rw [Gone, not_forall, exists_prop, not_not] at hx
        exact hx
      rw [rmCell.eq_def s 0 b x, if_pos (posIn_seqHas.2 ⟨hin, hsx⟩)]
      by_cases hsy : s ∈ y.seq
      · rw [rmCell, if_pos (posIn_seqHas.2 ⟨hpos.symm ▸ hin, hsy⟩), Cell.without, Cell.without]
        have hsub := Finset.erase_subset_erase s hseq
        split
        case isTrue => exact .inl rfl
        case isFalse hrest =>
          have hrest' : x.seq.erase s ≠ ∅ := by
            intro he
            rw [he] at hsub
            exact hrest (Finset.subset_empty.1 hsub)
          rw [if_neg hrest']
          exact .inr ⟨hpos, hshift, hsub, fun h => absurd h hrest⟩
      · have hy : Gone s b y := fun hs => absurd hs hsy
        have hy0 : y.seq ≠ ∅ := fun h => Finset.ne_empty_of_mem hsx (hne h)
        have hsub : y.seq ⊆ x.seq.erase s :=
          fun q hq => Finset.mem_erase.2 ⟨fun he => hsy (he ▸ hq), hseq hq⟩
        have hrest : x.seq.erase s ≠ ∅ := by
          intro he
          rw [he] at hsub
          exact hy0 (Finset.subset_empty.1 hsub)
        rw [hy.rmCell_eq, Cell.without, if_neg hrest]
        exact .inr ⟨hpos, hshift, hsub, fun h => absurd h hy0⟩

end Removals

/-! ### Purges -/

section Purges
variable {p : Params} {m : Nat → Int} {t : Nat} {ss : List Nat} {x y : Cell}

/-- What the purge of a sequence makes of a cell of a stream. -/
def purgedBy (p : Params) (m : Nat → Int) (t : Nat) (x : Cell) (s : Nat) : Cell :=
  if p.stream s = t then rmCell s 0 (m s + 1) x else x

theorem purgedBy_pared (s : Nat) (x : Cell) : (purgedBy p m t x s).Pared x := by
  rw [purgedBy]
  split
  · exact rmCell_pared s _ _ x
  · exact .refl x

theorem purgedBy_mono (s : Nat) (h : y.Pared x) :
    (purgedBy p m t y s).Pared (purgedBy p m t x s) := by
  rw [purgedBy, purgedBy]
  split
  · exact rmCell_mono s _ h
  · exact h

theorem foldl_purgedBy_pared (ss : List Nat) (x : Cell) :
    (ss.foldl (purgedBy p m t) x).Pared x := by
  induction ss generalizing x with
  | nil => exact .refl x
  | cons s ss ih => exact (ih _).trans (purgedBy_pared s x)

theorem foldl_purgedBy_mono (ss : List Nat) (h : y.Pared x) :
    (ss.foldl (purgedBy p m t) y).Pared (ss.foldl (purgedBy p m t) x) := by
  induction ss generalizing x y with
  | nil => exact h
  | cons s ss ih => exact ih (purgedBy_mono s h)

theorem foldl_purgedBy_gone (hs : s ∈ ss) (ht : p.stream s = t) (x : Cell) :
    Gone s (m s + 1) (ss.foldl (purgedBy p m t) x) := by
  induction ss generalizing x with
  | nil => exact absurd hs List.not_mem_nil
  | cons q ss ih =>
    rcases List.mem_cons.1 hs with rfl | hs
    · have hone : Gone s (m s + 1) (purgedBy p m t x s) := by
        rw [purgedBy, if_pos ht]
        exact gone_rmCell s _ x
      exact hone.of_pared (foldl_purgedBy_pared ss _)
    · exact ih hs _

/-- What was purged stays as it is. -/
theorem foldl_purgedBy_fixed (h : y.Pared (ss.foldl (purgedBy p m t) x)) :
    ss.foldl (purgedBy p m t) y = y := by
  have hgone : ∀ s ∈ ss, p.stream s = t → Gone s (m s + 1) y :=
    fun s hs ht => (foldl_purgedBy_gone hs ht x).of_pared h
  clear h
  induction ss with
  | nil => rfl
  | cons s ss ih =>
    have hone : purgedBy p m t y s = y := by
      rw [purgedBy]
      split
      case isTrue ht => exact (hgone s (.head _) ht).rmCell_eq
      case isFalse => rfl
    rw [List.foldl_cons, hone]
    exact ih fun q hq => hgone q (List.mem_cons_of_mem _ hq)

/-- The purge of a sequence, cell by cell. -/
theorem purge_cell {k k' : Cache} {y : Nat × Nat} (hk : ∀ t, (k.cells t).Counted) (hm : -1 ≤ m s)
    (h : purge p m k s = some k') (hy : y.2 < (k.cells y.1).size) :
    k'.at' y = purgedBy p m y.1 (k.at' y) s := by
  rw [purge] at h
  rw [purgedBy]
  split at h
  case isTrue hnone =>
    cases h
    have hgone : Gone s (m s + 1) (k.at' y) := fun _ hin => by omega
    rw [hgone.rmCell_eq, ite_self]
  case isFalse hne =>
    rw [Option.ite_none_right_eq_some] at h
    obtain ⟨hs, h⟩ := h
    -- the counters give the least position of the sequence in its stream
    have hmin : p.stream s = y.1 → s ∈ (k.at' y).seq → k.seqPosMin p s ≤ (k.at' y).pos := by
      rintro ht hin
      obtain ⟨t, i⟩ := y
      dsimp only at ht hy
      subst ht
      exact seqPosMin_le hk (f := ⟨s, _, i⟩) ⟨hs, hy, hin, rfl⟩
    split at h
    case isTrue =>
      have hpassed := (seqRm_seq_passed (Int.natCast_nonneg s) h).2
      rw [Int.toNat_natCast] at hpassed
      by_cases ht : p.stream s = y.1
      · rw [if_pos ht, at', ← ht, hpassed.cell, passed, if_pos (by rw [ht]; exact hy), ht]
        have hto : toPos (m s + 1) = m s + 1 := by
          rw [toPos, if_neg (by omega)]
        rw [hto, rmCell, rmCell]
        refine if_congr ?_ rfl rfl
        rw [posIn_seqHas, posIn_seqHas]
        refine and_congr_left fun hin => and_congr_left fun _ => ?_
        have hle := hmin ht hin
        have hnn := fromPos_nonneg (k.seqPosMin p s)
        refine ⟨fun h => hnn.trans h, fun h => ?_⟩
        rw [fromPos]
        split
        · exact h
        · exact hle
      · rw [if_neg ht, at', hpassed.other _ (Ne.symm ht)]
        rfl
    case isFalse hlt =>
      cases h
      split
      case isFalse => rfl
      case isTrue ht =>
        have hgone : Gone s (m s + 1) (k.at' y) := by
          intro hin hpos
          have hle := hmin ht hin
          omega
        rw [hgone.rmCell_eq]

theorem purges_cell {k k' : Cache} {y : Nat × Nat} (hk : ∀ t, (k.cells t).Counted)
    (hm : ∀ s, -1 ≤ m s) (h : ss.foldlM (purge p m) k = some k')
    (hy : y.2 < (k.cells y.1).size) :
    k'.at' y = ss.foldl (purgedBy p m y.1) (k.at' y) := by
  induction ss generalizing k with
  | nil =>
    cases h
    rfl
  | cons s ss ih =>
    obtain ⟨k₁, h₁, hrest⟩ := foldlM_cons_eq_some.1 h
    rw [ih (purge_counted hk h₁) hrest (by rw [purge_size h₁]; exact hy),
      purge_cell hk (hm s) h₁ hy]
    rfl

end Purges

/-! ### Turns -/

section Turns
variable {p : Params} {k k' : Cache} {u : Ubatch} {r : SlotInfo}

/-- The greatest position of each sequence that an ubatch overwrites. -/
def overwritten (k : Cache) (r : SlotInfo) (u : Ubatch) : Nat → Int :=
  (r.places.zip u.tokens).foldl (fun m x => raise m (k.at' x.1)) fun _ => -1

theorem overwritten_ge (k : Cache) (r : SlotInfo) (u : Ubatch) (s : Nat) :
    -1 ≤ overwritten k r u s := by
  rw [overwritten]
  by_cases h : (r.places.zip u.tokens).foldl (fun m x => raise m (k.at' x.1)) (fun _ => -1) s = -1
  · rw [h]
  · have hstart : -1 ≤ (fun _ : Nat => (-1 : Int)) s := le_refl (-1)
    have hpos := (raised_eq (f := k.at') (m := fun _ => -1) (s := s) hstart h).1
    omega

/-- What an ubatch makes of the cells. -/
def turned (p : Params) (k : Cache) (r : SlotInfo) (u : Ubatch) (y : Nat × Nat) : Cell :=
  (List.range LLAMA_MAX_SEQ).foldl (purgedBy p (overwritten k r u) y.1)
    (fill (r.places.zip u.tokens) k.at' y)

theorem applyUbatch_cell (hk : ∀ t, (k.cells t).Counted) (hr : Fillable p k u r)
    (h : k.applyUbatch p r u = some k') (hy : y.2 < (k.cells y.1).size) :
    k'.at' y = turned p k r u y := by
  obtain ⟨k₁, m, k₂, h₁, h₂, h₃⟩ := applyUbatch_eq_some.1 h
  rw [placeTokens, Option.ite_none_right_eq_some] at h₁
  have hall := placeAll_spec (zip_nodup hr.length hr.nodup) h₁.2
  have hm : m = overwritten k r u := hall.raised
  have hfill := placeAll_fill h₁.2
  have hsame : k'.at' y = k₂.at' y := by
    rw [at', at', (moveHeads_cells h₃).1]
  rw [hsame, purges_cell (placeAll_counted (s := (k, _)) hk h₁.2) ?_ h₂ ?_, hfill, hm]
  · rfl
  · rw [hm]
    exact overwritten_ge k r u
  · rw [hall.size]
    exact hy

/-- The cells of a slot that are the same become the same. -/
theorem turned_congr {K : Cache} (hr : Fillable p k u r)
    (hsame : ∀ y ∈ r.places, K.at' y = k.at' y) (hy : y ∈ r.places) :
    turned p K r u y = turned p k r u y := by
  have hnd := zip_nodup hr.length hr.nodup
  have hover : overwritten K r u = overwritten k r u :=
    foldl_raise_congr (fun x hx => hsame _ (mem_of_zip hx).1) _
  have hy' := hy
  rw [← List.map_fst_zip (le_of_eq hr.length.symm)] at hy'
  obtain ⟨x, hx, rfl⟩ := List.mem_map.1 hy'
  rw [turned, turned, hover, fill_place hnd hx, fill_place hnd hx, hsame _ hy]

theorem turned_other (hy : y ∉ r.places) :
    turned p k r u y =
      (List.range LLAMA_MAX_SEQ).foldl (purgedBy p (overwritten k r u) y.1) (k.at' y) := by
  rw [turned, fill_other]
  rintro x hx rfl
  exact hy (mem_of_zip hx).1

/-- The cell that comes back is the one before the trial, with fewer sequences. -/
theorem Trial.back_pared {us : List Ubatch} (hk : k.Sound)
    (hus : ∀ u ∈ us, ∀ x ∈ u.tokens, Accepted p x) (h : Trial p k us ts kn)
    (hy : y.2 < (k.cells y.1).size) : (cellBack kn y ts).Pared (k.at' y) := by
  induction h with
  | done => exact .refl _
  | full _ => exact .refl _
  | @turn k u r k₁ us ts kn hfound happly htrial ih =>
    rw [cellBack]
    split
    case isTrue => exact .refl _
    case isFalse hout =>
      have hr := (findSlot_spec (findSlot_tokens hfound) hfound).fillable
        fun x hx => (hus u (.head _) x hx).valid
      have hback := ih (hk.applyUbatch happly)
        (fun v hv => hus v (List.mem_cons_of_mem _ hv))
        (by rw [applyUbatch_size happly]; exact hy)
      rw [applyUbatch_cell hk.counted hr happly hy, turned_other hout] at hback
      exact hback.trans (foldl_purgedBy_pared _ _)

/-- Each slot is one that its ubatch can go to once the ones before it were filled. -/
def InTurn (p : Params) : Cache → List (SlotInfo × Ubatch) → Prop
  | _, [] => True
  | k, x :: rest => Fillable p k x.2 x.1 ∧ (∀ tok ∈ x.2.tokens, Accepted p tok) ∧
    ∀ k', k.applyUbatch p x.1 x.2 = some k' → InTurn p k' rest

/-- A cache on the way through the slots of a trial: its cells are between what the trial has there
and what is brought back. -/
structure Shadow (k : Cache) (ts : List Turn) (kn K : Cache) : Prop where
  size : ∀ t, (K.cells t).size = (k.cells t).size
  below : ∀ y, y.2 < (k.cells y.1).size → (K.at' y).Pared (k.at' y)
  above : ∀ y, y.2 < (k.cells y.1).size → (cellBack kn y ts).Pared (K.at' y)

section Step
variable {k₁ kn K K₁ : Cache} {ts : List Turn} {us : List Ubatch}

/-- The cells of the next slot are as they were in the trial. -/
theorem Shadow.same (hs : Shadow k (⟨k, r, k₁⟩ :: ts) kn K) (hr : Fillable p k u r) :
    ∀ y ∈ r.places, K.at' y = k.at' y := by
  intro y hy
  have hin := (hr.inside y hy).2
  have hback := hs.above y hin
  rw [cellBack, if_pos hy] at hback
  exact (hs.below y hin).antisymm hback

theorem Shadow.fillable (hs : Shadow k (⟨k, r, k₁⟩ :: ts) kn K) (hr : Fillable p k u r) :
    Fillable p K u r where
  length := hr.length
  nodup := hr.nodup
  row_ne := hr.row_ne
  inside := fun y hy => by
    rw [hs.size]
    exact hr.inside y hy
  single := fun y hy => by
    rw [hs.same hr y hy]
    exact hr.single y hy

theorem Shadow.next (hk : k.Sound) (hK : K.Sound) (hs : Shadow k (⟨k, r, k₁⟩ :: ts) kn K)
    (hr : Fillable p k u r) (hus : ∀ u ∈ us, ∀ x ∈ u.tokens, Accepted p x)
    (h : k.applyUbatch p r u = some k₁) (hrest : Trial p k₁ us ts kn)
    (hK₁ : K.applyUbatch p r u = some K₁) : Shadow k₁ ts kn K₁ := by
  have hsame := hs.same hr
  have hr' := hs.fillable hr
  have hover : overwritten K r u = overwritten k r u :=
    foldl_raise_congr (fun x hx => hsame _ (mem_of_zip hx).1) _
  have hcell (y : Nat × Nat) (hy : y.2 < (k₁.cells y.1).size) :
      k₁.at' y = turned p k r u y ∧ K₁.at' y = turned p K r u y ∧
        (cellBack kn y ts).Pared (k₁.at' y) := by
    refine ⟨applyUbatch_cell hk.counted hr h ?_, applyUbatch_cell hK.counted hr' hK₁ ?_,
      hrest.back_pared (hk.applyUbatch h) hus hy⟩
    · rw [← applyUbatch_size h]
      exact hy
    · rw [hs.size, ← applyUbatch_size h]
      exact hy
  refine ⟨fun t => ?_, fun y hy => ?_, fun y hy => ?_⟩
  · rw [applyUbatch_size hK₁, applyUbatch_size h, hs.size]
  · obtain ⟨hk₁, hK₁, _⟩ := hcell y hy
    rw [hk₁, hK₁]
    by_cases hin : y ∈ r.places
    · rw [turned_congr hr hsame hin]
      exact .refl _
    · rw [turned_other hin, turned_other hin, hover]
      apply foldl_purgedBy_mono
      apply hs.below
      rw [← applyUbatch_size h]
      exact hy
  · obtain ⟨hk₁, hK₁, hback⟩ := hcell y hy
    rw [hK₁]
    by_cases hin : y ∈ r.places
    · rw [turned_congr hr hsame hin, ← hk₁]
      exact hback
    · -- what comes back went through the same purge in the trial, which it survives unchanged
      have habove := hs.above y (by rw [← applyUbatch_size h]; exact hy)
      rw [cellBack, if_neg hin] at habove
      rw [hk₁, turned_other hin, ← hover] at hback
      rw [turned_other hin, ← foldl_purgedBy_fixed hback]
      exact foldl_purgedBy_mono _ habove

theorem Trial.inTurn (hk : k.Sound) (hus : ∀ u ∈ us, ∀ x ∈ u.tokens, Accepted p x)
    (h : Trial p k us ts kn) (hK : K.Sound) (hs : Shadow k ts kn K) :
    InTurn p K ((ts.map Turn.slot).zip us) := by
  induction h generalizing K with
  | done => trivial
  | full _ => trivial
  | @turn k u r k₁ us ts kn hfound happly htrial ih =>
    have hr := (findSlot_spec (findSlot_tokens hfound) hfound).fillable
      fun x hx => (hus u (.head _) x hx).valid
    have hus' : ∀ v ∈ us, ∀ x ∈ v.tokens, Accepted p x :=
      fun v hv => hus v (List.mem_cons_of_mem _ hv)
    refine ⟨hs.fillable hr, hus u (.head _), fun K₁ hK₁ => ?_⟩
    exact ih (hk.applyUbatch happly) hus' (hK.applyUbatch hK₁)
      (hs.next hk hK hr hus' happly htrial hK₁)

/-- The slots of `prepare` can be filled in turn. -/
theorem prepare_inTurn (hk : k.Sound) (hus : ∀ u ∈ us, ∀ x ∈ u.tokens, Accepted p x)
    (h : k.prepare p us = some (k', slots)) : InTurn p k' (slots.zip us) := by
  obtain ⟨ts, kn, ht, hu, hslots⟩ := prepare_undone hk h
  by_cases hne : slots = []
  · rw [hne]
    trivial
  · rw [hslots hne]
    refine ht.inTurn hk hus hu.sound ⟨hu.size, fun y hy => ?_, fun y _ => ?_⟩
    · rw [hu.back]
      exact ht.back_pared hk hus hy
    · rw [hu.back]
      exact .refl _

end Step

end Turns

end Cache
end ActQuant.KvCache
