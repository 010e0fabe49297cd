import ActQuant.KvCache.ApplySpec
import ActQuant.KvCache.CacheWf

namespace ActQuant.KvCache
open ActQuant.Lib ActQuant.Batch

/-! `apply_ubatch` keeps the bookkeeping and returns. -/

theorem Cell.seqGet_mem {x : Cell} (h : x.seqCount = 1) : x.seqGet ∈ x.seq := by
  obtain ⟨s, hs⟩ := Finset.card_eq_one.1 h
  rw [Cell.seqGet_of_eq hs, hs]
  exact Finset.mem_singleton_self s

namespace Cache

/-- A token that the cells can take. -/
structure Legal (p : Params) (x : Token) : Prop where
  pos : x.pos ≠ -1
  nodup : x.seqId.Nodup
  valid : ∀ s ∈ x.seqId, s < p.nSeqIds

theorem seqAdds_wellFormed {c : Cells} {ss : List Nat} (hc : c.WellFormed) (hi : i < c.size)
    (hpos : (c.cell i).pos ≠ -1) (hmax : ∀ s ∈ ss, s < LLAMA_MAX_SEQ) (hnd : ss.Nodup)
    (hno : ∀ s ∈ ss, s ∉ (c.cell i).seq) :
    ∃ d, ss.foldlM (fun c s => Cells.seqAdd c i s) c = some d ∧ d.WellFormed := by
  induction ss generalizing c with
  | nil => exact ⟨c, rfl, hc⟩
  | cons s ss ih =>
    obtain ⟨hnot, hnd⟩ := List.nodup_cons.1 hnd
    obtain ⟨e, he, hwf⟩ := hc.seqAdd hi hpos (hmax s List.mem_cons_self) (hno s List.mem_cons_self)
    have hr := (Cells.seqAdd_replaced he).1
    obtain ⟨d, hd, hwf⟩ := ih hwf (hr.size ▸ hi) (by rw [hr.self]; exact hpos)
      (fun q hq => hmax q (List.mem_cons_of_mem _ hq)) hnd <| by
        intro q hq
        rw [hr.self, Cell.joined, Finset.mem_insert, not_or]
        exact ⟨fun h => hnot (h ▸ hq), hno q (List.mem_cons_of_mem _ hq)⟩
    exact ⟨d, foldlM_cons_eq_some.2 ⟨e, he, hd⟩, hwf⟩

theorem writeToken_wellFormed {c : Cells} (hc : c.WellFormed) (hi : i < c.size)
    (hpos : (c.cell i).pos = -1) (hx : Legal p x) :
    ∃ d, writeToken c i x = some d ∧ d.WellFormed := by
  obtain ⟨e, he, hwf⟩ := hc.posSet hi hpos hx.pos
  obtain ⟨hr, _, _, hseq⟩ := Cells.posSet_replaced he
  have hpos' : (e.cell i).pos ≠ -1 := by
    rw [hr.self]
    exact hx.pos
  have hno : ∀ s ∈ x.seqId, s ∉ (e.cell i).seq := by
    intro s _
    rw [hr.self]
    dsimp only
    rw [hseq]
    exact Finset.notMem_empty s
  obtain ⟨d, hd, hwf⟩ := seqAdds_wellFormed hwf (hr.size ▸ hi) hpos'
    (fun s hs => (hx.valid s hs).trans_le (nSeqIds_le p)) hx.nodup hno
  refine ⟨d, ?_, hwf⟩
  rw [writeToken, he]
  exact hd

/-- The bookkeeping of the streams, which keep their sizes. -/
def Kept (p : Params) (size : Nat → Nat) (k : Cache) : Prop :=
  WellFormed p k ∧ ∀ t, (k.cells t).size = size t

theorem placeToken_wellFormed {st : Cache × (Nat → Int)} {x : (Nat × Nat) × Token}
    (hk : Kept p size st.1) (ht : x.1.1 < p.nStream) (hi : x.1.2 < size x.1.1)
    (hx : Legal p x.2) (hreg : (st.1.at' x.1).Regular)
    (hy : (st.1.at' x.1).isEmpty = false → (st.1.at' x.1).seqCount = 1) :
    ∃ st', placeToken st x = some st' ∧ Kept p size st'.1 := by
  obtain ⟨k, m⟩ := st
  obtain ⟨⟨t, i⟩, tok⟩ := x
  have hc := hk.1 t ht
  have hi : i < (k.cells t).size := (hk.2 t).symm ▸ hi
  have hset : ∀ {d : Cells}, d.WellFormed → d.size = (k.cells t).size →
      Kept p size (k.setStream t d (k.head t)) :=
    fun hd hsize => ⟨hk.1.setStream hd t _, fun t' => (size_setStream hsize t').trans (hk.2 t')⟩
  have hreg : ((k.cells t).cell i).Regular := hreg
  rw [placeToken, if_neg (not_not_intro hreg)]
  split
  case isTrue hempty =>
    obtain ⟨d, hd, hwf⟩ := writeToken_wellFormed hc hi (Cell.isEmpty_eq.1 hempty) hx
    refine ⟨_, congrArg (Option.map _) hd, ?_⟩
    exact hset hwf (writeToken_replaced hd).1.size
  case isFalse hfull =>
    have hcount : ((k.cells t).cell i).seqCount = 1 := hy (Bool.not_eq_true _ ▸ hfull)
    obtain ⟨e, (he : (k.cells t).rm i = some e), hwf⟩ :=
      hc.rm hi fun h => hfull (Cell.isEmpty_eq.2 h)
    have hr := Cells.rm_replaced he
    obtain ⟨d, hd, hwf⟩ := writeToken_wellFormed hwf (hr.size ▸ hi) (by rw [hr.self]; rfl) hx
    rw [if_pos hcount, he, Option.bind_some]
    refine ⟨_, congrArg (Option.map _) hd, ?_⟩
    exact hset hwf ((writeToken_replaced hd).1.size.trans hr.size)

theorem mem_of_zip {r : SlotInfo} {u : Ubatch} {x : (Nat × Nat) × Token}
    (hx : x ∈ r.places.zip u.tokens) : x.1 ∈ r.places ∧ x.2 ∈ u.tokens :=
  List.of_mem_zip hx

theorem zip_nodup {r : SlotInfo} {u : Ubatch} (h : u.nTokens = r.places.length)
    (hnd : r.places.Nodup) : ((r.places.zip u.tokens).map Prod.fst).Nodup := by
  rw [List.map_fst_zip (le_of_eq h.symm)]
  exact hnd

theorem canUse_single (h : canUse p c i = true) (hfull : (c.cell i).isEmpty = false) :
    (c.cell i).seqCount = 1 := by
  rw [canUse, hfull, Bool.false_or, Bool.and_eq_true, beq_iff_eq] at h
  exact h.1

theorem SlotFound.stream_lt {p : Params} {k : Cache} (h : SlotFound p k u r)
    (hu : ∀ x ∈ u.tokens, ∀ s ∈ x.seqId, s < p.nSeqIds) (hx : x ∈ r.places) :
    x.1 < p.nStream := by
  obtain ⟨y, hy, he, _⟩ := mem_places.1 hx
  obtain ⟨s, hs, hstream⟩ := h.strm y hy
  obtain ⟨tok, htok, hin⟩ := List.any_eq_true.1 (List.mem_filter.1 hs).2
  rw [← he, hstream]
  exact Cache.stream_lt (hu tok htok s (List.contains_iff_mem.1 hin))

/-- A slot that an ubatch can go to: a cell in a stream for each token, all different, and none
with more than one sequence. -/
structure Fillable (p : Params) (k : Cache) (u : Ubatch) (r : SlotInfo) : Prop where
  length : u.nTokens = r.places.length
  nodup : r.places.Nodup
  row_ne : ∀ x ∈ r.rows, x.2 ≠ []
  inside : ∀ x ∈ r.places, x.1 < p.nStream ∧ x.2 < (k.cells x.1).size
  single : ∀ x ∈ r.places, (k.at' x).isEmpty = false → (k.at' x).seqCount = 1

theorem SlotFound.fillable {p : Params} {k : Cache} (h : SlotFound p k u r)
    (hu : ∀ x ∈ u.tokens, ∀ s ∈ x.seqId, s < p.nSeqIds) : Fillable p k u r where
  length := h.length
  nodup := h.nodup
  row_ne := h.row_ne
  inside x hx := ⟨h.stream_lt hu hx, (h.usable x hx).1⟩
  single x hx := canUse_single (h.usable x hx).2

/-- No assertion of `is_empty` fails. -/
def Regular (k : Cache) : Prop := ∀ y, (k.at' y).Regular

theorem placeTokens_wellFormed {k : Cache} {u : Ubatch} (hk : WellFormed p k) (hreg : k.Regular)
    (hr : Fillable p k u r) (hu : ∀ x ∈ u.tokens, Legal p x) :
    ∃ k' m, placeTokens k r u = some (k', m) ∧ WellFormed p k' ∧
      AllPlaced k (fun _ => -1) (r.places.zip u.tokens) k' m := by
  have hnd := zip_nodup hr.length hr.nodup
  have hget : ∀ {st : Cache × (Nat → Int)} {x st'}, x ∈ r.places.zip u.tokens →
      placeToken st x = some st' →
      st'.1.at' = Function.update st.1.at' x.1 ((st.1.at' x.1).placed x.2) :=
    fun _ h => (placeToken_spec h).cell
  have hstep : ∀ {st : Cache × (Nat → Int)} {x}, x ∈ r.places.zip u.tokens →
      Kept p (fun t => (k.cells t).size) st.1 →
      ((st.1.at' x.1).Regular ∧
        ((st.1.at' x.1).isEmpty = false → (st.1.at' x.1).seqCount = 1)) →
      ∃ st', placeToken st x = some st' ∧ Kept p (fun t => (k.cells t).size) st'.1 := by
    rintro st x hx hst ⟨hreg, hy⟩
    obtain ⟨hplace, htok⟩ := mem_of_zip hx
    obtain ⟨ht, hi⟩ := hr.inside _ hplace
    exact placeToken_wellFormed hst ht hi (hu _ htok) hreg hy
  obtain ⟨⟨k', m⟩, h, hkept⟩ := sweep_succeeds (fun st : Cache × (Nat → Int) => st.1.at')
    Prod.fst (fun x y => y.placed x.2)
    (fun _ y => y.Regular ∧ (y.isEmpty = false → y.seqCount = 1)) hget hstep
    hnd (s := (k, fun _ => -1)) ⟨hk, fun _ => rfl⟩
    (fun x hx => ⟨hreg x.1, hr.single _ (mem_of_zip hx).1⟩)
  refine ⟨k', m, ?_, hkept.1, placeAll_spec hnd h⟩
  rw [placeTokens, if_pos hr.length]
  exact h

/-- A position was overwritten for a sequence that a cell of the slot had to itself. -/
theorem raised_ne {xs : List ((Nat × Nat) × Token)} {f : Nat × Nat → Cell} {m : Nat → Int}
    (h : xs.foldl (fun m x => raise m (f x.1)) m s ≠ -1) :
    m s ≠ -1 ∨ ∃ x ∈ xs, (f x.1).isEmpty = false ∧ s = (f x.1).seqGet := by
  induction xs generalizing m with
  | nil => exact .inl h
  | cons x xs ih =>
    rw [List.foldl_cons] at h
    rcases ih h with h | ⟨y, hy, hs⟩
    · rw [raise] at h
      split at h
      · exact .inl h
      · case isFalse hfull =>
        by_cases hs : s = (f x.1).seqGet
        · exact .inr ⟨x, List.mem_cons_self, Bool.not_eq_true _ ▸ hfull, hs⟩
        · rw [Function.update_of_ne hs] at h
          exact .inl h
    · exact .inr ⟨y, List.mem_cons_of_mem _ hy, hs⟩

/-- The sequences of the cells are those the cache is made for. -/
def InSeqIds (p : Params) (k : Cache) : Prop :=
  ∀ t < p.nStream, ∀ i < (k.cells t).size, ∀ s ∈ ((k.cells t).cell i).seq, s < p.nSeqIds

theorem purge_wellFormed {k : Cache} (hk : WellFormed p k) (hs : m s ≠ -1 → s < p.nSeqIds) :
    ∃ k', purge p m k s = some k' ∧ WellFormed p k' := by
  rw [purge]
  split
  · exact ⟨k, rfl, hk⟩
  · case isFalse hne =>
    rw [if_pos (hs hne)]
    split
    · refine hk.seqRm (.inr (validSeq_eq.2 ⟨Int.natCast_nonneg s, ?_⟩)) _ _
      rw [Int.toNat_natCast]
      exact hs hne
    · exact ⟨k, rfl, hk⟩

theorem StreamPassed.size_eq (h : StreamPassed k t g k') (t' : Nat) :
    (k'.cells t').size = (k.cells t').size := by
  by_cases ht : t' = t
  · subst ht
    exact h.size
  · rw [h.other t' ht]

theorem purge_size {k : Cache} (h : purge p m k s = some k') (t : Nat) :
    (k'.cells t).size = (k.cells t).size := by
  rw [purge] at h
  split at h
  · cases h
    rfl
  · rw [Option.ite_none_right_eq_some] at h
    obtain ⟨_, h⟩ := h
    split at h
    · exact (seqRm_seq_passed (Int.natCast_nonneg s) h).2.size_eq t
    · cases h
      rfl

theorem moveHeads_cells {rows : List (Nat × List Nat)} {k k' : Cache}
    (h : rows.foldlM moveHead k = some k') : k'.cells = k.cells ∧ k'.copies = k.copies := by
  refine sweep_invariant (I := fun e : Cache => e.cells = k.cells ∧ e.copies = k.copies) ?_
    ⟨rfl, rfl⟩ h
  intro e x e' _ hI h
  obtain ⟨i, _, rfl⟩ := Option.map_eq_some_iff.1 h
  exact hI

theorem moveHeads_total {rows : List (Nat × List Nat)} (h : ∀ x ∈ rows, x.2 ≠ []) (k : Cache) :
    ∃ k', rows.foldlM moveHead k = some k' := by
  have hstep : ∀ {k : Cache} {x}, x ∈ rows → True → ∃ k', moveHead k x = some k' ∧ True := by
    intro k x hx _
    rw [moveHead, List.getLast?_eq_getLast_of_ne_nil (h x hx)]
    exact ⟨_, rfl, trivial⟩
  obtain ⟨k', hk', _⟩ := sweep_total (I := fun _ => True) hstep (s := k) trivial
  exact ⟨k', hk'⟩

theorem applyUbatch_eq_some {k : Cache} : applyUbatch p k r u = some k' ↔
    ∃ k₁ m k₂, placeTokens k r u = some (k₁, m) ∧
      (List.range LLAMA_MAX_SEQ).foldlM (purge p m) k₁ = some k₂ ∧
      r.rows.foldlM moveHead k₂ = some k' := by
  rw [applyUbatch]
  simp only [Option.bind_eq_bind, Option.bind_eq_some_iff, Prod.exists, exists_and_left]

/-- A slot that was found is filled. -/
theorem WellFormed.applyUbatch {k : Cache} {u : Ubatch} (hk : WellFormed p k)
    (hids : InSeqIds p k) (hreg : k.Regular) (hr : Fillable p k u r)
    (hu : ∀ x ∈ u.tokens, Legal p x) :
    ∃ k', applyUbatch p k r u = some k' ∧ WellFormed p k' := by
  obtain ⟨k₁, m, h₁, hwf₁, hall⟩ := placeTokens_wellFormed hk hreg hr hu
  have hm : ∀ s, m s ≠ -1 → s < p.nSeqIds := by
    intro s hs
    rw [hall.raised] at hs
    rcases raised_ne hs with h | ⟨x, hx, hfull, rfl⟩
    · exact (h rfl).elim
    · obtain ⟨hplace, _⟩ := mem_of_zip hx
      obtain ⟨ht, hi⟩ := hr.inside _ hplace
      refine hids _ ht _ hi _ ?_
      exact Cell.seqGet_mem (hall.single x hx hfull)
  have htotal : ∃ t, (List.range LLAMA_MAX_SEQ).foldlM (purge p m) k₁ = some t ∧
      WellFormed p t := sweep_total (fun {k s} _ hk => purge_wellFormed hk (hm s)) hwf₁
  obtain ⟨k₂, h₂, hwf₂⟩ := htotal
  obtain ⟨k₃, h₃⟩ := moveHeads_total hr.row_ne k₂
  refine ⟨k₃, applyUbatch_eq_some.2 ⟨k₁, m, k₂, h₁, h₂, h₃⟩, ?_⟩
  intro t ht
  rw [(moveHeads_cells h₃).1]
  exact hwf₂ t ht

theorem applyUbatch_size {k : Cache} (h : Cache.applyUbatch p k r u = some k') (t : Nat) :
    (k'.cells t).size = (k.cells t).size := by
  obtain ⟨k₁, m, k₂, h₁, h₂, h₃⟩ := applyUbatch_eq_some.1 h
  rw [placeTokens, Option.ite_none_right_eq_some] at h₁
  have hplace : (k₁.cells t).size = (k.cells t).size :=
    sweep_invariant (I := fun st : Cache × (Nat → Int) => (st.1.cells t).size = (k.cells t).size)
      (fun _ hI hst => ((placeToken_spec hst).size t).trans hI) rfl h₁.2
  rw [(moveHeads_cells h₃).1]
  exact sweep_invariant (I := fun e : Cache => (e.cells t).size = (k.cells t).size)
    (fun _ hI hst => (purge_size hst t).trans hI) hplace h₂

end Cache

/-! What removals leave of the cells: each has fewer sequences, or is empty. -/

/-- A cell after sequences were taken off it; without any it is empty. -/
def Cell.Thinned (y x : Cell) : Prop :=
  y = Cell.vacant ∨ y.pos = x.pos ∧ y.shift = x.shift ∧ y.seq ⊆ x.seq

namespace Cell.Thinned

theorem refl (x : Cell) : x.Thinned x := .inr ⟨rfl, rfl, Finset.Subset.refl _⟩

theorem of_vacant {y : Cell} (h : y.Thinned Cell.vacant) : y = Cell.vacant := by
  rcases h with h | ⟨hpos, hshift, hseq⟩
  · exact h
  · cases y
    simp only [Cell.vacant, Finset.subset_empty] at hpos hshift hseq
    rw [hpos, hshift, hseq]
    rfl

theorem trans {x y z : Cell} (h : z.Thinned y) (h' : y.Thinned x) : z.Thinned x := by
  rcases h' with rfl | ⟨hpos', hshift', hseq'⟩
  · exact .inl h.of_vacant
  · rcases h with h | ⟨hpos, hshift, hseq⟩
    · exact .inl h
    · exact .inr ⟨hpos.trans hpos', hshift.trans hshift', hseq.trans hseq'⟩

theorem antisymm {x y : Cell} (h : y.Thinned x) (h' : x.Thinned y) : y = x := by
  rcases h with rfl | ⟨hpos, hshift, hseq⟩
  · exact h'.of_vacant.symm
  · rcases h' with rfl | ⟨_, _, hseq'⟩
    · exact of_vacant (.inr ⟨hpos, hshift, hseq⟩)
    · cases x
      cases y
      simp only at hpos hshift hseq hseq'
      rw [hpos, hshift, Finset.Subset.antisymm hseq hseq']

theorem seq_ne {x y : Cell} (h : y.Thinned x) (hy : y.seq ≠ ∅) : x.seq ≠ ∅ := by
  rcases h with rfl | ⟨_, _, hseq⟩
  · exact (hy rfl).elim
  · intro hx
    rw [hx] at hseq
    exact hy (Finset.subset_empty.1 hseq)

end Cell.Thinned

theorem Cell.without_thinned (x : Cell) (s : Nat) : (x.without s).Thinned x := by
  rw [Cell.without]
  split
  · exact .inl rfl
  · exact .inr ⟨rfl, rfl, Finset.erase_subset s _⟩

theorem Cell.only_thinned (x : Cell) (s : Nat) : (x.only s).Thinned x := by
  rw [Cell.only]
  split
  · case isTrue hs => exact .inr ⟨rfl, rfl, Finset.singleton_subset_iff.2 hs⟩
  · split
    · exact .inl rfl
    · exact .refl x

namespace Cache

theorem rmCell_thinned (s : Nat) (p₀ p₁ : Int) (x : Cell) : (rmCell s p₀ p₁ x).Thinned x := by
  rw [rmCell]
  split
  · exact x.without_thinned s
  · exact .refl x

theorem rmAnyCell_thinned (p₀ p₁ : Int) (x : Cell) : (rmAnyCell p₀ p₁ x).Thinned x := by
  rw [rmAnyCell]
  split
  · exact .inl rfl
  · exact .refl x

/-- A pass changes a cell by its function or leaves it alone. -/
theorem StreamPassed.cases (h : StreamPassed k t g k') (y : Nat × Nat) :
    k'.at' y = g (k.at' y) ∨ k'.at' y = k.at' y := by
  rw [at', at']
  by_cases ht : y.1 = t
  · rw [ht, h.cell, passed]
    split
    · exact .inl rfl
    · exact .inr rfl
  · rw [h.other _ ht]
    exact .inr rfl

/-- A pass that takes sequences off the cells. -/
theorem StreamPassed.thinned (h : StreamPassed k t g k') (hg : ∀ x, (g x).Thinned x)
    (y : Nat × Nat) : (k'.at' y).Thinned (k.at' y) := by
  rcases h.cases y with he | he
  · rw [he]
    exact hg _
  · rw [he]
    exact .refl _

theorem seqRm_thinned {k : Cache} (h : k.seqRm p s p₀ p₁ = some k') (y : Nat × Nat) :
    (k'.at' y).Thinned (k.at' y) := by
  rcases seqRm_valid h with rfl | hs
  · rw [seqRm, if_pos (.inl rfl), if_neg (by omega)] at h
    have hcell := (rmAny_passed List.nodup_range h y.1).2
    rw [at', at', hcell]
    split
    · rw [passed]
      split
      · exact rmAnyCell_thinned _ _ _
      · exact .refl _
    · exact .refl _
  · exact (seqRm_seq_passed hs h).2.thinned (rmCell_thinned _ _ _) y

theorem seqKeep_thinned {k : Cache} (h : k.seqKeep p s = some k') (y : Nat × Nat) :
    (k'.at' y).Thinned (k.at' y) :=
  (seqKeep_passed h).2.thinned (fun x => x.only_thinned _) y

theorem purge_thinned {k : Cache} (h : purge p m k s = some k') (y : Nat × Nat) :
    (k'.at' y).Thinned (k.at' y) := by
  rw [purge] at h
  split at h
  · cases h
    exact .refl _
  · rw [Option.ite_none_right_eq_some] at h
    obtain ⟨_, h⟩ := h
    split at h
    · exact seqRm_thinned h y
    · cases h
      exact .refl _

theorem purges_thinned {k : Cache} {ss : List Nat} (h : ss.foldlM (purge p m) k = some k')
    (y : Nat × Nat) : (k'.at' y).Thinned (k.at' y) :=
  sweep_invariant (I := fun e : Cache => (e.at' y).Thinned (k.at' y))
    (fun _ hI h => (purge_thinned h y).trans hI) (.refl _) h

/-- An ubatch leaves the cells outside its slot as they are, or takes sequences off them. -/
theorem applyUbatch_other {k : Cache} (h : applyUbatch p k r u = some k') (hy : y ∉ r.places) :
    (k'.at' y).Thinned (k.at' y) := by
  obtain ⟨k₁, m, k₂, h₁, h₂, h₃⟩ := applyUbatch_eq_some.1 h
  rw [placeTokens, Option.ite_none_right_eq_some] at h₁
  have hsame : k₁.at' y = k.at' y := by
    refine sweep_get_other (fun st : Cache × (Nat → Int) => st.1.at') Prod.fst
      (fun x z => z.placed x.2) (fun _ hst => (placeToken_spec hst).cell) ?_ h₁.2
    rintro x hx rfl
    exact hy (mem_of_zip hx).1
  have hheads : k'.at' y = k₂.at' y := by
    rw [at', at', (moveHeads_cells h₃).1]
  rw [hheads, ← hsame]
  exact purges_thinned h₂ y

end Cache
end ActQuant.KvCache
