import ActQuant.KvCache.Heads
import ActQuant.KvCache.StateRuns

namespace ActQuant.KvCache
open ActQuant.Lib ActQuant.Batch

/-! What each operation of a cache needs to return, and that it keeps the bookkeeping. -/

theorem Cell.Thinned.shift_zero {x y : Cell} (h : y.Thinned x) (hx : x.shift = 0) :
    y.shift = 0 := by
  rcases h with rfl | ⟨_, hshift, _⟩
  · rfl
  · rw [hshift, hx]

namespace Cell.Regular
variable {x y : Cell}

theorem thinned (hx : x.Regular) (h : y.Thinned x) : y.Regular := by
  rcases h with rfl | ⟨hpos, _⟩
  · exact .inl rfl
  · rw [Cell.Regular, hpos]
    exact hx

/-- A cell that would get a negative position is emptied. -/
theorem moved (x : Cell) (d : Int) : (x.moved d).Regular := by
  rw [Cell.moved]
  split
  case isTrue => exact .inl rfl
  case isFalse h => exact .inr (Int.not_lt.1 h)

theorem divided (hpos : 0 ≤ x.pos) (hd : 1 < d) : (x.divided d).Regular :=
  .inr (Int.tdiv_nonneg hpos (by omega))

theorem copied (hx : x.Regular) (src dst : Nat) :
    (Cache.copiedCell x src dst Cell.vacant).Regular := by
  rw [Cache.copiedCell]
  split
  · split
    · exact moved _ _
    · exact hx
  · exact .inl rfl

end Cell.Regular

/-- Cells without a pending shift can be written back. -/
theorem Cells.set_total {c : Cells} {is : List Nat} {f : Nat → Cell} (hc : c.WellFormed)
    (hin : ∀ i ∈ is, i < c.size) (hzero : ∀ i ∈ is, (c.cell i).shift = 0)
    (hbare : ∀ i, (f i).Bare) :
    ∃ d, c.set is (is.map f) = some d ∧ d.WellFormed ∧ d.size = c.size ∧
      ∀ j, d.cell j = c.cell j ∨ d.cell j = ⟨(f j).pos, (c.cell j).shift, (f j).seq⟩ := by
  induction is generalizing c with
  | nil => exact ⟨c, rfl, hc, rfl, fun _ => .inl rfl⟩
  | cons i is ih =>
    obtain ⟨e, he, hwf⟩ := hc.setOne (hin i (.head _)) (hzero i (.head _))
      fun hpos => (hbare i hpos).1
    obtain ⟨hr, _⟩ := Cells.setOne_replaced he
    have hcell : ∀ j, e.cell j = c.cell j ∨
        e.cell j = ⟨(f j).pos, (c.cell j).shift, (f j).seq⟩ := by
      intro j
      by_cases hj : j = i
      · rw [hj]
        exact .inr hr.self
      · exact .inl (hr.other hj)
    have hshift : ∀ j, (e.cell j).shift = (c.cell j).shift := by
      intro j
      rcases hcell j with h | h
      · rw [h]
      · rw [h]
    obtain ⟨d, hd, hwf, hsize, hall⟩ := ih hwf
      (fun j hj => hr.size.symm ▸ hin j (List.mem_cons_of_mem _ hj))
      fun j hj => (hshift j).trans (hzero j (List.mem_cons_of_mem _ hj))
    refine ⟨d, ?_, hwf, hsize.trans hr.size, fun j => ?_⟩
    · rw [List.map_cons, Cells.set, he]
      exact hd
    · rcases hall j with h | h
      · rw [h]
        exact hcell j
      · rw [h, hshift]
        exact .inr rfl

namespace Cache
variable {p : Params} {k k' : Cache}

/-- The cells have the sequences that the cache is made for. -/
def Known (p : Params) (k : Cache) : Prop := ∀ y, ∀ s ∈ (k.at' y).seq, s < p.nSeqIds

theorem Known.of_subset (hk : Known p k) (h : ∀ y, (k'.at' y).seq ⊆ (k.at' y).seq) :
    Known p k' :=
  fun y s hs => hk y s (h y hs)

theorem Known.thinned (hk : Known p k) (h : ∀ y, (k'.at' y).Thinned (k.at' y)) :
    Known p k' := by
  apply hk.of_subset
  intro y
  rcases h y with hv | ⟨_, _, hseq⟩
  · rw [hv]
    exact Finset.empty_subset _
  · exact hseq

theorem Known.passed (hk : Known p k) (h : StreamPassed k t g k')
    (hg : ∀ x : Cell, (g x).seq ⊆ x.seq) : Known p k' := by
  apply hk.of_subset
  intro y
  rcases h.cases y with he | he
  · rw [he]
    exact hg _
  · rw [he]

theorem Cell.moved_seq (x : Cell) (d : Int) : (x.moved d).seq ⊆ x.seq := by
  rw [Cell.moved]
  split
  · exact Finset.empty_subset _
  · exact Finset.Subset.refl _

theorem Known.seqAdd (hk : Known p k) (h : k.seqAdd p s p₀ p₁ d = some k') : Known p k' := by
  apply hk.passed (seqAdd_passed h).2
  intro x
  split
  · exact Finset.Subset.refl _
  · rw [addCell]
    split
    · exact Cell.moved_seq x d
    · exact Finset.Subset.refl _

theorem Known.seqDiv (hk : Known p k) (h : k.seqDiv p s p₀ p₁ d = some k') : Known p k' := by
  apply hk.passed (seqDiv_passed h).2
  intro x
  split
  · exact Finset.Subset.refl _
  · rw [divCell]
    split
    · exact Finset.Subset.refl _
    · exact Finset.Subset.refl _

theorem Known.seqCp (hk : Known p k) (h : k.seqCp p src dst p₀ p₁ = some k') : Known p k' := by
  by_cases ht : p.stream src.toNat = p.stream dst.toNat
  · obtain ⟨_, hdst, hpassed⟩ := seqCp_same_passed ht h
    have hlt := (validSeq_eq.1 hdst).2
    intro y
    rcases hpassed.cases y with he | he
    · rw [he]
      split
      · exact hk y
      · intro s hs
        rcases (holds_cpCell.1 ⟨hs, rfl⟩) with ⟨hs, _⟩ | ⟨rfl, _⟩
        · exact hk y s hs
        · exact hlt
    · rw [he]
      exact hk y
  · obtain ⟨_, hdst, _, hcopied⟩ := seqCp_cross_copied ht h
    intro y s hs
    by_cases hy : y.1 = p.stream dst.toNat
    · rw [at', hy, hcopied.cell] at hs
      split at hs
      · rw [(holds_copiedCell.1 ⟨hs, rfl⟩).1]
        exact (validSeq_eq.1 hdst).2
      · exact absurd hs (Finset.notMem_empty s)
    · rw [at', hcopied.other _ hy] at hs
      exact hk y s hs

theorem Known.clear (hk : Known p k) (q : Params) : Known p (k.clear q) := by
  apply hk.of_subset
  intro y
  rw [at', at', Cache.clear]
  dsimp only
  split
  · exact Finset.empty_subset _
  · exact Finset.Subset.refl _

theorem Known.update (hk : Known p k) (q : Params) (doShift : Bool) :
    Known p (k.update q doShift) := by
  apply hk.of_subset
  intro y
  rw [at', at', Cache.update]
  dsimp only
  split
  · exact Finset.Subset.refl _
  · exact Finset.Subset.refl _

/-! A position that is neither -1 nor negative stays so. -/

theorem Regular.thinned (hk : k.Regular) (h : ∀ y, (k'.at' y).Thinned (k.at' y)) : k'.Regular :=
  fun y => (hk y).thinned (h y)

theorem Regular.passed (hk : k.Regular) (h : StreamPassed k t g k')
    (hg : ∀ x : Cell, x.Regular → (g x).Regular) : k'.Regular := by
  intro y
  rcases h.cases y with he | he
  · rw [he]
    exact hg _ (hk y)
  · rw [he]
    exact hk y

theorem Regular.seqAdd (hk : k.Regular) (h : k.seqAdd p s p₀ p₁ d = some k') : k'.Regular := by
  apply hk.passed (seqAdd_passed h).2
  intro x hx
  split
  · exact hx
  · rw [addCell]
    split
    · exact .moved x d
    · exact hx

theorem Regular.seqDiv (hk : k.Regular) (hd : 1 < d) (h : k.seqDiv p s p₀ p₁ d = some k') :
    k'.Regular := by
  apply hk.passed (seqDiv_passed h).2
  intro x hx
  split
  · exact hx
  · rw [divCell]
    split
    case isTrue hin => exact .divided ((fromPos_nonneg p₀).trans (posIn_seqHas.1 hin).1.1) hd
    case isFalse => exact hx

theorem Regular.seqCp (hk : k.Regular) (h : k.seqCp p src dst p₀ p₁ = some k') : k'.Regular := by
  by_cases ht : p.stream src.toNat = p.stream dst.toNat
  · apply hk.passed (seqCp_same_passed ht h).2.2
    intro x hx
    split
    · exact hx
    · rw [cpCell]
      split
      · exact hx
      · exact hx
  · obtain ⟨_, _, _, hcopied⟩ := seqCp_cross_copied ht h
    intro y
    by_cases hy : y.1 = p.stream dst.toNat
    · rw [at', hy, hcopied.cell]
      split
      · exact (hk (p.stream src.toNat, y.2)).copied _ _
      · exact .inl rfl
    · rw [at', hcopied.other _ hy]
      exact hk y

theorem Regular.clear (hk : k.Regular) (q : Params) : (k.clear q).Regular := by
  intro y
  rw [at', Cache.clear]
  dsimp only
  split
  · exact .inl rfl
  · exact hk y

theorem Regular.update (hk : k.Regular) (q : Params) (doShift : Bool) :
    (k.update q doShift).Regular := by
  intro y
  rw [at', Cache.update]
  dsimp only
  split
  · exact hk y
  · exact hk y

theorem Regular.applyUbatch (hk : k.Regular) (hu : ∀ x ∈ u.tokens, 0 ≤ x.pos)
    (h : k.applyUbatch p r u = some k') : k'.Regular := by
  obtain ⟨k₁, m, k₂, h₁, h₂, h₃⟩ := applyUbatch_eq_some.1 h
  rw [placeTokens, Option.ite_none_right_eq_some] at h₁
  have hk₁ : k₁.Regular := by
    refine sweep_invariant (I := fun st : Cache × (Nat → Int) => st.1.Regular) ?_ hk h₁.2
    intro st x st' hx hst hstep y
    rw [(placeToken_spec hstep).cell]
    by_cases hy : y = x.1
    · rw [hy, Function.update_self]
      exact .inr (hu x.2 (mem_of_zip hx).2)
    · rw [Function.update_of_ne hy]
      exact hst y
  intro y
  rw [at', (moveHeads_cells h₃).1]
  exact hk₁.thinned (purges_thinned h₂) y

/-- What `init` accepts of a token, apart from its position and a sequence that it names twice. -/
structure Accepted (p : Params) (x : Token) : Prop where
  ne : x.seqId ≠ []
  valid : ∀ s ∈ x.seqId, s < p.nSeqIds

/-- A token that can be stored: its position is not negative, and it names no sequence twice. -/
structure Storable (x : Token) : Prop where
  pos : 0 ≤ x.pos
  nodup : x.seqId.Nodup

theorem Accepted.legal (h : Accepted p x) (h' : Storable x) : Legal p x :=
  ⟨by have hpos := h'.pos; omega, h'.nodup, h.valid⟩

theorem Known.applyUbatch (hk : Known p k) (hu : ∀ x ∈ u.tokens, Accepted p x)
    (h : k.applyUbatch p r u = some k') : Known p k' := by
  obtain ⟨k₁, m, k₂, h₁, h₂, h₃⟩ := applyUbatch_eq_some.1 h
  rw [placeTokens, Option.ite_none_right_eq_some] at h₁
  have hk₁ : Known p k₁ := by
    refine sweep_invariant (I := fun st : Cache × (Nat → Int) => Known p st.1) ?_ hk h₁.2
    intro st x st' hx hst hstep y s hs
    rw [(placeToken_spec hstep).cell] at hs
    by_cases hy : y = x.1
    · rw [hy, Function.update_self] at hs
      exact (hu x.2 (mem_of_zip hx).2).valid s (List.mem_toFinset.1 hs)
    · rw [Function.update_of_ne hy] at hs
      exact hst y s hs
  intro y
  rw [at', (moveHeads_cells h₃).1]
  exact hk₁.thinned (purges_thinned h₂) y

theorem Known.create (p : Params) (n : Nat) : Known p (create n) :=
  fun _ s hs => absurd hs (Finset.notMem_empty s)

/-- The bookkeeping, with what the operations need of the cells and the heads. -/
structure Booked (p : Params) (n : Nat) (k : Cache) : Prop where
  wellFormed : WellFormed p k
  sound : k.Sound
  fits : Fits n k
  known : Known p k
  regular : k.Regular

theorem Booked.create (p : Params) (n : Nat) : Booked p n (create n) :=
  ⟨create_wellFormed n, create_sound n, .create n, Known.create p n, fun _ => .inl rfl⟩

theorem Booked.clear (hk : Booked p n k) : Booked p n (k.clear p) :=
  ⟨clear_wellFormed p k, hk.sound.clear p, hk.fits.clear p, hk.known.clear p,
    hk.regular.clear p⟩

theorem Booked.update (hk : Booked p n k) (doShift : Bool) : Booked p n (k.update p doShift) :=
  ⟨hk.wellFormed.update doShift, hk.sound.update p doShift, hk.fits.update p doShift,
    hk.known.update p doShift, hk.regular.update p doShift⟩

theorem Booked.setHead (hk : Booked p n k) (hm : m ≤ n) (t : Nat) :
    Booked p n { k with head := Function.update k.head t m } := by
  refine ⟨hk.wellFormed, ⟨hk.sound.counted, hk.sound.bare⟩, ⟨hk.fits.size, fun t' => ?_⟩,
    hk.known, hk.regular⟩
  dsimp only
  by_cases ht : t' = t
  · rw [ht, Function.update_self]
    exact hm
  · rw [Function.update_of_ne ht]
    exact hk.fits.head t'

theorem Booked.inSeqIds (hk : Booked p n k) : InSeqIds p k :=
  fun t _ i _ => hk.known (t, i)

theorem Booked.seqRm (hk : Booked p n k) (hs : s = -1 ∨ validSeq p s) (p₀ p₁ : Int) :
    ∃ k', k.seqRm p s p₀ p₁ = some k' ∧ Booked p n k' := by
  obtain ⟨k', h, hwf⟩ := hk.wellFormed.seqRm hs p₀ p₁
  exact ⟨k', h, hwf, hk.sound.seqRm h, hk.fits.seqRm h, hk.known.thinned (seqRm_thinned h),
    hk.regular.thinned (seqRm_thinned h)⟩

/-- Every cell in use of the stream has a sequence. -/
def AllOwned (p : Params) (k : Cache) (s : Int) : Prop :=
  ∀ i < (k.cells (p.stream s.toNat)).size, ((k.cells (p.stream s.toNat)).cell i).pos ≠ -1 →
    ((k.cells (p.stream s.toNat)).cell i).seq ≠ ∅

theorem Booked.seqKeep (hk : Booked p n k) (hs : validSeq p s) (howned : AllOwned p k s) :
    ∃ k', k.seqKeep p s = some k' ∧ Booked p n k' := by
  obtain ⟨k', h, hwf⟩ := hk.wellFormed.seqKeep hs howned
  exact ⟨k', h, hwf, hk.sound.seqKeep h, hk.fits.seqKeep h, hk.known.thinned (seqKeep_thinned h),
    hk.regular.thinned (seqKeep_thinned h)⟩

/-- No cell that is copied within a stream has both sequences. -/
def Unshared (p : Params) (k : Cache) (src dst p₀ p₁ : Int) : Prop :=
  p.stream src.toNat = p.stream dst.toNat → src ≠ dst →
    ∀ i < (k.cells (p.stream src.toNat)).size,
      (((k.cells (p.stream src.toNat)).cell i).posIn (fromPos p₀) (toPos p₁) &&
        ((k.cells (p.stream src.toNat)).cell i).seqHas src.toNat) = true →
      dst.toNat ∉ ((k.cells (p.stream src.toNat)).cell i).seq

/-- What is copied between streams had a position before its pending shift. -/
def Unshifted (p : Params) (k : Cache) (src dst : Int) : Prop :=
  p.stream src.toNat ≠ p.stream dst.toNat → ∀ i < (k.cells (p.stream src.toNat)).size,
    ((k.cells (p.stream src.toNat)).cell i).seqHas src.toNat = true →
      Unshifts ((k.cells (p.stream src.toNat)).cell i)

theorem Booked.seqCp (hk : Booked p n k) (hsrc : validSeq p src) (hdst : validSeq p dst)
    (hfull : p.stream src.toNat ≠ p.stream dst.toNat →
      isFull (k.cells (p.stream 0)).size p₀ p₁)
    (hno : Unshared p k src dst p₀ p₁) (hun : Unshifted p k src dst) :
    ∃ k', k.seqCp p src dst p₀ p₁ = some k' ∧ Booked p n k' := by
  have hret : ∃ k', k.seqCp p src dst p₀ p₁ = some k' ∧ WellFormed p k' := by
    by_cases ht : p.stream src.toNat = p.stream dst.toNat
    · exact hk.wellFormed.seqCp_same hsrc hdst ht (hno ht)
    · have hsize : (k.cells (p.stream src.toNat)).size = (k.cells (p.stream dst.toNat)).size := by
        rw [hk.fits.size, hk.fits.size]
      exact hk.wellFormed.seqCp_cross hsrc hdst ht (hfull ht) hsize (hun ht)
  obtain ⟨k', h, hwf⟩ := hret
  exact ⟨k', h, hwf, hk.sound.seqCp h, hk.fits.seqCp h, hk.known.seqCp h, hk.regular.seqCp h⟩

/-- The cells that a shift or a division of positions is about. -/
def Touched (p : Params) (k : Cache) (s p₀ p₁ : Int) (x : Cell) : Prop :=
  ∃ i < (k.cells (p.stream s.toNat)).size, x = (k.cells (p.stream s.toNat)).cell i ∧
    (x.posIn (fromPos p₀) (toPos p₁) && x.seqHas s.toNat) = true

theorem Booked.seqAdd (hk : Booked p n k) (hs : validSeq p s)
    (hmove : ∀ x, Touched p k s p₀ p₁ x → Cells.CanMove x d) :
    ∃ k', k.seqAdd p s p₀ p₁ d = some k' ∧ Booked p n k' := by
  obtain ⟨k', h, hwf⟩ := hk.wellFormed.seqAdd hs
    fun _ i hi hin => hmove _ ⟨i, hi, rfl, hin⟩
  exact ⟨k', h, hwf, hk.sound.seqAdd h, hk.fits.seqAdd h, hk.known.seqAdd h,
    hk.regular.seqAdd h⟩

theorem Booked.seqDiv (hk : Booked p n k) (hs : validSeq p s) (hd : 1 < d)
    (hdiv : ∀ x, Touched p k s p₀ p₁ x → CanDivide x d) :
    ∃ k', k.seqDiv p s p₀ p₁ d = some k' ∧ Booked p n k' := by
  obtain ⟨k', h, hwf⟩ := hk.wellFormed.seqDiv hs hd fun i hi hin => hdiv _ ⟨i, hi, rfl, hin⟩
  exact ⟨k', h, hwf, hk.sound.seqDiv hd h, hk.fits.seqDiv h, hk.known.seqDiv h,
    hk.regular.seqDiv hd h⟩

theorem Booked.applyUbatch (hk : Booked p n k) (hr : Fillable p k u r)
    (hu : ∀ x ∈ u.tokens, Accepted p x) (hu' : ∀ x ∈ u.tokens, Storable x) :
    ∃ k', k.applyUbatch p r u = some k' ∧ Booked p n k' := by
  obtain ⟨k', h, hwf⟩ := hk.wellFormed.applyUbatch hk.inSeqIds hk.regular hr
    fun x hx => (hu x hx).legal (hu' x hx)
  refine ⟨k', h, hwf, hk.sound.applyUbatch h, hk.fits.applyUbatch (fun x hx => ?_) h,
    hk.known.applyUbatch hu h, hk.regular.applyUbatch (fun x hx => (hu' x hx).pos) h⟩
  rw [← hk.fits.size x.1]
  exact (hr.inside x hx).2

/-! ### Trials -/

theorem applyUbatch_place {k : Cache} (hr : Fillable p k u r) (h : k.applyUbatch p r u = some k')
    (hy : y ∈ r.places) :
    ∃ tok ∈ u.tokens, (k'.at' y).Thinned ((k.at' y).placed tok) := by
  obtain ⟨k₁, m, k₂, h₁, h₂, h₃⟩ := applyUbatch_eq_some.1 h
  rw [placeTokens, Option.ite_none_right_eq_some] at h₁
  have hall := placeAll_spec (zip_nodup hr.length hr.nodup) h₁.2
  rw [← List.map_fst_zip (le_of_eq hr.length.symm)] at hy
  obtain ⟨x, hx, rfl⟩ := List.mem_map.1 hy
  refine ⟨x.2, (mem_of_zip hx).2, ?_⟩
  rw [← hall.cell x hx, at', (moveHeads_cells h₃).1]
  exact purges_thinned h₂ x.1

/-- A cell without a pending shift gets none. -/
theorem applyUbatch_shift (hk : k.Sound) (hr : Fillable p k u r)
    (h : k.applyUbatch p r u = some k') (hy : y ∈ r.places ∨ (k.at' y).shift = 0) :
    (k'.at' y).shift = 0 := by
  by_cases hplace : y ∈ r.places
  · obtain ⟨tok, _, hthin⟩ := applyUbatch_place hr h hplace
    apply Cell.Thinned.shift_zero hthin
    rw [Cell.placed]
    dsimp only
    split
    case isTrue hempty => exact (hk.bare y (Cell.isEmpty_eq.1 hempty)).2
    case isFalse => rfl
  · exact Cell.Thinned.shift_zero (applyUbatch_other h hplace) (hy.resolve_left hplace)

theorem restoreRows_total {rows : List (Nat × List Nat)} {K : Cache} {old : Nat → Nat}
    (hk : Booked p n k) (hold : ∀ t, old t ≤ n) (hK : Booked p n K)
    (hin : ∀ x ∈ rows, x.1 < p.nStream ∧ ∀ i ∈ x.2, i < n)
    (hzero : ∀ x ∈ rows, ∀ i ∈ x.2, (K.at' (x.1, i)).shift = 0) (m : Nat) :
    ∃ K', ((rows.zip (kept k rows)).zipIdx m).foldlM (restoreRow old) K = some K' ∧
      Booked p n K' ∧ ∀ y, (K.at' y).shift = 0 → (K'.at' y).shift = 0 := by
  induction rows generalizing K m with
  | nil => exact ⟨K, rfl, hK, fun _ h => h⟩
  | cons x rows ih =>
    obtain ⟨ht, hi⟩ := hin x (.head _)
    have hbare (i : Nat) : (Cells.saved (k.at' (x.1, i))).Bare :=
      fun hpos => ⟨(hk.sound.bare (x.1, i) hpos).1, rfl⟩
    obtain ⟨d, hd, hwf, hsize, hcell⟩ := Cells.set_total (hK.wellFormed x.1 ht)
      (fun i h => (hK.fits.size x.1).symm ▸ hi i h) (hzero x (.head _))
      (f := fun i => Cells.saved (k.at' (x.1, i))) hbare
    obtain ⟨hcount, hsound⟩ := set_sound (hK.sound.counted x.1)
      (fun i => hK.sound.bare (x.1, i)) hbare hd
    have hat : ∀ y, (∀ s ∈ ((K.setStream x.1 d (old m)).at' y).seq, s < p.nSeqIds) ∧
        ((K.setStream x.1 d (old m)).at' y).Regular ∧ ((K.setStream x.1 d (old m)).at' y).Bare ∧
        ((K.at' y).shift = 0 → ((K.setStream x.1 d (old m)).at' y).shift = 0) := by
      intro y
      rw [at'_setStream]
      split
      case isFalse => exact ⟨hK.known y, hK.regular y, hK.sound.bare y, fun h => h⟩
      case isTrue hy =>
        have hsame : (K.cells x.1).cell y.2 = K.at' y := by
          rw [at', hy]
        rcases hcell y.2 with h | h
        · have hb := hsound y.2
          rw [h, hsame] at hb ⊢
          exact ⟨hK.known y, hK.regular y, hb, fun h => h⟩
        · have hb := hsound y.2
          rw [h, hsame] at hb ⊢
          exact ⟨hk.known (x.1, y.2), hk.regular (x.1, y.2), hb, fun h => h⟩
    have hbooked : Booked p n (K.setStream x.1 d (old m)) :=
      ⟨hK.wellFormed.setStream hwf _ _,
        ⟨counted_setStream hK.sound.counted hcount _ _, fun y => (hat y).2.2.1⟩,
        hK.fits.setStream (hsize.trans (hK.fits.size _)) (hold m) _, fun y => (hat y).1,
        fun y => (hat y).2.1⟩
    obtain ⟨K', hK', hbooked', hshift⟩ := ih hbooked
      (fun y hy => hin y (List.mem_cons_of_mem _ hy))
      (fun y hy i hi => (hat _).2.2.2 (hzero y (List.mem_cons_of_mem _ hy) i hi)) (m + 1)
    refine ⟨K', ?_, hbooked', fun y hy => hshift y ((hat y).2.2.2 hy)⟩
    rw [kept, List.map_cons, List.zip_cons_cons, List.zipIdx_cons]
    refine foldlM_cons_eq_some.2 ⟨K.setStream x.1 d (old m), ?_, hK'⟩
    rw [restoreRow]
    exact congrArg (Option.map _) hd

theorem saveState_total {k : Cache} {r : SlotInfo}
    (h : ∀ y ∈ r.places, y.2 < (k.cells y.1).size ∧ (k.at' y).shift = 0) :
    saveState k r = some ⟨r, k.head, kept k r.rows⟩ := by
  have hrows : ∀ rows : List (Nat × List Nat),
      (∀ x ∈ rows, ∀ i ∈ x.2, i < (k.cells x.1).size ∧ (k.at' (x.1, i)).shift = 0) →
      rows.mapM (fun x => (k.cells x.1).cp x.2) = some (kept k rows) := by
    intro rows
    induction rows with
    | nil => exact fun _ => rfl
    | cons x rows ih =>
      intro hall
      have hx : (k.cells x.1).cp x.2 = some (x.2.map fun i => Cells.saved (k.at' (x.1, i))) :=
        Cells.cp_eq_some.2 ⟨hall x (.head _), rfl⟩
      rw [List.mapM_cons, hx, ih fun y hy => hall y (List.mem_cons_of_mem _ hy)]
      rfl
  rw [saveState, hrows r.rows fun x hx i hi => h (x.1, i) (mem_places.2 ⟨x, hx, rfl, hi⟩)]
  rfl

/-- The assertions of `prepare` and of `find_slot`: there are ubatches, which can be served, and
where cells in use are reused they have no pending shift. -/
structure CanPrepare (p : Params) (k : Cache) (us : List Ubatch) : Prop where
  ne : us ≠ []
  served : ∀ u ∈ us, Servable p u ∧ ∀ x ∈ u.tokens, Accepted p x
  shifted : p.swaType = .none ∨ ∀ y, (k.at' y).shift = 0

/-- A trial returns, and what it changed can be taken back. -/
theorem trial_total {us : List Ubatch} (hk : Booked p n k)
    (hus : ∀ u ∈ us, Servable p u ∧ ∀ x ∈ u.tokens, Accepted p x)
    (hstore : ∀ u ∈ us, ∀ x ∈ u.tokens, Storable x)
    (hshift : p.swaType = .none ∨ ∀ y, (k.at' y).shift = 0) :
    ∃ kn states ok, trial p k us = some (kn, states, ok) ∧
      (us ≠ [] → ¬ (states = [] ∧ ok = true)) ∧
      ∃ k', states.reverse.foldlM restore kn = some k' ∧ Booked p n k' ∧
        ∀ y, (k.at' y).shift = 0 → (k'.at' y).shift = 0 := by
  induction us generalizing k with
  | nil => exact ⟨k, [], true, rfl, fun h => absurd rfl h, k, rfl, hk, fun _ h => h⟩
  | cons u us ih =>
    obtain ⟨hserve, hacc⟩ := hus u (.head _)
    obtain ⟨found, hfound⟩ := findSlot_returns hserve hk.fits.headsFit hk.regular false
    rw [trial, hfound, Option.bind_some]
    cases found with
    | none =>
      exact ⟨k, [], false, rfl, fun _ h => absurd h.2 Bool.false_ne_true, k, rfl, hk,
        fun _ h => h⟩
    | some r =>
      have hslot := findSlot_spec hserve.tokens hfound
      have hfill := hslot.fillable fun x hx => (hacc x hx).valid
      have hzero : ∀ y ∈ r.places, (k.at' y).shift = 0 := by
        intro y hy
        rcases hshift with hnone | hall
        · have huse := (hslot.usable y hy).2
          rw [canUse_no_window hnone] at huse
          exact (hk.sound.bare y huse).2
        · exact hall y
      have hsave := saveState_total fun y hy => ⟨(hslot.usable y hy).1, hzero y hy⟩
      obtain ⟨k₁, h₁, hk₁⟩ := hk.applyUbatch hfill hacc (hstore u (.head _))
      have hkeep : ∀ y, y ∈ r.places ∨ (k.at' y).shift = 0 → (k₁.at' y).shift = 0 :=
        fun y hy => applyUbatch_shift hk.sound hfill h₁ hy
      obtain ⟨kn, states, ok, htrial, _, K, hK, hKb, hKz⟩ := ih hk₁
        (fun v hv => hus v (List.mem_cons_of_mem _ hv))
        (fun v hv => hstore v (List.mem_cons_of_mem _ hv))
        (hshift.imp_right fun hall y => hkeep y (.inr (hall y)))
      have hin : ∀ x ∈ r.rows, x.1 < p.nStream ∧ ∀ i ∈ x.2, i < n := by
        intro x hx
        have hplace (i : Nat) (hi : i ∈ x.2) :=
          hfill.inside (x.1, i) (mem_places.2 ⟨x, hx, rfl, hi⟩)
        obtain ⟨i, hi⟩ := List.exists_mem_of_ne_nil _ (hfill.row_ne x hx)
        exact ⟨(hplace i hi).1, fun j hj => hk.fits.size x.1 ▸ (hplace j hj).2⟩
      obtain ⟨K', hK', hKb', hKz'⟩ := restoreRows_total hk hk.fits.head hKb hin
        (fun x hx i hi => hKz _ (hkeep _ (.inl (mem_places.2 ⟨x, hx, rfl, hi⟩)))) 0
      refine ⟨kn, ⟨r, k.head, kept k r.rows⟩ :: states, ok, ?_, fun _ h => ?_, K', ?_, hKb',
        fun y hy => hKz' y (hKz y (hkeep y (.inr hy)))⟩
      · simp only [hsave, h₁, htrial, Option.bind_eq_bind, Option.bind_some]
        rfl
      · exact absurd h.1 (List.cons_ne_nil _ _)
      · rw [List.reverse_cons, List.foldlM_append, hK]
        exact foldlM_cons_eq_some.2 ⟨K', hK', rfl⟩

theorem Booked.prepare {us : List Ubatch} (hk : Booked p n k) (hus : CanPrepare p k us)
    (hstore : ∀ u ∈ us, ∀ x ∈ u.tokens, Storable x) :
    ∃ r, k.prepare p us = some r ∧ Booked p n r.1 := by
  obtain ⟨kn, states, ok, htrial, hne, k', hback, hk', _⟩ :=
    trial_total hk hus.served hstore hus.shifted
  refine ⟨(k', if ok then states.map State.sinfo else []), ?_, hk'⟩
  rw [Cache.prepare, htrial]
  simp only [Option.bind_eq_bind, Option.bind_some]
  rw [if_neg (hne hus.ne), hback]
  rfl

end Cache
end ActQuant.KvCache
