import ActQuant.KvCache.ApplyWf

namespace ActQuant.KvCache
open ActQuant.Lib ActQuant.Batch

/-! What every operation that returns keeps, whatever it is called with. -/

/-- An empty cell has no sequence and no shift. -/
def Cell.Bare (x : Cell) : Prop := x.pos = -1 → x.seq = ∅ ∧ x.shift = 0

namespace Cell.Bare

theorem vacant : Cell.vacant.Bare := fun _ => ⟨rfl, rfl⟩

theorem thinned {x y : Cell} (hx : x.Bare) (h : y.Thinned x) : y.Bare := by
  rcases h with rfl | ⟨hpos, hshift, hseq⟩
  · exact vacant
  · intro hy
    obtain ⟨hno, hzero⟩ := hx (hpos ▸ hy)
    rw [hno] at hseq
    exact ⟨Finset.subset_empty.1 hseq, hshift.trans hzero⟩

theorem pos_ne {x : Cell} (hx : x.Bare) (hs : s ∈ x.seq) : x.pos ≠ -1 := by
  intro h
  exact Finset.notMem_empty s ((hx h).1 ▸ hs)

theorem moved {x : Cell} (d : Int) : (x.moved d).Bare := by
  rw [Cell.moved]
  split
  · exact vacant
  · case isFalse h =>
    intro hpos
    dsimp only at hpos
    omega

theorem divided {x : Cell} (hpos : 0 ≤ x.pos) (hd : 1 < d) : (x.divided d).Bare := by
  have hnn : 0 ≤ x.pos.tdiv d := Int.tdiv_nonneg hpos (by omega)
  intro h
  simp only [Cell.divided] at h
  omega

theorem placed {x : Cell} (hx : x.Bare) {tok : Token} (htok : tok.seqId ≠ [] → tok.pos ≠ -1) :
    (x.placed tok).Bare := by
  intro hpos
  have hnil : tok.seqId = [] := by
    by_contra hne
    exact htok hne hpos
  refine ⟨by rw [Cell.placed, hnil]; rfl, ?_⟩
  rw [Cell.placed]
  split
  · case isTrue h => exact (hx (Cell.isEmpty_eq.1 h)).2
  · rfl

end Cell.Bare

/-- What the turns of a pass keep, the pass keeps. -/
theorem Cells.sweep_keeps {I : Cells → Prop} {turn : Cells → Nat → Option (Cells × Bool)}
    (hturn : ∀ {c i d b}, I c → turn c i = some (d, b) → I d) {c d : Cells} (hc : I c)
    (h : c.sweep turn = some (d, n)) : I d := by
  refine sweep_invariant (I := fun st : Cells × Nat => I st.1) ?_ hc h
  intro st i st' _ hst h
  obtain ⟨⟨e, b⟩, hr, rfl⟩ := Option.map_eq_some_iff.1 h
  exact hturn hst hr

/-- What all that is done to single cells keeps of the cells of a stream. -/
structure Cells.Kept (I : Cells → Prop) : Prop where
  resize : ∀ n, I (resize n)
  rm : ∀ {c i d}, I c → c.rm i = some d → I d
  seqRm : ∀ {c i s d b}, I c → c.seqRm i s = some (d, b) → I d
  seqKeep : ∀ {c i s d b}, I c → c.seqKeep i s = some (d, b) → I d
  seqAdd : ∀ {c i s d}, I c → c.seqAdd i s = some d → I d
  posSet : ∀ {c i q d}, I c → c.posSet i q = some d → I d
  posAdd : ∀ {c i n d b}, I c → c.posAdd i n = some (d, b) → I d
  posDiv : ∀ {c i n d}, I c → c.posDiv i n = some d → I d

theorem Cells.Counted.kept : Cells.Kept Counted :=
  ⟨resize_counted, .rm, .seqRm, .seqKeep, .seqAdd, .posSet, .posAdd, .posDiv⟩

namespace Cache

/-- The counters of every stream are right and the empty cells are bare. -/
structure Sound (k : Cache) : Prop where
  counted : ∀ t, (k.cells t).Counted
  bare : ∀ y, (k.at' y).Bare

theorem create_sound (n : Nat) : (create n).Sound :=
  ⟨fun _ => Cells.resize_counted n, fun _ => .vacant⟩

theorem cells_setStream {I : Cells → Prop} {k : Cache} (hk : ∀ t, I (k.cells t)) (hd : I d)
    (t hd' : Nat) (t' : Nat) : I ((k.setStream t d hd').cells t') := by
  rw [setStream]
  dsimp only
  by_cases ht : t' = t
  · subst ht
    rw [Function.update_self]
    exact hd
  · rw [Function.update_of_ne ht]
    exact hk t'

theorem counted_setStream {k : Cache} (hk : ∀ t, (k.cells t).Counted) (hd : d.Counted)
    (t hd' : Nat) (t' : Nat) : ((k.setStream t d hd').cells t').Counted :=
  cells_setStream hk hd t hd' t'

theorem Sound.clear {k : Cache} (hk : k.Sound) (p : Params) : (k.clear p).Sound := by
  refine ⟨fun t => ?_, fun y => ?_⟩
  · rw [Cache.clear]
    dsimp only
    split
    · exact Cells.resize_counted _
    · exact hk.counted t
  · rw [at', Cache.clear]
    dsimp only
    split
    · exact .vacant
    · exact hk.bare y

theorem Sound.update {k : Cache} (hk : k.Sound) (p : Params) (doShift : Bool) :
    (k.update p doShift).Sound := by
  refine ⟨fun t => ?_, fun y => ?_⟩
  · rw [Cache.update]
    dsimp only
    split
    · exact hk.counted t
    · exact hk.counted t
  · rw [at', Cache.update]
    dsimp only
    split
    · exact fun h => ⟨(hk.bare y h).1, rfl⟩
    · exact hk.bare y

/-! ### What an operation keeps of the cells -/

section Kept
variable {I : Cells → Prop} {k k' : Cache}

theorem seqRmTurn_keeps (hI : Cells.Kept I) {c : Cells} (hc : I c)
    (h : seqRmTurn s p₀ p₁ c i = some (d, b)) : I d := by
  rw [seqRmTurn] at h
  split at h
  · exact hI.seqRm hc h
  · cases h
    exact hc

theorem rmTurn_keeps (hI : Cells.Kept I) {c : Cells} (hc : I c)
    (h : rmTurn p₀ p₁ c i = some (d, b)) : I d := by
  rw [rmTurn] at h
  split at h
  · obtain ⟨e, he, h⟩ := Option.map_eq_some_iff.1 h
    have hd := hI.rm hc he
    cases h
    exact hd
  · cases h
    exact hc

theorem cpTurn_keeps (hI : Cells.Kept I) {c : Cells} (hc : I c)
    (h : cpTurn src dst p₀ p₁ c i = some (d, b)) : I d := by
  rw [cpTurn] at h
  split at h
  · obtain ⟨e, he, h⟩ := Option.map_eq_some_iff.1 h
    have hd := hI.seqAdd hc he
    cases h
    exact hd
  · cases h
    exact hc

theorem addTurn_keeps (hI : Cells.Kept I) {c : Cells} (hc : I c)
    (h : addTurn s p₀ p₁ n c i = some (d, b)) : I d := by
  rw [addTurn] at h
  split at h
  · exact hI.posAdd hc h
  · cases h
    exact hc

theorem divTurn_keeps (hI : Cells.Kept I) {c : Cells} (hc : I c)
    (h : divTurn s p₀ p₁ n c i = some (d, b)) : I d := by
  rw [divTurn] at h
  split at h
  · obtain ⟨e, he, h⟩ := Option.map_eq_some_iff.1 h
    have hd := hI.posDiv hc he
    cases h
    exact hd
  · cases h
    exact hc

theorem copyCell_keeps (hI : Cells.Kept I) {c : Cells} (hc : I c)
    (h : copyCell from' src dst c i = some d) : I d := by
  rw [copyCell] at h
  dsimp only at h
  split at h
  case isFalse =>
    cases h
    exact hc
  case isTrue =>
    split at h
    case isTrue => cases h
    case isFalse =>
      split at h
      case isTrue =>
        obtain ⟨pos, _, h⟩ := Option.bind_eq_some_iff.1 h
        split at h
        case isTrue => cases h
        case isFalse =>
          obtain ⟨d₁, h₁, h⟩ := Option.bind_eq_some_iff.1 h
          obtain ⟨d₂, h₂, h⟩ := Option.bind_eq_some_iff.1 h
          obtain ⟨⟨d₃, b⟩, h₃, h⟩ := Option.bind_eq_some_iff.1 h
          cases h
          exact hI.posAdd (hI.seqAdd (hI.posSet hc h₁) h₂) h₃
      case isFalse =>
        obtain ⟨d₁, h₁, h⟩ := Option.bind_eq_some_iff.1 h
        exact hI.seqAdd (hI.posSet hc h₁) h

theorem seqRm_keeps (hI : Cells.Kept I) (hk : ∀ t, I (k.cells t))
    (h : k.seqRm p s p₀ p₁ = some k') : (∀ t, I (k'.cells t)) ∧ k'.copies = k.copies := by
  rw [seqRm, Option.ite_none_right_eq_some] at h
  obtain ⟨_, h⟩ := h
  split at h
  · obtain ⟨⟨d, n⟩, hd, h⟩ := Option.bind_eq_some_iff.1 h
    cases h
    exact ⟨cells_setStream hk (Cells.sweep_keeps (seqRmTurn_keeps hI) (hk _) hd) _ _, rfl⟩
  · refine sweep_invariant (I := fun e : Cache => (∀ t, I (e.cells t)) ∧ e.copies = k.copies) ?_
      ⟨hk, rfl⟩ h
    intro e t e' _ he h
    obtain ⟨⟨d, n⟩, hd, h⟩ := Option.bind_eq_some_iff.1 h
    cases h
    exact ⟨cells_setStream he.1 (Cells.sweep_keeps (rmTurn_keeps hI) (he.1 _) hd) _ _, he.2⟩

theorem seqKeep_keeps (hI : Cells.Kept I) (hk : ∀ t, I (k.cells t))
    (h : k.seqKeep p s = some k') : (∀ t, I (k'.cells t)) ∧ k'.copies = k.copies := by
  rw [seqKeep, Option.ite_none_right_eq_some] at h
  obtain ⟨_, h⟩ := h
  obtain ⟨⟨d, n⟩, hd, h⟩ := Option.bind_eq_some_iff.1 h
  cases h
  exact ⟨cells_setStream hk (Cells.sweep_keeps hI.seqKeep (hk _) hd) _ _, rfl⟩

theorem seqAdd_keeps (hI : Cells.Kept I) (hk : ∀ t, I (k.cells t))
    (h : k.seqAdd p s p₀ p₁ n = some k') : (∀ t, I (k'.cells t)) ∧ k'.copies = k.copies := by
  rw [seqAdd, Option.ite_none_right_eq_some] at h
  obtain ⟨_, h⟩ := h
  split at h
  · cases h
    exact ⟨hk, rfl⟩
  · obtain ⟨⟨d, m⟩, hd, h⟩ := Option.bind_eq_some_iff.1 h
    cases h
    exact ⟨cells_setStream hk (Cells.sweep_keeps (addTurn_keeps hI) (hk _) hd) _ _, rfl⟩

theorem seqDiv_keeps (hI : Cells.Kept I) (hk : ∀ t, I (k.cells t))
    (h : k.seqDiv p s p₀ p₁ n = some k') : (∀ t, I (k'.cells t)) ∧ k'.copies = k.copies := by
  rw [seqDiv, Option.ite_none_right_eq_some] at h
  obtain ⟨_, h⟩ := h
  split at h
  · cases h
    exact ⟨hk, rfl⟩
  · obtain ⟨⟨d, m⟩, hd, h⟩ := Option.bind_eq_some_iff.1 h
    cases h
    exact ⟨cells_setStream hk (Cells.sweep_keeps (divTurn_keeps hI) (hk _) hd) _ _, rfl⟩

/-- Only a copy between streams leaves a buffer to be copied. -/
theorem seqCp_keeps (hI : Cells.Kept I) (hk : ∀ t, I (k.cells t))
    (h : k.seqCp p src dst p₀ p₁ = some k') : (∀ t, I (k'.cells t)) ∧
      k'.copies = if p.stream src.toNat = p.stream dst.toNat then k.copies
        else k.copies ++ [(p.stream src.toNat, p.stream dst.toNat)] := by
  rw [seqCp, Option.ite_none_right_eq_some] at h
  obtain ⟨_, h⟩ := h
  by_cases ht : p.stream src.toNat = p.stream dst.toNat
  · rw [if_pos ht] at h ⊢
    split at h
    · cases h
      exact ⟨hk, rfl⟩
    · obtain ⟨⟨d, m⟩, hd, h⟩ := Option.bind_eq_some_iff.1 h
      cases h
      exact ⟨cells_setStream hk (Cells.sweep_keeps (cpTurn_keeps hI) (hk _) hd) _ _, rfl⟩
  · rw [if_neg ht, Option.ite_none_right_eq_some] at h
    rw [if_neg ht]
    obtain ⟨_, h⟩ := h
    obtain ⟨d, hd, h⟩ := Option.bind_eq_some_iff.1 h
    cases h
    have hd := sweep_invariant (I := I) (fun _ hc h => copyCell_keeps hI hc h) (hI.resize _) hd
    exact ⟨cells_setStream hk hd (p.stream dst.toNat) (k.head (p.stream src.toNat)), rfl⟩

theorem purge_keeps (hI : Cells.Kept I) (hk : ∀ t, I (k.cells t)) (h : purge p m k s = some k') :
    (∀ t, I (k'.cells t)) ∧ k'.copies = k.copies := by
  rw [purge] at h
  split at h
  · cases h
    exact ⟨hk, rfl⟩
  · rw [Option.ite_none_right_eq_some] at h
    obtain ⟨_, h⟩ := h
    split at h
    · exact seqRm_keeps hI hk h
    · cases h
      exact ⟨hk, rfl⟩

end Kept

theorem purge_counted {k : Cache} (hk : ∀ t, (k.cells t).Counted) (h : purge p m k s = some k') :
    ∀ t, (k'.cells t).Counted :=
  (purge_keeps Cells.Counted.kept hk h).1

theorem Sound.seqRm {k : Cache} (hk : k.Sound) (h : k.seqRm p s p₀ p₁ = some k') : k'.Sound :=
  ⟨(seqRm_keeps Cells.Counted.kept hk.counted h).1,
    fun y => (hk.bare y).thinned (seqRm_thinned h y)⟩

theorem Sound.seqKeep {k : Cache} (hk : k.Sound) (h : k.seqKeep p s = some k') : k'.Sound :=
  ⟨(seqKeep_keeps Cells.Counted.kept hk.counted h).1,
    fun y => (hk.bare y).thinned (seqKeep_thinned h y)⟩

theorem Sound.seqAdd {k : Cache} (hk : k.Sound) (h : k.seqAdd p s p₀ p₁ n = some k') :
    k'.Sound := by
  refine ⟨(seqAdd_keeps Cells.Counted.kept hk.counted h).1, fun y => ?_⟩
  rcases (seqAdd_passed h).2.cases y with he | he
  · rw [he]
    split
    · exact hk.bare y
    · rw [addCell]
      split
      · exact .moved n
      · exact hk.bare y
  · rw [he]
    exact hk.bare y

theorem Sound.seqDiv {k : Cache} (hk : k.Sound) (hn : 1 < n)
    (h : k.seqDiv p s p₀ p₁ n = some k') : k'.Sound := by
  refine ⟨(seqDiv_keeps Cells.Counted.kept hk.counted h).1, fun y => ?_⟩
  rcases (seqDiv_passed h).2.cases y with he | he
  · rw [he]
    split
    · exact hk.bare y
    · rw [divCell]
      split
      · case isTrue hin =>
        exact .divided ((fromPos_nonneg p₀).trans (posIn_seqHas.1 hin).1.1) hn
      · exact hk.bare y
  · rw [he]
    exact hk.bare y

theorem copiedCell_bare {x : Cell} (hx : x.Bare) (src dst : Nat) :
    (copiedCell x src dst Cell.vacant).Bare := by
  rw [copiedCell]
  split
  · case isTrue hs =>
    split
    · exact .moved _
    · have hpos := hx.pos_ne (of_decide_eq_true hs)
      exact fun h => (hpos h).elim
  · exact .vacant

theorem Sound.seqCp {k : Cache} (hk : k.Sound) (h : k.seqCp p src dst p₀ p₁ = some k') :
    k'.Sound := by
  refine ⟨(seqCp_keeps Cells.Counted.kept hk.counted h).1, fun y => ?_⟩
  by_cases ht : p.stream src.toNat = p.stream dst.toNat
  · rcases (seqCp_same_passed ht h).2.2.cases y with he | he
    · rw [he]
      split
      · exact hk.bare y
      · rw [cpCell]
        split
        · case isTrue hin =>
          have hpos := (hk.bare y).pos_ne (posIn_seqHas.1 hin).2
          exact fun h => (hpos h).elim
        · exact hk.bare y
    · rw [he]
      exact hk.bare y
  · obtain ⟨_, _, _, hc⟩ := seqCp_cross_copied ht h
    rw [at']
    by_cases hy : y.1 = p.stream dst.toNat
    · rw [hy, hc.cell]
      split
      · exact copiedCell_bare (hk.bare (p.stream src.toNat, y.2)) _ _
      · exact .vacant
    · rw [hc.other _ hy]
      exact hk.bare y

theorem placeAll_bare {xs : List ((Nat × Nat) × Token)} {s s' : Cache × (Nat → Int)}
    (hs : ∀ y, (s.1.at' y).Bare) (h : xs.foldlM placeToken s = some s') (y : Nat × Nat) :
    (s'.1.at' y).Bare := by
  refine sweep_invariant (I := fun s : Cache × (Nat → Int) => ∀ y, (s.1.at' y).Bare) ?_ hs h y
  intro st x st' _ hst h y
  have hp := placeToken_spec h
  rw [hp.cell]
  by_cases hy : y = x.1
  · subst hy
    rw [Function.update_self]
    exact (hst x.1).placed hp.legal.2
  · rw [Function.update_of_ne hy]
    exact hst y

theorem Sound.applyUbatch {k : Cache} (hk : k.Sound) (h : k.applyUbatch p r u = some k') :
    k'.Sound := by
  obtain ⟨k₁, m, k₂, h₁, h₂, h₃⟩ := applyUbatch_eq_some.1 h
  rw [placeTokens, Option.ite_none_right_eq_some] at h₁
  have hcells := (moveHeads_cells h₃).1
  refine ⟨fun t => ?_, fun y => ?_⟩
  · rw [hcells]
    exact sweep_invariant (I := fun k : Cache => ∀ t, (k.cells t).Counted)
      (fun _ hI h => purge_counted hI h) (placeAll_counted (s := (k, _)) hk.counted h₁.2) h₂ t
  · rw [at', hcells]
    exact (placeAll_bare (s := (k, _)) hk.bare h₁.2 y).thinned (purges_thinned h₂ y)

end Cache
end ActQuant.KvCache
