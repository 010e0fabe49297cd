import ActQuant.KvCache.Sound
import ActQuant.KvCache.StateIo

namespace ActQuant.KvCache.Store
open ActQuant.Lib ActQuant.Batch Cache

/-! What the reading of a whole cache leaves where it does not complete. -/

/-- No cell of the cache is used. -/
def AllEmpty (p : Params) (k : Cache) : Prop :=
  ∀ t < p.nStream, ∀ i < (k.cells t).size, (k.at' (t, i)).pos = -1

/-- The positions of the cells that the input begins. -/
def positions : Nat → List UInt8 → List Int
  | 0, _ => []
  | n + 1, bs =>
    match readHead bs with
    | .ok ((pos, nSeqId), rest) => toInt32 pos :: positions n (rest.drop (4 * nSeqId))
    | _ => []

/-- How a part of the reading goes by its fields, with what it has and the cells it leaves. -/
def Part.Follows (P : α → Prop) (Q : Cache → Prop) (l : Load Unit (Unit × List UInt8)) :
    Part α → Prop
  | .ok a rest => l = .ok ((), rest) ∧ P a
  | .ended k => l = .null ∧ Q k
  | .refused _ => l = .crash ()
  | .fault => True

/-- The cells of a cache, as many as before, are all empty if they were and the condition holds. -/
structure Filled (p : Params) (k : Cache) (E : Prop) (k' : Cache) : Prop where
  size : ∀ t, (k'.cells t).size = (k.cells t).size
  empty : AllEmpty p k' ↔ AllEmpty p k ∧ E

theorem clear_allEmpty (p : Params) (k : Cache) : AllEmpty p (k.clear p) := by
  intro t ht i _
  rw [at', Cache.clear]
  dsimp only
  rw [if_pos ht]
  rfl

/-- A cell is replaced in a cache. -/
theorem replaced_allEmpty {k : Cache} {c : Cells} (hr : Cells.Replaced (k.cells t) i y c)
    (hi : i < (k.cells t).size) (ht : t < p.nStream) (n : Nat) :
    AllEmpty p (k.setStream t c n) ↔
      (∀ t' < p.nStream, ∀ j < (k.cells t').size, (t', j) ≠ (t, i) → (k.at' (t', j)).pos = -1) ∧
        y.pos = -1 := by
  rw [AllEmpty, update_at' k t i c y n hr]
  simp only [size_setStream hr.size]
  constructor
  · intro h
    refine ⟨fun t' ht' j hj hne => ?_, ?_⟩
    · have hpos := h t' ht' j hj
      rw [Function.update_of_ne hne] at hpos
      exact hpos
    · have hpos := h t ht i hi
      rw [Function.update_self] at hpos
      exact hpos
  · rintro ⟨hother, hpos⟩ t' ht' j hj
    by_cases he : (t', j) = (t, i)
    · rw [he, Function.update_self]
      exact hpos
    · rw [Function.update_of_ne he]
      exact hother t' ht' j hj he

theorem allEmpty_of_vacant {k : Cache} (hpos : (k.at' (t, i)).pos = -1)
    (h : ∀ t' < p.nStream, ∀ j < (k.cells t').size, (t', j) ≠ (t, i) → (k.at' (t', j)).pos = -1) :
    AllEmpty p k := by
  intro t' ht' j hj
  by_cases he : (t', j) = (t, i)
  · rw [he]
    exact hpos
  · exact h t' ht' j hj he

theorem posSet_allEmpty {k : Cache} {c : Cells} (h : (k.cells t).posSet i q = some c)
    (ht : t < p.nStream) (n : Nat) : AllEmpty p (k.setStream t c n) ↔ AllEmpty p k ∧ q = -1 := by
  obtain ⟨hr, hi, hpos, _⟩ := Cells.posSet_replaced h
  rw [replaced_allEmpty hr hi ht]
  refine and_congr_left fun _ => ⟨allEmpty_of_vacant hpos, fun h t' ht' j hj _ => h t' ht' j hj⟩

/-- A sequence is added to a cell that is used, which it stays. -/
theorem seqAdd_allEmpty {k : Cache} {c : Cells} (h : (k.cells t).seqAdd i s = some c)
    (ht : t < p.nStream) (n : Nat) : AllEmpty p (k.setStream t c n) ↔ AllEmpty p k := by
  obtain ⟨hr, hpos⟩ := Cells.seqAdd_replaced h
  have hi : i < (k.cells t).size := by
    rw [Cells.seqAdd, Option.ite_none_right_eq_some] at h
    exact h.1.1
  rw [replaced_allEmpty hr hi ht]
  exact ⟨fun h => (hpos h.2).elim, fun h => (hpos (h t ht i hi)).elim⟩

theorem Filled.refl (p : Params) (k : Cache) (h : E) : Filled p k E k :=
  ⟨fun _ => rfl, (and_iff_left h).symm⟩

theorem Filled.trans {E E' : Prop} (h : Filled p k E k') (h' : Filled p k' E' k'') :
    Filled p k (E ∧ E') k'' where
  size := fun t => (h'.size t).trans (h.size t)
  empty := by rw [h'.empty, h.empty, and_assoc]

theorem Filled.congr {E E' : Prop} (h : Filled p k E k') (he : E ↔ E') : Filled p k E' k' :=
  ⟨h.size, h.empty.trans (and_congr_right fun _ => he)⟩

theorem posSet_filled {k : Cache} {c : Cells} (h : (k.cells t).posSet i q = some c)
    (ht : t < p.nStream) (n : Nat) : Filled p k (q = -1) (k.setStream t c n) :=
  ⟨size_setStream (Cells.posSet_replaced h).1.size, posSet_allEmpty h ht n⟩

theorem seqAdd_filled {k : Cache} {c : Cells} (h : (k.cells t).seqAdd i s = some c)
    (ht : t < p.nStream) (n : Nat) : Filled p k True (k.setStream t c n) :=
  ⟨size_setStream (Cells.seqAdd_replaced h).1.size,
    (seqAdd_allEmpty h ht n).trans (and_true _).to_iff.symm⟩

theorem Part.Follows.mono {P P' : α → Prop} {Q Q' : Cache → Prop} {part : Part α}
    (h : part.Follows P Q l) (hP : ∀ a, P a → P' a) (hQ : ∀ k, Q k → Q' k) :
    part.Follows P' Q' l := by
  cases part with
  | ok a rest => exact ⟨h.1, hP a h.2⟩
  | ended k => exact ⟨h.1, hQ k h.2⟩
  | refused k => exact h
  | fault => trivial

theorem readIds_follows (ht : t < p.nStream) (n : Nat) (k : Cache) (bs : List UInt8) :
    (readIds p t i n k bs).Follows (Filled p k True) (Filled p k True) (idFields p n bs) := by
  induction n generalizing k bs with
  | zero => exact ⟨rfl, Filled.refl p k trivial⟩
  | succ n ih =>
    have hfields : idFields p (n + 1) bs = (Reader.number 4 bs).bind fun x =>
        (if 0 ≤ toInt32 x.1 ∧ x.1 < p.nSeqMax then idFields p n else Reader.crash ()) x.2 := rfl
    rw [hfields, readIds]
    cases hnum : (Reader.number 4 bs : Load Unit _) with
    | null => exact ⟨rfl, Filled.refl p k trivial⟩
    | crash f => trivial
    | ok x =>
      obtain ⟨id, rest⟩ := x
      rw [Load.bind]
      dsimp only
      split
      · cases hadd : (k.cells t).seqAdd i id with
        | none => trivial
        | some c =>
          have hone := seqAdd_filled hadd ht (k.head t)
          have hmore {k'} (h : Filled p (k.setStream t c (k.head t)) True k') :
              Filled p k True k' := (hone.trans h).congr (and_self _).to_iff
          exact (ih (k.setStream t c (k.head t)) rest).mono (fun _ => hmore) fun _ => hmore
      · exact rfl

theorem idFields_ok (h : idFields p n bs = .ok ((), rest)) : rest = bs.drop (4 * n) := by
  induction n generalizing bs with
  | zero =>
    cases h
    rfl
  | succ n ih =>
    obtain ⟨⟨id, mid⟩, hnum, hids⟩ := Load.bind_eq_ok.1 h
    obtain ⟨enc, rfl, rfl, _⟩ := (Reader.spec_number 4).ok.1 hnum
    dsimp only at hids
    split at hids
    · rw [ih hids, Nat.mul_succ, Nat.add_comm, ← List.drop_drop]
      rw [List.drop_left' (length_leBytes 4 id)]
    · cases hids

theorem number_null (h : (Reader.number width bs : Load ε _) = .null) : bs.length < width := by
  by_contra hlen
  have hok : (Reader.number width bs : Load ε _) =
      .ok (ofLe (bs.take width), bs.drop width) := by
    change Load.bind (Reader.bytes width bs) _ = _
    rw [Reader.bytes, if_neg hlen]
    rfl
  rw [hok] at h
  cases h

/-- Where the sequences run out, nothing of the input is left. -/
theorem idFields_null (h : idFields p n bs = .null) : bs.drop (4 * n) = [] := by
  induction n generalizing bs with
  | zero => cases h
  | succ n ih =>
    rw [idFields] at h
    change Load.bind (Reader.number 4 bs) _ = _ at h
    cases hnum : (Reader.number 4 bs : Load Unit _) with
    | null =>
      have hlen := number_null hnum
      exact List.drop_eq_nil_of_le (by omega)
    | crash f =>
      rw [hnum] at h
      cases h
    | ok x =>
      obtain ⟨id, mid⟩ := x
      obtain ⟨enc, rfl, rfl, _⟩ := (Reader.spec_number 4).ok.1 hnum
      rw [hnum, Load.bind] at h
      dsimp only at h
      split at h
      · rw [Nat.mul_succ, Nat.add_comm, ← List.drop_drop, List.drop_left' (length_leBytes 4 id)]
        exact ih h
      · cases h

theorem positions_nil (n : Nat) : positions n [] = [] := by
  cases n with
  | zero => rfl
  | succ n => rfl

theorem readCells_follows (ht : t < p.nStream) (n i : Nat) (k : Cache) (bs : List UInt8) :
    (readCells p t n i k bs).Follows (Filled p k (∀ q ∈ positions n bs, q = -1))
      (Filled p k (∀ q ∈ positions n bs, q = -1)) (cellFields p n bs) := by
  induction n generalizing i k bs with
  | zero => exact ⟨rfl, Filled.refl p k fun q hq => (List.not_mem_nil hq).elim⟩
  | succ n ih =>
    have hfields : cellFields p (n + 1) bs = (readHead bs).bind fun x =>
        (idFields p x.1.2 x.2).bind fun y => cellFields p n y.2 := rfl
    rw [hfields, readCells, positions]
    cases hhead : readHead bs with
    | null => exact ⟨rfl, Filled.refl p k fun q hq => (List.not_mem_nil hq).elim⟩
    | crash f => trivial
    | ok x =>
      obtain ⟨⟨pos, nSeqId⟩, rest⟩ := x
      rw [Load.bind]
      dsimp only
      cases hset : (k.cells t).posSet i (toInt32 pos) with
      | none => trivial
      | some c =>
        have hone := posSet_filled hset ht (k.head t)
        have hids := readIds_follows (i := i) ht nSeqId (k.setStream t c (k.head t)) rest
        dsimp only
        generalize readIds p t i nSeqId (k.setStream t c (k.head t)) rest = part at hids ⊢
        cases part with
        | fault => trivial
        | refused k' =>
          have hids : idFields p nSeqId rest = .crash () := hids
          rw [hids]
          exact rfl
        | ended k' =>
          obtain ⟨hids, hk'⟩ := hids
          rw [idFields_null hids, positions_nil, hids]
          refine ⟨rfl, (hone.trans hk').congr ?_⟩
          rw [List.forall_mem_singleton, and_true]
        | ok k' rest' =>
          obtain ⟨hids, hk'⟩ := hids
          have hrest := idFields_ok hids
          subst hrest
          rw [hids]
          have hrest := ih (i + 1) k' (rest.drop (4 * nSeqId))
          generalize positions n (rest.drop (4 * nSeqId)) = ps at hrest ⊢
          have hmore {k''} (h : Filled p k' (∀ q ∈ ps, q = -1) k'') :
              Filled p k (∀ q ∈ toInt32 pos :: ps, q = -1) k'' := by
            refine ((hone.trans hk').trans h).congr ?_
            rw [List.forall_mem_cons, and_true]
          exact hrest.mono (fun _ => hmore) fun _ => hmore

/-- The cells and the data of a stream of a whole cache. -/
def allFields (cfg : Config) (n : Nat) : Reader Unit Unit := do
  let _ ← cellFields cfg.params n
  dataFields cfg n

/-- Nothing but the last positions that were begun decides whether the cache is empty. -/
theorem readAllMeta_follows (bs : List UInt8) (ht : t < cfg.params.nStream) (hn : n ≤ (st.cache.cells t).size) :
    (readAllMeta cfg t n st bs).Follows
      (fun st' => n ≤ (st'.cache.cells t).size ∧
        (AllEmpty cfg.params st'.cache ↔ ∀ q ∈ positions n bs, q = -1))
      (fun k => AllEmpty cfg.params k ↔ ∀ q ∈ positions n bs, q = -1)
      (cellFields cfg.params n bs) := by
  rw [readAllMeta, if_neg (Nat.not_lt.2 hn)]
  have hcells := readCells_follows ht n 0 (st.clear cfg).cache bs
  have hclear : AllEmpty cfg.params (st.clear cfg).cache := clear_allEmpty cfg.params st.cache
  generalize readCells cfg.params t n 0 (st.clear cfg).cache bs = part at hcells ⊢
  cases part with
  | fault => trivial
  | refused k => exact hcells
  | ended k => exact ⟨hcells.1, hcells.2.empty.trans (and_iff_right hclear)⟩
  | ok k rest =>
    obtain ⟨hrest, hk⟩ := hcells
    refine ⟨hrest, ?_, hk.empty.trans (and_iff_right hclear)⟩
    dsimp only
    rw [hk.size, clear, Cache.clear]
    dsimp only
    rw [if_pos ht]
    exact hn

theorem readSection_all (bs : List UInt8) (ht : t < cfg.params.nStream) (hn : n ≤ (st.cache.cells t).size) :
    (readSection cfg (-1) t n st bs).Follows
      (fun st' => AllEmpty cfg.params st'.cache ↔ ∀ q ∈ positions n bs, q = -1)
      (fun k => AllEmpty cfg.params k ↔ ∀ q ∈ positions n bs, q = -1)
      (allFields cfg n bs) := by
  have hfields : allFields cfg n bs =
      (cellFields cfg.params n bs).bind fun x => dataFields cfg n x.2 := rfl
  have hmeta := readAllMeta_follows bs ht hn
  rw [readSection, readMeta, if_pos rfl, hfields]
  generalize readAllMeta cfg t n st bs = part at hmeta ⊢
  cases part with
  | fault => trivial
  | refused k =>
    have hmeta : cellFields cfg.params n bs = .crash () := hmeta
    rw [hmeta]
    exact rfl
  | ended k =>
    rw [hmeta.1]
    exact ⟨rfl, hmeta.2⟩
  | ok st' rest =>
    obtain ⟨hrest, hsize, hempty⟩ := hmeta
    rw [hrest]
    have hdata := readData_alike cfg st' hsize rest
    dsimp only [Load.bind]
    generalize readData cfg t n st' rest = l at hdata ⊢
    generalize dataFields cfg n rest = l' at hdata ⊢
    cases hdata with
    | null => exact ⟨rfl, hempty⟩
    | crash f => exact rfl
    | @ok x y h =>
      obtain ⟨st'', rest'⟩ := x
      obtain ⟨_, rest''⟩ := y
      obtain ⟨hcache, rfl⟩ := h
      have hcache : st''.cache = st'.cache := hcache
      refine ⟨rfl, ?_⟩
      change AllEmpty cfg.params st''.cache ↔ _
      rw [hcache]
      exact hempty

end ActQuant.KvCache.Store

namespace ActQuant.KvCache
open ActQuant.Lib ActQuant.Batch

/-! The positions of one sequence before and after an ubatch is applied. -/

theorem Cell.Thinned.holds {x y : Cell} (h : y.Thinned x) (hy : y.Holds s q) : x.Holds s q := by
  rcases h with rfl | ⟨hpos, _, hseq⟩
  · exact (Cache.not_holds_vacant hy).elim
  · exact ⟨hseq hy.1, hpos ▸ hy.2⟩

namespace Cache

theorem facts_thinned {k k' : Cache} (hsize : ∀ t, (k'.cells t).size = (k.cells t).size)
    (h : ∀ y, (k'.at' y).Thinned (k.at' y)) (hf : f ∈ facts p k') : f ∈ facts p k := by
  obtain ⟨hs, hi, hholds⟩ := hf
  rw [hsize] at hi
  exact ⟨hs, hi, (h (p.stream f.seq, f.cell)).holds hholds⟩

/-- The greatest overwritten position of a sequence is one that was overwritten. -/
theorem raised_eq {xs : List ((Nat × Nat) × Token)} {f : Nat × Nat → Cell} {m : Nat → Int}
    (hm : -1 ≤ m s) (h : xs.foldl (fun m x => raise m (f x.1)) m s ≠ m s) :
    0 ≤ xs.foldl (fun m x => raise m (f x.1)) m s ∧
      ∃ x ∈ xs, (f x.1).isEmpty = false ∧ s = (f x.1).seqGet ∧
        (f x.1).pos = xs.foldl (fun m x => raise m (f x.1)) m s := by
  induction xs generalizing m with
  | nil => exact (h rfl).elim
  | cons x xs ih =>
    rw [List.foldl_cons] at h ⊢
    have hraise : raise m (f x.1) s = m s ∨ m s < raise m (f x.1) s ∧
        (f x.1).isEmpty = false ∧ s = (f x.1).seqGet ∧ raise m (f x.1) s = (f x.1).pos := by
      rw [raise]
      split
      · exact .inl rfl
      · case isFalse hfull =>
        by_cases hs : s = (f x.1).seqGet
        · subst hs
          rw [Function.update_self]
          rcases max_cases (m (f x.1).seqGet) (f x.1).pos with ⟨he, _⟩ | ⟨he, hlt⟩
          · exact .inl he
          · exact .inr ⟨lt_of_lt_of_eq hlt he.symm, Bool.not_eq_true _ ▸ hfull, rfl, he⟩
        · rw [Function.update_of_ne hs]
          exact .inl rfl
    by_cases hrest : xs.foldl (fun m x => raise m (f x.1)) (raise m (f x.1)) s =
        raise m (f x.1) s
    · rw [hrest] at h ⊢
      rcases hraise with he | ⟨hlt, hfull, hs, hpos⟩
      · exact (h he).elim
      · exact ⟨by omega, x, List.mem_cons_self, hfull, hs, hpos.symm⟩
    · have hge : -1 ≤ raise m (f x.1) s := by
        rcases hraise with he | ⟨hlt, _⟩ <;> omega
      obtain ⟨hpos, y, hy, hspec⟩ := ih hge hrest
      exact ⟨hpos, y, List.mem_cons_of_mem x hy, hspec⟩

/-- Nothing of the sequence is below the least position its counters have. -/
theorem seqPosMin_le {k : Cache} (hk : ∀ t, (k.cells t).Counted) (hf : f ∈ facts p k) :
    k.seqPosMin p f.seq ≤ f.pos := by
  obtain ⟨_, hi, hholds⟩ := hf
  have hcount : 0 < ((k.cells (p.stream f.seq)).seqPos f.seq).count f.pos := by
    rw [hk, Cells.held_pos]
    exact ⟨f.cell, hi, hholds⟩
  rw [seqPosMin, Cells.seqPosMin]
  cases hleast : ((k.cells (p.stream f.seq)).seqPos f.seq).least? with
  | none => exact absurd (Tally.least?_eq_none.1 hleast f.pos) (Nat.ne_of_gt hcount)
  | some q => exact (Tally.least?_eq_some.1 hleast).2 f.pos hcount

/-- A purge of a sequence leaves nothing up to the overwritten position. -/
theorem purge_gone {k : Cache} (hk : ∀ t, (k.cells t).Counted) (h : purge p m k s = some k')
    (hm : 0 ≤ m s) (hf : f ∈ facts p k') (hs : f.seq = s) : ¬ (0 ≤ f.pos ∧ f.pos ≤ m s) := by
  rw [purge, if_neg (by omega), Option.ite_none_right_eq_some] at h
  obtain ⟨_, h⟩ := h
  rintro ⟨hpos, hle⟩
  split at h
  · obtain ⟨hf, hout⟩ := (facts_seqRm_seq (Int.natCast_nonneg s) h f).1 hf
    have hmin := hs ▸ seqPosMin_le hk hf
    refine hout ⟨congrArg Nat.cast hs, ?_, ?_⟩
    · rw [fromPos]
      split
      · exact hpos
      · exact hmin
    · rw [toPos, if_neg (by omega)]
      omega
  · case isFalse hlt =>
    cases h
    have hmin := hs ▸ seqPosMin_le hk hf
    omega

theorem purges_gone {k : Cache} {ss : List Nat} (hk : ∀ t, (k.cells t).Counted)
    (h : ss.foldlM (purge p m) k = some k') (hs : s ∈ ss) (hm : 0 ≤ m s) (hf : f ∈ facts p k')
    (hfs : f.seq = s) : ¬ (0 ≤ f.pos ∧ f.pos ≤ m s) := by
  induction ss generalizing k with
  | nil => exact (List.not_mem_nil hs).elim
  | cons q ss ih =>
    obtain ⟨k₁, h₁, hrest⟩ := foldlM_cons_eq_some.1 h
    rcases List.mem_cons.1 hs with rfl | hs
    · have hsize : ∀ t, (k'.cells t).size = (k₁.cells t).size := fun t =>
        sweep_invariant (I := fun e : Cache => (e.cells t).size = (k₁.cells t).size)
          (fun _ hI hst => (purge_size hst t).trans hI) rfl hrest
      exact purge_gone hk h₁ hm (facts_thinned hsize (purges_thinned hrest) hf) hfs
    · exact ih (purge_counted hk h₁) hrest hs

/-- The purges of the other sequences leave a sequence alone. -/
theorem purges_holds {k : Cache} {ss : List Nat} (h : ss.foldlM (purge p m) k = some k')
    (hm : m s = -1) (y : Nat × Nat) (q : Int) :
    (k'.at' y).Holds s q ↔ (k.at' y).Holds s q := by
  refine sweep_invariant (I := fun e : Cache => (e.at' y).Holds s q ↔ (k.at' y).Holds s q) ?_
    Iff.rfl h
  intro e s' e' _ hI h
  rw [purge] at h
  split at h
  · cases h
    exact hI
  · case isFalse hne =>
    rw [Option.ite_none_right_eq_some] at h
    obtain ⟨_, h⟩ := h
    split at h
    · have hss : s ≠ s' := by
        rintro rfl
        exact hne hm
      rw [← hI]
      rcases (seqRm_seq_passed (Int.natCast_nonneg s') h).2.cases y with he | he
      · rw [he, holds_rmCell, Int.toNat_natCast]
        exact and_iff_left fun h => hss h.1
      · rw [he]
    · cases h
      exact hI

end Cache
end ActQuant.KvCache

namespace ActQuant.KvCache.Store
open ActQuant.Lib ActQuant.Batch Cache

/-! What the reading of a single sequence leaves where it does not complete. -/

/-- A position that `seq_rm` with an open range removes. -/
def Covered (q : Int) : Prop := 0 ≤ q ∧ q < posMax

/-- All positions of the sequence are such. -/
def Removable (p : Params) (s : Nat) (k : Cache) : Prop :=
  ∀ f ∈ facts p k, f.seq = s → Covered f.pos

theorem facts_seqRm_open {k : Cache} {s : Nat} (h : k.seqRm p s (-1) (-1) = some k') (f : Fact) :
    f ∈ facts p k' ↔ f ∈ facts p k ∧ (f.seq = s → ¬ Covered f.pos) := by
  have hfrom : fromPos (-1) = 0 := rfl
  have hto : toPos (-1) = posMax := rfl
  rw [facts_seqRm_seq (Int.natCast_nonneg s) h, hfrom, hto, Nat.cast_inj, not_and]
  rfl

theorem seqRm_absent_iff {k : Cache} {s : Nat} (h : k.seqRm p s (-1) (-1) = some k') :
    Absent (facts p k') s ↔ Removable p s k := by
  constructor
  · intro habs f hf hs
    by_contra hout
    exact habs f ((facts_seqRm_open h f).2 ⟨hf, fun _ => hout⟩) (congrArg Nat.cast hs)
  · intro hrm f hf hs
    obtain ⟨hf, hout⟩ := (facts_seqRm_open h f).1 hf
    have hs : f.seq = s := Nat.cast_inj.1 hs
    exact hout hs (hrm f hf hs)

/-- What one removal leaves another one leaves. -/
theorem seqRm_removable_iff {k : Cache} {s : Nat} (h : k.seqRm p s (-1) (-1) = some k') :
    Removable p s k' ↔ Removable p s k := by
  constructor
  · intro hrm f hf hs
    by_contra hout
    exact hout (hrm f ((facts_seqRm_open h f).2 ⟨hf, fun _ => hout⟩) hs)
  · exact fun hrm f hf => hrm f ((facts_seqRm_open h f).1 hf).1

/-- The slot that is found once the sequence is removed. -/
def seqSlot (p : Params) (s : Nat) (k : Cache) (ps : List Int) : Option SlotInfo :=
  ((k.seqRm p s (-1) (-1)).bind fun k => k.findSlot p (seqUbatch s ps) true).join

theorem mem_seqIdUnq {s q : Nat} (h : q ∈ (seqUbatch s ps).seqIdUnq) : q = s := by
  obtain ⟨x, hx, hq⟩ := List.any_eq_true.1 (List.mem_filter.1 h).2
  obtain ⟨pos, _, rfl⟩ := List.mem_map.1 hx
  exact List.mem_singleton.1 (List.contains_iff_mem.1 hq)

theorem seqSlot_stream {p : Params} {k : Cache} (hr : SlotFound p k (seqUbatch s ps) r)
    (hx : x ∈ r.places) : x.1 = p.stream s := by
  obtain ⟨y, hy, he, _⟩ := mem_places.1 hx
  obtain ⟨q, hq, hstream⟩ := hr.strm y hy
  rw [← he, hstream, mem_seqIdUnq hq]

theorem facts_congr (p : Params) {k k' : Cache} (h : k'.cells = k.cells) :
    facts p k' = facts p k := by
  rw [facts, facts, h]

/-- The placed cells of a sequence. -/
theorem placed_holds {s : Nat} {y : Cell} {x : Token} (hx : x ∈ (seqUbatch s ps).tokens) :
    (y.placed x).Holds s q ↔ x.pos = q := by
  obtain ⟨pos, _, rfl⟩ := List.mem_map.1 hx
  exact and_iff_right (by simp [Cell.placed])

/-- Where a position that a removal covers is in the cache behind the purges, none of the
sequence's was overwritten. -/
theorem applySeq_raised {k k₁ k₂ : Cache} (hs : s < p.nSeqIds)
    (hno : ∀ f ∈ facts p k, f.seq = s → ¬ Covered f.pos)
    (hr : SlotFound p k (seqUbatch s ps) r)
    (hall : AllPlaced k (fun _ => -1) (r.places.zip (seqUbatch s ps).tokens) k₁ m)
    (hk₁ : ∀ t, (k₁.cells t).Counted)
    (h : (List.range LLAMA_MAX_SEQ).foldlM (purge p m) k₁ = some k₂)
    (hf : f ∈ facts p k₂) (hfs : f.seq = s) (hcov : Covered f.pos) : m s = -1 := by
  by_contra hne
  have hraised := hall.raised
  rw [hraised] at hne
  have hstart : -1 ≤ (fun _ : Nat => (-1 : Int)) s := le_refl (-1)
  obtain ⟨hpos, x, hx, hfull, hseq, hmax⟩ := 
    raised_eq (f := k.at') (m := fun _ => -1) (s := s) hstart hne
  rw [← hraised] at hpos hmax
  obtain ⟨hplace, _⟩ := mem_of_zip hx
  have hmem : s ∈ (k.at' x.1).seq := hseq ▸ Cell.seqGet_mem (hall.single x hx hfull)
  have hover : (⟨s, m s, x.1.2⟩ : Fact) ∈ facts p k := by
    have hstream := seqSlot_stream hr hplace
    have hat : k.at' x.1 = (k.cells (p.stream s)).cell x.1.2 := by
      rw [at', hstream]
    refine ⟨hs, ?_, hat ▸ hmem, hat ▸ hmax⟩
    rw [← hstream]
    exact (hr.usable _ hplace).1
  have hout : ¬ (0 ≤ m s ∧ m s < posMax) := hno _ hover rfl
  have hin : s ∈ List.range LLAMA_MAX_SEQ := List.mem_range.2 (hs.trans_le (nSeqIds_le p))
  refine purges_gone hk₁ h hin hpos hf hfs ⟨hcov.1, ?_⟩
  have hlt := hcov.2
  omega

/-- A position of the sequence is one of its tokens', or one the slot leaves alone. -/
theorem applySeq_fact {k : Cache} (hr : SlotFound p k (seqUbatch s ps) r)
    (h : k.applyUbatch p r (seqUbatch s ps) = some k') (hf : f ∈ facts p k') (hfs : f.seq = s) :
    f.pos ∈ ps ∨ (p.stream s, f.cell) ∉ r.places ∧ f ∈ facts p k := by
  have hsize := applyUbatch_size h
  obtain ⟨hlt, hi, hf⟩ := hf
  subst hfs
  by_cases hy : (p.stream f.seq, f.cell) ∈ r.places
  · obtain ⟨k₁, m, k₂, h₁, h₂, h₃⟩ := applyUbatch_eq_some.1 h
    rw [placeTokens, Option.ite_none_right_eq_some] at h₁
    have hall := placeAll_spec (zip_nodup hr.length hr.nodup) h₁.2
    rw [← List.map_fst_zip (le_of_eq hr.length.symm)] at hy
    obtain ⟨x, hx, he⟩ := List.mem_map.1 hy
    obtain ⟨_, htok⟩ := mem_of_zip hx
    rw [(moveHeads_cells h₃).1] at hf
    have hthin := purges_thinned h₂ (p.stream f.seq, f.cell)
    have hcell := hthin.holds hf
    rw [← he, hall.cell x hx, placed_holds htok] at hcell
    obtain ⟨q, hq, hx⟩ := List.mem_map.1 htok
    rw [← hcell, ← hx]
    exact .inl hq
  · exact .inr ⟨hy, hlt, hsize _ ▸ hi, (applyUbatch_other h hy).holds hf⟩

/-- A sequence that is placed: its tokens, and what the slot does not overwrite. -/
structure SeqPlaced (p : Params) (s : Nat) (k : Cache) (r : SlotInfo) (ps : List Int)
    (k' : Cache) : Prop where
  token : ∀ q ∈ ps, ∃ f ∈ facts p k', f.seq = s ∧ f.pos = q
  other : ∀ f ∈ facts p k, f.seq = s → (p.stream s, f.cell) ∉ r.places → f ∈ facts p k'

theorem applySeq_placed {k : Cache} (hk : ∀ t, (k.cells t).Counted) (hs : s < p.nSeqIds)
    (hno : ∀ f ∈ facts p k, f.seq = s → ¬ Covered f.pos)
    (hr : SlotFound p k (seqUbatch s ps) r)
    (h : k.applyUbatch p r (seqUbatch s ps) = some k')
    (hf : f ∈ facts p k') (hfs : f.seq = s) (hcov : Covered f.pos) :
    SeqPlaced p s k r ps k' := by
  obtain ⟨k₁, m, k₂, h₁, h₂, h₃⟩ := applyUbatch_eq_some.1 h
  rw [placeTokens, Option.ite_none_right_eq_some] at h₁
  have hall := placeAll_spec (zip_nodup hr.length hr.nodup) h₁.2
  have hk₁ := placeAll_counted (s := (k, _)) hk h₁.2
  have hsize := applyUbatch_size h
  have hf₂ : f ∈ facts p k₂ := facts_congr p (moveHeads_cells h₃).1 ▸ hf
  have hm := applySeq_raised hs hno hr hall hk₁ h₂ hf₂ hfs hcov
  have hholds : ∀ y q, (k'.at' y).Holds s q ↔ (k₁.at' y).Holds s q := by
    intro y q
    rw [at', at', (moveHeads_cells h₃).1]
    exact purges_holds h₂ hm y q
  refine ⟨?_, ?_⟩
  · intro q hq
    have htok : (⟨q, [s], false⟩ : Token) ∈ (seqUbatch s ps).tokens := List.mem_map_of_mem hq
    have hsnd : (r.places.zip (seqUbatch s ps).tokens).map Prod.snd = (seqUbatch s ps).tokens :=
      List.map_snd_zip (le_of_eq hr.length)
    rw [← hsnd] at htok
    obtain ⟨x, hx, he⟩ := List.mem_map.1 htok
    obtain ⟨hplace, hmem⟩ := mem_of_zip hx
    have hstream := seqSlot_stream hr hplace
    refine ⟨⟨s, q, x.1.2⟩, ⟨hs, ?_, ?_⟩, rfl, rfl⟩
    · rw [hsize, ← hstream]
      exact (hr.usable _ hplace).1
    · have hcell : (k₁.at' x.1).Holds s q := by
        rw [hall.cell x hx, placed_holds hmem, he]
      have hheld := (hholds x.1 q).2 hcell
      rw [at', hstream] at hheld
      exact hheld
  · rintro f ⟨hlt, hi, hf⟩ rfl hy
    refine ⟨hlt, (hsize _).symm ▸ hi, (hholds (p.stream f.seq, f.cell) f.pos).2 ?_⟩
    have hother : k₁.at' (p.stream f.seq, f.cell) = k.at' (p.stream f.seq, f.cell) := by
      refine hall.other _ fun x hx he => hy ?_
      exact he ▸ (mem_of_zip hx).1
    rw [hother]
    exact hf

/-- How the cells of a single sequence are read. -/
inductive SeqRead (p : Params) (s t n : Nat) (k : Cache) (bs : List UInt8) : Part Cache → Prop where
  | fault : SeqRead p s t n k bs .fault
  | ended (hrm : k.seqRm p s (-1) (-1) = some k₀) (hps : readPositions n bs = .null) :
      SeqRead p s t n k bs (.ended k₀)
  | refused (hrm : k.seqRm p s (-1) (-1) = some k₀)
      (hps : ∀ ps rest, readPositions n bs = .ok (ps, rest) → seqSlot p s k ps = none) :
      SeqRead p s t n k bs (.refused k₀)
  | ok (hrm : k.seqRm p s (-1) (-1) = some k₀) (hps : readPositions n bs = .ok (ps, rest))
      (hslot : k₀.findSlot p (seqUbatch s ps) true = some (some r))
      (happly : k₀.applyUbatch p r (seqUbatch s ps) = some k₁)
      (hback : ReadBack (k₁.cells t) i s ps) :
      SeqRead p s t n k bs (.ok { k₁ with head := Function.update k₁.head t i } rest)

theorem seqSlot_eq (hrm : k.seqRm p s (-1) (-1) = some k₀) :
    seqSlot p s k ps = (k₀.findSlot p (seqUbatch s ps) true).join := by
  rw [seqSlot, hrm]
  rfl

theorem readSeqMeta_cases (p : Params) (s t n : Nat) (k : Cache) (bs : List UInt8) :
    SeqRead p s t n k bs (readSeqMeta p s t n k bs) := by
  rw [readSeqMeta]
  cases hrm : k.seqRm p s (-1) (-1) with
  | none => exact .fault
  | some k₀ =>
    dsimp only
    cases hps : readPositions n bs with
    | null => exact .ended hrm hps
    | crash f =>
      refine .refused hrm fun ps rest h => ?_
      rw [hps] at h
      cases h
    | ok x =>
      obtain ⟨ps, rest⟩ := x
      dsimp only
      cases hslot : k₀.findSlot p (seqUbatch s ps) true with
      | none => exact .fault
      | some found =>
        cases found with
        | none =>
          refine .refused hrm fun ps' rest' h => ?_
          rw [hps] at h
          cases h
          rw [seqSlot_eq hrm, hslot]
          rfl
        | some r =>
          dsimp only
          cases happly : k₀.applyUbatch p r (seqUbatch s ps) with
          | none => exact .fault
          | some k₁ =>
            cases hhead : r.head? with
            | none => exact .fault
            | some head =>
              dsimp only
              split
              · case isTrue hback => exact .ok hrm hps hslot happly hback
              · exact .fault

theorem readPositions_length (h : readPositions n bs = .ok (ps, rest)) : ps.length = n := by
  induction n generalizing bs ps rest with
  | zero =>
    cases h
    rfl
  | succ n ih =>
    obtain ⟨⟨pos, bs₁⟩, _, h⟩ := Load.bind_eq_ok.1 h
    obtain ⟨⟨nSeqId, bs₂⟩, _, h⟩ := Load.bind_eq_ok.1 h
    dsimp only at h
    split at h
    · cases h
    · obtain ⟨⟨_, bs₃⟩, _, h⟩ := Load.bind_eq_ok.1 h
      obtain ⟨⟨qs, bs₄⟩, hqs, h⟩ := Load.bind_eq_ok.1 h
      cases h
      rw [List.length_cons, ih hqs]

/-- The first token of the sequence is in the cache. -/
theorem readBack_fact {k : Cache} (hs : s < p.nSeqIds) (hps : ps ≠ [])
    (h : ReadBack (k.cells (p.stream s)) i s ps) : ∃ f ∈ facts p k, f.seq = s := by
  obtain ⟨hsize, _, _, hmem, _⟩ := h
  have hlen := List.length_pos_iff.2 hps
  exact ⟨⟨s, ((k.cells (p.stream s)).cell i).pos, i⟩, ⟨hs, by dsimp only; omega, hmem, rfl⟩, rfl⟩

/-- The positions that stay behind a sequence that was placed. -/
theorem placed_removable_iff {k k₀ k₁ : Cache} {s : Nat} (hk : k.Sound) (hs : s < p.nSeqIds) (hps : ps ≠ [])
    (hrm : k.seqRm p s (-1) (-1) = some k₀)
    (hslot : k₀.findSlot p (seqUbatch s ps) true = some (some r))
    (happly : k₀.applyUbatch p r (seqUbatch s ps) = some k₁)
    (hback : ReadBack (k₁.cells (p.stream s)) i s ps) :
    Removable p s k₁ ↔ (∀ q ∈ ps, Covered q) ∧
      ∀ f ∈ facts p k, f.seq = s → Covered f.pos ∨ (p.stream s, f.cell) ∈ r.places := by
  have hno : ∀ f ∈ facts p k₀, f.seq = s → ¬ Covered f.pos :=
    fun f hf => ((facts_seqRm_open hrm f).1 hf).2
  have hr := findSlot_spec (fun hnil => hps (List.map_eq_nil_iff.1 hnil)) hslot
  constructor
  · intro hrem
    obtain ⟨f, hf, hfs⟩ := readBack_fact hs hps hback
    have hplaced := applySeq_placed (hk.seqRm hrm).counted hs hno hr happly hf hfs (hrem f hf hfs)
    refine ⟨fun q hq => ?_, fun g hg hgs => ?_⟩
    · obtain ⟨g, hg, hgs, rfl⟩ := hplaced.token q hq
      exact hrem g hg hgs
    · by_contra hout
      obtain ⟨hcov, hplace⟩ := not_or.1 hout
      have hstay : g ∈ facts p k₀ := (facts_seqRm_open hrm g).2 ⟨hg, fun _ => hcov⟩
      exact hcov (hrem g (hplaced.other g hstay hgs hplace) hgs)
  · rintro ⟨hcov, hover⟩ f hf hfs
    rcases applySeq_fact hr happly hf hfs with hq | ⟨hplace, hf⟩
    · exact hcov f.pos hq
    · exact (hover f ((facts_seqRm_open hrm f).1 hf).1 hfs).resolve_right hplace

/-- Where the reading of a single sequence that stops leaves nothing of it: no position stays, and
the cells are not given to it, or the check of the data that fails has them removed again. -/
def SeqClears (cfg : Config) (s n : Nat) (k : Cache) (bs : List UInt8) : Prop :=
  (Removable cfg.params s k ∧
    ∀ ps rest, readPositions n bs = .ok (ps, rest) → seqSlot cfg.params s k ps = none) ∨
  ∃ ps rest r, readPositions n bs = .ok (ps, rest) ∧ seqSlot cfg.params s k ps = some r ∧
    dataFields cfg n rest = .crash () ∧ (∀ q ∈ ps, Covered q) ∧
    ∀ f ∈ facts cfg.params k, f.seq = s →
      Covered f.pos ∨ (cfg.params.stream s, f.cell) ∈ r.places

end ActQuant.KvCache.Store
