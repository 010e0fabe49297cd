import ActQuant.KvCache.Flags
import ActQuant.Lib.Window

namespace ActQuant.KvCache
open ActQuant.Lib ActQuant.Batch

/-! What the cells hold of each sequence, with a value for each cell. -/

variable {β : Type}

/-- What a cell holds of a sequence: its position, with the value of the cell. -/
def Cell.entry (x : Cell) (v : β) (s : Nat) : Multiset (Int × β) :=
  if s ∈ x.seq then {(x.pos, v)} else 0

/-- A range of positions, as the operations read it. -/
def Within (p₀ p₁ pos : Int) : Prop := fromPos p₀ ≤ pos ∧ pos < toPos p₁

instance (p₀ p₁ pos : Int) : Decidable (Within p₀ p₁ pos) := inferInstanceAs (Decidable (_ ∧ _))

namespace Cell
variable {x y : Cell} {v : β}

theorem entry_of_mem (h : s ∈ x.seq) : x.entry v s = {(x.pos, v)} := if_pos h

theorem entry_of_notMem (h : s ∉ x.seq) : x.entry v s = 0 := if_neg h

theorem mem_entry : e ∈ x.entry v s ↔ s ∈ x.seq ∧ e = (x.pos, v) := by
  rw [entry]
  split
  · case isTrue h => simp only [Multiset.mem_singleton, h, true_and]
  · case isFalse h => simp only [Multiset.notMem_zero, h, false_and]

theorem entry_filter {P : Int → Prop} [DecidablePred P]
    (h : ∀ q, y.Holds s q ↔ x.Holds t q ∧ P q) :
    y.entry v s = (x.entry v t).filter fun e => P e.1 := by
  by_cases hx : t ∈ x.seq
  · rw [entry_of_mem hx, Multiset.filter_singleton]
    dsimp only
    split
    · case isTrue hp =>
      obtain ⟨hy, hpos⟩ := (h x.pos).2 ⟨⟨hx, rfl⟩, hp⟩
      rw [entry_of_mem hy, hpos]
    · case isFalse hp =>
      apply entry_of_notMem
      intro hy
      obtain ⟨⟨_, hpos⟩, hpy⟩ := (h y.pos).1 ⟨hy, rfl⟩
      exact hp (hpos ▸ hpy)
  · have hy : s ∉ y.seq := fun hy => hx ((h y.pos).1 ⟨hy, rfl⟩).1.1
    rw [entry_of_notMem hx, entry_of_notMem hy, Multiset.filter_zero]

/-- A cell that takes in a sequence with another of its sequences. -/
theorem entry_join {P : Int → Prop} [DecidablePred P]
    (h : ∀ q, y.Holds d q ↔ x.Holds d q ∨ x.Holds s q ∧ P q)
    (hno : s ∈ x.seq → P x.pos → d ∉ x.seq) :
    y.entry v d = x.entry v d + (x.entry v s).filter fun e => P e.1 := by
  by_cases hd : d ∈ x.seq
  · have hnone : (x.entry v s).filter (fun e => P e.1) = 0 := by
      apply Multiset.filter_eq_nil.2
      intro e he hp
      obtain ⟨hs, rfl⟩ := mem_entry.1 he
      exact hno hs hp hd
    obtain ⟨hy, hpos⟩ := (h x.pos).2 (.inl ⟨hd, rfl⟩)
    rw [hnone, add_zero, entry_of_mem hd, entry_of_mem hy, hpos]
  · rw [entry_of_notMem hd, zero_add]
    apply entry_filter
    intro q
    rw [h]
    exact or_iff_right fun hx => hd hx.1

end Cell

namespace Cache
variable {p : Params} {k k' : Cache} {raw raw' : Nat × Nat → β}

/-- The entries of a sequence in the cells of its stream. -/
def entries (p : Params) (k : Cache) (raw : Nat × Nat → β) (s : Nat) : Multiset (Int × β) :=
  ∑ i ∈ Finset.range (k.cells (p.stream s)).size,
    (k.at' (p.stream s, i)).entry (raw (p.stream s, i)) s

theorem mem_entries : e ∈ entries p k raw s ↔ ∃ i < (k.cells (p.stream s)).size,
    s ∈ (k.at' (p.stream s, i)).seq ∧
      e = ((k.at' (p.stream s, i)).pos, raw (p.stream s, i)) := by
  rw [entries, Multiset.mem_sum]
  simp only [Finset.mem_range, Cell.mem_entry]

/-- What is done to the entries of each cell is done to all of them. -/
theorem entries_map (φ : Multiset (Int × β) →+ Multiset (Int × β))
    (hsize : (k'.cells (p.stream s)).size = (k.cells (p.stream s)).size)
    (h : ∀ i < (k.cells (p.stream s)).size,
      (k'.at' (p.stream s, i)).entry (raw' (p.stream s, i)) s =
        φ ((k.at' (p.stream s, i)).entry (raw (p.stream s, i)) s)) :
    entries p k' raw' s = φ (entries p k raw s) := by
  rw [entries, entries, map_sum, hsize]
  exact Finset.sum_congr rfl fun i hi => h i (Finset.mem_range.1 hi)

/-- The choice of some entries, cell by cell. -/
def filterHom (P : Int → Prop) [DecidablePred P] :
    Multiset (Int × β) →+ Multiset (Int × β) where
  toFun := Multiset.filter fun e => P e.1
  map_zero' := Multiset.filter_zero _
  map_add' := Multiset.filter_add _

/-- The replacement of entries, cell by cell. -/
def filterMapHom (f : Int × β → Option (Int × β)) :
    Multiset (Int × β) →+ Multiset (Int × β) where
  toFun := Multiset.filterMap f
  map_zero' := Multiset.filterMap_zero f
  map_add' := Multiset.filterMap_add f

/-- An operation that takes facts of a sequence away. -/
theorem entries_of_facts {P : Int → Prop} [DecidablePred P] (hs : s < p.nSeqIds)
    (hk : Fits n k) (hk' : Fits n k')
    (h : ∀ pos i, (⟨s, pos, i⟩ : Fact) ∈ facts p k' ↔ (⟨s, pos, i⟩ : Fact) ∈ facts p k ∧ P pos) :
    entries p k' raw s = (entries p k raw s).filter fun e => P e.1 := by
  have hsize : (k'.cells (p.stream s)).size = (k.cells (p.stream s)).size := by
    rw [hk.size, hk'.size]
  apply entries_map (filterHom P) hsize
  intro i hi
  apply Cell.entry_filter
  intro q
  have hfact := h q i
  simp only [facts, Set.mem_ofPred_eq, hs, hsize, hi, true_and] at hfact
  exact hfact

theorem entries_seqRm (hs : q < p.nSeqIds) (hk : Fits n k)
    (h : k.seqRm p s p₀ p₁ = some k') : entries p k' raw q = (entries p k raw q).filter fun e =>
      ¬ ((s < 0 ∨ (q : Int) = s) ∧ Within p₀ p₁ e.1) :=
  entries_of_facts (P := fun pos => ¬ ((s < 0 ∨ (q : Int) = s) ∧ Within p₀ p₁ pos)) hs hk
    (hk.seqRm h) fun _ _ => facts_seqRm h _

theorem entries_seqKeep (hs : q < p.nSeqIds) (hk : Fits n k) (h : k.seqKeep p s = some k') :
    entries p k' raw q = if p.stream q = p.stream s.toNat ∧ (q : Int) ≠ s then 0
      else entries p k raw q := by
  rw [entries_of_facts (P := fun _ => p.stream q = p.stream s.toNat → (q : Int) = s) hs hk
    (hk.seqKeep h) fun _ _ => facts_seqKeep h _]
  split
  · case isTrue hgone => exact Multiset.filter_eq_nil.2 fun _ _ himp => hgone.2 (himp hgone.1)
  · case isFalse hstay =>
    apply Multiset.filter_eq_self.2
    intro _ _ ht
    by_contra hne
    exact hstay ⟨ht, hne⟩

/-- A copy within a stream. -/
theorem entries_seqCp_same (ht : p.stream src.toNat = p.stream dst.toNat) (hne : src ≠ dst)
    (hno : Unshared p k src dst p₀ p₁) (hq : q < p.nSeqIds) (hk : Fits n k)
    (h : k.seqCp p src dst p₀ p₁ = some k') :
    entries p k' raw q = entries p k raw q + if (q : Int) = dst then
      (entries p k raw src.toNat).filter (fun e => Within p₀ p₁ e.1) else 0 := by
  obtain ⟨hsrc, hdst, hpassed⟩ := seqCp_same_passed ht h
  split
  · case isTrue hqd =>
    have hd : dst.toNat = q := by omega
    rw [hd] at ht
    have hsize : (k'.cells (p.stream q)).size = (k.cells (p.stream q)).size := by
      rw [hk.size, (hk.seqCp h).size]
    have hsum := map_sum (filterHom (β := β) (Within p₀ p₁))
      (fun i => (k.at' (p.stream q, i)).entry (raw (p.stream q, i)) src.toNat)
      (Finset.range (k.cells (p.stream q)).size)
    rw [entries, entries, entries, ht, hsize]
    refine (Finset.sum_congr rfl fun i hi => ?_).trans
      (Finset.sum_add_distrib.trans (congrArg _ hsum.symm))
    have hi := Finset.mem_range.1 hi
    apply Cell.entry_join
    · intro pos
      rw [at', ← ht, hpassed.cell, passed, ht, if_pos hi, if_neg hne, holds_cpCell]
      simp only [hd, true_and]
      rfl
    · intro hs hin hqin
      rw [← ht] at hi hs hin hqin
      exact hno (ht.trans (congrArg p.stream hd.symm)) hne i hi (posIn_seqHas.2 ⟨hin, hs⟩)
        (hd.symm ▸ hqin)
  · case isFalse hqd =>
    rw [add_zero, entries_of_facts (P := fun _ => True) hq hk (hk.seqCp h) fun pos i => ?_]
    · exact Multiset.filter_eq_self.2 fun _ _ => trivial
    · rw [facts_seqCp_same ht h, and_true]
      exact or_iff_left fun hf => hqd hf.2.1

theorem stream_of_multi (h : p.stream s ≠ p.stream t) (q : Nat) : p.stream q = q := by
  rw [Params.stream]
  split
  · rfl
  · case isFalse hone =>
    rw [Params.stream, Params.stream, if_neg hone, if_neg hone] at h
    exact absurd rfl h

/-- A copy between streams takes the values along. -/
def copyRows (t₀ t₁ : Nat) (f : Nat × Nat → β) (y : Nat × Nat) : β := f (copySource t₀ t₁ y)

theorem entries_seqCp_cross (ht : p.stream src.toNat ≠ p.stream dst.toNat) (hk : Fits n k)
    (htended : k.Tended p) (h : k.seqCp p src dst p₀ p₁ = some k') :
    entries p k' (copyRows (p.stream src.toNat) (p.stream dst.toNat) raw) q =
      if q = dst.toNat then entries p k raw src.toNat else entries p k raw q := by
  obtain ⟨_, _, _, hcopied⟩ := seqCp_cross_copied ht h
  split
  · case isTrue hq =>
    rw [entries, entries, (hk.seqCp h).size, hk.size, hq]
    refine Finset.sum_congr rfl fun i hi => ?_
    have hi := Finset.mem_range.1 hi
    have hall : ∀ e ∈ (k.at' (p.stream src.toNat, i)).entry (raw (p.stream src.toNat, i))
        src.toNat, (k.at' (p.stream src.toNat, i)).shift = 0 ∨ 0 ≤ e.1 := by
      intro e he
      obtain ⟨hs, rfl⟩ := Cell.mem_entry.1 he
      exact .inr ((htended.cells _).pos_nonneg hs)
    rw [← Multiset.filter_eq_self.2 hall, copyRows, copySource, if_pos rfl]
    apply Cell.entry_filter
      (P := fun pos => (k.at' (p.stream src.toNat, i)).shift = 0 ∨ 0 ≤ pos)
    intro pos
    rw [at', hcopied.cell, if_pos ((hk.size _).symm ▸ hi), holds_copiedCell, eq_self, true_and]
    rfl
  · case isFalse hq =>
    have hstream : p.stream q ≠ p.stream dst.toNat := by
      rw [stream_of_multi ht, stream_of_multi ht]
      exact hq
    rw [entries, entries, hcopied.other _ hstream]
    refine Finset.sum_congr rfl fun i _ => ?_
    rw [at', hcopied.other _ hstream, copyRows, copySource, if_neg hstream]
    rfl

theorem entries_clear (hs : s < p.nSeqIds) : entries p (k.clear p) raw s = 0 := by
  apply Finset.sum_eq_zero
  intro i _
  apply Cell.entry_of_notMem
  rw [at', Cache.clear]
  dsimp only
  rw [if_pos (stream_lt hs)]
  exact Finset.notMem_empty s

theorem entries_update (doShift : Bool) :
    entries p (k.update p doShift) raw s = entries p k raw s := by
  have hcells : ∀ t, ((k.update p doShift).cells t).size = (k.cells t).size ∧
      ∀ i, ((k.update p doShift).at' (t, i)).pos = (k.at' (t, i)).pos ∧
        ((k.update p doShift).at' (t, i)).seq = (k.at' (t, i)).seq := by
    intro t
    simp only [at', Cache.update]
    split
    · exact ⟨rfl, fun _ => ⟨rfl, rfl⟩⟩
    · exact ⟨rfl, fun _ => ⟨rfl, rfl⟩⟩
  rw [entries, entries, (hcells _).1]
  refine Finset.sum_congr rfl fun i _ => ?_
  rw [Cell.entry, Cell.entry, ((hcells _).2 i).1, ((hcells _).2 i).2]

/-- An entry under a shift: in the range it moves, and leaves where its position is negative. -/
def shiftEntry (p₀ p₁ d : Int) (e : Int × β) : Option (Int × β) :=
  if Within p₀ p₁ e.1 then if e.1 + d < 0 then none else some (e.1 + d, e.2) else some e

theorem shiftEntry_none (h : d = 0 ∨ fromPos p₀ = toPos p₁) (e : Int × β) :
    shiftEntry p₀ p₁ d e = some e := by
  rw [shiftEntry]
  split
  · case isTrue hin =>
    have hnn := (fromPos_nonneg p₀).trans hin.1
    have hd : d = 0 := by
      rcases h with h | h
      · exact h
      · exact absurd hin.1 (by rw [h]; exact not_le.2 hin.2)
    rw [if_neg (by omega), hd, Int.add_zero]
  · rfl

theorem Cell.entry_addCell {x : Cell} {v : β} :
    (addCell s (fromPos p₀) (toPos p₁) d x).entry v s =
      (x.entry v s).filterMap (shiftEntry p₀ p₁ d) := by
  by_cases hs : s ∈ x.seq
  · have hentry : (x.entry v s).filterMap (shiftEntry p₀ p₁ d) =
        ((shiftEntry p₀ p₁ d (x.pos, v)).toList : Multiset (Int × β)) := by
      rw [Cell.entry_of_mem hs]
      rfl
    rw [hentry, shiftEntry, addCell]
    by_cases hin : Within p₀ p₁ x.pos
    · rw [if_pos (posIn_seqHas.2 ⟨hin, hs⟩), if_pos hin, Cell.moved]
      dsimp only
      split
      · exact Cell.entry_of_notMem (Finset.notMem_empty s)
      · exact Cell.entry_of_mem hs
    · rw [if_neg fun h => hin (posIn_seqHas.1 h).1, if_neg hin]
      exact Cell.entry_of_mem hs
  · have hout : ¬ (x.posIn (fromPos p₀) (toPos p₁) && x.seqHas s) = true :=
      fun h => hs (posIn_seqHas.1 h).2
    rw [addCell, if_neg hout, Cell.entry_of_notMem hs, Multiset.filterMap_zero]

/-- A shift of the positions in the cells that a sequence has to itself. -/
theorem entries_seqAdd (hk : Fits n k) (h : k.seqAdd p s p₀ p₁ d = some k')
    (halone : ∀ x, Touched p k s p₀ p₁ x → x.seq = {s.toNat}) :
    entries p k' raw q = if q = s.toNat then
      (entries p k raw q).filterMap (shiftEntry p₀ p₁ d) else entries p k raw q := by
  have hpassed := (seqAdd_passed h).2
  have hsize : (k'.cells (p.stream q)).size = (k.cells (p.stream q)).size := by
    rw [hk.size, (hk.seqAdd h).size]
  split
  · case isTrue hq =>
    subst hq
    apply entries_map (filterMapHom (shiftEntry p₀ p₁ d)) hsize
    intro i hi
    rw [at', hpassed.cell, passed, if_pos hi]
    split
    · case isTrue hnone =>
      rw [filterMapHom]
      dsimp only [AddMonoidHom.coe_mk, ZeroHom.coe_mk]
      rw [funext (shiftEntry_none hnone), Multiset.filterMap_some]
      rfl
    · exact Cell.entry_addCell
  · case isFalse hq =>
    apply entries_map (AddMonoidHom.id _) hsize
    intro i hi
    by_cases ht : p.stream q = p.stream s.toNat
    · rw [at', ht, hpassed.cell, passed, if_pos (ht ▸ hi)]
      split
      · rfl
      · rw [addCell]
        split
        · case isTrue hin =>
          have hseq := halone _ ⟨i, ht ▸ hi, rfl, hin⟩
          have hno : q ∉ ((k.cells (p.stream s.toNat)).cell i).seq := by
            rw [hseq, Finset.mem_singleton]
            exact hq
          have hno' : q ∉ (((k.cells (p.stream s.toNat)).cell i).moved d).seq :=
            fun hin => hno (Cell.moved_seq _ _ hin)
          rw [Cell.entry_of_notMem hno']
          exact (Cell.entry_of_notMem hno).symm
        · rfl
    · rw [at', hpassed.other _ ht]
      rfl

/-! ### Ubatches -/

/-- Rows that are written to their places. -/
def writeRows (xs : List ((Nat × Nat) × γ)) (g : γ → β) (f : Nat × Nat → β) : Nat × Nat → β :=
  xs.foldl (fun f x => Function.update f x.1 (g x.2)) f

theorem writeRows_other {xs : List ((Nat × Nat) × γ)} {g : γ → β} {f : Nat × Nat → β}
    (h : ∀ x ∈ xs, x.1 ≠ y) : writeRows xs g f y = f y :=
  foldl_update_other (g := fun _ => g) h

theorem writeRows_place {xs : List ((Nat × Nat) × γ)} {g : γ → β} {f : Nat × Nat → β}
    (hnd : (xs.map Prod.fst).Nodup) (hx : x ∈ xs) : writeRows xs g f x.1 = g x.2 :=
  foldl_update_place (g := fun _ => g) hnd hx

/-- The entries of a sequence that tokens with values add. -/
def newEntries (xs : List (Token × β)) (s : Nat) : Multiset (Int × β) :=
  (xs.map fun x => if s ∈ x.1.seqId then {(x.1.pos, x.2)} else 0).sum

theorem mem_newEntries {xs : List (Token × β)} :
    e ∈ newEntries xs s ↔ ∃ x ∈ xs, s ∈ x.1.seqId ∧ e = (x.1.pos, x.2) := by
  induction xs with
  | nil => simp only [newEntries, List.map_nil, List.sum_nil, Multiset.notMem_zero,
      List.not_mem_nil, false_and, exists_false]
  | cons x xs ih =>
    rw [newEntries, List.map_cons, List.sum_cons, ← newEntries, Multiset.mem_add, ih,
      List.exists_mem_cons_iff]
    refine or_congr_left ?_
    split
    · case isTrue h => simp only [Multiset.mem_singleton, h, true_and]
    · case isFalse h => simp only [Multiset.notMem_zero, h, false_and]

theorem holds_purgedBy {x : Cell} : (purgedBy p m t x q).Holds s pos ↔
    x.Holds s pos ∧ ¬ (s = q ∧ p.stream s = t ∧ 0 ≤ pos ∧ pos < m s + 1) := by
  rw [purgedBy]
  split
  · case isTrue ht =>
    rw [holds_rmCell]
    refine and_congr_right fun _ => not_congr (and_congr_right fun hs => ?_)
    rw [hs, eq_true ht, true_and]
  · case isFalse ht =>
    refine (and_iff_left ?_).symm
    rintro ⟨rfl, hstream, _⟩
    exact ht hstream

theorem holds_purgedBys {x : Cell} {m : Nat → Int} {ss : List Nat} : (ss.foldl (purgedBy p m t) x).Holds s pos ↔
    x.Holds s pos ∧ ¬ (s ∈ ss ∧ p.stream s = t ∧ 0 ≤ pos ∧ pos < m s + 1) := by
  induction ss generalizing x with
  | nil => simp only [List.foldl_nil, List.not_mem_nil, false_and, not_false_iff, and_true]
  | cons q ss ih =>
    rw [List.foldl_cons, ih, holds_purgedBy, and_assoc, ← not_or, ← or_and_right, List.mem_cons]

section Apply
variable {r : SlotInfo} {u : Ubatch} {vals : List β}

/-- The rows of an ubatch, with a value for each token. -/
def rowsOf (r : SlotInfo) (u : Ubatch) (vals : List β) : List ((Nat × Nat) × (Token × β)) :=
  r.places.zip (u.tokens.zip vals)

theorem zip_tokens (hvals : vals.length = u.nTokens) :
    r.places.zip u.tokens = (rowsOf r u vals).map (Prod.map id Prod.fst) := by
  rw [rowsOf, ← List.zip_map_right, List.map_fst_zip (le_of_eq hvals.symm)]

theorem rows_places (hr : Fillable p k u r) (hvals : vals.length = u.nTokens) :
    (rowsOf r u vals).map Prod.fst = r.places := by
  apply List.map_fst_zip
  rw [List.length_zip, hvals, ← Ubatch.nTokens, min_self, hr.length]

theorem rows_tokens (hr : Fillable p k u r) (hvals : vals.length = u.nTokens) :
    (rowsOf r u vals).map Prod.snd = u.tokens.zip vals := by
  apply List.map_snd_zip
  rw [List.length_zip, hvals, ← Ubatch.nTokens, min_self, hr.length]

variable (raw) in
/-- What the cells of a slot hold of a sequence once its tokens are placed. -/
theorem places_entries (hk : Fits n k) (hr : Fillable p k u r) (hvals : vals.length = u.nTokens)
    (haligned : Aligned p r u) :
    ∑ i ∈ (Finset.range n).filter (fun i => (p.stream s, i) ∈ r.places),
      (fill (r.places.zip u.tokens) k.at' (p.stream s, i)).entry
        (writeRows (rowsOf r u vals) Prod.snd raw (p.stream s, i)) s =
      newEntries (u.tokens.zip vals) s := by
  let G (y : Nat × Nat) : Multiset (Int × β) := (fill (r.places.zip u.tokens) k.at' y).entry
    (writeRows (rowsOf r u vals) Prod.snd raw y) s
  have hnd : ((rowsOf r u vals).map Prod.fst).Nodup := (rows_places hr hvals).symm ▸ hr.nodup
  have hplace : ∀ x ∈ rowsOf r u vals,
      G x.1 = if s ∈ x.2.1.seqId then {(x.2.1.pos, x.2.2)} else 0 := by
    intro x hx
    have hx' : (x.1, x.2.1) ∈ r.places.zip u.tokens := by
      rw [zip_tokens hvals]
      exact List.mem_map.2 ⟨x, hx, rfl⟩
    change (fill (r.places.zip u.tokens) k.at' x.1).entry _ s = _
    rw [writeRows_place hnd hx, fill_place (x := (x.1, x.2.1)) (zip_nodup hr.length hr.nodup) hx',
      Cell.entry, Cell.placed]
    simp only [List.mem_toFinset]
  have hother : ∀ y ∈ r.places.toFinset, G y ≠ 0 → y.1 = p.stream s := by
    intro y hy hne
    rw [List.mem_toFinset, ← rows_places hr hvals] at hy
    obtain ⟨x, hx, rfl⟩ := List.mem_map.1 hy
    rw [hplace x hx, ne_eq, ite_eq_right_iff, not_forall] at hne
    refine (haligned (x.1, x.2.1) ?_ s hne.1).symm
    rw [zip_tokens hvals]
    exact List.mem_map.2 ⟨x, hx, rfl⟩
  have himage : ((Finset.range n).filter fun i => (p.stream s, i) ∈ r.places).image
      (fun i => (p.stream s, i)) = r.places.toFinset.filter fun y => y.1 = p.stream s := by
    ext ⟨t, i⟩
    simp only [Finset.mem_image, Finset.mem_filter, Finset.mem_range, List.mem_toFinset,
      Prod.mk.injEq]
    constructor
    · rintro ⟨j, ⟨_, hj⟩, rfl, rfl⟩
      exact ⟨hj, rfl⟩
    · rintro ⟨hi, rfl⟩
      refine ⟨i, ⟨?_, hi⟩, rfl, rfl⟩
      rw [← hk.size (p.stream s)]
      exact (hr.inside _ hi).2
  calc ∑ i ∈ (Finset.range n).filter (fun i => (p.stream s, i) ∈ r.places), G (p.stream s, i)
      = ∑ y ∈ r.places.toFinset.filter (fun y => y.1 = p.stream s), G y := by
        rw [← himage, Finset.sum_image fun i _ j _ h => (Prod.ext_iff.1 h).2]
    _ = ∑ y ∈ r.places.toFinset, G y := Finset.sum_filter_of_ne hother
    _ = (r.places.map G).sum := List.sum_toFinset G hr.nodup
    _ = newEntries (u.tokens.zip vals) s := by
        rw [newEntries, ← rows_places hr hvals, ← rows_tokens hr hvals, List.map_map, List.map_map]
        exact congrArg List.sum (List.map_congr_left hplace)

variable (raw) in
/-- An ubatch overwrites some entries and adds its own; what is left of a sequence is behind what
was overwritten. -/
theorem entries_applyUbatch (hk : Booked p n k) (hr : Fillable p k u r)
    (hvals : vals.length = u.nTokens) (haligned : Aligned p r u)
    (h : k.applyUbatch p r u = some k') (hs : s < p.nSeqIds) :
    ∃ rest old, entries p k raw s = rest + old ∧
      (∀ e ∈ old, ∃ y ∈ r.places, s ∈ (k.at' y).seq ∧ e.1 = (k.at' y).pos) ∧
      entries p k' (writeRows (rowsOf r u vals) Prod.snd raw) s =
        (rest + newEntries (u.tokens.zip vals) s).filter fun e =>
          ¬ (0 ≤ e.1 ∧ e.1 < overwritten k r u s + 1) := by
  have hsplit (f : Nat → Multiset (Int × β)) := Finset.sum_filter_not_add_sum_filter
    (Finset.range n) (fun i => (p.stream s, i) ∈ r.places) f
  refine ⟨∑ i ∈ (Finset.range n).filter (fun i => ¬ (p.stream s, i) ∈ r.places),
      (k.at' (p.stream s, i)).entry (raw (p.stream s, i)) s,
    ∑ i ∈ (Finset.range n).filter (fun i => (p.stream s, i) ∈ r.places),
      (k.at' (p.stream s, i)).entry (raw (p.stream s, i)) s, ?_, ?_, ?_⟩
  · rw [hsplit, entries, hk.fits.size]
  · intro e he
    obtain ⟨i, hi, he⟩ := Multiset.mem_sum.1 he
    obtain ⟨hin, rfl⟩ := Cell.mem_entry.1 he
    exact ⟨_, (Finset.mem_filter.1 hi).2, hin, rfl⟩
  · have hmax : s ∈ List.range LLAMA_MAX_SEQ := List.mem_range.2 (hs.trans_le (nSeqIds_le p))
    have hrest : ∑ i ∈ (Finset.range n).filter (fun i => ¬ (p.stream s, i) ∈ r.places),
          (k.at' (p.stream s, i)).entry (raw (p.stream s, i)) s =
        ∑ i ∈ (Finset.range n).filter (fun i => ¬ (p.stream s, i) ∈ r.places),
          (fill (r.places.zip u.tokens) k.at' (p.stream s, i)).entry
            (writeRows (rowsOf r u vals) Prod.snd raw (p.stream s, i)) s := by
      refine Finset.sum_congr rfl fun i hi => ?_
      have hout := (Finset.mem_filter.1 hi).2
      have hfill : ∀ x ∈ r.places.zip u.tokens, x.1 ≠ (p.stream s, i) :=
        fun x hx he => hout (he ▸ (mem_of_zip hx).1)
      have hrow : ∀ x ∈ rowsOf r u vals, x.1 ≠ (p.stream s, i) :=
        fun x hx he => hout (he ▸ (List.of_mem_zip hx).1)
      rw [fill_other hfill, writeRows_other hrow]
    rw [← places_entries raw hk.fits hr hvals haligned, hrest, hsplit, entries,
      applyUbatch_size h, hk.fits.size]
    refine (Finset.sum_congr rfl fun i hi => ?_).trans (map_sum (filterHom fun pos =>
      ¬ (0 ≤ pos ∧ pos < overwritten k r u s + 1)) _ _).symm
    have hcell : k'.at' (p.stream s, i) = turned p k r u (p.stream s, i) := by
      apply applyUbatch_cell hk.sound.counted hr h
      rw [hk.fits.size]
      exact Finset.mem_range.1 hi
    rw [hcell, turned]
    apply Cell.entry_filter (P := fun pos => ¬ (0 ≤ pos ∧ pos < overwritten k r u s + 1))
    intro pos
    rw [holds_purgedBys]
    simp only [hmax, true_and]

end Apply
end Cache
end ActQuant.KvCache
