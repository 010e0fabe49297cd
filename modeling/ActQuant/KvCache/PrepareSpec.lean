import ActQuant.KvCache.Sound

namespace ActQuant.KvCache
open ActQuant.Lib ActQuant.Batch

/-! What is left of a trial after `prepare` took it back. -/

namespace Cells

/-- `set` writes back the positions and the sequences. -/
theorem set_spec {c d : Cells} {is : List Nat} {f : Nat → Cell} (hnd : is.Nodup)
    (h : c.set is (is.map f) = some d) :
    d.size = c.size ∧ (∀ i ∈ is, (c.cell i).shift = 0) ∧
      ∀ j, d.cell j =
        if j ∈ is then { c.cell j with pos := (f j).pos, seq := (f j).seq } else c.cell j := by
  induction is generalizing c with
  | nil =>
    cases h
    exact ⟨rfl, fun _ hi => (List.not_mem_nil hi).elim, fun j => (if_neg (List.not_mem_nil)).symm⟩
  | cons i is ih =>
    rw [List.map_cons, set] at h
    obtain ⟨e, he, hrest⟩ := Option.bind_eq_some_iff.1 h
    obtain ⟨hr, hshift⟩ := setOne_replaced he
    obtain ⟨hnot, hnd⟩ := List.nodup_cons.1 hnd
    obtain ⟨hsize, hshifts, hcell⟩ := ih hnd hrest
    refine ⟨hsize.trans hr.size, ?_, fun j => ?_⟩
    · intro j hj
      rcases List.mem_cons.1 hj with rfl | hj
      · exact hshift
      · rw [← hr.other (j := j) fun he => hnot (he ▸ hj)]
        exact hshifts j hj
    · rw [hcell]
      by_cases hj : j = i
      · subst hj
        rw [if_neg hnot, if_pos List.mem_cons_self, hr.self]
      · rw [hr.other hj]
        exact if_congr (List.mem_cons.trans (or_iff_right hj)).symm rfl rfl

end Cells

namespace Cache

/-- The cells of a slot, as they were kept. -/
def kept (k : Cache) (rows : List (Nat × List Nat)) : List (List Cell) :=
  rows.map fun x => x.2.map fun i => Cells.saved (k.at' (x.1, i))

theorem saveState_eq {k : Cache} (h : saveState k r = some state) :
    state = ⟨r, k.head, kept k r.rows⟩ ∧ ∀ y ∈ r.places, (k.at' y).shift = 0 := by
  obtain ⟨xs, hxs, rfl⟩ := Option.map_eq_some_iff.1 h
  have hall : ∀ (rows : List (Nat × List Nat)) (xs : List (List Cell)),
      (rows.mapM fun x => (k.cells x.1).cp x.2) = some xs →
      xs = kept k rows ∧ ∀ x ∈ rows, ∀ i ∈ x.2, ((k.cells x.1).cell i).shift = 0 := by
    intro rows
    induction rows with
    | nil =>
      rintro xs hxs
      cases hxs
      exact ⟨rfl, fun _ hx => (List.not_mem_nil hx).elim⟩
    | cons x rows ih =>
      intro xs hxs
      rw [List.mapM_cons] at hxs
      obtain ⟨ys, hys, hxs⟩ := Option.bind_eq_some_iff.1 hxs
      obtain ⟨zs, hzs, hxs⟩ := Option.bind_eq_some_iff.1 hxs
      cases hxs
      obtain ⟨hshift, rfl⟩ := Cells.cp_eq_some.1 hys
      obtain ⟨rfl, hrest⟩ := ih zs hzs
      refine ⟨rfl, ?_⟩
      intro y hy
      rcases List.mem_cons.1 hy with rfl | hy
      · exact fun i hi => (hshift i hi).2
      · exact hrest y hy
  obtain ⟨rfl, hshift⟩ := hall r.rows xs hxs
  refine ⟨rfl, ?_⟩
  intro y hy
  obtain ⟨x, hx, he, hi⟩ := mem_places.1 hy
  rw [at', ← he]
  exact hshift x hx y.2 hi

/-- The rows of a slot, written back. -/
structure WrittenBack (k K : Cache) (old : Nat → Nat) (n : Nat) (rows : List (Nat × List Nat))
    (K' : Cache) : Prop where
  size : ∀ t, (K'.cells t).size = (K.cells t).size
  copies : K'.copies = K.copies
  shift : ∀ y ∈ SlotInfo.places ⟨rows⟩, (K.at' y).shift = 0
  cell : ∀ y, K'.at' y = if y ∈ SlotInfo.places ⟨rows⟩ then
    { K.at' y with pos := (k.at' y).pos, seq := (k.at' y).seq } else K.at' y
  head : ∀ s t, (rows[s]?).map Prod.fst = some t → K'.head t = old (n + s)
  headOther : ∀ t, t ∉ rows.map Prod.fst → K'.head t = K.head t

theorem at'_setStream {k : Cache} (y : Nat × Nat) :
    (k.setStream t d hd).at' y = if y.1 = t then d.cell y.2 else k.at' y := by
  rw [at', setStream]
  dsimp only
  split
  · case isTrue ht => rw [ht, Function.update_self]
  · case isFalse ht =>
    rw [Function.update_of_ne ht]
    rfl

theorem mem_places_cons {rows : List (Nat × List Nat)} :
    y ∈ SlotInfo.places ⟨x :: rows⟩ ↔ (y.1 = x.1 ∧ y.2 ∈ x.2) ∨ y ∈ SlotInfo.places ⟨rows⟩ := by
  rw [mem_places, mem_places]
  constructor
  · rintro ⟨z, hz, he, hi⟩
    rcases List.mem_cons.1 hz with rfl | hz
    · exact .inl ⟨he.symm, hi⟩
    · exact .inr ⟨z, hz, he, hi⟩
  · rintro (⟨he, hi⟩ | ⟨z, hz, he, hi⟩)
    · exact ⟨x, List.mem_cons_self, he.symm, hi⟩
    · exact ⟨z, List.mem_cons_of_mem _ hz, he, hi⟩

theorem restoreRows_spec {rows : List (Nat × List Nat)} {K K' : Cache} {old : Nat → Nat}
    (hstrm : (rows.map Prod.fst).Nodup) (hrow : ∀ x ∈ rows, x.2.Nodup)
    (h : ((rows.zip (kept k rows)).zipIdx n).foldlM (restoreRow old) K = some K') :
    WrittenBack k K old n rows K' := by
  induction rows generalizing K n with
  | nil =>
    cases h
    have hno (y : Nat × Nat) : y ∉ SlotInfo.places ⟨[]⟩ := List.not_mem_nil
    exact ⟨fun _ => rfl, rfl, fun y hy => (hno y hy).elim, fun y => (if_neg (hno y)).symm,
      fun _ _ h => absurd h (by simp), fun _ _ => rfl⟩
  | cons x rows ih =>
    rw [kept, List.map_cons, List.zip_cons_cons, List.zipIdx_cons] at h
    obtain ⟨L, hL, hrest⟩ := foldlM_cons_eq_some.1 h
    rw [restoreRow] at hL
    obtain ⟨d, hd, rfl⟩ := Option.map_eq_some_iff.1 hL
    obtain ⟨hsize, hshift, hcell⟩ := Cells.set_spec (hrow x List.mem_cons_self) hd
    obtain ⟨hnot, hstrm⟩ := List.nodup_cons.1 hstrm
    have hw := ih hstrm (fun y hy => hrow y (List.mem_cons_of_mem _ hy)) hrest
    have hother : ∀ y, y ∈ SlotInfo.places ⟨rows⟩ → y.1 ≠ x.1 := by
      intro y hy he
      obtain ⟨z, hz, hze, _⟩ := mem_places.1 hy
      exact hnot (he ▸ hze ▸ List.mem_map_of_mem hz)
    refine ⟨fun t => (hw.size t).trans (size_setStream hsize t), hw.copies, ?_, ?_, ?_, ?_⟩
    · intro y hy
      rcases mem_places_cons.1 hy with ⟨he, hi⟩ | hy
      · rw [at', he]
        exact hshift _ hi
      · have hs := hw.shift y hy
        rw [at'_setStream, if_neg (hother y hy)] at hs
        exact hs
    · intro y
      rw [hw.cell, at'_setStream]
      by_cases hy : y ∈ SlotInfo.places ⟨rows⟩
      · rw [if_pos hy, if_pos (mem_places_cons.2 (.inr hy)), if_neg (hother y hy)]
      · rw [if_neg hy]
        by_cases he : y.1 = x.1
        · obtain ⟨t, i⟩ := y
          change t = x.1 at he
          subst he
          have hmem : (x.1, i) ∈ SlotInfo.places ⟨x :: rows⟩ ↔ i ∈ x.2 :=
            mem_places_cons.trans ((or_iff_left hy).trans (and_iff_right rfl))
          rw [if_pos rfl, hcell, if_congr hmem rfl rfl]
          rfl
        · rw [if_neg he, if_neg fun h => (mem_places_cons.1 h).elim (fun h => he h.1) hy]
    · intro s t hs
      cases s with
      | zero =>
        rw [List.getElem?_cons_zero] at hs
        cases hs
        rw [hw.headOther _ hnot]
        exact Function.update_self _ _ _
      | succ s =>
        rw [List.getElem?_cons_succ] at hs
        rw [hw.head s t hs, Nat.add_right_comm]
        rfl
    · intro t ht
      rw [List.map_cons, List.mem_cons, not_or] at ht
      rw [hw.headOther t ht.2]
      exact Function.update_of_ne ht.1 _ _

theorem findSlot_tokens {p : Params} {k : Cache} (h : findSlot p k u cont = some (some r)) :
    u.tokens ≠ [] := by
  intro hnil
  have hunq : u.seqIdUnq = [] := by
    rw [Ubatch.seqIdUnq, hnil]
    exact List.filter_eq_nil_iff.2 fun _ _ h => (nomatch h)
  rw [findSlot, hunq] at h
  split at h
  · rw [Option.ite_none_right_eq_some] at h
    exact h.1.1 rfl
  · cases h

/-- One ubatch of a trial: the cache before, the slot and the cache after. -/
structure Turn where
  before : Cache
  slot : SlotInfo
  after : Cache

/-- The trial of a list of ubatches. -/
inductive Trial (p : Params) : Cache → List Ubatch → List Turn → Cache → Prop where
  | done : Trial p k [] [] k
  | full : findSlot p k u false = some none → Trial p k (u :: us) [] k
  | turn : findSlot p k u false = some (some r) → applyUbatch p k r u = some k₁ →
      Trial p k₁ us ts k' → Trial p k (u :: us) (⟨k, r, k₁⟩ :: ts) k'

theorem Trial.unique {us : List Ubatch} (h : Trial p k us ts kn) (h' : Trial p k us ts' kn') :
    ts' = ts ∧ kn' = kn := by
  induction h generalizing ts' kn' with
  | done =>
    cases h'
    exact ⟨rfl, rfl⟩
  | full hfull =>
    cases h' with
    | full _ => exact ⟨rfl, rfl⟩
    | turn hfound _ _ =>
      rw [hfull] at hfound
      cases hfound
  | turn hfound happly _ ih =>
    cases h' with
    | full hfull =>
      rw [hfull] at hfound
      cases hfound
    | turn hfound' happly' hrest =>
      rw [hfound] at hfound'
      cases hfound'
      rw [happly] at happly'
      cases happly'
      obtain ⟨rfl, rfl⟩ := ih hrest
      exact ⟨rfl, rfl⟩

/-- A place is in a slot before a turn takes sequences off it. -/
def Spared (y : Nat × Nat) : List Turn → Prop
  | [] => True
  | x :: ts => y ∈ x.slot.places ∨ x.after.at' y = x.before.at' y ∧ Spared y ts

/-- The head of a stream that the restored states end with. -/
def headBack (k' : Cache) (t : Nat) : List Turn → Nat
  | [] => k'.head t
  | x :: ts =>
    if t ∈ x.slot.rows.map Prod.fst then x.before.head ((x.slot.rows.map Prod.fst).idxOf t)
    else headBack k' t ts

/-- The cell that the restored states end with: as it was before the first slot that it is in. -/
def cellBack (k' : Cache) (y : Nat × Nat) : List Turn → Cell
  | [] => k'.at' y
  | x :: ts => if y ∈ x.slot.places then x.before.at' y else cellBack k' y ts

/-- What the restored states leave, against the cache before the trial. -/
structure Undone (k : Cache) (ts : List Turn) (kn k' : Cache) : Prop where
  size : ∀ t, (k'.cells t).size = (k.cells t).size
  sound : k'.Sound
  thinned : ∀ y, (k'.at' y).Thinned (k.at' y)
  cell : ∀ y, k'.at' y = k.at' y ↔ Spared y ts
  back : ∀ y, k'.at' y = cellBack kn y ts
  head : ∀ t, k'.head t = headBack kn t ts

theorem set_sound {c d : Cells} {is : List Nat} {f : Nat → Cell} (hc : c.Counted)
    (hbare : ∀ i, (c.cell i).Bare) (hf : ∀ i, (f i).Bare) (h : c.set is (is.map f) = some d) :
    d.Counted ∧ ∀ i, (d.cell i).Bare := by
  induction is generalizing c with
  | nil =>
    cases h
    exact ⟨hc, hbare⟩
  | cons i is ih =>
    rw [List.map_cons, Cells.set] at h
    obtain ⟨e, he, hrest⟩ := Option.bind_eq_some_iff.1 h
    obtain ⟨hr, hshift⟩ := Cells.setOne_replaced he
    refine ih (hc.setOne (fun h => (hf i h).1) (fun h => (hbare i h).1) he) (fun j => ?_) hrest
    by_cases hj : j = i
    · subst hj
      rw [hr.self]
      exact fun hpos => ⟨(hf j hpos).1, hshift⟩
    · rw [hr.other hj]
      exact hbare j

theorem restoreRows_sound {rows : List (Nat × List Nat)} {K K' : Cache} {old : Nat → Nat}
    (hk : ∀ y, (k.at' y).Bare) (hK : K.Sound)
    (h : ((rows.zip (kept k rows)).zipIdx n).foldlM (restoreRow old) K = some K') : K'.Sound := by
  induction rows generalizing K n with
  | nil =>
    cases h
    exact hK
  | cons x rows ih =>
    rw [kept, List.map_cons, List.zip_cons_cons, List.zipIdx_cons] at h
    obtain ⟨L, hL, hrest⟩ := foldlM_cons_eq_some.1 h
    rw [restoreRow] at hL
    obtain ⟨d, hd, rfl⟩ := Option.map_eq_some_iff.1 hL
    have hsaved (i : Nat) : (Cells.saved (k.at' (x.1, i))).Bare :=
      fun hpos => ⟨(hk (x.1, i) hpos).1, rfl⟩
    obtain ⟨hcount, hbare⟩ := set_sound (hK.counted x.1) (fun i => hK.bare (x.1, i)) hsaved hd
    refine ih ⟨counted_setStream hK.counted hcount _ _, fun y => ?_⟩ hrest
    rw [at'_setStream]
    split
    · exact hbare y.2
    · exact hK.bare y

theorem rows_nodup {r : SlotInfo} (h : r.places.Nodup) : ∀ x ∈ r.rows, x.2.Nodup := by
  rw [SlotInfo.places, List.nodup_flatMap] at h
  exact fun x hx => (h.1 x hx).of_map

/-- A cell of the slot is written back as it was. -/
theorem WrittenBack.same {r : SlotInfo} (hw : WrittenBack k K old n r.rows K')
    (hy : y ∈ r.places) (hzero : (k.at' y).shift = 0) : K'.at' y = k.at' y := by
  have hshift := hw.shift y hy
  rw [hw.cell, if_pos hy]
  dsimp only
  rw [hshift, ← hzero]

theorem WrittenBack.other {r : SlotInfo} (hw : WrittenBack k K old n r.rows K')
    (hy : y ∉ r.places) : K'.at' y = K.at' y := by
  rw [hw.cell, if_neg hy]

/-- What is taken back is what every turn left as it was. -/
theorem trial_undone {us : List Ubatch} (hk : k.Sound)
    (h : trial p k us = some (kn, states, success))
    (hr : states.reverse.foldlM restore kn = some k') :
    ∃ ts, Trial p k us ts kn ∧ ts.map Turn.slot = states.map State.sinfo ∧ Undone k ts kn k' := by
  induction us generalizing k states success k' with
  | nil =>
    rw [trial] at h
    cases h
    cases hr
    exact ⟨[], .done, rfl, fun _ => rfl, hk, fun _ => .refl _, fun _ => iff_of_true rfl trivial,
      fun _ => rfl, fun _ => rfl⟩
  | cons u us ih =>
    rw [trial] at h
    obtain ⟨found, hfound, h⟩ := Option.bind_eq_some_iff.1 h
    cases found with
    | none =>
      cases h
      cases hr
      exact ⟨[], .full hfound, rfl, fun _ => rfl, hk, fun _ => .refl _,
        fun _ => iff_of_true rfl trivial, fun _ => rfl, fun _ => rfl⟩
    | some r =>
      obtain ⟨state, hstate, h⟩ := Option.bind_eq_some_iff.1 h
      obtain ⟨k₁, hk₁, h⟩ := Option.bind_eq_some_iff.1 h
      obtain ⟨⟨kl, sts, ok⟩, hrest, h⟩ := Option.bind_eq_some_iff.1 h
      cases h
      obtain ⟨rfl, hzero⟩ := saveState_eq hstate
      rw [List.reverse_cons, List.foldlM_append] at hr
      obtain ⟨K, hK, hr⟩ := Option.bind_eq_some_iff.1 hr
      obtain ⟨ts, htrial, hslots, hundone⟩ := ih (hk.applyUbatch hk₁) hrest hK
      obtain ⟨K', hK', hr⟩ := foldlM_cons_eq_some.1 hr
      cases hr
      have hslot := findSlot_spec (findSlot_tokens hfound) hfound
      have hw := restoreRows_spec hslot.strm_nodup (rows_nodup hslot.nodup) hK'
      refine ⟨_, .turn hfound hk₁ htrial, congrArg (r :: ·) hslots, ?_, ?_, ?_, ?_, ?_, ?_⟩
      · exact fun t => (hw.size t).trans ((hundone.size t).trans (applyUbatch_size hk₁ t))
      · exact restoreRows_sound hk.bare hundone.sound hK'
      · intro y
        by_cases hy : y ∈ r.places
        · rw [hw.same hy (hzero y hy)]
          exact .refl _
        · rw [hw.other hy]
          exact (hundone.thinned y).trans (applyUbatch_other hk₁ hy)
      · intro y
        by_cases hy : y ∈ r.places
        · exact iff_of_true (hw.same hy (hzero y hy)) (.inl hy)
        · have hthin := applyUbatch_other hk₁ hy
          rw [hw.other hy]
          constructor
          · intro hsame
            have hafter : k₁.at' y = k.at' y := hthin.antisymm (hsame ▸ hundone.thinned y)
            exact .inr ⟨hafter, (hundone.cell y).1 (hsame.trans hafter.symm)⟩
          · rintro (hin | ⟨hafter, hrest⟩)
            · exact (hy hin).elim
            · exact ((hundone.cell y).2 hrest).trans hafter
      · intro y
        rw [cellBack]
        split
        · case isTrue hy => exact hw.same hy (hzero y hy)
        · case isFalse hy => exact (hw.other hy).trans (hundone.back y)
      · intro t
        rw [headBack]
        split
        · case isTrue ht =>
          have hlt := List.idxOf_lt_length_of_mem ht
          have hget : (r.rows[(r.rows.map Prod.fst).idxOf t]?).map Prod.fst = some t := by
            rw [← List.getElem?_map, List.getElem?_eq_getElem hlt, List.getElem_idxOf]
          rw [hw.head _ t hget, Nat.zero_add]
        · case isFalse ht =>
          rw [hw.headOther t ht]
          exact hundone.head t

/-- A pass finds a first empty cell only where a cell lost its last sequence. -/
theorem sweep_head {turn : Cells → Nat → Option (Cells × Bool)} {g : Cell → Cell} {c d : Cells}
    (hturn : ∀ {c i d b}, turn c i = some (d, b) → Cells.Replaced c i (g (c.cell i)) d)
    (hg : ∀ x, (g x).Thinned x)
    (hlast : ∀ {c i d}, turn c i = some (d, true) →
      (c.cell i).seq ≠ ∅ ∧ d.cell i = Cell.vacant)
    (h : c.sweep turn = some (d, n)) :
    n = c.size ∨ ∃ i, (c.cell i).seq ≠ ∅ ∧ d.cell i = Cell.vacant := by
  refine (sweep_invariant (I := fun st : Cells × Nat => (∀ j, (st.1.cell j).Thinned (c.cell j)) ∧
    (st.2 = c.size ∨ ∃ i, (c.cell i).seq ≠ ∅ ∧ st.1.cell i = Cell.vacant)) ?_
    ⟨fun _ => .refl _, .inl rfl⟩ h).2
  rintro ⟨c', m⟩ i st' _ ⟨hthin, hm⟩ h
  obtain ⟨⟨d', b⟩, hr, rfl⟩ := Option.map_eq_some_iff.1 h
  have hrep := hturn hr
  have hstep : ∀ j, (d'.cell j).Thinned (c'.cell j) := by
    intro j
    by_cases hj : j = i
    · subst hj
      rw [hrep.self]
      exact hg _
    · rw [hrep.other hj]
      exact .refl _
  refine ⟨fun j => (hstep j).trans (hthin j), ?_⟩
  cases b with
  | true =>
    obtain ⟨hne, hvac⟩ := hlast hr
    exact .inr ⟨i, (hthin i).seq_ne hne, hvac⟩
  | false =>
    rcases hm with hm | ⟨j, hne, hvac⟩
    · exact .inl hm
    · refine .inr ⟨j, hne, ?_⟩
      have hj := hstep j
      dsimp only at hvac
      rw [hvac] at hj
      exact hj.of_vacant

theorem seqRmTurn_last (h : seqRmTurn s p₀ p₁ c i = some (d, true)) :
    (c.cell i).seq ≠ ∅ ∧ d.cell i = Cell.vacant := by
  rw [seqRmTurn] at h
  split at h
  · obtain ⟨hr, hs, hb⟩ := Cells.seqRm_replaced h
    refine ⟨fun hempty => Finset.notMem_empty s (hempty ▸ hs), ?_⟩
    rw [hr.self, Cell.without, if_pos (hb.1 rfl)]
  · cases h

theorem purge_head {k : Cache} (h : purge p m k s = some k') (t : Nat) :
    k'.head t = k.head t ∨ ∃ i, (k.at' (t, i)).seq ≠ ∅ ∧ k'.at' (t, i) = Cell.vacant := by
  rw [purge] at h
  split at h
  · cases h
    exact .inl rfl
  · rw [Option.ite_none_right_eq_some] at h
    obtain ⟨_, h⟩ := h
    split at h
    · rw [seqRm, Option.ite_none_right_eq_some, if_pos (Int.natCast_nonneg s)] at h
      obtain ⟨_, h⟩ := h
      obtain ⟨⟨d, n⟩, hd, h⟩ := Option.bind_eq_some_iff.1 h
      cases h
      by_cases ht : t = p.stream (Int.toNat s)
      · subst ht
        rcases sweep_head seqRmTurn_replaced (rmCell_thinned _ _ _) seqRmTurn_last hd with hn | hi
        · left
          have hsize := (Cells.sweep_cell seqRmTurn_replaced hd).1
          refine (Function.update_self _ _ _).trans (if_neg fun hne => hne.1 ?_)
          rw [hn, hsize]
        · right
          obtain ⟨i, hne, hvac⟩ := hi
          refine ⟨i, hne, ?_⟩
          rw [lowerHead, at'_setStream, if_pos rfl]
          exact hvac
      · exact .inl (Function.update_of_ne ht _ _)
    · cases h
      exact .inl rfl

/-- The head of a stream without a row stays where no sequence leaves its cells. -/
theorem applyUbatch_head {k : Cache} (h : k.applyUbatch p r u = some k')
    (ht : t ∉ r.rows.map Prod.fst) (hsame : ∀ i, k'.at' (t, i) = k.at' (t, i)) :
    k'.head t = k.head t := by
  obtain ⟨k₁, m, k₂, h₁, h₂, h₃⟩ := applyUbatch_eq_some.1 h
  rw [placeTokens, Option.ite_none_right_eq_some] at h₁
  have hhead₁ : k₁.head = k.head :=
    sweep_invariant (I := fun st : Cache × (Nat → Int) => st.1.head = k.head)
      (fun _ hI h => (placeToken_spec h).head.trans hI) rfl h₁.2
  have hcells := (moveHeads_cells h₃).1
  have hhead₃ : k'.head t = k₂.head t := by
    refine sweep_invariant (I := fun e : Cache => e.head t = k₂.head t) ?_ rfl h₃
    intro e x e' hx hI h
    obtain ⟨i, _, rfl⟩ := Option.map_eq_some_iff.1 h
    have hne : t ≠ x.1 := by
      rintro rfl
      exact ht (List.mem_map_of_mem hx)
    exact (Function.update_of_ne hne _ _).trans hI
  have hplaced : ∀ i, k₁.at' (t, i) = k.at' (t, i) := by
    intro i
    refine sweep_get_other (fun st : Cache × (Nat → Int) => st.1.at') Prod.fst
      (fun x z => z.placed x.2) (fun _ hst => (placeToken_spec hst).cell) ?_ h₁.2
    intro x hx he
    obtain ⟨z, hz, hzt, _⟩ := mem_places.1 (mem_of_zip hx).1
    rw [he] at hzt
    exact ht (List.mem_map.2 ⟨z, hz, hzt⟩)
  have hpurged : k₂.head t = k₁.head t ∨
      ∃ i, (k₁.at' (t, i)).seq ≠ ∅ ∧ k₂.at' (t, i) = Cell.vacant := by
    refine (sweep_invariant (I := fun e : Cache => (∀ y, (e.at' y).Thinned (k₁.at' y)) ∧
      (e.head t = k₁.head t ∨
        ∃ i, (k₁.at' (t, i)).seq ≠ ∅ ∧ e.at' (t, i) = Cell.vacant)) ?_
      ⟨fun _ => .refl _, .inl rfl⟩ h₂).2
    rintro e s e' _ ⟨hthin, hm⟩ h
    refine ⟨fun y => (purge_thinned h y).trans (hthin y), ?_⟩
    rcases hm with hm | ⟨i, hne, hvac⟩
    · rcases purge_head h t with he | ⟨i, hne, hvac⟩
      · exact .inl (he.trans hm)
      · exact .inr ⟨i, (hthin (t, i)).seq_ne hne, hvac⟩
    · refine .inr ⟨i, hne, ?_⟩
      have hthin' := purge_thinned h (t, i)
      rw [hvac] at hthin'
      exact hthin'.of_vacant
  rcases hpurged with he | ⟨i, hne, hvac⟩
  · rw [hhead₃, he, hhead₁]
  · have hsame := hsame i
    rw [at', hcells] at hsame
    rw [hplaced, ← hsame] at hne
    change (k₂.at' (t, i)).seq ≠ ∅ at hne
    rw [hvac] at hne
    exact (hne rfl).elim

/-- The first slot with a row for a stream has it where the old head that is read is its own. -/
def HeadKept (k : Cache) (t : Nat) : List Turn → Prop
  | [] => True
  | x :: ts =>
    if t ∈ x.slot.rows.map Prod.fst then
      x.before.head ((x.slot.rows.map Prod.fst).idxOf t) = k.head t
    else HeadKept k t ts

theorem headBack_iff {us : List Ubatch} (h : Trial p k₀ us ts kn) (hhead : k₀.head t = k.head t)
    (hspared : ∀ i, Spared (t, i) ts) : headBack kn t ts = k.head t ↔ HeadKept k t ts := by
  induction h with
  | done => exact iff_of_true hhead trivial
  | full _ => exact iff_of_true hhead trivial
  | @turn k₀ u r k₁ us ts kn hfound happly htrial ih =>
    rw [headBack, HeadKept]
    split
    · exact Iff.rfl
    · case isFalse ht =>
      have hrest : ∀ i, k₁.at' (t, i) = k₀.at' (t, i) ∧ Spared (t, i) ts := by
        intro i
        refine (hspared i).resolve_left fun hin => ?_
        obtain ⟨z, hz, he, _⟩ := mem_places.1 hin
        exact ht (List.mem_map.2 ⟨z, hz, he⟩)
      exact ih ((applyUbatch_head happly ht fun i => (hrest i).1).trans hhead)
        fun i => (hrest i).2

/-- The cells, their counters and the heads are as before. -/
def Restored (k k' : Cache) : Prop :=
  (∀ t, (k'.cells t).cell = (k.cells t).cell ∧ (k'.cells t).seqPos = (k.cells t).seqPos) ∧
    k'.head = k.head

theorem Undone.restored_iff {us : List Ubatch} (hk : k.Sound) (h : Trial p k us ts kn)
    (hu : Undone k ts kn k') :
    Restored k k' ↔ (∀ y, Spared y ts) ∧ ∀ t, HeadKept k t ts := by
  constructor
  · rintro ⟨hcells, hhead⟩
    have hspared (y : Nat × Nat) : Spared y ts := by
      rw [← hu.cell, at', (hcells y.1).1]
      rfl
    refine ⟨hspared, fun t => ?_⟩
    rw [← headBack_iff h rfl fun i => hspared (t, i), ← hu.head, hhead]
  · rintro ⟨hspared, hkept⟩
    have hat (y : Nat × Nat) : k'.at' y = k.at' y := (hu.cell y).2 (hspared y)
    refine ⟨fun t => ?_, ?_⟩
    · have hcell : (k'.cells t).cell = (k.cells t).cell := funext fun i => hat (t, i)
      refine ⟨hcell, funext fun s => Tally.ext_count fun q => ?_⟩
      rw [hu.sound.counted, hk.counted]
      exact Cells.held_congr (hu.size t) (fun i _ => by rw [hcell]) s q
    · funext t
      rw [hu.head]
      exact (headBack_iff h rfl fun i => hspared (t, i)).2 (hkept t)

theorem prepare_undone {us : List Ubatch} (hk : k.Sound) (h : prepare p k us = some (k', res)) :
    ∃ ts kn, Trial p k us ts kn ∧ Undone k ts kn k' ∧
      (res ≠ [] → res = ts.map Turn.slot) := by
  obtain ⟨⟨kn, states, success⟩, htrial, h⟩ := Option.bind_eq_some_iff.1 h
  rw [Option.ite_none_left_eq_some] at h
  obtain ⟨_, h⟩ := h
  obtain ⟨K, hK, h⟩ := Option.bind_eq_some_iff.1 h
  cases h
  obtain ⟨ts, ht, hslots, hu⟩ := trial_undone hk htrial hK
  refine ⟨ts, kn, ht, hu, fun hne => ?_⟩
  split
  · exact hslots.symm
  · case isFalse hno => exact (hne (if_neg hno)).elim

end Cache
end ActQuant.KvCache
